import StyleTrim.Proofs.Token.Enclosed

/-!
# Tokens without escapes

A piece stands for other bytes than its own only if there is a backslash in it. So the text of a
token that holds none is its value and the marks around it. Where the token stands is told by what
comes before it: the text up to the token ahead of it, and the comments in between.
-/

namespace StyleTrim

namespace PieceReader

def Literal (R : PieceReader) : Prop :=
  ∀ s p rest, R.read s = some (p, rest) -> 0x5C ∉ p.raw -> p.value = p.raw

theorem Literal.scan {R : PieceReader} (hR : R.Literal) {x v s : Bytes}
    (h : R.scan (x ++ s) = ⟨v, x, s⟩) (hslash : 0x5C ∉ x) : v = x := by
  induction hn : x.length using Nat.strongRecOn generalizing x v with
  | ind n ih =>
    rcases R.scan_cases h with ⟨rfl, rfl, _⟩ | ⟨p, y, w, rfl, rfl, hread, hscan⟩
    · rfl
    · rw [List.mem_append, not_or] at hslash
      have hpos := List.length_pos_iff.mpr (R.raw_ne_nil hread)
      have hlt : y.length < n := by
        rw [← hn, List.length_append]
        omega
      rw [hR _ p _ hread hslash.1, ih y.length hlt hscan hslash.2 rfl]

end PieceReader

namespace Reader

theorem slash_of_escape {s rest : Bytes} {p : Piece} (h : Escape.read s = some (p, rest)) :
    0x5C ∈ p.raw := by
  rcases escape_read_front h with ⟨t, rfl⟩
  have happ := Escape.read_raw_append h
  rcases List.exists_cons_of_ne_nil (Escape.read_raw_ne_nil h) with ⟨b, x, hraw⟩
  rw [hraw] at happ ⊢
  rw [(List.cons.inj happ).1]
  exact List.mem_cons_self

theorem literal_name : name.Literal := by
  intro s p rest h hslash
  rcases name_read_cases h with ⟨b, rfl, _, _⟩ | hescape
  · rfl
  · exact absurd (slash_of_escape hescape) hslash

theorem literal_address : address.Literal := by
  intro s p rest h hslash
  rcases address_read_cases h with ⟨b, _, rfl, _, _⟩ | hescape
  · rfl
  · exact absurd (slash_of_escape hescape) hslash

theorem literal_quoted (quote : UInt8) : (quoted quote).Literal := by
  intro s p rest h hslash
  rcases quoted_read_cases h with
    ⟨_, rfl, _⟩ | ⟨_, rfl⟩ | ⟨_, rfl⟩ | ⟨b, _, rfl, _⟩ | ⟨_, hescape, _⟩
  · exact absurd List.mem_cons_self hslash
  · exact absurd List.mem_cons_self hslash
  · exact absurd List.mem_cons_self hslash
  · rfl
  · exact absurd (slash_of_escape hescape) hslash

end Reader

namespace Lexeme

variable {l : Lexeme} {s : Bytes}

/-!
## What the text of a token is
-/

theorem raw_of_ident (h : Shape l s) (hkind : l.kind = .ident) (hslash : 0x5C ∉ l.raw) :
    l.raw = l.value := by
  cases h with
  | ident hstart hscan hparen => exact (Reader.literal_name.scan hscan hslash).symm
  | punctuation hmark => exact absurd hkind (ne_of_punctuation hmark rfl)
  | _ => cases hkind

theorem raw_of_function (h : Shape l s) (hkind : l.kind = .function) (hslash : 0x5C ∉ l.raw) :
    l.raw = l.value ++ [0x28] := by
  cases h with
  | function hstart hscan hargument =>
      rw [List.mem_append, not_or] at hslash
      rw [Reader.literal_name.scan hscan hslash.1]
  | punctuation hmark => exact absurd hkind (ne_of_punctuation hmark rfl)
  | _ => cases hkind

theorem raw_of_atKeyword (h : Shape l s) (hkind : l.kind = .atKeyword) (hslash : 0x5C ∉ l.raw) :
    l.raw = 0x40 :: l.value := by
  cases h with
  | atKeyword hstart hscan =>
      rw [List.mem_cons, not_or] at hslash
      rw [Reader.literal_name.scan hscan hslash.2]
  | punctuation hmark => exact absurd hkind (ne_of_punctuation hmark rfl)
  | _ => cases hkind

theorem raw_of_string (h : Shape l s) (hkind : l.kind = .string) (hslash : 0x5C ∉ l.raw) :
    ∃ q x, Byte.isQuote q = true ∧ l.raw = q :: (l.value ++ x) := by
  cases h with
  | string hquote hscan =>
      rename_i q body v
      rw [List.mem_cons, List.mem_append, not_or, not_or] at hslash
      have hvalue := (Reader.literal_quoted q).scan hscan hslash.2.1
      exact ⟨q, [q], hquote, by rw [hvalue]⟩
  | openString hquote hscan =>
      rename_i q body v
      rw [List.mem_cons, not_or] at hslash
      have hscan' : (Reader.quoted q).scan (body ++ []) = ⟨v, body, []⟩ := by
        rwa [List.append_nil]
      have hvalue := (Reader.literal_quoted q).scan hscan' hslash.2
      exact ⟨q, [], hquote, by rw [hvalue, List.append_nil]⟩
  | punctuation hmark => exact absurd hkind (ne_of_punctuation hmark rfl)
  | _ => cases hkind

theorem raw_of_opening {opening s : Bytes} (h : AddressOpening opening s)
    (hslash : 0x5C ∉ opening) :
    ∃ word gap, opening = word ++ 0x28 :: gap ∧ sameWord word (ascii "url") = true ∧
      gap.all Byte.isSpace = true := by
  rcases h.parts with ⟨x, word, gap, rfl, hword, hgap, _, hscan⟩
  rw [List.mem_append, not_or] at hslash
  obtain rfl := Reader.literal_name.scan hscan hslash.1
  exact ⟨word, gap, rfl, hword, hgap⟩

theorem raw_of_url (h : Shape l s) (hkind : l.kind = .url) (hslash : 0x5C ∉ l.raw) :
    ∃ word gap x, l.raw = word ++ 0x28 :: (gap ++ (l.value ++ x)) ∧
      sameWord word (ascii "url") = true ∧ gap.all Byte.isSpace = true := by
  have hsplit : ∃ opening body v gap x, l.raw = opening ++ (body ++ x) ∧ l.value = v ∧
      AddressOpening opening (body ++ gap) ∧
      Reader.address.scan (body ++ gap) = ⟨v, body, gap⟩ := by
    cases h with
    | url hopen hscan hgap => exact ⟨_, _, _, _, _, rfl, rfl, hopen, hscan⟩
    | openUrl hopen hscan hgap => exact ⟨_, _, _, _, _, rfl, rfl, hopen, hscan⟩
    | punctuation hmark => exact absurd hkind (ne_of_punctuation hmark rfl)
    | _ => cases hkind
  rcases hsplit with ⟨opening, body, v, rest, x, hraw, rfl, hopen, hscan⟩
  rw [hraw, List.mem_append, List.mem_append, not_or, not_or] at hslash
  rcases raw_of_opening hopen hslash.1 with ⟨word, gap, rfl, hword, hgap⟩
  rw [Reader.literal_address.scan hscan hslash.2.1]
  exact ⟨word, gap, x, by rw [hraw]; simp, hword, hgap⟩

end Lexeme

namespace Token

open Lexeme

/-!
## Where a token stands
-/

/-- The token `t` stands in the text between the tokens `before`, last one first, and `after`. The
text up to the token ahead is `front`, and behind it are the comments `gap`. -/
structure Located (s : Bytes) (before : List Token) (t : Token) (after : List Token)
    (front gap rest : Bytes) : Prop where
  text : s = front ++ (gap ++ (t.raw ++ rest))
  place : t.offset = front.length + gap.length
  comments : Gap gap (t.raw ++ rest)
  shape : Shape t.lexeme rest
  laid : Laid t.stop rest after
  first : before = [] -> front = []
  ahead : ∀ p ∈ before.head?, p.stop = front.length ∧ (∃ x, front = x ++ p.raw) ∧
    Shape p.lexeme (gap ++ (t.raw ++ rest))

variable {s front : Bytes} {before after : List Token} {t : Token}

theorem located_of_laid (front : Bytes) (before : List Token) {xs : List Token}
    (h : Laid front.length s (xs ++ t :: after)) (hend : t.kind ≠ .endOfText)
    (hfirst : before = [] -> front = [])
    (hahead : ∀ p ∈ before.head?, p.stop = front.length ∧ (∃ x, front = x ++ p.raw) ∧
      Shape p.lexeme s) :
    ∃ front' gap rest, Located (front ++ s) (xs.reverse ++ before) t after front' gap rest := by
  induction xs generalizing front s before with
  | nil =>
      generalize hts : [] ++ t :: after = ts at h
      cases h with
      | ending hgap =>
          rw [(List.cons.inj hts).1] at hend
          exact absurd rfl hend
      | token hgap hshape htail =>
          rename_i gap s l ts
          rcases List.cons.inj hts with ⟨rfl, rfl⟩
          exact ⟨front, gap, s, rfl, rfl, hgap, hshape, htail, hfirst, hahead⟩
  | cons x xs ih =>
      generalize hts : x :: xs ++ t :: after = ts at h
      cases h with
      | ending hgap =>
          have hnil := (List.cons.inj hts).2
          simp at hnil
      | token hgap hshape htail =>
          rename_i gap s l ts
          rcases List.cons.inj hts with ⟨rfl, rfl⟩
          have hlength : (front ++ (gap ++ l.raw)).length =
              front.length + gap.length + l.raw.length := by
            simp [Nat.add_assoc]
          rw [← hlength] at htail
          have hnext := ih _ (ofLexeme l (front.length + gap.length) (!gap.isEmpty) :: before)
            htail (by simp) (by
              intro p hp
              cases hp
              exact ⟨hlength.symm, ⟨front ++ gap, by simp [ofLexeme]⟩, hshape⟩)
          simpa using hnext

theorem located_of_tokenize (h : tokenize s = before.reverse ++ t :: after)
    (hend : t.kind ≠ .endOfText) : ∃ front gap rest, Located s before t after front gap rest := by
  have hlaid := laid_tokenize s
  rw [h] at hlaid
  have hlocated := located_of_laid [] [] hlaid hend (fun _ => rfl) (by simp)
  simpa using hlocated

end Token
end StyleTrim
