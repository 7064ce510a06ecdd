import StyleTrim.Proofs.Token.Settled

/-!
# What is written around runs

Between the runs of a written tree stand names, spaces and single marks. Each is read as one token
in front of any text that does not go on with it.
-/

namespace StyleTrim
namespace Token

open Lexeme

/-!
## Plain names
-/

theorem name_scan_plain {x s : Bytes} (hall : x.all Byte.isName = true) (hstop : EndsName s) :
    Reader.name.scan (x ++ s) = ⟨x, x, s⟩ := by
  induction x with
  | nil => exact Reader.name.scan_none (Reader.name_read_none hstop)
  | cons b x ih =>
      rw [List.all_cons, Bool.and_eq_true] at hall
      rw [List.cons_append, Reader.name.scan_some (Reader.name_read_of_isName _ hall.1), ih hall.2]
      rfl

theorem endsName_nil : EndsName [] :=
  nofun

theorem stands_keyword {name s : Bytes} (hstart : startsName name = true)
    (hall : name.all Byte.isName = true) (hstop : EndsName s) :
    Stands ⟨.atKeyword, name, 0x40 :: name, false⟩ s := by
  have hplain := name_scan_plain hall endsName_nil
  have hname : startsName (name ++ s) = true :=
    startsName_again (by simpa using hstart) hplain s
  apply stands_of_shape (.atKeyword hname (name_scan_plain hall hstop))
  intro hraw
  cases hraw

theorem stands_word {x s : Bytes} (hstart : StartsNamed x) (hall : x.all Byte.isName = true)
    (hcdc : x ≠ [0x2D, 0x2D]) (hstop : EndsName s) (hparen : s.head? ≠ some 0x28) :
    Stands ⟨.ident, x, x, false⟩ s := by
  have hplain := name_scan_plain hall endsName_nil
  have hnamed : StartsNamed (x ++ s) :=
    StartsNamed.again (by simpa using hstart) hplain hstop fun h => absurd h hcdc
  apply stands_of_shape (.ident hnamed (name_scan_plain hall hstop) hparen)
  rintro rfl
  exact absurd hall (by decide)

/-!
## Single marks
-/

theorem stands_delim {b : UInt8} {s : Bytes} (h : Lone b s) (hsolidus : b ≠ 0x2F) :
    Stands (delim b) s := by
  apply stands_of_shape (.delim h)
  intro hraw
  exact absurd (List.cons.inj hraw).1 hsolidus

/-!
## How a written run begins
-/

theorem closedText_head {t : Token} {s : Bytes} (h : Shape t.lexeme s)
    (hspace : t.kind ≠ .whitespace) :
    ∃ b x, t.closedText = b :: x ∧ Byte.isSpace b = false := by
  have hhead := head?_closedText h
  rcases List.exists_cons_of_ne_nil (raw_ne_nil h) with ⟨b, x, hraw⟩
  rw [show t.raw = b :: x from hraw] at hhead
  rcases List.head?_eq_some_iff.mp hhead with ⟨y, hy⟩
  refine ⟨b, y, hy, ?_⟩
  rw [Bool.eq_false_iff]
  intro hb
  exact hspace (shape_of_isSpace h (by rw [hraw]; rfl) hb)

theorem writeAfter_head {place : Place} {space : Bool} {ts : List Token} {s : Bytes}
    (h : Lexed ts) (hs : ∀ b ∈ s.head?, Byte.isSpace b = false) :
    ∀ b ∈ (writeAfter place none space ts ++ s).head?, Byte.isSpace b = false := by
  induction ts generalizing space with
  | nil => exact hs
  | cons t ts ih =>
      cases h with
      | cons hshape hnext hlast hargument htail =>
          by_cases hspace : t.kind = .whitespace
          · rw [writeAfter_space ts hspace]
            exact ih htail
          · cases hsilent : t.isSilent with
            | true =>
                simp only [writeAfter, hsilent, if_true]
                exact ih htail
            | false =>
                rcases hshape with ⟨v, hshape⟩
                rcases closedText_head hshape hspace with ⟨b, x, hx, hb⟩
                rw [writeAfter_token ts hspace hsilent, hx]
                intro c hc
                obtain rfl : b = c := by simpa [jointAfter] using hc
                exact hb

theorem write_head (place : Place) {ts : List Token} {s : Bytes} (h : Lexed ts)
    (hs : ∀ b ∈ s.head?, Byte.isSpace b = false) :
    ∀ b ∈ (write place ts ++ s).head?, Byte.isSpace b = false := by
  rw [write, List.append_assoc]
  apply writeAfter_head h
  cases howed : owed ts with
  | nil => exact hs
  | cons b bs =>
      intro c hc
      obtain rfl : b = c := by simpa using hc
      exact (blunt_of_isCloser (isCloser_of_owed ts b (by simp [howed])) []).2

/-!
## What a run may end before
-/

theorem endsRun_cons {b : UInt8} (hblunt : isBlunt b = true) (hbang : b ≠ 0x21)
    (hspace : Byte.isSpace b = false) (s : Bytes) : EndsRun (b :: s) := by
  refine ⟨.cons hblunt hbang s, ?_⟩
  intro c hc
  obtain rfl : b = c := by simpa using hc
  exact hspace

theorem endsRun_important (s : Bytes) : EndsRun (ascii "!important" ++ s) := by
  refine ⟨⟨?_, rfl⟩, ?_⟩
  · intro c hc
    obtain rfl : 0x21 = c := Option.some.inj hc
    decide
  · intro c hc
    obtain rfl : 0x21 = c := Option.some.inj hc
    decide

/-!
## Nothing turns bad
-/

theorem bad_of_becomes {t u : Token} (h : t.Becomes u.lexeme) (hbad : u.isBad = true) :
    t.isBad = true := by
  have hstring : u.kind ≠ .badString := h.closed.2
  have hurl : u.kind = .badUrl := by
    simpa [isBad, hstring] using hbad
  have hkind := h.kind
  cases hopen : t.isOpen with
  | false =>
      have hsame : u.kind = t.kind := congrArg Lexeme.kind (h.same hopen)
      simp [isBad, ← hsame, hurl]
  | true =>
      rcases Bool.or_eq_true_iff.mp hopen with hopenString | hopenAddress
      · rw [ClosesAs, if_pos hopenString] at hkind
        exact absurd (hurl.symm.trans hkind) (by decide)
      · rw [ClosesAs, if_neg (by simp [isOpenString_of_isOpenAddress hopenAddress]),
          if_pos hopenAddress] at hkind
        rcases hkind with hgood | ⟨_, ht⟩
        · exact absurd (hurl.symm.trans hgood) (by decide)
        · simp [isBad, ht]

theorem kind_of_between {u : Token} {joint : Bytes} {gap : List Token} (h : Between u joint gap) :
    ∀ w ∈ gap, w.kind = .whitespace := by
  cases h with
  | nothing => nofun
  | comment _ => nofun
  | space hw =>
      intro w hmem
      rw [List.mem_singleton.mp hmem]
      exact space_kind hw

theorem bad_of_echoes {place : Place} {last : Option Token} {space : Bool} {ts us : List Token}
    (h : Echoes place last space ts us) (hbad : us.any isBad = true) : ts.any isBad = true := by
  induction h with
  | nil => exact hbad
  | space hspace htail ih =>
      rw [List.any_cons, ih hbad, Bool.or_true]
  | slash hslash htail ih =>
      rw [List.any_cons, ih hbad, Bool.or_true]
  | token hspace hsilent hbetween hu hhead htail ih =>
      rename_i t u gap ts us
      have hgap : gap.any isBad = false := by
        rw [List.any_eq_false]
        intro w hw
        simp [isBad, kind_of_between hbetween w hw]
      rw [List.any_append, hgap, Bool.false_or, List.any_cons, Bool.or_eq_true] at hbad
      rw [List.any_cons, Bool.or_eq_true]
      rcases hbad with hbad | hbad
      · exact Or.inl (bad_of_becomes hu hbad)
      · exact Or.inr (ih hbad)

theorem bad_of_closers {bs : Bytes} {cs : List Token} (h : List.Forall₂ Closes bs cs) :
    cs.any isBad = false := by
  induction h with
  | nil => rfl
  | cons hb _ ih =>
      rename_i b c bs cs _
      have hbad : c.isBad = false := by
        rcases hb with ⟨hcloser, kind, hmark, hlexeme⟩
        have hkind : c.kind = kind := congrArg Lexeme.kind hlexeme
        rcases hcloser with rfl | rfl | rfl <;>
        · cases hmark
          simp [isBad, hkind]
      rw [List.any_cons, hbad, ih]
      rfl

theorem bad_of_settles {place : Place} {ts us : List Token} (h : Settles place ts us)
    (hbad : us.any isBad = true) : ts.any isBad = true := by
  cases h with
  | intro hechoes hclosers =>
      rw [List.any_append, bad_of_closers hclosers, Bool.or_false] at hbad
      exact bad_of_echoes hechoes hbad

end Token
end StyleTrim
