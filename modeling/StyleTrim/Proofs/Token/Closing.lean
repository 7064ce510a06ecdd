import StyleTrim.Proofs.Token.Again
import StyleTrim.Proofs.Token.Layout
import StyleTrim.Token.Written

/-!
# Closing what the text broke off

A string or an address without its end is written with one. A backslash at its very end would hide
the quote or parenthesis put behind it. Whether there is such a backslash is told by the number of
those that end the text, because every piece before the last leaves an even number behind it.
-/

namespace StyleTrim
namespace Token

/-!
## Backslashes at the end
-/

theorem endsInLoneBackslash_concat (x : Bytes) (b : UInt8) :
    endsInLoneBackslash (x ++ [b]) = (b == 0x5C && !endsInLoneBackslash x) := by
  unfold endsInLoneBackslash
  rw [List.reverse_concat, List.takeWhile_cons]
  by_cases hb : b = 0x5C
  · subst hb
    simp only [beq_self_eq_true, if_true, List.length_cons, Bool.true_and]
    generalize (List.takeWhile (· == 0x5C) x.reverse).length = n
    rcases Nat.mod_two_eq_zero_or_one n with hn | hn
    · have hsucc : (n + 1) % 2 = 1 := by omega
      rw [hn, hsucc]
      rfl
    · have hsucc : (n + 1) % 2 = 0 := by omega
      rw [hn, hsucc]
      rfl
  · have hb' : (b == 0x5C) = false := by simpa using hb
    simp [hb']

theorem endsInLoneBackslash_of_ne {x : Bytes} {b : UInt8} (h : b ≠ 0x5C) :
    endsInLoneBackslash (x ++ [b]) = false := by
  have hb : (b == 0x5C) = false := by simpa using h
  rw [endsInLoneBackslash_concat, hb, Bool.false_and]

theorem endsInLoneBackslash_append {x y : Bytes} (hne : y ≠ [])
    (hlast : ∀ b ∈ y.getLast?, b ≠ 0x5C) : endsInLoneBackslash (x ++ y) = false := by
  obtain ⟨y, b, rfl⟩ := List.eq_nil_or_concat y |>.resolve_left hne
  rw [List.concat_eq_append] at hlast ⊢
  rw [← List.append_assoc]
  apply endsInLoneBackslash_of_ne
  exact hlast b (by simp)

theorem endsInLoneBackslash_pair {x : Bytes} {c : UInt8} (h : endsInLoneBackslash x = false) :
    endsInLoneBackslash (x ++ [0x5C, c]) = false := by
  have hsplit : x ++ [0x5C, c] = x ++ [0x5C] ++ [c] := by simp
  rw [hsplit, endsInLoneBackslash_concat, endsInLoneBackslash_concat, h]
  simp

theorem endsInLoneBackslash_escape {x s : Bytes} {p : Piece} (h : endsInLoneBackslash x = false)
    (hread : Escape.read (p.raw ++ s) = some (p, s)) :
    endsInLoneBackslash (x ++ p.raw) = false := by
  rcases Escape.read_cases hread with ⟨c, rfl, _⟩ | ⟨digits, gap, hne, rfl, _, hdigits, hgap⟩
  · exact endsInLoneBackslash_pair h
  · apply endsInLoneBackslash_append (List.cons_ne_nil _ _)
    intro b hb
    have hall := List.all_eq_true.mp (Escape.hexDigits_append_eq.mp hdigits).1
    have hmem : b ∈ digits ∨ b ∈ gap := by
      rw [List.getLast?_cons_of_ne_nil (by simp [hne])] at hb
      exact List.mem_append.mp (List.mem_of_getLast? hb)
    rcases hmem with hmem | hmem
    · rintro rfl
      exact absurd (hall _ hmem) (by decide)
    · rintro rfl
      rcases Escape.terminator_append_eq.mp hgap with ⟨rfl, _⟩ | ⟨c, rfl, hc, _⟩ | rfl
      · cases hmem
      · obtain rfl := List.mem_singleton.mp hmem
        exact absurd hc (by decide)
      · exact absurd hmem (by decide)

/-!
## Strings
-/

theorem endsInLoneBackslash_quoted {q : UInt8} {x s : Bytes} {p : Piece}
    (h : endsInLoneBackslash x = false)
    (hread : (Reader.quoted q).read (p.raw ++ s) = some (p, s)) (halone : p.raw ≠ [0x5C]) :
    endsInLoneBackslash (x ++ p.raw) = false := by
  rcases Reader.quoted_read_cases hread with ⟨_, rfl, _⟩ | ⟨_, rfl⟩ | ⟨_, rfl⟩ |
    ⟨b, _, rfl, _, _, hslash⟩ | ⟨_, hescape, _⟩
  · exact absurd rfl halone
  · exact endsInLoneBackslash_append (List.cons_ne_nil _ _) (by simp)
  · exact endsInLoneBackslash_append (List.cons_ne_nil _ _) (by simp)
  · exact endsInLoneBackslash_of_ne hslash
  · exact endsInLoneBackslash_escape h hescape

theorem endsInLoneBackslash_string {q : UInt8} {x body v s : Bytes} (hne : s ≠ [])
    (h : endsInLoneBackslash x = false)
    (hscan : (Reader.quoted q).scan (body ++ s) = ⟨v, body, s⟩) :
    endsInLoneBackslash (x ++ body) = false := by
  refine (Reader.quoted q).scan_induction
    (P := fun x => endsInLoneBackslash x = false) ?_ h hscan
  intro x p y hx hread
  have halone := Reader.quoted_read_ne_alone (by simp [hne]) hread
  exact endsInLoneBackslash_quoted hx hread halone

theorem sparing_quote {q : UInt8} (h : Byte.isQuote q = true) (s : Bytes) :
    Escape.Sparing (q :: s) := by
  rcases Byte.isQuote_cases h with rfl | rfl <;> exact Escape.Sparing.cons (by decide) (by decide) s

theorem replaces_front {x y s : Bytes} (hpre : x <+: y) (hsparing : Escape.Sparing s) :
    Replaces (x ++ s) y := by
  obtain ⟨t, rfl⟩ := hpre
  cases x with
  | nil => exact Or.inr hsparing
  | cons b x => exact Or.inl rfl

def Closable (R : PieceReader) (q : UInt8) (x body : Bytes) : Prop :=
  ∃ kept w, (if endsInLoneBackslash (x ++ body) then body.dropLast else body) = kept ∧
    (endsInLoneBackslash (x ++ body) = true -> body ≠ []) ∧ kept <+: body ∧
    ∀ s, R.scan (kept ++ q :: s) = ⟨w, kept, q :: s⟩

theorem Closable.nil {R : PieceReader} {q : UInt8} {x : Bytes}
    (h : endsInLoneBackslash x = false) (hstop : ∀ s, R.read (q :: s) = none) :
    Closable R q x [] := by
  refine ⟨[], [], by simp, ?_, List.prefix_refl _, ?_⟩
  · intro hlone
    rw [List.append_nil, h] at hlone
    cases hlone
  · intro s
    exact R.scan_none (hstop s)

theorem Closable.lone {R : PieceReader} {q : UInt8} {x : Bytes}
    (h : endsInLoneBackslash x = false) (hstop : ∀ s, R.read (q :: s) = none) :
    Closable R q x [0x5C] := by
  refine ⟨[], [], ?_, fun _ => List.cons_ne_nil _ _, List.nil_prefix, ?_⟩
  · rw [endsInLoneBackslash_concat, h]
    rfl
  · intro s
    exact R.scan_none (hstop s)

theorem Closable.cons {R : PieceReader} {q : UInt8} {x y : Bytes} {p : Piece}
    (h : Closable R q (x ++ p.raw) y)
    (hread : ∀ kept, kept <+: y ->
      (if endsInLoneBackslash (x ++ p.raw ++ y) then y.dropLast else y) = kept ->
      ∀ s, R.read (p.raw ++ (kept ++ q :: s)) = some (p, kept ++ q :: s)) :
    Closable R q x (p.raw ++ y) := by
  obtain ⟨kept, w, hkept, hne, hpre, hall⟩ := h
  refine ⟨p.raw ++ kept, p.value ++ w, ?_, ?_, ?_, ?_⟩
  · rw [← List.append_assoc, ← hkept]
    split
    · rename_i hlone
      exact List.dropLast_append_of_ne_nil (hne hlone)
    · rfl
  · intro hlone
    rw [← List.append_assoc] at hlone
    simp [hne hlone]
  · exact List.prefix_append_right_inj p.raw |>.mpr hpre
  · intro s
    rw [List.append_assoc, R.scan_some (hread kept hpre hkept s), hall s]

theorem quoted_closable {q : UInt8} {x body v : Bytes} (hquote : Byte.isQuote q = true)
    (h : endsInLoneBackslash x = false)
    (hscan : (Reader.quoted q).scan (body ++ []) = ⟨v, body, []⟩) :
    Closable (Reader.quoted q) q x body := by
  have hstop : ∀ s, (Reader.quoted q).read (q :: s) = none :=
    fun s => Reader.quoted_read_quote s hquote
  induction hn : body.length using Nat.strongRecOn generalizing x body v with
  | ind n ih =>
    rcases (Reader.quoted q).scan_cases hscan with ⟨rfl, _⟩ | ⟨p, y, w, rfl, _, hread, hrest⟩
    · exact .nil h hstop
    · have hpos := List.length_pos_iff.mpr ((Reader.quoted q).raw_ne_nil hread)
      rw [List.append_nil] at hread
      by_cases halone : p.raw = [0x5C]
      · -- the backslash is the last byte of the text
        have hnil : y = [] := by
          apply Classical.byContradiction
          intro hne
          exact Reader.quoted_read_ne_alone hne hread halone
        rw [halone, hnil]
        exact .lone h hstop
      · have hlt : y.length < n := by
          rw [← hn, List.length_append]
          omega
        apply Closable.cons
        · exact ih y.length hlt (endsInLoneBackslash_quoted h hread halone) hrest rfl
        · intro kept hpre _ s
          exact Reader.quoted_read_of_replaces hread halone
            (replaces_front hpre (sparing_quote hquote s))

/-!
## Addresses
-/

theorem endsInLoneBackslash_address {x body v s : Bytes} (h : endsInLoneBackslash x = false)
    (hscan : Reader.address.scan (body ++ s) = ⟨v, body, s⟩) :
    endsInLoneBackslash (x ++ body) = false := by
  refine Reader.address.scan_induction
    (P := fun x => endsInLoneBackslash x = false) ?_ h hscan
  intro x p y hx hread
  rcases Reader.address_read_cases hread with ⟨b, _, rfl, _, hslash⟩ | hescape
  · exact endsInLoneBackslash_of_ne hslash
  · exact endsInLoneBackslash_escape hx hescape

theorem endsInLoneBackslash_gap {x gap : Bytes} (h : endsInLoneBackslash x = false)
    (hgap : gap.all Byte.isSpace = true) : endsInLoneBackslash (x ++ gap) = false := by
  by_cases hne : gap = []
  · subst hne
    simpa using h
  · apply endsInLoneBackslash_append hne
    rintro b hb rfl
    have hspace := List.all_eq_true.mp hgap 0x5C (List.mem_of_getLast? hb)
    exact absurd hspace (by decide)

theorem endsInLoneBackslash_opening {opening s : Bytes}
    (h : Lexeme.AddressOpening opening s) : endsInLoneBackslash opening = false := by
  obtain ⟨⟨x, word, gap, rfl, _, hgap, _⟩, _⟩ := h
  have hparen : endsInLoneBackslash (x ++ [0x28]) = false := endsInLoneBackslash_of_ne (by decide)
  simpa using endsInLoneBackslash_gap hparen hgap

theorem endsInLoneBackslash_opened {opening body v gap s t : Bytes}
    (hopening : Lexeme.AddressOpening opening t)
    (hscan : Reader.address.scan (body ++ s) = ⟨v, body, s⟩) (hgap : gap.all Byte.isSpace = true) :
    endsInLoneBackslash (opening ++ (body ++ gap)) = false := by
  rw [← List.append_assoc]
  exact endsInLoneBackslash_gap
    (endsInLoneBackslash_address (endsInLoneBackslash_opening hopening) hscan) hgap

theorem sparing_paren (s : Bytes) : Escape.Sparing (0x29 :: s) :=
  Escape.Sparing.cons (by decide) (by decide) s

theorem remnant_closable {x tail v : Bytes}
    (h : endsInLoneBackslash x = false ∨ tail.head? = some 0x0A)
    (hscan : Reader.remnant.scan (tail ++ []) = ⟨v, tail, []⟩) :
    Closable Reader.remnant 0x29 x tail := by
  have hstop : ∀ s, Reader.remnant.read (0x29 :: s) = none := fun s => rfl
  induction hn : tail.length using Nat.strongRecOn generalizing x tail v with
  | ind n ih =>
    rcases Reader.remnant.scan_cases hscan with ⟨rfl, _⟩ | ⟨p, y, w, rfl, _, hread, hrest⟩
    · exact .nil (h.resolve_right nofun) hstop
    · have hpos := List.length_pos_iff.mpr (Reader.remnant.raw_ne_nil hread)
      have hlt : y.length < n := by
        rw [← hn, List.length_append]
        omega
      rw [List.append_nil] at hread
      rcases Reader.remnant_read_cases hread with ⟨c, _, rfl, hline⟩ | ⟨_, rfl, hnil | hline⟩ |
        ⟨b, _, rfl, hslash, hparen⟩
      · have hx : endsInLoneBackslash x = false := h.resolve_right nofun
        apply Closable.cons
        · exact ih y.length hlt (Or.inl (endsInLoneBackslash_pair hx)) hrest rfl
        · intro kept _ _ s
          exact Reader.remnant_read_pair _ hline
      · subst hnil
        exact .lone (h.resolve_right nofun) hstop
      · apply Closable.cons
        · exact ih y.length hlt (Or.inr hline) hrest rfl
        · intro kept _ hkept s
          obtain ⟨z, rfl⟩ := List.head?_eq_some_iff.mp hline
          obtain ⟨t, rfl⟩ : ∃ t, kept = 0x0A :: t := by
            cases z with
            | nil =>
                rw [endsInLoneBackslash_of_ne (by decide)] at hkept
                exact ⟨[], hkept.symm⟩
            | cons d z =>
                split at hkept
                · exact ⟨_, hkept.symm⟩
                · exact ⟨_, hkept.symm⟩
          rfl
      · apply Closable.cons
        · exact ih y.length hlt (Or.inl (endsInLoneBackslash_of_ne hslash)) hrest rfl
        · intro kept _ _ s
          exact Reader.remnant_read_plain _ hslash hparen

/-!
## Tokens
-/

def ClosesAs (t : Token) (kind : TokenKind) : Prop :=
  if t.isOpenString then kind = .string
  else if t.isOpenAddress then kind = .url ∨ (kind = .badUrl ∧ t.kind = .badUrl)
  else kind = t.kind

open Lexeme

theorem closedText_of_openString {t : Token} (h : t.isOpenString = true) :
    t.closedText =
      (if endsInLoneBackslash t.raw then t.raw.dropLast else t.raw) ++
        (if endsInLoneBackslash t.raw then t.raw.dropLast else t.raw).take 1 := by
  simp [closedText, h]

theorem closedText_of_openAddress {t : Token} (h : t.isOpenAddress = true) :
    t.closedText = (if endsInLoneBackslash t.raw then t.raw.dropLast else t.raw) ++ [0x29] := by
  have hstring : t.isOpenString = false := by
    rw [Bool.eq_false_iff]
    intro hstring
    simp [isOpenAddress] at h
    simp [isOpenString, h.2] at hstring
    rcases h.1 with hkind | hkind <;> simp [hkind] at hstring
  simp [closedText, h, hstring]

theorem closedText_of_closed {t : Token} (hstring : t.isOpenString = false)
    (haddress : t.isOpenAddress = false) : t.closedText = t.raw := by
  simp [closedText, hstring, haddress]

theorem kept_behind {x body kept : Bytes}
    (hkept : (if endsInLoneBackslash (x ++ body) then body.dropLast else body) = kept)
    (hne : endsInLoneBackslash (x ++ body) = true -> body ≠ []) :
    (if endsInLoneBackslash (x ++ body) then (x ++ body).dropLast else x ++ body) =
      x ++ kept := by
  split at hkept
  · rename_i hlone
    rw [if_pos hlone, List.dropLast_append_of_ne_nil (hne hlone), hkept]
  · rename_i hlone
    rw [if_neg hlone, hkept]

theorem endsInLoneBackslash_quote {q : UInt8} (h : Byte.isQuote q = true) :
    endsInLoneBackslash [q] = false := by
  rcases Byte.isQuote_cases h with rfl | rfl <;> rfl

theorem closed_shape_string {q : UInt8} {x : Bytes} {t : Token} (ht : t.isOpenString = true)
    (hraw : t.raw = q :: x) (hquote : Byte.isQuote q = true)
    (hclose : Closable (Reader.quoted q) q [q] x) :
    ∃ v, ∀ s, Shape ⟨.string, v, t.closedText, false⟩ s := by
  obtain ⟨kept, w, hkept, hne, _, hall⟩ := hclose
  have htext : t.closedText = q :: (kept ++ [q]) := by
    have hbehind := kept_behind hkept hne
    rw [closedText_of_openString ht, hraw]
    change (if endsInLoneBackslash ([q] ++ x) then ([q] ++ x).dropLast else [q] ++ x) ++
      (if endsInLoneBackslash ([q] ++ x) then ([q] ++ x).dropLast else [q] ++ x).take 1 = _
    rw [hbehind]
    rfl
  refine ⟨w, fun s => ?_⟩
  rw [htext]
  exact .string hquote (hall s)

theorem closable_of_badString {q : UInt8} {body v s : Bytes} (hquote : Byte.isQuote q = true)
    (hscan : (Reader.quoted q).scan (body ++ 0x0A :: s) = ⟨v, body, 0x0A :: s⟩) :
    Closable (Reader.quoted q) q [q] body := by
  have hlone := endsInLoneBackslash_string (List.cons_ne_nil _ _)
    (endsInLoneBackslash_quote hquote) hscan
  refine ⟨body, v, by rw [hlone]; rfl, ?_, List.prefix_refl _, fun t => ?_⟩
  · intro h
    rw [hlone] at h
    cases h
  · have hkeeps : (Reader.quoted q).Keeps (0x0A :: s) (q :: t) :=
      Reader.quoted_keeps (List.cons_ne_nil _ _) (Or.inr (sparing_quote hquote t))
    exact (Reader.quoted q).scan_of_keeps hkeeps (Reader.quoted_read_quote t hquote) hscan

theorem closed_shape_url {opening body v gap : Bytes}
    (hopen : AddressOpening opening (body ++ gap))
    (hscan : Reader.address.scan (body ++ gap) = ⟨v, body, gap⟩)
    (hgap : gap.all Byte.isSpace = true) (s : Bytes) :
    Shape ⟨.url, v, opening ++ (body ++ gap) ++ [0x29], false⟩ s := by
  have hkeeps : Reader.address.Keeps gap (gap ++ 0x29 :: s) :=
    Reader.address_keeps (replaces_front (List.prefix_refl _) (sparing_paren s))
  have hopen' : AddressOpening opening (body ++ (gap ++ 0x29 :: s)) := by
    apply hopen.again
    rw [← List.append_assoc]
    cases hfront : body ++ gap with
    | nil =>
        right
        intro b hb
        obtain rfl : 0x29 = b := by simpa using hb
        decide
    | cons b t => exact Or.inl rfl
  simpa using Shape.url hopen'
    (Reader.address.scan_of_keeps hkeeps (address_read_gap hgap s) hscan) hgap

theorem ne_backslash_of_remnant {kept w : Bytes}
    (h : Reader.remnant.scan (kept ++ [0x29]) = ⟨w, kept, [0x29]⟩) : kept ≠ [0x5C] := by
  rintro rfl
  have hread : Reader.remnant.read ([0x5C] ++ [0x29]) = some (⟨[0x5C, 0x29], [0x29]⟩, []) := rfl
  rw [Reader.remnant.scan_some hread] at h
  simp at h

theorem address_read_kept {gap tail kept : Bytes} (hgap : gap.all Byte.isSpace = true)
    (hne : kept ≠ []) (hpre : kept <+: tail) (halone : kept ≠ [0x5C])
    (h : Reader.address.read (gap ++ tail) = none) (s : Bytes) :
    Reader.address.read (gap ++ (kept ++ 0x29 :: s)) = none := by
  obtain ⟨cut, rfl⟩ := hpre
  cases gap with
  | cons b gap =>
      rw [List.all_cons, Bool.and_eq_true] at hgap
      exact Reader.address_read_none _ (by simp [Reader.endsAddress, hgap.1])
  | nil =>
      obtain ⟨b, k, rfl⟩ := List.exists_cons_of_ne_nil hne
      by_cases hend : Reader.endsAddress b = true
      · exact Reader.address_read_none _ hend
      · cases k with
        | cons c k => exact Reader.address_read_none_front h _
        | nil =>
            have hslash : b ≠ 0x5C := by
              rintro rfl
              exact halone rfl
            have hsome := Reader.address_read_plain cut (by simpa using hend) hslash
            rw [List.nil_append, List.cons_append, List.nil_append, hsome] at h
            cases h

theorem closed_shape_badUrl {opening body v gap tail kept w : Bytes}
    (hopen : AddressOpening opening (body ++ (gap ++ tail)))
    (hscan : Reader.address.scan (body ++ (gap ++ tail)) = ⟨v, body, gap ++ tail⟩)
    (hgap : gap.all Byte.isSpace = true)
    (hstop : ∀ b ∈ tail.head?, Byte.isSpace b = false ∧ b ≠ 0x29) (hpre : kept <+: tail)
    (hkept : ∀ s, Reader.remnant.scan (kept ++ 0x29 :: s) = ⟨w, kept, 0x29 :: s⟩) :
    ∃ kind, (kind = .url ∨ kind = .badUrl) ∧ ∀ s,
      Shape ⟨kind, v, opening ++ (body ++ (gap ++ kept)) ++ [0x29], false⟩ s := by
  have hread := Reader.address.read_scan_rest (body ++ (gap ++ tail))
  rw [hscan] at hread
  have hrep : ∀ s, Replaces (gap ++ (kept ++ 0x29 :: s)) (gap ++ tail) := by
    intro s
    rw [← List.append_assoc]
    exact replaces_front (List.prefix_append_right_inj gap |>.mpr hpre) (sparing_paren s)
  have hopen' : ∀ s, AddressOpening opening (body ++ (gap ++ (kept ++ 0x29 :: s))) := by
    intro s
    apply hopen.again
    rcases (hrep s).append body with hsame | _
    · exact Or.inl hsame
    · obtain ⟨cut, rfl⟩ := hpre
      cases hfront : body ++ (gap ++ kept) with
      | nil =>
          right
          obtain ⟨rfl, rfl, rfl⟩ : body = [] ∧ gap = [] ∧ kept = [] := by simpa using hfront
          intro b hb
          obtain rfl : 0x29 = b := by simpa using hb
          decide
      | cons b t =>
          left
          have hsplit : ∀ u, body ++ (gap ++ (kept ++ u)) = b :: (t ++ u) := by
            intro u
            calc body ++ (gap ++ (kept ++ u)) = body ++ (gap ++ kept) ++ u := by simp
              _ = b :: (t ++ u) := by rw [hfront]; rfl
          rw [hsplit, hsplit]
          rfl
  have hscan' : ∀ s, Reader.address.read (gap ++ (kept ++ 0x29 :: s)) = none ->
      Reader.address.scan (body ++ (gap ++ (kept ++ 0x29 :: s))) =
        ⟨v, body, gap ++ (kept ++ 0x29 :: s)⟩ := by
    intro s hnone
    have hkeeps : Reader.address.Keeps (gap ++ tail) (gap ++ (kept ++ 0x29 :: s)) :=
      Reader.address_keeps (hrep s)
    exact Reader.address.scan_of_keeps hkeeps hnone hscan
  by_cases hne : kept = []
  · subst hne
    refine ⟨.url, Or.inl rfl, fun s => ?_⟩
    simpa using Shape.url (hopen' s) (hscan' s (address_read_gap hgap s)) hgap
  · refine ⟨.badUrl, Or.inr rfl, fun s => ?_⟩
    have halone := ne_backslash_of_remnant (hkept [])
    have hstop' : ∀ b ∈ kept.head?, Byte.isSpace b = false ∧ b ≠ 0x29 := by
      obtain ⟨cut, rfl⟩ := hpre
      obtain ⟨b, k, rfl⟩ := List.exists_cons_of_ne_nil hne
      exact hstop
    simpa using Shape.badUrl (hopen' s)
      (hscan' s (address_read_kept hgap hne hpre halone hread s)) hgap hne hstop' (hkept s)

theorem isOpenString_of_isOpenAddress {t : Token} (h : t.isOpenAddress = true) :
    t.isOpenString = false := by
  simp only [isOpenAddress, Bool.and_eq_true, Bool.or_eq_true, beq_iff_eq] at h
  rcases h.1 with hkind | hkind <;> simp [isOpenString, hkind]

theorem closesAs_string {t : Token} (h : t.isOpenString = true) : t.ClosesAs .string := by
  simp [ClosesAs, h]

theorem closesAs_address {t : Token} {kind : TokenKind} (h : t.isOpenAddress = true)
    (hkind : kind = .url ∨ (kind = .badUrl ∧ t.kind = .badUrl)) : t.ClosesAs kind := by
  simp [ClosesAs, isOpenString_of_isOpenAddress h, h, hkind]

theorem closed_shape {t : Token} {s : Bytes} (h : Shape t.lexeme s)
    (hopen : t.isOpenString = true ∨ t.isOpenAddress = true) :
    ∃ l : Lexeme, l.raw = t.closedText ∧ l.IsClosed ∧ t.ClosesAs l.kind ∧ ∀ s', Shape l s' := by
  obtain ⟨kind, value, raw, offset, afterComment, unterminated⟩ := t
  change Shape ⟨kind, value, raw, unterminated⟩ s at h
  cases h with
  | openString hquote hscan =>
      rename_i q body
      have hclose := quoted_closable hquote (endsInLoneBackslash_quote hquote)
        (by rw [List.append_nil]; exact hscan)
      obtain ⟨v, hall⟩ := closed_shape_string (t := ⟨.string, value, q :: body, offset,
        afterComment, true⟩) rfl rfl hquote hclose
      exact ⟨⟨.string, v, _, false⟩, rfl, ⟨rfl, nofun⟩, closesAs_string rfl, hall⟩
  | badString hquote hscan =>
      rename_i q body s
      obtain ⟨v, hall⟩ := closed_shape_string (t := ⟨.badString, value, q :: body, offset,
        afterComment, false⟩) rfl rfl hquote (closable_of_badString hquote hscan)
      exact ⟨⟨.string, v, _, false⟩, rfl, ⟨rfl, nofun⟩, closesAs_string rfl, hall⟩
  | openUrl hopening hscan hgap =>
      rename_i opening body gap
      have htext : closedText ⟨.url, value, opening ++ (body ++ gap), offset, afterComment,
          true⟩ = opening ++ (body ++ gap) ++ [0x29] := by
        rw [closedText_of_openAddress rfl]
        rw [endsInLoneBackslash_opened hopening hscan hgap]
        rfl
      exact ⟨⟨.url, value, _, false⟩, htext.symm, ⟨rfl, nofun⟩,
        closesAs_address rfl (Or.inl rfl), closed_shape_url hopening hscan hgap⟩
  | openBadUrl hopening hscan hgap hne hstop htail =>
      rename_i opening body gap tail w
      have hlone := endsInLoneBackslash_opened hopening hscan hgap
      have hclose : Closable Reader.remnant 0x29 (opening ++ (body ++ gap)) tail :=
        remnant_closable (Or.inl hlone) (by rw [List.append_nil]; exact htail)
      obtain ⟨kept, w', hkept, hlast, hpre, hall⟩ := hclose
      have htext : closedText ⟨.badUrl, value, opening ++ (body ++ (gap ++ tail)), offset,
          afterComment, true⟩ = opening ++ (body ++ (gap ++ kept)) ++ [0x29] := by
        have hassoc : ∀ y, opening ++ (body ++ (gap ++ y)) = opening ++ (body ++ gap) ++ y := by
          simp
        rw [closedText_of_openAddress rfl]
        dsimp only
        rw [hassoc, hassoc, kept_behind hkept hlast]
      obtain ⟨kind, hkind, hshape⟩ :=
        closed_shape_badUrl hopening hscan hgap hstop hpre hall
      refine ⟨⟨kind, value, _, false⟩, htext.symm, ⟨rfl, ?_⟩,
        closesAs_address rfl (hkind.imp_right fun hbad => ⟨hbad, rfl⟩), hshape⟩
      rcases hkind with rfl | rfl <;> nofun
  | punctuation hmark =>
      rcases punctuation?_cases hmark with rfl | rfl | rfl | rfl | rfl | rfl | rfl | rfl | rfl <;>
      · cases hmark
        simp [isOpenString, isOpenAddress] at hopen
  | _ => simp [isOpenString, isOpenAddress] at hopen

/-- The token lacks its end. -/
def isOpen (t : Token) : Bool :=
  t.isOpenString || t.isOpenAddress

/-- The lexeme is what the token becomes when it is written. -/
structure Becomes (t : Token) (l : Lexeme) : Prop where
  raw : l.raw = t.closedText
  closed : l.IsClosed
  kind : t.ClosesAs l.kind
  same : t.isOpen = false -> l = t.lexeme
  alone : t.isOpen = true -> ∀ s, Shape l s

theorem becomes_of_shape {t : Token} {s : Bytes} (h : Shape t.lexeme s) :
    ∃ l, t.Becomes l := by
  by_cases hopen : t.isOpen = true
  · rcases closed_shape h (Bool.or_eq_true_iff.mp hopen) with ⟨l, hraw, hclosed, hkind, hall⟩
    refine ⟨l, hraw, hclosed, hkind, ?_, fun _ => hall⟩
    intro hshut
    rw [hopen] at hshut
    cases hshut
  · have hshut : t.isOpen = false := by simpa using hopen
    rcases Bool.or_eq_false_iff.mp hshut with ⟨hstring, haddress⟩
    refine ⟨t.lexeme, ?_, ?_, ?_, fun _ => rfl, fun htrue => absurd htrue hopen⟩
    · exact (closedText_of_closed hstring haddress).symm
    · constructor
      · cases h' : t.unterminated with
        | false => exact h'
        | true =>
            rcases t with ⟨kind, value, raw, offset, afterComment, unterminated⟩
            simp only at h'
            subst h'
            cases h <;> simp [isOpenString, isOpenAddress] at hstring haddress
      · intro hkind
        simp only [lexeme] at hkind
        simp [isOpenString, hkind] at hstring
    · simp [ClosesAs, hstring, haddress, lexeme]

theorem paren_mem_of_opening {opening s : Bytes} (h : AddressOpening opening s) :
    0x28 ∈ opening := by
  rcases h.parts with ⟨x, word, gap, rfl, _⟩
  simp

theorem raw_ne_backslash {t : Token} {s : Bytes} (h : Shape t.lexeme s)
    (hopen : t.isOpen = true) : t.raw ≠ [0x5C] := by
  intro hraw
  rcases t with ⟨kind, value, raw, offset, afterComment, unterminated⟩
  simp only [lexeme] at h hraw
  cases h with
  | openString hquote hscan =>
      rcases List.cons.inj hraw with ⟨rfl, _⟩
      exact absurd hquote (by decide)
  | badString hquote hscan =>
      rcases List.cons.inj hraw with ⟨rfl, _⟩
      exact absurd hquote (by decide)
  | openUrl hopening hscan hgap =>
      rename_i opening body gap
      have hmem := List.mem_append_left (body ++ gap) (paren_mem_of_opening hopening)
      rw [hraw] at hmem
      exact absurd hmem (by decide)
  | openBadUrl hopening hscan hgap hne hstop htail =>
      rename_i opening body gap tail w
      have hmem := List.mem_append_left (body ++ (gap ++ tail)) (paren_mem_of_opening hopening)
      rw [hraw] at hmem
      exact absurd hmem (by decide)
  | punctuation hmark =>
      rcases punctuation?_cases hmark with rfl | rfl | rfl | rfl | rfl | rfl | rfl | rfl | rfl <;>
      · cases hmark
        simp [isOpen, isOpenString, isOpenAddress] at hopen
  | _ => simp [isOpen, isOpenString, isOpenAddress] at hopen

theorem head?_closedText {t : Token} {s : Bytes} (h : Shape t.lexeme s) :
    t.closedText.head? = t.raw.head? := by
  by_cases hopen : t.isOpen = true
  · have hkeep : (if endsInLoneBackslash t.raw then t.raw.dropLast else t.raw).head? =
        t.raw.head? ∧ (if endsInLoneBackslash t.raw then t.raw.dropLast else t.raw) ≠ [] := by
      split
      · rename_i hlone
        match hraw : t.raw with
        | [] => exact absurd hraw (raw_ne_nil h)
        | [b] =>
            have hne := raw_ne_backslash h hopen
            have hb : b ≠ 0x5C := fun hb => hne (by rw [hraw, hb])
            rw [hraw, show [b] = [] ++ [b] from rfl, endsInLoneBackslash_of_ne hb] at hlone
            cases hlone
        | b :: c :: x => exact ⟨rfl, List.cons_ne_nil _ _⟩
      · exact ⟨rfl, raw_ne_nil h⟩
    rw [isOpen] at hopen
    rw [closedText, if_pos hopen]
    dsimp only
    generalize (if endsInLoneBackslash t.raw then t.raw.dropLast else t.raw) = text at hkeep
    rcases List.exists_cons_of_ne_nil hkeep.2 with ⟨b, x, rfl⟩
    exact hkeep.1
  · rw [isOpen] at hopen
    rw [closedText, if_neg hopen]

end Token
end StyleTrim
