import StyleTrim.Proofs.Token.Shape

/-!
# Reading a lexeme again

A lexeme that was read once is read again in front of another text, if that text does not go on
with it. What would go on with it depends on its kind alone. A name minds the byte behind it, a
numeral the number that may follow, a delimiter what it could begin; most lexemes mind nothing.
-/

namespace StyleTrim
namespace Lexeme

def EndsName (s : Bytes) : Prop :=
  ∀ b ∈ s.head?, Byte.isName b = false ∧ b ≠ 0x5C

/-- A name that was read before `s` is read before `s'`. -/
structure NameEnds (s' s : Bytes) : Prop where
  stop : EndsName s'
  same : Replaces s' s

theorem NameEnds.scan {x v s s' : Bytes} (h : NameEnds s' s)
    (hscan : Reader.name.scan (x ++ s) = ⟨v, x, s⟩) :
    Reader.name.scan (x ++ s') = ⟨v, x, s'⟩ :=
  Reader.name.scan_of_keeps (Reader.name_keeps h.same) (Reader.name_read_none h.stop) hscan

/-!
## Names
-/

theorem name_read_of_startsName {s : Bytes} (h : startsName s = true) :
    (Reader.name.read s).isSome = true := by
  obtain ⟨b, t, rfl, hstart | ⟨rfl, hescape⟩ | ⟨rfl, _⟩⟩ := startsName_cases h
  · exact name_read_of_isName t (Byte.isName_of_isNameStart hstart)
  · exact name_read_of_escape hescape
  · exact name_read_of_isName t (by decide)

theorem ne_nil_of_scan {x v s : Bytes} (hscan : Reader.name.scan (x ++ s) = ⟨v, x, s⟩)
    (hread : (Reader.name.read (x ++ s)).isSome = true) : x ≠ [] := by
  have hne := Reader.name_scan_raw_ne_nil hread
  rw [hscan] at hne
  exact hne

theorem startsName_hyphen_name {c : UInt8} (hc : Byte.isName c = true) (s : Bytes) :
    startsName (0x2D :: c :: s) = (c == 0x2D || Byte.isNameStart c) := by
  have hslash : c ≠ 0x5C := by
    rintro rfl
    exact absurd hc (by decide)
  rw [startsName_hyphen, Escape.startsHere_cons_of_ne hslash, Bool.or_false]
  rfl

theorem startsName_of_escape {s : Bytes} (h : Escape.startsHere s = true) :
    startsName s = true ∧ startsName (0x2D :: s) = true := by
  constructor
  · unfold Escape.startsHere at h
    split at h
    · rw [startsName_backslash]
      exact h
    · cases h
  · simp [startsName_hyphen, h]

theorem startsName_hyphen_none {s : Bytes} (h : Reader.name.read s = none) :
    startsName (0x2D :: s) = false := by
  rw [Bool.eq_false_iff]
  intro hstart
  have hsome : (Reader.name.read s).isSome = true := by
    rw [startsName_hyphen] at hstart
    rcases Bool.or_eq_true_iff.mp hstart with hplain | hescape
    · cases s with
      | nil => cases hplain
      | cons c s =>
          apply name_read_of_isName
          rcases Bool.or_eq_true_iff.mp hplain with hhyphen | hbegin
          · obtain rfl : c = 0x2D := by simpa using hhyphen
            decide
          · exact Byte.isName_of_isNameStart hbegin
    · exact name_read_of_escape hescape
  rw [h] at hsome
  cases hsome

theorem startsName_again {x v s : Bytes} (hstart : startsName (x ++ s) = true)
    (hscan : Reader.name.scan (x ++ s) = ⟨v, x, s⟩) (s' : Bytes) :
    startsName (x ++ s') = true := by
  have hne := ne_nil_of_scan hscan (name_read_of_startsName hstart)
  rcases Reader.name.scan_cases hscan with ⟨hnil, _⟩ | ⟨p, y, w, rfl, _, hread, hrest⟩
  · exact absurd hnil hne
  rw [List.append_assoc] at hstart ⊢
  rcases Reader.name_read_cases hread with ⟨b, rfl, hb, _⟩ | hescape
  · obtain ⟨c, t, heq, hcases⟩ := startsName_cases hstart
    obtain rfl : b = c := (List.cons.inj heq).1
    rcases hcases with hbegin | ⟨rfl, _⟩ | ⟨rfl, _⟩
    · exact startsName_of_isNameStart hbegin _
    · exact absurd hb (by decide)
    · change startsName (0x2D :: (y ++ s)) = true at hstart
      change startsName (0x2D :: (y ++ s')) = true
      rcases Reader.name.scan_cases hrest with ⟨rfl, _, hnone⟩ | ⟨q, z, u, rfl, _, hnext, _⟩
      · have hno := startsName_hyphen_none hnone
        rw [List.nil_append, hno] at hstart
        cases hstart
      · rw [List.append_assoc] at hstart ⊢
        rcases Reader.name_read_cases hnext with ⟨c, rfl, hc, _⟩ | hescape
        · change startsName (0x2D :: c :: (z ++ s)) = true at hstart
          change startsName (0x2D :: c :: (z ++ s')) = true
          rw [startsName_hyphen_name hc] at hstart ⊢
          exact hstart
        · exact (startsName_of_escape (Escape.read_front hescape _)).2
  · exact (startsName_of_escape (Escape.read_front hescape _)).1

theorem StartsNamed.again {x v s s' : Bytes} (hstart : StartsNamed (x ++ s))
    (hscan : Reader.name.scan (x ++ s) = ⟨v, x, s⟩) (hstop : EndsName s')
    (hcdc : x = [0x2D, 0x2D] -> s'.head? ≠ some 0x3E) : StartsNamed (x ++ s') := by
  have hne := ne_nil_of_scan hscan (name_read_of_startsName hstart.1)
  refine ⟨startsName_again hstart.1 hscan s', ?_⟩
  rw [Bool.eq_false_iff]
  intro hmark
  obtain ⟨t, ht⟩ := startsCdc_cases hmark
  match x with
  | [] => exact hne rfl
  | [a] =>
      obtain ⟨_, rfl⟩ := List.cons.inj ht
      exact absurd (hstop 0x2D rfl).1 (by decide)
  | [a, b] =>
      simp only [List.cons_append, List.nil_append, List.cons.injEq] at ht
      obtain ⟨rfl, rfl, rfl⟩ := ht
      exact hcdc rfl rfl
  | a :: b :: c :: x =>
      simp only [List.cons_append, List.cons.injEq] at ht
      obtain ⟨rfl, rfl, rfl, _⟩ := ht
      have hno := hstart.2
      cases hno

theorem AddressOpening.again {opening s s' : Bytes} (h : AddressOpening opening s)
    (hhead : s'.head? = s.head? ∨ ∀ b ∈ s'.head?, Byte.isSpace b = false ∧ Byte.isQuote b = false) :
    AddressOpening opening s' := by
  obtain ⟨⟨x, word, gap, rfl, hword, hgap, hstart, hscan⟩, hstop⟩ := h
  have hends : NameEnds (0x28 :: (gap ++ s')) (0x28 :: (gap ++ s)) := by
    constructor
    · intro b hb
      obtain rfl : 0x28 = b := by simpa using hb
      decide
    · exact Or.inl rfl
  refine ⟨⟨x, word, gap, rfl, hword, hgap, ?_, hends.scan hscan⟩, ?_⟩
  · apply hstart.again hscan hends.stop
    intro _ hhead
    cases hhead
  · intro b hb
    rcases hhead with hsame | hplain
    · exact hstop b (hsame ▸ hb)
    · exact hplain b hb

theorem address_read_gap {gap : Bytes} (hgap : gap.all Byte.isSpace = true) (s : Bytes) :
    Reader.address.read (gap ++ 0x29 :: s) = none := by
  cases gap with
  | nil => rfl
  | cons b gap =>
      rw [List.all_cons, Bool.and_eq_true] at hgap
      apply Reader.address_read_none
      simp [Reader.endsAddress, hgap.1]

theorem address_read_again {gap tail s : Bytes} (hne : tail ≠ [])
    (h : Reader.address.read (gap ++ (tail ++ 0x29 :: s)) = none) (s' : Bytes) :
    Reader.address.read (gap ++ (tail ++ 0x29 :: s')) = none := by
  obtain ⟨b, c, t, ht⟩ : ∃ b c t, gap ++ (tail ++ [0x29]) = b :: c :: t := by
    match gap, tail with
    | _, [] => exact absurd rfl hne
    | [], [b] => exact ⟨b, 0x29, [], rfl⟩
    | [], b :: c :: t => exact ⟨b, c, t ++ [0x29], rfl⟩
    | [a], b :: t => exact ⟨a, b, t ++ [0x29], rfl⟩
    | a :: b :: g, c :: t => exact ⟨a, b, g ++ (c :: t ++ [0x29]), rfl⟩
  have hsplit : ∀ u, gap ++ (tail ++ 0x29 :: u) = b :: c :: (t ++ u) := by
    intro u
    calc gap ++ (tail ++ 0x29 :: u) = gap ++ (tail ++ [0x29]) ++ u := by simp
      _ = b :: c :: (t ++ u) := by rw [ht]; rfl
  rw [hsplit] at h ⊢
  exact Reader.address_read_none_front h _

theorem startsWithDigit_of_startsName {s : Bytes} (h : startsName s = true) :
    Numeral.startsWithDigit s = false ∧ Numeral.startsFraction s = false := by
  obtain ⟨b, t, rfl, hcases⟩ := startsName_cases h
  have hplain : Byte.isDigit b = false ∧ b ≠ 0x2E := by
    rcases hcases with hbegin | ⟨rfl, _⟩ | ⟨rfl, _⟩
    · refine ⟨Byte.isDigit_of_isNameStart hbegin, ?_⟩
      rintro rfl
      exact absurd hbegin (by decide)
    · decide
    · decide
  refine ⟨hplain.1, ?_⟩
  unfold Numeral.startsFraction
  split
  · rename_i heq
    exact absurd (List.cons.inj heq).1 hplain.2
  · rfl

/-!
## What a lexeme minds
-/

theorem numeral_ne_nil {n s : Bytes} (hstart : Numeral.startsHere (n ++ s) = true)
    (hread : Numeral.read (n ++ s) = (n, s)) : n ≠ [] := by
  have hne := Numeral.read_ne_nil hstart
  rw [hread] at hne
  exact hne

/-- The text `s'` does not go on with the delimiter `b`. -/
structure EndsDelim (b : UInt8) (s' : Bytes) : Prop where
  name : startsName (b :: s') = false
  numeral : Numeral.startsHere (b :: s') = false
  hash : b = 0x23 -> Reader.name.read s' = none
  keyword : b = 0x40 -> startsName s' = false
  cdo : b = 0x3C -> startsCdoTail s' = false

def Spares (l : Lexeme) (s' s : Bytes) : Prop :=
  match l.kind with
  | .whitespace => ∀ b ∈ s'.head?, Byte.isSpace b = false
  | .ident =>
      NameEnds s' s ∧ s'.head? ≠ some 0x28 ∧ (l.raw = [0x2D, 0x2D] -> s'.head? ≠ some 0x3E)
  | .function => opensAddress l.value s' = false
  | .atKeyword => NameEnds s' s
  | .hash => NameEnds s' s
  | .number => Numeral.EndsAs s' s ∧ startsName s' = false ∧ s'.head? ≠ some 0x25
  | .dimension =>
      NameEnds s' s ∧ ∀ n x, l.raw = n ++ x -> n ≠ [] -> startsName (x ++ s') = true ->
        Numeral.read (n ++ (x ++ s)) = (n, x ++ s) -> Numeral.read (n ++ (x ++ s')) = (n, x ++ s')
  | .delim => ∀ b, l.raw = [b] -> EndsDelim b s'
  | _ => True

def IsClosed (l : Lexeme) : Prop :=
  l.unterminated = false ∧ l.kind ≠ .badString

theorem Shape.again {l : Lexeme} {s s' : Bytes} (h : Shape l s) (hclosed : l.IsClosed)
    (hspares : l.Spares s' s) : Shape l s' := by
  cases h with
  | whitespace hne hall hstop => exact .whitespace hne hall hspares
  | string hquote hscan =>
      rename_i q body v
      have hkeeps : (Reader.quoted q).Keeps (q :: s) (q :: s') :=
        Reader.quoted_keeps (List.cons_ne_nil _ _) (Or.inl rfl)
      apply Shape.string hquote
      exact (Reader.quoted q).scan_of_keeps hkeeps (Reader.quoted_read_quote s' hquote) hscan
  | openString hquote hscan => cases hclosed.1
  | badString hquote hscan => exact absurd rfl hclosed.2
  | ident hstart hscan hparen =>
      obtain ⟨hends, hparen', hcdc⟩ := hspares
      exact .ident (hstart.again hscan hends.stop hcdc) (hends.scan hscan) hparen'
  | function hstart hscan hargument =>
      rename_i x v
      have hends : NameEnds (0x28 :: s') (0x28 :: s) := by
        constructor
        · intro b hb
          obtain rfl : 0x28 = b := by simpa using hb
          decide
        · exact Or.inl rfl
      refine .function ?_ (hends.scan hscan) hspares
      apply hstart.again hscan hends.stop
      intro _ hhead
      cases hhead
  | url hopen hscan hgap =>
      rename_i opening body v gap
      have hhead := head?_append_cons gap 0x29 s s'
      have hkeeps : Reader.address.Keeps (gap ++ 0x29 :: s) (gap ++ 0x29 :: s') :=
        Reader.address_keeps (Or.inl hhead)
      refine .url (hopen.again (Or.inl ?_)) ?_ hgap
      · simp
      · exact Reader.address.scan_of_keeps hkeeps (address_read_gap hgap s') hscan
  | openUrl hopen hscan hgap => cases hclosed.1
  | badUrl hopen hscan hgap hne hstop htail =>
      rename_i opening body v gap tail w
      have hhead : (gap ++ (tail ++ 0x29 :: s')).head? = (gap ++ (tail ++ 0x29 :: s)).head? := by
        simp
      have hkeeps : Reader.address.Keeps (gap ++ (tail ++ 0x29 :: s))
          (gap ++ (tail ++ 0x29 :: s')) :=
        Reader.address_keeps (Or.inl hhead)
      have hread := Reader.address.read_scan_rest (body ++ (gap ++ (tail ++ 0x29 :: s)))
      rw [hscan] at hread
      have hremnant : Reader.remnant.Keeps (0x29 :: s) (0x29 :: s') :=
        Reader.remnant_keeps (List.cons_ne_nil _ _) rfl
      refine .badUrl (hopen.again (Or.inl ?_)) ?_ hgap hne hstop
        (Reader.remnant.scan_of_keeps hremnant rfl htail)
      · simp
      · exact Reader.address.scan_of_keeps hkeeps (address_read_again hne hread s') hscan
  | openBadUrl hopen hscan hgap hne hstop htail => cases hclosed.1
  | atKeyword hstart hscan =>
      exact .atKeyword (startsName_again hstart hscan s') (NameEnds.scan hspares hscan)
  | hash hstart hscan =>
      have hscan' := NameEnds.scan hspares hscan
      have hne := ne_nil_of_scan hscan hstart
      exact .hash (Reader.name.read_isSome_of_scan hscan' hne) hscan'
  | number hstart hread hname hpercent =>
      rename_i n
      obtain ⟨hends, hname', hpercent'⟩ := hspares
      have hread' := Numeral.read_again (numeral_ne_nil hstart hread) hread hends
      exact .number (Numeral.startsHere_again hstart hread s') hread' hname' hpercent'
  | percentage hstart hread =>
      rename_i n
      have hends : Numeral.EndsAs (0x25 :: s') (0x25 :: s) :=
        .of_plain (by decide) (by decide) (by decide) (by decide) _
      exact .percentage (Numeral.startsHere_again hstart hread _)
        (Numeral.read_again (numeral_ne_nil hstart hread) hread hends)
  | dimension hstart hread hname hscan =>
      rename_i n x v
      obtain ⟨hends, hnumeral⟩ := hspares
      have hname' := startsName_again hname hscan s'
      have hread' := hnumeral n x rfl (numeral_ne_nil hstart hread) hname' hread
      exact .dimension (Numeral.startsHere_again hstart hread _) hread' hname' (hends.scan hscan)
  | punctuation hmark => exact .punctuation hmark
  | cdc => exact .cdc
  | cdo => exact .cdo
  | delim hlone =>
      rename_i b
      obtain ⟨hname, hnumeral, hhash, hkeyword, hcdo⟩ := hspares b rfl
      exact .delim ⟨hlone.space, hlone.quote, hlone.mark, hname, hnumeral, hhash, hkeyword, hcdo⟩

end Lexeme
end StyleTrim
