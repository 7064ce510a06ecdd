import StyleTrim.Proofs.Token.Closing

/-!
# Neighbours

Tokens are written side by side, or with a single space between them. The left one is read again
if it does not mind what follows: a text that no token goes on with, a space, or the text of a token
that needs no separator behind it. Separators leave out a few pairs, which are listed here. No text
that keeps clear of them changes its tokens when it is written.
-/

namespace StyleTrim
namespace Token

/-!
## The pairs that are left out
-/

/-- The text of the token ends in a name. -/
def endsInName (t : Token) : Bool :=
  t.kind == .ident || t.kind == .atKeyword || t.kind == .hash || t.kind == .dimension

/-- A space behind the token would belong to it, because an escape stands at its end. -/
def takesSpace (t : Token) : Bool :=
  t.endsInName && (first (t.raw ++ [0x20])).raw != t.raw

/-- The tokens read back as something else when they stand side by side, although no separator is
asked for: a closing comment mark, a number or a hyphen before an escape, and numerals that grow. -/
def fuses (left right : Token) : Bool :=
  (left.kind == .ident && left.raw == [0x2D, 0x2D] && right.isDelim 0x3E) ||
    ((left.kind == .number || left.isDelim 0x2D) && right.raw.head? == some 0x5C) ||
    (left.isDelim 0x2B && Numeral.startsHere (0x2B :: right.raw)) ||
    (left.kind == .dimension &&
      (Numeral.read (left.raw ++ right.raw)).1 != (Numeral.read left.raw).1)

end Token

namespace Lexeme

/-!
## What the first byte tells
-/

theorem read_of_head {l : Lexeme} {s : Bytes} {b : UInt8} (h : Shape l s)
    (hhead : l.raw.head? = some b) : ∃ x, l.raw = b :: x ∧ read b (x ++ s) = (l, s) := by
  rcases List.head?_eq_some_iff.mp hhead with ⟨x, hraw⟩
  rcases reads_of_shape h with ⟨c, t, heq, hread⟩
  rw [hraw, List.cons_append] at heq
  rcases List.cons.inj heq with ⟨rfl, rfl⟩
  exact ⟨x, hraw, hread⟩

theorem eq_of_punctuation {l : Lexeme} {s : Bytes} {b : UInt8} {kind : TokenKind}
    (hmark : punctuation? b = some kind) (h : Shape l s) (hhead : l.raw.head? = some b) :
    l = verbatim kind [b] := by
  rcases read_of_head h hhead with ⟨x, _, hread⟩
  rw [read_punctuation _ hmark] at hread
  exact (congrArg Prod.fst hread).symm

theorem eq_of_isSingle {l : Lexeme} {s : Bytes} {b : UInt8} (hb : isSingle b = true)
    (h : Shape l s) (hhead : l.raw.head? = some b) : l = delim b := by
  rcases read_of_head h hhead with ⟨x, _, hread⟩
  rw [read_lone (lone_of_isSingle hb _)] at hread
  exact (congrArg Prod.fst hread).symm

theorem shape_of_isSpace {l : Lexeme} {s : Bytes} {b : UInt8} (h : Shape l s)
    (hhead : l.raw.head? = some b) (hb : Byte.isSpace b = true) : l.kind = .whitespace := by
  rcases read_of_head h hhead with ⟨x, _, hread⟩
  rw [read_space _ hb] at hread
  exact (congrArg (fun r => r.1.kind) hread).symm

theorem startsHere_of_kind {l : Lexeme} {s : Bytes} (h : Shape l s)
    (hkind : l.kind = .number ∨ l.kind = .dimension) :
    Numeral.startsHere (l.raw ++ s) = true := by
  cases h with
  | number hstart hread hname hpercent => exact hstart
  | dimension hstart hread hname hscan => simpa using hstart
  | punctuation hmark =>
      rcases hkind with hkind | hkind <;> exact absurd hkind (ne_of_punctuation hmark rfl)
  | _ => simp [verbatim, delim] at hkind

theorem readNumeric_raw (s : Bytes) :
    ∃ x, (readNumeric s).1.raw = (Numeral.read s).1 ++ x := by
  unfold readNumeric
  dsimp only
  split
  · exact ⟨_, rfl⟩
  · split
    · exact ⟨_, rfl⟩
    · exact ⟨[], (List.append_nil _).symm⟩

theorem raw_ne_mark {l : Lexeme} {s : Bytes} {b : UInt8} (h : Shape l s)
    (hdigit : Byte.isDigit b = false) (hstart : Numeral.startsHere (b :: s) = true) :
    l.raw ≠ [b] := by
  intro hraw
  rcases read_of_head h (b := b) (by rw [hraw]; rfl) with ⟨x, hx, hread⟩
  obtain rfl : x = [] := (List.cons.inj (hraw.symm.trans hx)).2.symm
  rw [List.nil_append, read_of_startsHere hstart] at hread
  rcases readNumeric_raw (b :: s) with ⟨y, hy⟩
  rw [hread, hraw] at hy
  have hne := Numeral.read_ne_nil hstart
  have happ := Numeral.read_append (b :: s)
  have hsplit : Numeral.read ([b] ++ s) = ([b], s) := by
    cases hn : (Numeral.read (b :: s)).1 with
    | nil => exact absurd hn hne
    | cons c n =>
        rw [hn] at hy happ
        rcases List.cons.inj hy with ⟨rfl, htail⟩
        obtain rfl : n = [] := (List.append_eq_nil_iff.mp htail.symm).1
        have hrest : (Numeral.read (b :: s)).2 = s := (List.cons.inj happ).2
        exact Prod.ext hn hrest
  have hagain := Numeral.startsHere_again hstart hsplit []
  rcases startsHere_front hagain with hd | rfl | rfl | rfl
  · rw [hdigit] at hd
    cases hd
  · cases hagain
  · cases hagain
  · cases hagain

/-!
## What a lexeme needs behind it
-/

theorem endsDelim_of {b : UInt8} {s s' : Bytes} (h : Lone b s) (hslash : b ≠ 0x5C)
    (hhyphen : b = 0x2D -> startsName (0x2D :: s') = false)
    (hnumeral : b = 0x2B ∨ b = 0x2D ∨ b = 0x2E -> Numeral.startsHere (b :: s') = false)
    (hhash : b = 0x23 -> Reader.name.read s' = none)
    (hkeyword : b = 0x40 -> startsName s' = false)
    (hcdo : b = 0x3C -> startsCdoTail s' = false) : EndsDelim b s' := by
  refine ⟨?_, ?_, hhash, hkeyword, hcdo⟩
  · rw [Bool.eq_false_iff]
    intro hname
    rcases startsName_cases hname with ⟨c, t, heq, hcases⟩
    rcases List.cons.inj heq with ⟨rfl, rfl⟩
    rcases hcases with hbegin | ⟨rfl, _⟩ | ⟨rfl, _⟩
    · have hno := h.name
      rw [startsName_of_isNameStart hbegin] at hno
      cases hno
    · exact hslash rfl
    · rw [hhyphen rfl] at hname
      cases hname
  · rw [Bool.eq_false_iff]
    intro hstart
    rcases startsHere_front hstart with hdigit | hmark
    · have hno := h.numeral
      rw [Numeral.startsHere_eq] at hno
      have hsign : Numeral.sign (b :: s) = ([], b :: s) := by
        show (if b = 0x2B ∨ b = 0x2D then ([b], s) else ([], b :: s)) = ([], b :: s)
        rw [if_neg]
        rintro (rfl | rfl) <;> exact absurd hdigit (by decide)
      simp [hsign, Numeral.startsWithDigit, hdigit] at hno
    · rw [hnumeral hmark] at hstart
      cases hstart

theorem startsExponent_front {x s : Bytes} (hne : x ≠ [])
    (hplain : ∀ b ∈ s.head?, Byte.isDigit b = false ∧ b ≠ 0x2B ∧ b ≠ 0x2D)
    (h : Numeral.startsExponent (x ++ s) = true) (s' : Bytes) :
    Numeral.startsExponent (x ++ s') = true := by
  have hstop : Numeral.startsWithDigit (Numeral.sign s).2 = false := by
    cases s with
    | nil => rfl
    | cons b s =>
        rcases hplain b rfl with ⟨hdigit, hplus, hminus⟩
        simp [Numeral.sign, hplus, hminus, Numeral.startsWithDigit, hdigit]
  have hdigit : Numeral.startsWithDigit s = false := by
    cases s with
    | nil => rfl
    | cons b s => exact (hplain b rfl).1
  rcases x with _ | ⟨e, _ | ⟨c, _ | ⟨d, x⟩⟩⟩
  · exact absurd rfl hne
  · simp [Numeral.startsExponent, hstop] at h
  · simp only [List.cons_append, List.nil_append, Numeral.startsExponent, Numeral.sign] at h ⊢
    split at h
    · simp [hdigit] at h
    · rename_i hsign
      rw [if_neg hsign]
      exact h
  · simp only [List.cons_append, Numeral.startsExponent, Numeral.sign] at h ⊢
    split at h
    · rename_i hsign
      rw [if_pos hsign]
      exact h
    · rename_i hsign
      rw [if_neg hsign]
      exact h

theorem endsAs_of_startsName {s' s : Bytes} (h : startsName s' = true)
    (hexponent : Numeral.startsExponent s' = true -> Numeral.startsExponent s = true) :
    Numeral.EndsAs s' s := by
  have hplain := startsWithDigit_of_startsName h
  constructor
  · exact hplain.1
  · intro hfraction
    rw [hplain.2] at hfraction
    cases hfraction
  · exact hexponent

theorem unit_ne_nil {x s : Bytes} (hstop : EndsName s) (h : startsName (x ++ s) = true) :
    x ≠ [] := by
  rintro rfl
  have hread := name_read_of_startsName h
  rw [List.nil_append, Reader.name_read_none hstop] at hread
  cases hread

theorem startsName_eq_false {s : Bytes} (h : EndsName s) : startsName s = false := by
  rw [Bool.eq_false_iff]
  intro hname
  have hread := name_read_of_startsName hname
  rw [Reader.name_read_none h] at hread
  cases hread

/-!
## Before a text that no token goes on with
-/

def isBlunt (b : UInt8) : Bool :=
  !(Byte.isName b || [0x5C, 0x28, 0x25, 0x2E, 0x2B, 0x3E, 0x2A].contains b)

/-- No token goes on with the text, except that an escape may take white space. -/
structure Blunt (s : Bytes) : Prop where
  front : ∀ b ∈ s.head?, isBlunt b = true
  cdo : startsCdoTail s = false

theorem Blunt.nil : Blunt [] :=
  ⟨nofun, rfl⟩

theorem Blunt.cons {b : UInt8} (h : isBlunt b = true) (hbang : b ≠ 0x21) (s : Bytes) :
    Blunt (b :: s) := by
  constructor
  · intro c hc
    obtain rfl : b = c := by simpa using hc
    exact h
  · unfold startsCdoTail
    split
    · rename_i heq
      exact absurd (List.cons.inj heq).1 hbang
    · rfl

/-- The classes that a blunt byte is not in. -/
structure BluntByte (b : UInt8) : Prop where
  name : Byte.isName b = false
  slash : b ≠ 0x5C
  paren : b ≠ 0x28
  percent : b ≠ 0x25
  point : b ≠ 0x2E
  plus : b ≠ 0x2B
  greater : b ≠ 0x3E
  asterisk : b ≠ 0x2A

theorem bluntByte_of_isBlunt {b : UInt8} (h : isBlunt b = true) : BluntByte b := by
  simp only [isBlunt, List.contains_cons, List.contains_nil, Bool.not_eq_true',
    Bool.or_eq_false_iff, beq_eq_false_iff_ne, Bool.or_false] at h
  rcases h with ⟨hname, hslash, hparen, hpercent, hpoint, hplus, hgreater, hasterisk⟩
  exact ⟨hname, hslash, hparen, hpercent, hpoint, hplus, hgreater, hasterisk⟩

theorem isHexDigit_of_isName {b : UInt8} (h : Byte.isName b = false) :
    Byte.isHexDigit b = false := by
  rw [Bool.eq_false_iff]
  intro hhex
  rw [Bool.eq_false_iff] at h
  apply h
  simp only [Byte.isHexDigit, Byte.isDigit, Bool.or_eq_true, Bool.and_eq_true, decide_eq_true_eq,
    UInt8.le_iff_toNat_le] at hhex
  simp only [Byte.isName, Byte.isNameStart, Byte.isAlpha, Byte.isUpper, Byte.isLower,
    Byte.isDigit, Bool.or_eq_true, Bool.and_eq_true, decide_eq_true_eq, beq_iff_eq,
    UInt8.le_iff_toNat_le, ← UInt8.toNat_inj]
  simp at hhex ⊢
  omega

theorem sparing_of_front {s : Bytes}
    (h : ∀ b ∈ s.head?, Byte.isName b = false ∧ Byte.isSpace b = false) :
    Escape.Sparing s := by
  intro b hb
  exact ⟨isHexDigit_of_isName (h b hb).1, (h b hb).2⟩

theorem isDigit_of_not_isName {b : UInt8} (h : Byte.isName b = false) :
    Byte.isDigit b = false := by
  rw [Bool.eq_false_iff]
  intro hdigit
  rw [Byte.isName_of_isDigit hdigit] at h
  cases h

theorem ne_hyphen_of_not_isName {b : UInt8} (h : Byte.isName b = false) : b ≠ 0x2D := by
  rintro rfl
  exact absurd h (by decide)

theorem endsAs_of_front {s' : Bytes} (s : Bytes)
    (h : ∀ b ∈ s'.head?, Byte.isName b = false ∧ b ≠ 0x2E) : Numeral.EndsAs s' s := by
  cases s' with
  | nil => exact ⟨rfl, nofun, nofun⟩
  | cons b s' =>
      rcases h b rfl with ⟨hname, hpoint⟩
      apply Numeral.EndsAs.of_plain (isDigit_of_not_isName hname) hpoint
      · rintro rfl
        exact absurd hname (by decide)
      · rintro rfl
        exact absurd hname (by decide)

theorem numeral_again {n x s s' : Bytes}
    (hplain : ∀ b ∈ s'.head?, Byte.isName b = false ∧ b ≠ 0x5C ∧ b ≠ 0x2B) (hne : n ≠ [])
    (hname : startsName (x ++ s') = true) (hread : Numeral.read (n ++ (x ++ s)) = (n, x ++ s)) :
    Numeral.read (n ++ (x ++ s')) = (n, x ++ s') := by
  have hx : x ≠ [] := unit_ne_nil (fun b hb => ⟨(hplain b hb).1, (hplain b hb).2.1⟩) hname
  apply Numeral.read_again hne hread
  apply endsAs_of_startsName hname
  intro hexponent
  apply startsExponent_front hx ?_ hexponent
  intro b hb
  rcases hplain b hb with ⟨hword, _, hplus⟩
  exact ⟨isDigit_of_not_isName hword, hplus, ne_hyphen_of_not_isName hword⟩

theorem startsName_hyphen_eq_false {s : Bytes}
    (h : ∀ b ∈ s.head?, Byte.isName b = false ∧ b ≠ 0x5C) : startsName (0x2D :: s) = false := by
  cases s with
  | nil => rfl
  | cons b s =>
      rcases h b rfl with ⟨hname, hslash⟩
      have hstart : Byte.isNameStart b = false := by
        rw [Bool.eq_false_iff]
        intro hstart
        rw [Byte.isName_of_isNameStart hstart] at hname
        cases hname
      rw [startsName_hyphen, Escape.startsHere_cons_of_ne hslash]
      simp [startsWithNameStart, hstart, ne_hyphen_of_not_isName hname]

theorem startsHere_mark_eq_false {b : UInt8} {s : Bytes}
    (hmark : b = 0x2B ∨ b = 0x2D ∨ b = 0x2E)
    (h : ∀ c ∈ s.head?, Byte.isDigit c = false ∧ c ≠ 0x2E) :
    Numeral.startsHere (b :: s) = false := by
  have hdigit : Numeral.startsWithDigit s = false := by
    cases s with
    | nil => rfl
    | cons c s => exact (h c rfl).1
  have hfraction : Numeral.startsFraction s = false := by
    unfold Numeral.startsFraction
    split
    · rename_i t
      exact absurd rfl (h 0x2E rfl).2
    · rfl
  rw [Numeral.startsHere_eq]
  rcases hmark with rfl | rfl | rfl
  · simp [Numeral.sign, hdigit, hfraction]
  · simp [Numeral.sign, hdigit, hfraction]
  · show Numeral.startsWithDigit s = false
    exact hdigit

def MindsEscape (l : Lexeme) : Prop :=
  l.kind = .ident ∨ l.kind = .atKeyword ∨ l.kind = .hash ∨ l.kind = .dimension

theorem spares_of_blunt {l : Lexeme} {s s' : Bytes} (h : Shape l s) (hblunt : Blunt s')
    (hspace : l.kind ≠ .whitespace) (hslash : l.kind = .delim -> l.raw ≠ [0x5C])
    (hargument : l.kind = .function -> opensAddress l.value s' = false)
    (hescape : l.MindsEscape -> Replaces s' s) : l.Spares s' s := by
  have hfront : ∀ b ∈ s'.head?, BluntByte b := fun b hb => bluntByte_of_isBlunt (hblunt.front b hb)
  have hstop : EndsName s' := fun b hb => ⟨(hfront b hb).name, (hfront b hb).slash⟩
  cases h with
  | whitespace hne hall hfollow => exact absurd rfl hspace
  | ident hstart hscan hparen =>
      refine ⟨⟨hstop, hescape (Or.inl rfl)⟩, ?_, ?_⟩
      · intro hhead
        exact (hfront 0x28 hhead).paren rfl
      · intro _ hhead
        exact (hfront 0x3E hhead).greater rfl
  | function hstart hscan hquote => exact hargument rfl
  | atKeyword hstart hscan => exact ⟨hstop, hescape (Or.inr (Or.inl rfl))⟩
  | hash hstart hscan => exact ⟨hstop, hescape (Or.inr (Or.inr (Or.inl rfl)))⟩
  | number hstart hread hname hpercent =>
      refine ⟨endsAs_of_front _ ?_, startsName_eq_false hstop, ?_⟩
      · intro b hb
        exact ⟨(hfront b hb).name, (hfront b hb).point⟩
      · intro hhead
        exact (hfront 0x25 hhead).percent rfl
  | dimension hstart hread hname hscan =>
      refine ⟨⟨hstop, hescape (Or.inr (Or.inr (Or.inr rfl)))⟩, ?_⟩
      intro n x _ hne hunit hnumeral
      apply numeral_again ?_ hne hunit hnumeral
      intro b hb
      exact ⟨(hfront b hb).name, (hfront b hb).slash, (hfront b hb).plus⟩
  | delim hlone =>
      rename_i b
      intro c hc
      obtain rfl : b = c := (List.cons.inj hc).1
      apply endsDelim_of hlone
      · rintro rfl
        exact hslash rfl rfl
      · intro _
        exact startsName_hyphen_eq_false hstop
      · intro hmark
        apply startsHere_mark_eq_false hmark
        intro c hc
        exact ⟨isDigit_of_not_isName (hfront c hc).name, (hfront c hc).point⟩
      · intro _
        exact Reader.name_read_none hstop
      · intro _
        exact startsName_eq_false hstop
      · intro _
        exact hblunt.cdo
  | punctuation hmark =>
      rcases punctuation?_cases hmark with rfl | rfl | rfl | rfl | rfl | rfl | rfl | rfl | rfl <;>
      · cases hmark
        trivial
  | _ => trivial

/-!
## Before a space

A space ends a name, unless an escape without white space of its own stands at the end of the name.
There is none where white space did follow, because the escape would have taken it.
-/

theorem escape_read_space {p : Piece} {s : Bytes} (h : Escape.read (p.raw ++ s) = some (p, s)) :
    Escape.read (p.raw ++ [0x20]) = some (p, [0x20]) ∨
      ((∀ b ∈ s.head?, Byte.isSpace b = false) ∧
        ∃ v, Escape.read (p.raw ++ [0x20]) = some (⟨p.raw ++ [0x20], v⟩, [])) := by
  rcases Escape.read_cases h with ⟨c, rfl, hline, hhex, _⟩ |
    ⟨digits, gap, hne, rfl, hx, hdigits, hgap⟩
  · exact Or.inl (Escape.read_pair hline hhex _)
  · have hall := Escape.hexDigits_append_eq.mp hdigits
    cases gap with
    | nil =>
        right
        have hfree : ∀ b ∈ s.head?, Byte.isSpace b = false := by
          rcases Escape.terminator_append_eq.mp hgap with ⟨_, hfree⟩ | ⟨c, hc, _⟩ | hpair
          · exact hfree
          · cases hc
          · cases hpair
        have hdigits' : Escape.hexDigits (digits ++ ([0x20] ++ [])) = digits := by
          apply Escape.hexDigits_append_eq.mpr
          refine ⟨hall.1, hall.2.1, Or.inr ?_⟩
          intro b hb
          obtain rfl : 0x20 = b := by simpa using hb
          decide
        have hread := Escape.read_digits hne hdigits' rfl
        exact ⟨hfree, Utf8.encode (Utf8.scalarOrReplacement (Escape.hexValue digits)),
          by simpa using hread⟩
    | cons b gap =>
        left
        have hdigits' : Escape.hexDigits (digits ++ ((b :: gap) ++ [0x20])) = digits := by
          apply Escape.hexDigits_append_eq.mpr
          refine ⟨hall.1, hall.2.1, ?_⟩
          rcases hall.2.2 with hsix | hstop
          · exact Or.inl hsix
          · exact Or.inr hstop
        have hgap' : Escape.terminator ((b :: gap) ++ [0x20]) = b :: gap := by
          apply Escape.terminator_append_eq.mpr
          rcases Escape.terminator_append_eq.mp hgap with ⟨hnil, _⟩ | ⟨c, hc, hspace, _⟩ | hpair
          · cases hnil
          · refine Or.inr (Or.inl ⟨c, hc, hspace, ?_⟩)
            intro _ hhead
            cases hhead
          · exact Or.inr (Or.inr hpair)
        have hread := Escape.read_digits hne hdigits' hgap'
        simpa using hread

theorem name_scan_space {x v s : Bytes} (h : Reader.name.scan (x ++ s) = ⟨v, x, s⟩) :
    Reader.name.scan (x ++ [0x20]) = ⟨v, x, [0x20]⟩ ∨
      ((∀ b ∈ s.head?, Byte.isSpace b = false) ∧
        ∃ w, Reader.name.scan (x ++ [0x20]) = ⟨w, x ++ [0x20], []⟩) := by
  induction hn : x.length using Nat.strongRecOn generalizing x v with
  | ind n ih =>
    rcases Reader.name.scan_cases h with ⟨rfl, rfl, _⟩ | ⟨p, y, w, rfl, rfl, hread, hrest⟩
    · exact Or.inl (Reader.name.scan_none rfl)
    · have hlt : y.length < n := by
        rw [← hn, List.length_append]
        have := List.length_pos_iff.mpr (Reader.name.raw_ne_nil hread)
        omega
      cases y with
      | nil =>
          have hstop : Reader.name.scan [0x20] = ⟨[], [], [0x20]⟩ := Reader.name.scan_none rfl
          obtain rfl : w = [] := by
            rcases Reader.name.scan_cases hrest with ⟨_, hw, _⟩ | ⟨q, z, u, hz, _⟩
            · exact hw
            · rename_i hq
              exact absurd (List.append_eq_nil_iff.mp hz.symm).1 (Reader.name.raw_ne_nil hq.2.1)
          have hplain : Reader.name.read (p.raw ++ [0x20]) = some (p, [0x20]) ->
              Reader.name.scan (p.raw ++ [] ++ [0x20]) = ⟨p.value ++ [], p.raw ++ [], [0x20]⟩ := by
            intro hplain
            rw [List.append_nil, Reader.name.scan_some hplain, hstop]
            simp
          rcases Reader.name_read_cases hread with ⟨b, rfl, hb, _⟩ | hescape
          · exact Or.inl (hplain (Reader.name_read_of_isName _ hb))
          · rcases escape_read_space hescape with hsame | ⟨hfree, u, hmore⟩
            · exact Or.inl (hplain (Reader.name_read_of_escape hsame))
            · right
              have hend : Reader.name.scan [] = ⟨[], [], []⟩ := Reader.name.scan_none rfl
              refine ⟨hfree, u, ?_⟩
              rw [List.append_nil, Reader.name.scan_some (Reader.name_read_of_escape hmore), hend]
              simp
      | cons b y =>
          have hkeeps : Reader.name.read (p.raw ++ (b :: y ++ [0x20])) =
              some (p, b :: y ++ [0x20]) := by
            have hrep : Replaces (b :: y ++ [0x20]) (b :: y ++ s) := Or.inl rfl
            have hkeep := Reader.name_keeps hrep p [] hread
            exact hkeep
          rw [List.append_assoc, Reader.name.scan_some hkeeps]
          rcases ih _ hlt hrest rfl with hsame | ⟨hfree, u, hmore⟩
          · left
            rw [hsame]
          · right
            refine ⟨hfree, p.value ++ u, ?_⟩
            rw [hmore]

/-- The lexeme is what is read first, comments and all. -/
structure Stands (l : Lexeme) (s : Bytes) : Prop where
  shape : Shape l s
  comment : Reader.comment.read (l.raw ++ s) = none

theorem stands_of_shape {l : Lexeme} {s : Bytes} (h : Shape l s)
    (hcomment : l.raw = [0x2F] -> s.head? ≠ some 0x2A) : Stands l s := by
  refine ⟨h, ?_⟩
  cases hraw : l.raw with
  | nil => exact absurd hraw (raw_ne_nil h)
  | cons b x =>
      by_cases hb : b = 0x2F
      · subst hb
        have hdelim := eq_of_isSingle (b := 0x2F) rfl h (by rw [hraw]; rfl)
        rw [hdelim] at hraw hcomment
        obtain rfl : [] = x := (List.cons.inj hraw).2
        have hhead := hcomment rfl
        show Reader.comment.read (0x2F :: s) = none
        match s with
        | [] => rfl
        | c :: s =>
            have hc : c ≠ 0x2A := fun hc => hhead (congrArg some hc)
            simp [Reader.comment, hc]
      · simp [Reader.comment, hb]

theorem Stands.first {l : Lexeme} {s : Bytes} (h : Stands l s) :
    Token.first (l.raw ++ s) = Token.ofLexeme l 0 false := by
  rcases reads_of_shape h.shape with ⟨b, t, heq, hread⟩
  have hgap : Reader.comment.scan (l.raw ++ s) = ⟨[], [], l.raw ++ s⟩ :=
    Reader.comment.scan_none h.comment
  unfold Token.first
  rw [hgap]
  dsimp only
  rw [heq]
  dsimp only
  rw [hread]
  rfl

theorem stands_of_mindsEscape {l : Lexeme} {s : Bytes} (h : Shape l s) (hminds : l.MindsEscape) :
    Stands l s := by
  apply stands_of_shape h
  intro hraw
  have hdelim := eq_of_isSingle (b := 0x2F) rfl h (by rw [hraw]; rfl)
  rw [hdelim] at hminds
  rcases hminds with hkind | hkind | hkind | hkind <;> cases hkind

theorem shape_before_space {t : Token} {s : Bytes} (h : Shape t.lexeme s)
    (hminds : t.lexeme.MindsEscape)
    (htakes : (∀ b ∈ s.head?, Byte.isSpace b = false) -> t.takesSpace = false) :
    Shape t.lexeme [0x20] := by
  have hgrown : (∀ b ∈ s.head?, Byte.isSpace b = false) ->
      ∀ v, ¬Shape ⟨t.kind, v, t.raw ++ [0x20], false⟩ [] := by
    intro hfree v hshape
    have hfirst : (Token.first (t.raw ++ [0x20])).raw = t.raw := by
      have hname : t.endsInName = true := by
        rcases hminds with hkind | hkind | hkind | hkind <;>
        · simp only [Token.lexeme] at hkind
          simp [Token.endsInName, hkind]
      simpa [Token.takesSpace, hname] using htakes hfree
    have hstands := stands_of_mindsEscape hshape hminds
    have hread := congrArg Token.raw hstands.first
    rw [List.append_nil, hfirst] at hread
    simp [Token.ofLexeme] at hread
  have hstop : EndsName [0x20] := by
    intro b hb
    obtain rfl : 0x20 = b := by simpa using hb
    decide
  rcases t with ⟨kind, value, raw, offset, afterComment, unterminated⟩
  simp only [Token.lexeme] at h hminds hgrown ⊢
  cases h with
  | ident hstart hscan hparen =>
      have hstart' : StartsNamed (raw ++ [0x20]) := by
        apply hstart.again hscan hstop
        intro _ hhead
        cases hhead
      rcases name_scan_space hscan with hsame | ⟨hfree, w, hmore⟩
      · exact .ident hstart' hsame (by simp)
      · refine absurd ?_ (hgrown hfree w)
        exact .ident (by simpa using hstart') (by simpa using hmore) (by simp)
  | atKeyword hstart hscan =>
      have hstart' := startsName_again hstart hscan [0x20]
      rcases name_scan_space hscan with hsame | ⟨hfree, w, hmore⟩
      · exact .atKeyword hstart' hsame
      · refine absurd ?_ (hgrown hfree w)
        exact .atKeyword (by simpa using hstart') (by simpa using hmore)
  | hash hstart hscan =>
      rename_i x
      have hne := ne_nil_of_scan hscan hstart
      rcases name_scan_space hscan with hsame | ⟨hfree, w, hmore⟩
      · exact .hash (Reader.name.read_isSome_of_scan hsame hne) hsame
      · refine absurd ?_ (hgrown hfree w)
        have hmore' : Reader.name.scan (x ++ [0x20] ++ []) = ⟨w, x ++ [0x20], []⟩ := by
          simpa using hmore
        exact .hash (Reader.name.read_isSome_of_scan hmore' (by simp)) hmore'
  | dimension hstart hread hname hscan =>
      rename_i n x v
      have hname' := startsName_again hname hscan [0x20]
      have hread' : Numeral.read (n ++ (x ++ [0x20])) = (n, x ++ [0x20]) := by
        apply numeral_again ?_ (numeral_ne_nil hstart hread) hname' hread
        intro b hb
        obtain rfl : 0x20 = b := by simpa using hb
        decide
      have hstart' := Numeral.startsHere_again hstart hread (x ++ [0x20])
      rcases name_scan_space hscan with hsame | ⟨hfree, w, hmore⟩
      · exact .dimension hstart' hread' hname' hsame
      · refine absurd ?_ (hgrown hfree (n ++ w))
        rw [List.append_assoc]
        exact .dimension (by simpa using hstart') (by simpa using hread') (by simpa using hname')
          (by simpa using hmore)
  | punctuation hmark =>
      rcases hminds with hkind | hkind | hkind | hkind <;>
        exact absurd hkind (ne_of_punctuation hmark rfl)
  | _ => simp [MindsEscape] at hminds

/-!
## Before another token
-/

theorem lexeme_of_becomes {t : Token} {l : Lexeme} (h : t.Becomes l) (hstring : l.kind ≠ .string)
    (hurl : l.kind ≠ .url) (hbad : l.kind ≠ .badUrl) : l = t.lexeme := by
  apply h.same
  rw [Bool.eq_false_iff]
  intro hopen
  have hkind := h.kind
  rcases Bool.or_eq_true_iff.mp hopen with hopen | hopen
  · simp [Token.ClosesAs, hopen] at hkind
    exact hstring hkind
  · simp [Token.ClosesAs, Token.isOpenString_of_isOpenAddress hopen, hopen] at hkind
    rcases hkind with hkind | ⟨hkind, _⟩
    · exact hurl hkind
    · exact hbad hkind

theorem lexeme_of_kind {t : Token} {l : Lexeme} {kind : TokenKind} (h : t.Becomes l)
    (hkind : l.kind = kind) (hmute : kind ≠ .string ∧ kind ≠ .url ∧ kind ≠ .badUrl) :
    l = t.lexeme := by
  subst hkind
  exact lexeme_of_becomes h hmute.1 hmute.2.1 hmute.2.2

theorem ne_space_of_becomes {t : Token} {l : Lexeme} (h : t.Becomes l)
    (hspace : t.kind ≠ .whitespace) : l.kind ≠ .whitespace := by
  intro hkind
  have hsame := lexeme_of_kind h hkind (by decide)
  rw [hsame] at hkind
  exact hspace hkind

theorem kind_of_mark {l : Lexeme} {s : Bytes} {b : UInt8} (h : Shape l s)
    (hhead : l.raw.head? = some b) (hb : Byte.isDigit b = true ∨ b = 0x2E ∨ b = 0x2B) :
    l.kind ≠ .string ∧ l.kind ≠ .url ∧ l.kind ≠ .badUrl := by
  have hnumeric : ∀ s, (readNumeric s).1.kind ≠ .string ∧ (readNumeric s).1.kind ≠ .url ∧
      (readNumeric s).1.kind ≠ .badUrl := by
    intro s
    unfold readNumeric
    dsimp only
    split
    · simp
    · split <;> simp [verbatim]
  rcases read_of_head h hhead with ⟨x, _, hread⟩
  rw [← show (read b (x ++ s)).1 = l from congrArg Prod.fst hread]
  by_cases hstart : Numeral.startsHere (b :: (x ++ s)) = true
  · rw [read_of_startsHere hstart]
    exact hnumeric _
  · rcases hb with hdigit | rfl | rfl
    · refine absurd ?_ hstart
      rw [Numeral.startsHere_eq]
      have hsign : Numeral.sign (b :: (x ++ s)) = ([], b :: (x ++ s)) := by
        show (if b = 0x2B ∨ b = 0x2D then ([b], x ++ s) else ([], b :: (x ++ s))) = _
        rw [if_neg]
        rintro (rfl | rfl) <;> exact absurd hdigit (by decide)
      simp [hsign, Numeral.startsWithDigit, hdigit]
    · have hdelim : read 0x2E (x ++ s) = (delim 0x2E, x ++ s) := by
        simp [read, Byte.isSpace, Byte.isQuote, Byte.isDigit, Byte.isNameStart, Byte.isAlpha,
          Byte.isUpper, Byte.isLower, punctuation?, hstart]
      rw [hdelim]
      simp [delim, verbatim]
    · have hdelim : read 0x2B (x ++ s) = (delim 0x2B, x ++ s) := by
        simp [read, Byte.isSpace, Byte.isQuote, Byte.isDigit, Byte.isNameStart, Byte.isAlpha,
          Byte.isUpper, Byte.isLower, punctuation?, hstart]
      rw [hdelim]
      simp [delim, verbatim]

theorem startsHere_plus (s : Bytes) :
    Numeral.startsHere (0x2B :: s) =
      (Numeral.startsWithDigit s || Numeral.startsFraction s) := by
  rw [Numeral.startsHere_eq]
  rfl

theorem startsHere_plus_front {m : Lexeme} {v : Bytes} (h : Shape m v)
    (hstart : Numeral.startsHere (0x2B :: (m.raw ++ v)) = true) :
    Numeral.startsHere (0x2B :: m.raw) = true := by
  rw [startsHere_plus] at hstart ⊢
  cases hraw : m.raw with
  | nil => exact absurd hraw (raw_ne_nil h)
  | cons b x =>
      rw [hraw] at hstart
      rcases Bool.or_eq_true_iff.mp hstart with hdigit | hfraction
      · exact Bool.or_eq_true_iff.mpr (Or.inl hdigit)
      · apply Bool.or_eq_true_iff.mpr
        right
        by_cases hb : b = 0x2E
        · subst hb
          cases x with
          | nil =>
              have hpoint : Numeral.startsHere (0x2E :: v) = true := hfraction
              exact absurd hraw (raw_ne_mark h (by decide) hpoint)
          | cons c x => exact hfraction
        · simp [Numeral.startsFraction, hb] at hfraction

/-- Three bytes tell whether an exponent begins. -/
theorem startsExponent_cons (e c d : UInt8) (x y : Bytes) :
    Numeral.startsExponent (e :: c :: d :: x) = Numeral.startsExponent (e :: c :: d :: y) := by
  simp only [Numeral.startsExponent, Numeral.sign]
  split <;> rfl

theorem startsExponent_neighbour {x v : Bytes} {m : Lexeme} (hne : x ≠ []) (h : Shape m v)
    (hexponent : Numeral.startsExponent (x ++ (m.raw ++ v)) = true) :
    Numeral.startsExponent (x ++ m.raw) = true := by
  match x, hraw : m.raw with
  | [], _ => exact absurd rfl hne
  | _ :: _, [] => exact absurd hraw (raw_ne_nil h)
  | [e], [b] =>
      rw [hraw] at hexponent
      simp only [List.cons_append, List.nil_append, Numeral.startsExponent, Numeral.sign,
        Bool.and_eq_true] at hexponent ⊢
      refine ⟨hexponent.1, ?_⟩
      split at hexponent
      · rename_i hsign
        have hdigit := hexponent.2
        rcases hsign with rfl | rfl
        · refine absurd hraw (raw_ne_mark h (by decide) ?_)
          rw [startsHere_plus]
          exact Bool.or_eq_true_iff.mpr (Or.inl hdigit)
        · refine absurd hraw (raw_ne_mark h (by decide) ?_)
          rw [Numeral.startsHere_eq]
          exact Bool.or_eq_true_iff.mpr (Or.inl hdigit)
      · rename_i hsign
        rw [if_neg hsign]
        exact hexponent.2
  | [e], b :: c :: y =>
      rw [hraw] at hexponent
      exact (startsExponent_cons e b c _ _).trans hexponent
  | [e, c], b :: y =>
      rw [hraw] at hexponent
      exact (startsExponent_cons e c b _ _).trans hexponent
  | e :: c :: d :: x, _ => exact (startsExponent_cons e c d _ _).trans hexponent

theorem startsExponent_append {x : Bytes} (h : Numeral.startsExponent x = true) (s : Bytes) :
    Numeral.startsExponent (x ++ s) = true := by
  match x with
  | [] => cases h
  | [e] => simp [Numeral.startsExponent, Numeral.sign, Numeral.startsWithDigit] at h
  | [e, c] =>
      simp only [List.cons_append, List.nil_append, Numeral.startsExponent, Numeral.sign] at h ⊢
      split at h
      · simp [Numeral.startsWithDigit] at h
      · rename_i hsign
        rw [if_neg hsign]
        exact h
  | e :: c :: d :: x => exact (startsExponent_cons e c d _ _).trans h

theorem numeral_alone {n x s : Bytes} (hne : n ≠ []) (hx : x ≠ [])
    (hname : startsName (x ++ s) = true) {v : Bytes}
    (hread : Numeral.read (n ++ (x ++ v)) = (n, x ++ v)) : Numeral.read (n ++ x) = (n, x) := by
  have hplain := startsWithDigit_of_startsName hname
  apply Numeral.read_again hne hread
  cases x with
  | nil => exact absurd rfl hx
  | cons c x =>
      constructor
      · exact hplain.1
      · intro hfraction
        unfold Numeral.startsFraction at hfraction
        split at hfraction
        · rename_i y heq
          rcases List.cons.inj heq with ⟨rfl, rfl⟩
          cases x with
          | nil => cases hfraction
          | cons d x =>
              have hno := hplain.2
              rw [show Numeral.startsFraction (0x2E :: d :: x ++ s) = Byte.isDigit d from rfl]
                at hno
              rw [show Numeral.startsWithDigit (d :: x) = Byte.isDigit d from rfl, hno]
                at hfraction
              cases hfraction
        · cases hfraction
      · intro hexponent
        exact startsExponent_append hexponent v

theorem numeral_neighbour {n x s v : Bytes} {m : Lexeme} (hne : n ≠ []) (hx : x ≠ [])
    (h : Shape m v) (hname : startsName (x ++ (m.raw ++ v)) = true)
    (hread : Numeral.read (n ++ (x ++ s)) = (n, x ++ s))
    (hsame : (Numeral.read (n ++ (x ++ m.raw))).1 = (Numeral.read (n ++ x)).1) :
    Numeral.read (n ++ (x ++ (m.raw ++ v))) = (n, x ++ (m.raw ++ v)) := by
  have hbeside : Numeral.read (n ++ (x ++ m.raw)) = (n, x ++ m.raw) := by
    rw [numeral_alone hne hx hname hread] at hsame
    have happ := Numeral.read_append (n ++ (x ++ m.raw))
    rw [hsame] at happ
    exact Prod.ext hsame (List.append_cancel_left happ)
  apply Numeral.read_again hne hbeside
  apply endsAs_of_startsName hname
  intro hexponent
  exact startsExponent_neighbour hx h hexponent

theorem needsSeparator_eq {left right : Token} {b : UInt8} {x : Bytes} (hleft : left.raw ≠ [])
    (hright : right.raw = b :: x) :
    Token.needsSeparator left right =
      match left.kind with
      | .ident => right.kind == .leftParen || Token.continuesName b
      | .atKeyword => Token.continuesName b
      | .hash => Token.continuesName b
      | .dimension => Token.continuesName b
      | .number => Token.continuesNumber b right.kind
      | .delim => Token.continuesDelim left.value b
      | _ => false := by
  have hempty : left.raw.isEmpty = false := by simpa using hleft
  cases hkind : left.kind <;>
    simp only [Token.needsSeparator, hempty, hright, hkind, Bool.false_eq_true, if_false]

theorem needsSeparator_punctuation {b : UInt8} {kind : TokenKind} {right : Token}
    (hmark : punctuation? b = some kind) (hparen : kind ≠ .leftParen) (hraw : right.raw = [b])
    (hkind : right.kind = kind) (left : Token) : Token.needsSeparator left right = false := by
  by_cases hnil : left.raw = []
  · simp [Token.needsSeparator, hnil]
  · have hdelim : Token.continuesDelim left.value b = false := by
      unfold Token.continuesDelim
      rcases punctuation?_cases hmark with rfl | rfl | rfl | rfl | rfl | rfl | rfl | rfl | rfl <;>
        split <;> rfl
    rw [needsSeparator_eq hnil hraw, hkind, beq_eq_false_iff_ne.mpr hparen, hdelim]
    rcases punctuation?_cases hmark with rfl | rfl | rfl | rfl | rfl | rfl | rfl | rfl | rfl <;>
      split <;> rfl

theorem number_neighbour {right : Token} {m : Lexeme} {s v x : Bytes} {b : UInt8}
    (hm : right.Becomes m) (hright : Shape m v) (hraw : m.raw = b :: x)
    (hsep : Token.continuesNumber b right.kind = false) (hslash : b ≠ 0x5C) :
    Numeral.EndsAs (b :: x ++ v) s ∧ startsName (b :: x ++ v) = false ∧
      (b :: x ++ v).head? ≠ some 0x25 := by
  simp only [Token.continuesNumber, Bool.or_eq_false_iff, Bool.and_eq_false_iff,
    beq_eq_false_iff_ne, bne_eq_false_iff_eq] at hsep
  rcases hsep with ⟨⟨⟨⟨hletter, hdigit⟩, hpoint⟩, hpercent⟩, hminus⟩
  refine ⟨.of_plain hdigit hpoint ?_ ?_ _, ?_, ?_⟩
  · rintro rfl
    exact absurd hletter (by decide)
  · rintro rfl
    exact absurd hletter (by decide)
  · rw [Bool.eq_false_iff]
    intro hbegin
    rcases startsName_cases hbegin with ⟨c, t, heq, hcases⟩
    rcases List.cons.inj heq with ⟨rfl, rfl⟩
    rcases hcases with hc | ⟨rfl, _⟩ | ⟨rfl, _⟩
    · rw [hletter] at hc
      cases hc
    · exact hslash rfl
    · have hnumeric : right.kind = .number ∨ right.kind = .dimension := by
        rcases hminus with (hne | hkind) | hkind
        · exact absurd rfl hne
        · exact Or.inl hkind
        · exact Or.inr hkind
      have hclosed : right.isOpen = false := by
        rcases hnumeric with hkind | hkind <;>
          simp [Token.isOpen, Token.isOpenString, Token.isOpenAddress, hkind]
      have hlexeme := hm.same hclosed
      have hstarts := startsHere_of_kind hright (by rw [hlexeme]; exact hnumeric)
      rw [hraw] at hstarts
      rw [startsName_of_startsHere hstarts] at hbegin
      cases hbegin
  · intro hhead
    exact hpercent (by simpa using hhead)

theorem plus_neighbour {m : Lexeme} {v x : Bytes} {b : UInt8} (hright : Shape m v)
    (hraw : m.raw = b :: x) (hdigit : Byte.isDigit b = false)
    (hpoint : b = 0x2E -> Numeral.startsHere (0x2B :: m.raw) = false) :
    Numeral.startsHere (0x2B :: (m.raw ++ v)) = false := by
  rw [Bool.eq_false_iff]
  intro hstart
  have hfront := startsHere_plus_front hright hstart
  have hb : b = 0x2E := by
    rw [startsHere_plus, hraw] at hfront
    rcases Bool.or_eq_true_iff.mp hfront with hd | hfraction
    · rw [show Byte.isDigit b = true from hd] at hdigit
      cases hdigit
    · unfold Numeral.startsFraction at hfraction
      split at hfraction
      · rename_i heq
        exact (List.cons.inj heq).1
      · cases hfraction
  rw [hpoint hb] at hfront
  cases hfront

theorem delim_neighbour {m : Lexeme} {s v x : Bytes} {b d : UInt8} (hlone : Lone d s)
    (hright : Shape m v) (hraw : m.raw = b :: x) (hslash : d ≠ 0x5C)
    (hsep : Token.continuesDelim [d] b = false) (hminus : d = 0x2D -> b ≠ 0x5C)
    (hplus : d = 0x2B -> b = 0x2E -> Numeral.startsHere (0x2B :: m.raw) = false) :
    EndsDelim d (b :: x ++ v) := by
  have hstop : Token.continuesName b = false -> EndsName (b :: x ++ v) := by
    intro hno c hc
    obtain rfl : b = c := by simpa using hc
    rcases Bool.or_eq_false_iff.mp hno with ⟨hname, hb⟩
    exact ⟨hname, by simpa using hb⟩
  apply endsDelim_of hlone hslash
  · rintro rfl
    apply startsName_hyphen_eq_false
    intro c hc
    obtain rfl : b = c := by simpa using hc
    simp only [Token.continuesDelim, Bool.or_eq_false_iff, beq_eq_false_iff_ne] at hsep
    exact ⟨by simp [Byte.isName, hsep], hminus rfl⟩
  · rintro (rfl | rfl | rfl)
    · rw [← hraw]
      exact plus_neighbour hright hraw hsep (hplus rfl)
    · apply startsHere_mark_eq_false (Or.inr (Or.inl rfl))
      intro c hc
      obtain rfl : b = c := by simpa using hc
      simp only [Token.continuesDelim, Bool.or_eq_false_iff, beq_eq_false_iff_ne] at hsep
      exact ⟨hsep.1.1.2, hsep.2⟩
    · show Byte.isDigit b = false
      exact hsep
  · rintro rfl
    exact Reader.name_read_none (hstop hsep)
  · rintro rfl
    exact startsName_eq_false (hstop hsep)
  · rintro rfl
    have hbang : b ≠ 0x21 := by simpa [Token.continuesDelim] using hsep
    unfold startsCdoTail
    split
    · rename_i heq
      exact absurd (List.cons.inj heq).1 hbang
    · rfl

theorem nameEnds_neighbour {m : Lexeme} {s v x : Bytes} {b : UInt8} (hright : Shape m v)
    (hraw : m.raw = b :: x) (hspace : m.kind ≠ .whitespace)
    (hno : Token.continuesName b = false) : NameEnds (b :: x ++ v) s := by
  rcases Bool.or_eq_false_iff.mp hno with ⟨hname, hb⟩
  constructor
  · intro c hc
    obtain rfl : b = c := by simpa using hc
    exact ⟨hname, by simpa using hb⟩
  · right
    apply sparing_of_front
    intro c hc
    obtain rfl : b = c := by simpa using hc
    refine ⟨hname, ?_⟩
    rw [Bool.eq_false_iff]
    intro hgap
    exact hspace (shape_of_isSpace hright (by rw [hraw]; rfl) hgap)

theorem ident_neighbour {right : Token} {m : Lexeme} {raw s v x : Bytes} {b : UInt8}
    (hm : right.Becomes m) (hright : Shape m v) (hraw : m.raw = b :: x)
    (hspace : m.kind ≠ .whitespace)
    (hsep : (right.kind == .leftParen || Token.continuesName b) = false)
    (hmark : raw = [0x2D, 0x2D] -> right.isDelim 0x3E = false) :
    NameEnds (b :: x ++ v) s ∧ (b :: x ++ v).head? ≠ some 0x28 ∧
      (raw = [0x2D, 0x2D] -> (b :: x ++ v).head? ≠ some 0x3E) := by
  rcases Bool.or_eq_false_iff.mp hsep with ⟨hparen, hname⟩
  refine ⟨nameEnds_neighbour hright hraw hspace hname, ?_, ?_⟩
  · intro hb
    obtain rfl : b = 0x28 := by simpa using hb
    have hparen' := eq_of_punctuation (b := 0x28) rfl hright (by rw [hraw]; rfl)
    have hlexeme := lexeme_of_kind hm (congrArg Lexeme.kind hparen') (by decide)
    rw [hparen'] at hlexeme
    have hkind : right.kind = .leftParen := (congrArg Lexeme.kind hlexeme).symm
    simp [hkind] at hparen
  · intro hdash hb
    obtain rfl : b = 0x3E := by simpa using hb
    have hgreater := eq_of_isSingle (b := 0x3E) rfl hright (by rw [hraw]; rfl)
    have hlexeme := lexeme_of_kind hm (congrArg Lexeme.kind hgreater) (by decide)
    rw [hgreater] at hlexeme
    have hkind : right.kind = .delim := (congrArg Lexeme.kind hlexeme).symm
    have hvalue : right.value = [0x3E] := (congrArg Lexeme.value hlexeme).symm
    have hno := hmark hdash
    simp [Token.isDelim, hkind, hvalue] at hno

theorem dimension_neighbour {m : Lexeme} {n z s v x : Bytes} {b : UInt8} (hright : Shape m v)
    (hraw : m.raw = b :: x) (hstop : EndsName (b :: x ++ v)) (hne : n ≠ [])
    (hunit : startsName (z ++ (b :: x ++ v)) = true)
    (hread : Numeral.read (n ++ (z ++ s)) = (n, z ++ s))
    (hplus : b = 0x2B -> (Numeral.read (n ++ (z ++ m.raw))).1 = (Numeral.read (n ++ z)).1) :
    Numeral.read (n ++ (z ++ (b :: x ++ v))) = (n, z ++ (b :: x ++ v)) := by
  by_cases hb : b = 0x2B
  · have hz := unit_ne_nil hstop hunit
    rw [← hraw] at hunit ⊢
    exact numeral_neighbour hne hz hright hunit hread (hplus hb)
  · apply numeral_again ?_ hne hunit hread
    intro c hc
    obtain rfl : b = c := by simpa using hc
    exact ⟨(hstop b rfl).1, (hstop b rfl).2, hb⟩

theorem spares_of_neighbour {left right : Token} {m : Lexeme} {s v : Bytes}
    (h : Shape left.lexeme s) (hm : right.Becomes m) (hright : Shape m v)
    (hhead : m.raw.head? = right.raw.head?) (hsep : Token.needsSeparator left right = false)
    (hfuse : left.fuses right = false) (hspace : left.kind ≠ .whitespace)
    (hspace' : m.kind ≠ .whitespace) (hslash : left.kind = .delim -> left.raw ≠ [0x5C])
    (hargument : left.kind = .function -> opensAddress left.value (m.raw ++ v) = false) :
    left.lexeme.Spares (m.raw ++ v) s := by
  rcases List.exists_cons_of_ne_nil (raw_ne_nil hright) with ⟨b, x, hraw⟩
  rw [hraw] at hhead hargument ⊢
  rcases List.head?_eq_some_iff.mp hhead.symm with ⟨y, hy⟩
  rw [needsSeparator_eq (raw_ne_nil h) hy] at hsep
  have hends : Token.continuesName b = false -> NameEnds (b :: x ++ v) s :=
    nameEnds_neighbour hright hraw hspace'
  -- only strings and addresses are closed when they are written, and none of them begins so
  have hsame : Byte.isDigit b = true ∨ b = 0x2E ∨ b = 0x2B -> right.raw = m.raw := by
    intro hb
    rcases kind_of_mark hright (by rw [hraw]; rfl) hb with ⟨hstring, hurl, hbad⟩
    rw [lexeme_of_becomes hm hstring hurl hbad]
    rfl
  rcases left with ⟨kind, value, raw, offset, afterComment, unterminated⟩
  simp only [Token.lexeme] at h hspace hslash hargument hsep ⊢
  cases h with
  | whitespace hne hall hfollow => exact absurd rfl hspace
  | ident hstart hscan hparen =>
      apply ident_neighbour hm hright hraw hspace' hsep
      intro hdash
      rw [Bool.eq_false_iff]
      intro hgreater
      simp only at hdash
      simp [Token.fuses, hdash, hgreater] at hfuse
  | function hstart hscan hquote => exact hargument rfl
  | atKeyword hstart hscan => exact hends hsep
  | hash hstart hscan => exact hends hsep
  | number hstart hread hname hpercent =>
      apply number_neighbour hm hright hraw hsep
      rintro rfl
      simp [Token.fuses, hy] at hfuse
  | dimension hstart hread hname hscan =>
      refine ⟨hends hsep, ?_⟩
      intro n z hz hne hunit hnumeral
      apply dimension_neighbour hright hraw (hends hsep).stop hne hunit hnumeral
      intro hplus
      simp only at hz
      simp [Token.fuses, hz, hsame (Or.inr (Or.inr hplus))] at hfuse
      exact hfuse.2
  | delim hlone =>
      rename_i d
      intro c hc
      obtain rfl : d = c := (List.cons.inj hc).1
      apply delim_neighbour hlone hright hraw
      · rintro rfl
        exact hslash rfl rfl
      · exact hsep
      · rintro rfl rfl
        simp [Token.fuses, Token.isDelim, hy] at hfuse
      · rintro rfl hpoint
        rw [Bool.eq_false_iff]
        intro hstart
        simp [Token.fuses, Token.isDelim, hsame (Or.inr (Or.inl hpoint)), hstart] at hfuse
  | punctuation hmark =>
      rcases punctuation?_cases hmark with rfl | rfl | rfl | rfl | rfl | rfl | rfl | rfl | rfl <;>
      · cases hmark
        trivial
  | _ => trivial

end Lexeme
end StyleTrim
