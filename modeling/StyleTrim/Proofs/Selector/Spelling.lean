import Mathlib.Data.Nat.Digits.Defs
import StyleTrim.Selector.Matching
import StyleTrim.Proofs.Selector.Spacing
import StyleTrim.Proofs.Token.Rewritten
import StyleTrim.Proofs.Text.Characters

/-!
# Spellings of a name

A name can be written in many ways: each of its characters as it is, by its number, or behind a
backslash. `SpellsName` lists the spellings without speaking of a reader. Whatever the spelling,
the reader finds the same name: the characters in UTF-8. So a class or an id is the same to the
matching of selectors, however it is written.
-/

namespace StyleTrim
namespace Spelling

open Lexeme Token

/-!
## How a character can be written
-/

/-- A hexadecimal digit. A digit beyond nine is a letter, which may be a capital. -/
structure HexDigit where
  value : Fin 16
  capital : Bool

def HexDigit.byte (d : HexDigit) : UInt8 :=
  if d.value.val < 10 then UInt8.ofNat (0x30 + d.value.val)
  else if d.capital then UInt8.ofNat (0x37 + d.value.val)
  else UInt8.ofNat (0x57 + d.value.val)

def number (digits : List HexDigit) : Nat :=
  Nat.ofDigits 16 (digits.reverse.map fun d => d.value.val)

def standsPlain (first : Bool) (c : Char) : Bool :=
  c.isAlpha || c == '_' || 0x80 ≤ c.toNat || (!first && (c.isDigit || c == '-'))

/-- The character stands for itself behind a backslash: no hexadecimal digit, and no end of a
line. -/
def standsEscaped (c : Char) : Bool :=
  !"0123456789abcdefABCDEF\n\r\x0C".toList.contains c

inductive Spells (first : Bool) (c : Char) : Bytes -> Prop where
  | plain (hplain : standsPlain first c = true) : Spells first c (String.utf8EncodeChar c)
  | digits {digits : List HexDigit} {gap : UInt8} (hsome : digits ≠ [])
      (hcount : digits.length ≤ 6) (hnumber : number digits = c.toNat)
      (hgap : gap ∈ [0x20, 0x09, 0x0A, 0x0C]) :
      Spells first c (0x5C :: (digits.map HexDigit.byte ++ [gap]))
  | escaped (hplain : standsEscaped c = true) : Spells first c (0x5C :: String.utf8EncodeChar c)

/-- The text is a spelling of the characters, none of which is zero. The mark tells whether they
begin the name. -/
inductive SpellsName : Bool -> List Char -> Bytes -> Prop where
  | nil {first : Bool} : SpellsName first [] []
  | cons {first : Bool} {c : Char} {cs : List Char} {x text : Bytes} (hzero : c ≠ '\x00')
      (hfirst : Spells first c x) (hmore : SpellsName false cs text) :
      SpellsName first (c :: cs) (x ++ text)

/-- The name itself: its characters in UTF-8. -/
def nameOf (cs : List Char) : Bytes :=
  cs.flatMap String.utf8EncodeChar

/-!
## Digits
-/

theorem isHexDigit_byte (d : HexDigit) : Byte.isHexDigit d.byte = true := by
  rcases d with ⟨value, capital⟩
  revert value capital
  decide

theorem hexDigitValue_byte (d : HexDigit) : Byte.hexDigitValue d.byte = d.value.val := by
  rcases d with ⟨value, capital⟩
  revert value capital
  decide

theorem number_concat (digits : List HexDigit) (d : HexDigit) :
    number (digits ++ [d]) = 16 * number digits + d.value.val := by
  simp [number, Nat.ofDigits_cons]
  omega

theorem hexValue_byte (digits : List HexDigit) :
    Escape.hexValue (digits.map HexDigit.byte) = number digits := by
  induction digits using List.reverseRecOn with
  | nil => rfl
  | append_singleton digits d ih =>
      rw [number_concat, ← ih, ← hexDigitValue_byte]
      simp [Escape.hexValue]

/-!
## The bytes of a character
-/

theorem encodeChar_cases (c : Char) :
    (c.toNat < 0x80 ∧ String.utf8EncodeChar c = [UInt8.ofNat c.toNat]) ∨
      (∃ b tail, String.utf8EncodeChar c = b :: tail ∧ ∀ x ∈ b :: tail, 0x80 ≤ x) := by
  rcases Utf8.encodeChar_parts c with ⟨b, tail, hparts, _, htail, _⟩
  by_cases hlow : c.toNat < 0x80
  · left
    refine ⟨hlow, ?_⟩
    rw [String.utf8EncodeChar]
    exact if_pos (Nat.le_of_lt_succ hlow)
  · right
    refine ⟨b, tail, hparts, ?_⟩
    rw [List.forall_mem_cons]
    constructor
    · rw [String.utf8EncodeChar] at hparts
      have hhigh : ¬c.val.toNat ≤ 0x7F := fun hle => hlow (Nat.lt_succ_of_le hle)
      rw [if_neg hhigh] at hparts
      split at hparts
      · rw [← (List.cons.inj hparts).1, UInt8.le_iff_toNat_le]
        simp
        omega
      · split at hparts
        · rw [← (List.cons.inj hparts).1, UInt8.le_iff_toNat_le]
          simp
          omega
        · rw [← (List.cons.inj hparts).1, UInt8.le_iff_toNat_le]
          simp
          omega
    · intro x hx
      have hcontinues := htail x hx
      simp only [Utf8.isContinuation, Bool.and_eq_true, decide_eq_true_eq] at hcontinues
      exact hcontinues.1

theorem isNameStart_of_high {b : UInt8} (h : 0x80 ≤ b) : Byte.isNameStart b = true := by
  simp [Byte.isNameStart, h]

theorem isName_of_plain {first : Bool} {c : Char} (h : standsPlain first c = true) :
    ∀ b ∈ String.utf8EncodeChar c, Byte.isName b = true := by
  have hascii : ∀ n < 0x80, standsPlain first (Char.ofNat n) = true ->
      Byte.isName (UInt8.ofNat n) = true := by
    clear h
    revert first
    decide +kernel
  rcases encodeChar_cases c with ⟨hlow, hc⟩ | ⟨b, tail, hc, hhigh⟩
  · rw [hc, List.forall_mem_singleton]
    apply hascii c.toNat hlow
    rw [Char.ofNat_toNat]
    exact h
  · rw [hc]
    intro x hx
    exact Byte.isName_of_isNameStart (isNameStart_of_high (hhigh x hx))

theorem isNameStart_of_plain {c : Char} (h : standsPlain true c = true) :
    ∃ b tail, String.utf8EncodeChar c = b :: tail ∧ Byte.isNameStart b = true := by
  have hascii : ∀ n < 0x80, standsPlain true (Char.ofNat n) = true ->
      Byte.isNameStart (UInt8.ofNat n) = true := by
    decide +kernel
  rcases encodeChar_cases c with ⟨hlow, hc⟩ | ⟨b, tail, hc, hhigh⟩
  · refine ⟨_, [], hc, hascii c.toNat hlow ?_⟩
    rw [Char.ofNat_toNat]
    exact h
  · exact ⟨b, tail, hc, isNameStart_of_high (hhigh b List.mem_cons_self)⟩

theorem encodeChar_of_escaped {c : Char} (h : standsEscaped c = true) :
    ∃ b tail, String.utf8EncodeChar c = b :: tail ∧ b ≠ 0x0A ∧ Byte.isHexDigit b = false ∧
      ∀ x ∈ tail, Byte.isName x = true := by
  have hascii : ∀ n < 0x80, standsEscaped (Char.ofNat n) = true ->
      UInt8.ofNat n ≠ 0x0A ∧ Byte.isHexDigit (UInt8.ofNat n) = false := by
    decide +kernel
  rcases encodeChar_cases c with ⟨hlow, hc⟩ | ⟨b, tail, hc, hhigh⟩
  · have hplain := hascii c.toNat hlow (by rw [Char.ofNat_toNat]; exact h)
    exact ⟨_, [], hc, hplain.1, hplain.2, nofun⟩
  · rw [List.forall_mem_cons] at hhigh
    refine ⟨b, tail, hc, ?_, ?_, ?_⟩
    · rintro rfl
      exact absurd hhigh.1 (by decide)
    · rw [Bool.eq_false_iff]
      intro hhex
      exact absurd (Byte.ascii_of_isHexDigit hhex) (UInt8.not_lt.mpr hhigh.1)
    · intro x hx
      exact Byte.isName_of_isNameStart (isNameStart_of_high (hhigh.2 x hx))

/-!
## Reading a spelling
-/

def Adds (x v : Bytes) : Prop :=
  ∀ s, Reader.name.scan (x ++ s) =
    ⟨v ++ (Reader.name.scan s).value, x ++ (Reader.name.scan s).raw, (Reader.name.scan s).rest⟩

theorem Adds.nil : Adds [] [] :=
  fun _ => rfl

theorem Adds.append {x v y w : Bytes} (hx : Adds x v) (hy : Adds y w) :
    Adds (x ++ y) (v ++ w) := by
  intro s
  rw [List.append_assoc, hx, hy]
  simp

theorem adds_of_read {p : Piece} (h : ∀ s, Reader.name.read (p.raw ++ s) = some (p, s)) :
    Adds p.raw p.value :=
  fun s => Reader.name.scan_some (h s)

theorem adds_of_isName {x : Bytes} (h : ∀ b ∈ x, Byte.isName b = true) : Adds x x := by
  induction x with
  | nil => exact Adds.nil
  | cons b x ih =>
      rw [List.forall_mem_cons] at h
      have hb : Adds [b] [b] :=
        adds_of_read (p := .plain b) fun s => Reader.name_read_of_isName s h.1
      exact hb.append (ih h.2)

theorem adds_of_digits {digits : List HexDigit} {gap : UInt8} {c : Char} (hsome : digits ≠ [])
    (hcount : digits.length ≤ 6) (hnumber : number digits = c.toNat) (hzero : c ≠ '\x00')
    (hgap : gap ∈ [0x20, 0x09, 0x0A, 0x0C]) :
    Adds (0x5C :: (digits.map HexDigit.byte ++ [gap])) (String.utf8EncodeChar c) := by
  have hspace : Byte.isSpace gap = true ∧ gap ≠ 0x0D ∧ Byte.isHexDigit gap = false := by
    revert gap
    decide +kernel
  have hscalar : Utf8.scalarOrReplacement (Escape.hexValue (digits.map HexDigit.byte)) =
      c.toNat := by
    have hpositive : c.toNat ≠ 0 := fun h => hzero (Char.toNat_inj.mp h)
    have hvalid := c.valid
    rw [hexValue_byte, hnumber, Utf8.scalarOrReplacement, if_neg]
    rw [UInt32.isValidChar, Nat.isValidChar] at hvalid
    change c.toNat < _ ∨ _ < c.toNat ∧ c.toNat < _ at hvalid
    omega
  have hvalue : Utf8.encode (Utf8.scalarOrReplacement
      (Escape.hexValue (digits.map HexDigit.byte))) = String.utf8EncodeChar c := by
    have hencode : Utf8.encode c.toNat = String.utf8EncodeChar (Char.ofNat c.toNat) :=
      Utf8.encode_eq c.valid
    rw [hscalar, hencode, Char.ofNat_toNat]
  rw [← hvalue]
  apply adds_of_read
    (p := ⟨0x5C :: (digits.map HexDigit.byte ++ [gap]), Utf8.encode (Utf8.scalarOrReplacement
      (Escape.hexValue (digits.map HexDigit.byte)))⟩)
  intro s
  have hdigits : Escape.hexDigits (digits.map HexDigit.byte ++ ([gap] ++ s)) =
      digits.map HexDigit.byte := by
    rw [Escape.hexDigits_append_eq]
    refine ⟨?_, by simpa using hcount, Or.inr ?_⟩
    · simp [isHexDigit_byte]
    · intro b hb
      obtain rfl : gap = b := by simpa using hb
      exact hspace.2.2
  have hterminator : Escape.terminator ([gap] ++ s) = [gap] := by
    rw [Escape.terminator_append_eq]
    exact Or.inr (Or.inl ⟨gap, rfl, hspace.1, fun hcr => absurd hcr hspace.2.1⟩)
  have hread := Escape.read_digits (by simpa using hsome) hdigits hterminator
  apply Reader.name_read_of_escape
  simpa using hread

theorem adds_of_escaped {c : Char} (h : standsEscaped c = true) :
    Adds (0x5C :: String.utf8EncodeChar c) (String.utf8EncodeChar c) := by
  rcases encodeChar_of_escaped h with ⟨b, tail, hc, hline, hhex, htail⟩
  rw [hc]
  have hpair : Adds [0x5C, b] [b] :=
    adds_of_read (p := ⟨[0x5C, b], [b]⟩) fun s =>
      Reader.name_read_of_escape (Escape.read_pair hline hhex s)
  exact hpair.append (adds_of_isName htail)

theorem Spells.adds {first : Bool} {c : Char} {x : Bytes} (h : Spells first c x)
    (hzero : c ≠ '\x00') : Adds x (String.utf8EncodeChar c) := by
  cases h with
  | plain hplain => exact adds_of_isName (isName_of_plain hplain)
  | digits hsome hcount hnumber hgap => exact adds_of_digits hsome hcount hnumber hzero hgap
  | escaped hplain => exact adds_of_escaped hplain

theorem SpellsName.adds {first : Bool} {cs : List Char} {text : Bytes}
    (h : SpellsName first cs text) : Adds text (nameOf cs) := by
  induction h with
  | nil => exact Adds.nil
  | cons hzero hfirst hmore ih => exact (hfirst.adds hzero).append ih

theorem SpellsName.scan {first : Bool} {cs : List Char} {text rest : Bytes}
    (h : SpellsName first cs text) (hstop : EndsName rest) :
    Reader.name.scan (text ++ rest) = ⟨nameOf cs, text, rest⟩ := by
  rw [h.adds rest, Reader.name.scan_none (Reader.name_read_none hstop)]
  simp

theorem SpellsName.front {cs : List Char} {text : Bytes} (h : SpellsName true cs text)
    (hne : cs ≠ []) (rest : Bytes) :
    ∃ b x, text ++ rest = b :: x ∧
      (Byte.isNameStart b = true ∨ (b = 0x5C ∧ Escape.startsHere (b :: x) = true)) := by
  cases h with
  | nil => exact absurd rfl hne
  | cons hzero hfirst hmore =>
      rename_i c cs x text
      cases hfirst with
      | plain hplain =>
          rcases isNameStart_of_plain hplain with ⟨b, tail, hc, hstart⟩
          exact ⟨b, _, by rw [hc]; rfl, Or.inl hstart⟩
      | digits hsome hcount hnumber hgap =>
          rename_i digits gap
          rcases List.exists_cons_of_ne_nil hsome with ⟨d, more, rfl⟩
          refine ⟨0x5C, _, rfl, Or.inr ⟨rfl, ?_⟩⟩
          have hline : d.byte ≠ 0x0A := by
            intro hline
            have hhex := isHexDigit_byte d
            rw [hline] at hhex
            cases hhex
          simpa [Escape.startsHere] using hline
      | escaped hplain =>
          rcases encodeChar_of_escaped hplain with ⟨b, tail, hc, hline, _⟩
          refine ⟨0x5C, _, rfl, Or.inr ⟨rfl, ?_⟩⟩
          simpa [hc, Escape.startsHere] using hline

theorem SpellsName.startsNamed {cs : List Char} {text : Bytes} (h : SpellsName true cs text)
    (hne : cs ≠ []) (rest : Bytes) : StartsNamed (text ++ rest) := by
  rcases h.front hne rest with ⟨b, x, heq, hstart | ⟨rfl, hescape⟩⟩
  · rw [heq]
    refine ⟨startsName_of_isNameStart hstart x, ?_⟩
    have hb : b ≠ 0x2D := by
      rintro rfl
      exact absurd hstart (by decide)
    unfold startsCdc
    split
    · rename_i hdash
      exact absurd (List.cons.inj hdash).1 hb
    · rfl
  · rw [heq]
    exact ⟨(startsName_of_escape hescape).1, rfl⟩

/-!
## The tokens of a spelling
-/

variable {cs : List Char} {text rest : Bytes}

/-- No name goes on at the front of the text, and no function begins there. -/
def Ends (rest : Bytes) : Prop :=
  ∀ b ∈ rest.head?, Byte.isName b = false ∧ b ≠ 0x5C ∧ b ≠ 0x28

theorem Ends.endsName (h : Ends rest) : EndsName rest :=
  fun b hb => ⟨(h b hb).1, (h b hb).2.1⟩

theorem Ends.nil : Ends [] :=
  nofun

theorem stands_ident (h : SpellsName true cs text) (hne : cs ≠ []) (hend : Ends rest) :
    Stands ⟨.ident, nameOf cs, text, false⟩ rest := by
  have hshape : Shape ⟨.ident, nameOf cs, text, false⟩ rest := by
    apply Shape.ident (h.startsNamed hne rest) (h.scan hend.endsName)
    intro hparen
    exact (hend 0x28 hparen).2.2 rfl
  exact stands_of_mindsEscape hshape (Or.inl rfl)

theorem stands_hash (h : SpellsName true cs text) (hne : cs ≠ []) (hend : Ends rest) :
    Stands ⟨.hash, nameOf cs, 0x23 :: text, false⟩ rest := by
  have hshape : Shape ⟨.hash, nameOf cs, 0x23 :: text, false⟩ rest :=
    Shape.hash (name_read_of_startsName (h.startsNamed hne rest).1) (h.scan hend.endsName)
  exact stands_of_mindsEscape hshape (Or.inr (Or.inr (Or.inl rfl)))

theorem stands_point (h : SpellsName true cs text) (hne : cs ≠ []) :
    Stands (delim 0x2E) text := by
  refine stands_of_shape (.delim ⟨rfl, rfl, rfl, rfl, ?_, nofun, nofun, nofun⟩) ?_
  rotate_left
  · simp [delim, verbatim]
  rcases h.front hne [] with ⟨b, x, heq, hfront⟩
  rw [List.append_nil] at heq
  show Numeral.startsWithDigit text = false
  rw [heq]
  show Byte.isDigit b = false
  rcases hfront with hstart | ⟨rfl, _⟩
  · exact Byte.isDigit_of_isNameStart hstart
  · rfl

theorem tokenize_ident (h : SpellsName true cs text) (hne : cs ≠ []) (hend : Ends rest) :
    (tokenize (text ++ rest)).head? = some ⟨.ident, nameOf cs, text, 0, false, false⟩ := by
  have hstream := streamFrom_of_stands 0 (stands_ident h hne hend)
  have hsplit : text ++ rest = (⟨.ident, nameOf cs, text, false⟩ : Lexeme).raw ++ rest := rfl
  rw [tokenize, hsplit, hstream]
  rfl

theorem tokenize_hash (h : SpellsName true cs text) (hne : cs ≠ []) (hend : Ends rest) :
    tokenize (0x23 :: (text ++ rest)) =
      ⟨.hash, nameOf cs, 0x23 :: text, 0, false, false⟩ ::
        streamFrom (0x23 :: text).length rest := by
  have hstream := streamFrom_of_stands 0 (stands_hash h hne hend)
  rw [Nat.zero_add] at hstream
  exact hstream

theorem tokenize_class (h : SpellsName true cs text) (hne : cs ≠ []) :
    tokenize (0x2E :: text) =
      [⟨.delim, [0x2E], [0x2E], 0, false, false⟩, ⟨.ident, nameOf cs, text, 1, false, false⟩,
        endAt (1 + text.length) false] := by
  have hpoint := streamFrom_of_stands 0 (stands_point h hne)
  have hname := streamFrom_of_stands 1 (stands_ident h hne Ends.nil)
  rw [List.append_nil, streamFrom_end] at hname
  change tokenize (0x2E :: text) = _ :: streamFrom 1 text at hpoint
  change streamFrom 1 text = _ at hname
  rw [hpoint, hname]
  rfl

/-!
## Selectors
-/

theorem ofTokens_simple {t : Token} {ts us : List Token} {s : Simple} (hbody : body ts = t :: us)
    (hspace : t.kind ≠ .whitespace) (hread : Simple.read? none t us = some (.ok (s, []))) :
    SelectorList.ofTokens ts = .ok [⟨[s], []⟩] := by
  have hcompound : Selector.readCompound (t :: us) = .ok ([s], []) := by
    have htaken : Simple.read? (List.head? []) t us = some (.ok (s, [])) := hread
    rw [Selector.readCompound, Selector.collectCompound_some htaken, Selector.collectCompound]
    rfl
  have hcomplex : Selector.readComplex (t :: us) = .ok (⟨[s], []⟩, []) := by
    rw [Selector.readComplex, hcompound]
    simp only
    rw [Selector.collectParts_none rfl]
    rfl
  rw [SelectorList.ofTokens, hbody, Simple.skipSpace_visible us hspace]
  simp only
  rw [Selector.collectList_eq, hcomplex]
  rfl

theorem ofText_eq {s : Bytes} (h : (tokenize s).any Token.isBad = false) :
    SelectorList.ofText s = SelectorList.ofTokens (tokenize s) := by
  simp [SelectorList.ofText, h]

theorem ofText_class (h : SpellsName true cs text) (hne : cs ≠ []) :
    SelectorList.ofText (0x2E :: text) = .ok [⟨[.className (nameOf cs)], []⟩] := by
  have hread : Simple.read? none ⟨.delim, [0x2E], [0x2E], 0, false, false⟩
      [⟨.ident, nameOf cs, text, 1, false, false⟩] = some (.ok (.className (nameOf cs), [])) := rfl
  have htokens := tokenize_class h hne
  rw [ofText_eq (by rw [htokens]; rfl), htokens]
  exact ofTokens_simple rfl (by simp) hread

theorem ofText_id (h : SpellsName true cs text) (hne : cs ≠ []) :
    SelectorList.ofText (0x23 :: text) = .ok [⟨[.id (nameOf cs)], []⟩] := by
  have htokens := tokenize_hash h hne Ends.nil
  rw [List.append_nil, streamFrom_end] at htokens
  have hread : Simple.read? none ⟨.hash, nameOf cs, 0x23 :: text, 0, false, false⟩ [] =
      some (.ok (.id (nameOf cs), [])) := rfl
  rw [ofText_eq (by rw [htokens]; rfl), htokens]
  exact ofTokens_simple rfl (by simp) hread

/-- Whatever the spelling of a name, the tokenizer reads the name, in UTF-8, from the whole of it;
and a class or an id that is written so matches the facts that hold the name. -/
theorem name_however_spelled (hspells : SpellsName true cs text) (hne : cs ≠ [])
    (hend : Ends rest) :
    (tokenize (text ++ rest)).head? = some ⟨.ident, nameOf cs, text, 0, false, false⟩ ∧
      (tokenize (0x23 :: (text ++ rest))).head? =
        some ⟨.hash, nameOf cs, 0x23 :: text, 0, false, false⟩ ∧
      (∃ list, SelectorList.ofText (0x2E :: text) = .ok list ∧
        ∀ facts, list.mayMatchAny facts = facts.classes.contains (nameOf cs)) ∧
      (∃ list, SelectorList.ofText (0x23 :: text) = .ok list ∧
        ∀ facts, list.mayMatchAny facts = facts.ids.contains (nameOf cs)) := by
  refine ⟨tokenize_ident hspells hne hend, ?_, ?_, ?_⟩
  · rw [tokenize_hash hspells hne hend]
    rfl
  · refine ⟨_, ofText_class hspells hne, fun facts => ?_⟩
    simp [SelectorList.mayMatchAny, Complex.mayMatch, Complex.compounds, Simple.mayMatch]
  · refine ⟨_, ofText_id hspells hne, fun facts => ?_⟩
    simp [SelectorList.mayMatchAny, Complex.mayMatch, Complex.compounds, Simple.mayMatch]

theorem name_however_spelled_mixed :
    let name := ascii "sm:" ++ [0xC2, 0xBD]
    let text := ascii "\\00073 m\\:" ++ [0xC2, 0xBD]
    (tokenize (text ++ ascii ">p")).head? = some ⟨.ident, name, text, 0, false, false⟩ ∧
      (tokenize (0x23 :: (text ++ ascii ">p"))).head? =
        some ⟨.hash, name, 0x23 :: text, 0, false, false⟩ ∧
      (∃ list, SelectorList.ofText (0x2E :: text) = .ok list ∧
        ∀ facts, list.mayMatchAny facts = facts.classes.contains name) ∧
      (∃ list, SelectorList.ofText (0x23 :: text) = .ok list ∧
        ∀ facts, list.mayMatchAny facts = facts.ids.contains name) := by
  have hs : Spells true 's' (ascii "\\00073 ") :=
    @Spells.digits true 's' [⟨0, false⟩, ⟨0, false⟩, ⟨0, false⟩, ⟨7, false⟩, ⟨3, false⟩] 0x20
      (by simp) (by decide) (by decide) (by decide)
  have hm : Spells false 'm' (ascii "m") := .plain (by decide)
  have hcolon : Spells false ':' (ascii "\\:") := .escaped (by decide)
  have hhalf : Spells false '½' [0xC2, 0xBD] := .plain (by decide)
  have hname : SpellsName true ['s', 'm', ':', '½']
      (ascii "\\00073 " ++ (ascii "m" ++ (ascii "\\:" ++ ([0xC2, 0xBD] ++ [])))) :=
    .cons (by decide) hs (.cons (by decide) hm (.cons (by decide) hcolon
      (.cons (by decide) hhalf .nil)))
  have hend : Ends (ascii ">p") := by
    rintro b ⟨⟩
    decide
  exact name_however_spelled hname (by simp) hend

end Spelling
end StyleTrim
