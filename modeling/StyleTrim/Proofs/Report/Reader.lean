import StyleTrim.Proofs.Report.Values
import StyleTrim.Text.Decimal
import StyleTrim.Text.Utf8
import StyleTrim.Token.Numeral

/-!
# Reading JSON text

A reader for JSON that owes nothing to the way reports are written. White space may stand between
marks; a string may hold every escape there is, surrogate pairs included; a number may have a
fraction and an exponent, but no needless zero in front. Bytes from 0x20 on stand for themselves in
a string, so texts need not be UTF-8.
-/

namespace StyleTrim
namespace Report

/-!
## Strings
-/

def hexValue (digits : Bytes) : Nat :=
  digits.foldl (fun n d => 16 * n + Byte.hexDigitValue d) 0

def readUnit? : Bytes -> Option (Nat × Bytes)
  | a :: b :: c :: d :: s =>
      if [a, b, c, d].all Byte.isHexDigit then some (hexValue [a, b, c, d], s) else none
  | _ => none

def readLowSurrogate? (high : Nat) : Bytes -> Option (Bytes × Bytes)
  | 0x5C :: 0x75 :: s =>
      match readUnit? s with
      | none => none
      | some (low, rest) =>
          if 0xDC00 ≤ low ∧ low < 0xE000 then
            some (Utf8.encode (0x10000 + 0x400 * (high - 0xD800) + (low - 0xDC00)), rest)
          else none
  | _ => none

def readCharacter? (s : Bytes) : Option (Bytes × Bytes) :=
  match readUnit? s with
  | none => none
  | some (unit, rest) =>
      if unit < 0xD800 ∨ 0xE000 ≤ unit then some (Utf8.encode unit, rest)
      else if unit < 0xDC00 then readLowSurrogate? unit rest
      else none

def escapedByte? (b : UInt8) : Option UInt8 :=
  match b with
  | 0x22 => some 0x22
  | 0x5C => some 0x5C
  | 0x2F => some 0x2F
  | 0x62 => some 0x08
  | 0x66 => some 0x0C
  | 0x6E => some 0x0A
  | 0x72 => some 0x0D
  | 0x74 => some 0x09
  | _ => none

def readEscape? : Bytes -> Option (Bytes × Bytes)
  | [] => none
  | b :: s =>
      if b = 0x75 then readCharacter? s
      else (escapedByte? b).map fun c => ([c], s)

theorem readUnit?_length {s rest : Bytes} {n : Nat} (h : readUnit? s = some (n, rest)) :
    rest.length < s.length := by
  unfold readUnit? at h
  split at h
  · split at h
    · cases h
      simp only [List.length_cons]
      omega
    · cases h
  · cases h

theorem readLowSurrogate?_length {s text rest : Bytes} {high : Nat}
    (h : readLowSurrogate? high s = some (text, rest)) : rest.length < s.length := by
  unfold readLowSurrogate? at h
  split at h
  · split at h
    · cases h
    · rename_i hunit
      split at h
      · rw [Option.some.injEq, Prod.mk.injEq] at h
        have hlength := readUnit?_length hunit
        rw [← h.2]
        simp only [List.length_cons]
        omega
      · cases h
  · cases h

theorem readCharacter?_length {s text rest : Bytes} (h : readCharacter? s = some (text, rest)) :
    rest.length < s.length := by
  unfold readCharacter? at h
  split at h
  · cases h
  · rename_i hunit
    have hlength := readUnit?_length hunit
    split at h
    · cases h
      exact hlength
    · split at h
      · exact Nat.lt_trans (readLowSurrogate?_length h) hlength
      · cases h

theorem readEscape?_length {s text rest : Bytes} (h : readEscape? s = some (text, rest)) :
    rest.length < s.length := by
  unfold readEscape? at h
  split at h
  · cases h
  · split at h
    · exact Nat.lt_trans (readCharacter?_length h) (Nat.lt_succ_self _)
    · rcases Option.map_eq_some_iff.mp h with ⟨c, _, heq⟩
      cases heq
      exact Nat.lt_succ_self _

def readString? (s : Bytes) : Option (Bytes × Bytes) :=
  match s with
  | [] => none
  | b :: s =>
      if b = 0x22 then some ([], s)
      else if b = 0x5C then
        match _h : readEscape? s with
        | none => none
        | some (text, rest) =>
            (readString? rest).map fun found => (text ++ found.1, found.2)
      else if b < 0x20 then none
      else (readString? s).map fun found => (b :: found.1, found.2)
termination_by s.length
decreasing_by
  · have hlength := readEscape?_length _h
    simp only [List.length_cons]
    omega
  · exact Nat.lt_succ_self _

theorem readString?_length {s text rest : Bytes} (h : readString? s = some (text, rest)) :
    rest.length < s.length := by
  fun_induction readString? s generalizing text with
  | case1 => cases h
  | case2 s =>
      cases h
      exact Nat.lt_succ_self _
  | case3 => cases h
  | case4 s text' rest' hescape _ ih =>
      rcases Option.map_eq_some_iff.mp h with ⟨found, hfound, heq⟩
      cases heq
      have hlength := Nat.lt_trans (ih hfound) (readEscape?_length hescape)
      exact Nat.lt_trans hlength (Nat.lt_succ_self _)
  | case5 => cases h
  | case6 b s _ _ _ ih =>
      rcases Option.map_eq_some_iff.mp h with ⟨found, hfound, heq⟩
      cases heq
      exact Nat.lt_trans (ih hfound) (Nat.lt_succ_self _)

/-!
## Numbers
-/

def exponentValue (written : Bytes) : Int :=
  match written.tail with
  | 0x2D :: digits => -(Decimal.value digits : Int)
  | 0x2B :: digits => Decimal.value digits
  | digits => Decimal.value digits

def isWhole (digits : Bytes) : Bool :=
  !digits.isEmpty && (digits.head? != some 0x30 || digits.length == 1)

def readMagnitude? (negative : Bool) (s : Bytes) : Option (Scalar × Bytes) :=
  let whole := Numeral.digits s
  let fraction := Numeral.fraction whole.2
  let exponent := Numeral.exponent fraction.2
  if isWhole whole.1 then
    let places := fraction.1.tail
    let magnitude := Decimal.value (whole.1 ++ places)
    some
      (.number (if negative then -(magnitude : Int) else magnitude)
        (exponentValue exponent.1 - places.length), exponent.2)
  else none

def readNumber? : Bytes -> Option (Scalar × Bytes)
  | [] => none
  | b :: s => if b = 0x2D then readMagnitude? true s else readMagnitude? false (b :: s)

theorem readMagnitude?_length {negative : Bool} {s rest : Bytes} {value : Scalar}
    (h : readMagnitude? negative s = some (value, rest)) : rest.length < s.length := by
  unfold readMagnitude? at h
  dsimp only at h
  split at h
  · rename_i hwhole
    simp only [Option.some.injEq, Prod.mk.injEq] at h
    have hdigits := congrArg List.length (Numeral.digits_append s)
    have hfraction := congrArg List.length (Numeral.fraction_append (Numeral.digits s).2)
    have hexponent := congrArg List.length
      (Numeral.exponent_append (Numeral.fraction (Numeral.digits s).2).2)
    have hne : 0 < (Numeral.digits s).1.length := by
      apply List.length_pos_iff.mpr
      rintro hnil
      rw [hnil] at hwhole
      cases hwhole
    rw [← h.2]
    simp only [List.length_append] at hdigits hfraction hexponent
    omega
  · cases h

theorem readNumber?_length {s rest : Bytes} {value : Scalar}
    (h : readNumber? s = some (value, rest)) : rest.length < s.length := by
  unfold readNumber? at h
  split at h
  · cases h
  · split at h
    · exact Nat.lt_trans (readMagnitude?_length h) (Nat.lt_succ_self _)
    · exact readMagnitude?_length h

/-!
## Marks
-/

def punctuation? (b : UInt8) : Option Mark :=
  match b with
  | 0x5B => some .openArray
  | 0x5D => some .closeArray
  | 0x7B => some .openObject
  | 0x7D => some .closeObject
  | 0x3A => some .colon
  | 0x2C => some .comma
  | _ => none

def namedScalars : List (Bytes × Scalar) :=
  [(ascii "true", .bool true), (ascii "false", .bool false), (ascii "null", .null)]

def readNamed? (s : Bytes) : Option (Scalar × Bytes) :=
  namedScalars.findSome? fun entry =>
    if entry.1.isPrefixOf s then some (entry.2, s.drop entry.1.length) else none

def readMark? (s : Bytes) : Option (Mark × Bytes) :=
  match s with
  | [] => none
  | b :: rest =>
      if b = 0x22 then (readString? rest).map fun found => (.scalar (.string found.1), found.2)
      else
        match punctuation? b with
        | some mark => some (mark, rest)
        | none =>
            ((readNamed? s).or (readNumber? s)).map fun found => (.scalar found.1, found.2)

def isSpace (b : UInt8) : Bool :=
  b == 0x20 || b == 0x09 || b == 0x0A || b == 0x0D

theorem readNamed?_length {s rest : Bytes} {value : Scalar}
    (h : readNamed? s = some (value, rest)) : rest.length < s.length := by
  rcases List.exists_of_findSome?_eq_some h with ⟨⟨name, named⟩, hmem, hread⟩
  have hne : ∀ entry ∈ namedScalars, 0 < entry.1.length := by decide
  have hname := hne (name, named) hmem
  dsimp only at hread hname
  split at hread
  · rename_i hprefix
    cases hread
    have hlength := (List.isPrefixOf_iff_prefix.mp hprefix).length_le
    rw [List.length_drop]
    omega
  · cases hread

theorem readMark?_length {s rest : Bytes} {mark : Mark} (h : readMark? s = some (mark, rest)) :
    rest.length < s.length := by
  unfold readMark? at h
  split at h
  · cases h
  · split at h
    · rcases Option.map_eq_some_iff.mp h with ⟨found, hfound, heq⟩
      cases heq
      exact Nat.lt_trans (readString?_length hfound) (Nat.lt_succ_self _)
    · split at h
      · cases h
        exact Nat.lt_succ_self _
      · rcases Option.map_eq_some_iff.mp h with ⟨found, hfound, heq⟩
        cases heq
        rcases Option.or_eq_some_iff.mp hfound with hnamed | ⟨-, hnumber⟩
        · exact readNamed?_length hnamed
        · exact readNumber?_length hnumber

def readMarks? (s : Bytes) : Option (List Mark) :=
  match _h : s.dropWhile isSpace with
  | [] => some []
  | b :: more =>
      match _hmark : readMark? (b :: more) with
      | none => none
      | some (mark, rest) => (readMarks? rest).map (mark :: ·)
termination_by s.length
decreasing_by
  have hlength := readMark?_length _hmark
  have hdropped := (List.dropWhile_sublist (l := s) isSpace).length_le
  rw [_h] at hdropped
  omega

theorem readMarks?_nil {s : Bytes} (h : s.dropWhile isSpace = []) : readMarks? s = some [] := by
  rw [readMarks?]
  split
  · rfl
  · rename_i hmore
    rw [h] at hmore
    cases hmore

section

variable {s more : Bytes} {b : UInt8}

theorem readMarks?_none (h : s.dropWhile isSpace = b :: more)
    (hmark : readMark? (b :: more) = none) : readMarks? s = none := by
  rw [readMarks?]
  split
  · rename_i hnil
    rw [h] at hnil
    cases hnil
  · rename_i hmore
    rw [h] at hmore
    cases hmore
    split
    · rfl
    · rename_i hsome
      rw [hmark] at hsome
      cases hsome

theorem readMarks?_some (h : s.dropWhile isSpace = b :: more) {found : Mark × Bytes}
    (hmark : readMark? (b :: more) = some found) :
    readMarks? s = (readMarks? found.2).map (found.1 :: ·) := by
  rw [readMarks?]
  split
  · rename_i hnil
    rw [h] at hnil
    cases hnil
  · rename_i hmore
    rw [h] at hmore
    cases hmore
    split
    · rename_i hnone
      rw [hmark] at hnone
      cases hnone
    · rename_i hsome
      rw [hmark] at hsome
      cases hsome
      rfl

end

/-- The one value that a text is, with white space around its marks. -/
def Value.read? (s : Bytes) : Option Value :=
  (readMarks? s).bind Value.ofMarks?

end Report
end StyleTrim
