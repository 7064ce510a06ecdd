import StyleTrim.Text.Word
import StyleTrim.Token.Basic
import StyleTrim.Token.Numeral
import StyleTrim.Token.Reader

/-!
# Lexemes

A lexeme is a token without its place. `Lexeme.read` reads the one at the front of a text that is
not empty and does not start with a comment. The first byte decides which rule applies.
-/

namespace StyleTrim

structure Lexeme where
  kind : TokenKind
  value : Bytes
  raw : Bytes
  unterminated : Bool

namespace Lexeme

/-- A lexeme whose value is its own text. -/
def verbatim (kind : TokenKind) (raw : Bytes) : Lexeme :=
  ⟨kind, raw, raw, false⟩

/-- The byte is not the start of anything longer. -/
def delim (b : UInt8) : Lexeme :=
  verbatim .delim [b]

/-!
## Strings and addresses
-/

def readString (quote : UInt8) (s : Bytes) : Lexeme × Bytes :=
  let body := (Reader.quoted quote).scan s
  match body.rest with
  | [] => (⟨.string, body.value, quote :: body.raw, true⟩, [])
  | b :: rest =>
      if b = quote then (⟨.string, body.value, quote :: (body.raw ++ [b]), false⟩, rest)
      else (⟨.badString, body.value, quote :: body.raw, false⟩, b :: rest)

def readBadAddress (value opening s : Bytes) : Lexeme × Bytes :=
  let tail := Reader.remnant.scan s
  match tail.rest with
  | [] => (⟨.badUrl, value, opening ++ tail.raw, true⟩, [])
  | b :: rest => (⟨.badUrl, value, opening ++ tail.raw ++ [b], false⟩, rest)

def readAddress (opening s : Bytes) : Lexeme × Bytes :=
  let body := Reader.address.scan s
  let raw := opening ++ body.raw ++ body.rest.takeWhile Byte.isSpace
  match body.rest.dropWhile Byte.isSpace with
  | [] => (⟨.url, body.value, raw, true⟩, [])
  | b :: rest =>
      if b = 0x29 then (⟨.url, body.value, raw ++ [b], false⟩, rest)
      else readBadAddress body.value raw (b :: rest)

/-!
## Names
-/

def startsWithQuote : Bytes -> Bool
  | [] => false
  | b :: _ => Byte.isQuote b

/-- A name, and what it becomes when a parenthesis follows. An address in quotes is a function
with a string inside. -/
def readNamed (s : Bytes) : Lexeme × Bytes :=
  let name := Reader.name.scan s
  match name.rest with
  | 0x28 :: rest =>
      let opening := name.raw ++ [0x28]
      let after := rest.dropWhile Byte.isSpace
      if sameWord name.value (ascii "url") && !startsWithQuote after then
        readAddress (opening ++ rest.takeWhile Byte.isSpace) after
      else (⟨.function, name.value, opening, false⟩, rest)
  | rest => (⟨.ident, name.value, name.raw, false⟩, rest)

def startsWithNameStart : Bytes -> Bool
  | [] => false
  | b :: _ => Byte.isNameStart b

theorem startsWithNameStart_eq (s : Bytes) :
    startsWithNameStart s = s.head?.any Byte.isNameStart := by
  cases s <;> rfl

/-- A name begins at the front of the text. After a hyphen it takes a second hyphen, a letter or
an escape. -/
def startsName : Bytes -> Bool
  | 0x2D :: 0x2D :: _ => true
  | 0x2D :: s => startsWithNameStart s || Escape.startsHere s
  | s => startsWithNameStart s || Escape.startsHere s

def readMarked (kind : TokenKind) (mark : UInt8) (named : Bool) (s : Bytes) : Lexeme × Bytes :=
  if named then
    let name := Reader.name.scan s
    (⟨kind, name.value, mark :: name.raw, false⟩, name.rest)
  else (delim mark, s)

/-!
## Numbers
-/

def readNumeric (s : Bytes) : Lexeme × Bytes :=
  let number := Numeral.read s
  if startsName number.2 then
    let unit := Reader.name.scan number.2
    (⟨.dimension, number.1 ++ unit.value, number.1 ++ unit.raw, false⟩, unit.rest)
  else
    match number.2 with
    | 0x25 :: rest => (verbatim .percentage (number.1 ++ [0x25]), rest)
    | rest => (verbatim .number number.1, rest)

/-!
## The rules together
-/

/-- The kind of a byte that is a token of its own. -/
def punctuation? (b : UInt8) : Option TokenKind :=
  match b with
  | 0x28 => some .leftParen
  | 0x29 => some .rightParen
  | 0x2C => some .comma
  | 0x3A => some .colon
  | 0x3B => some .semicolon
  | 0x5B => some .leftBracket
  | 0x5D => some .rightBracket
  | 0x7B => some .leftBrace
  | 0x7D => some .rightBrace
  | _ => none

def readHyphen (s : Bytes) : Lexeme × Bytes :=
  match s with
  | 0x2D :: 0x3E :: rest => (verbatim .cdc [0x2D, 0x2D, 0x3E], rest)
  | _ =>
      if Numeral.startsHere (0x2D :: s) then readNumeric (0x2D :: s)
      else if startsName (0x2D :: s) then readNamed (0x2D :: s)
      else (delim 0x2D, s)

def readLessThan (s : Bytes) : Lexeme × Bytes :=
  match s with
  | 0x21 :: 0x2D :: 0x2D :: rest => (verbatim .cdo [0x3C, 0x21, 0x2D, 0x2D], rest)
  | _ => (delim 0x3C, s)

def read (b : UInt8) (s : Bytes) : Lexeme × Bytes :=
  if Byte.isSpace b then
    (⟨.whitespace, [0x20], b :: s.takeWhile Byte.isSpace, false⟩, s.dropWhile Byte.isSpace)
  else if Byte.isQuote b then readString b s
  else if Byte.isDigit b then readNumeric (b :: s)
  else if Byte.isNameStart b then readNamed (b :: s)
  else
    match punctuation? b with
    | some kind => (verbatim kind [b], s)
    | none =>
        if b = 0x23 then readMarked .hash b (Reader.name.read s).isSome s
        else if b = 0x40 then readMarked .atKeyword b (startsName s) s
        else if b = 0x2D then readHyphen s
        else if b = 0x3C then readLessThan s
        else if (b = 0x2B ∨ b = 0x2E) ∧ Numeral.startsHere (b :: s) then readNumeric (b :: s)
        else if b = 0x5C ∧ Escape.startsHere (b :: s) then readNamed (b :: s)
        else (delim b, s)

/-!
## Nothing is lost

Each rule splits the text into the text of its lexeme, which is not empty, and the rest.
-/

def Splits (found : Lexeme × Bytes) (s : Bytes) : Prop :=
  found.1.raw ++ found.2 = s ∧ found.1.raw ≠ []

theorem readString_splits (quote : UInt8) (s : Bytes) :
    Splits (readString quote s) (quote :: s) := by
  have happ := (Reader.quoted quote).scan_raw_append s
  unfold readString
  dsimp only
  split
  · rename_i hrest
    rw [hrest] at happ
    simpa [Splits] using happ
  · rename_i b rest hrest
    rw [hrest] at happ
    split <;> simpa [Splits] using happ

theorem readBadAddress_splits {opening : Bytes} (value s : Bytes) (h : opening ≠ []) :
    Splits (readBadAddress value opening s) (opening ++ s) := by
  have happ := Reader.remnant.scan_raw_append s
  unfold readBadAddress
  dsimp only
  split
  · rename_i hrest
    rw [hrest] at happ
    simp only [List.append_nil] at happ
    simp [Splits, happ, h]
  · rename_i b rest hrest
    rw [hrest] at happ
    simp [Splits, happ, h]

theorem readAddress_splits {opening : Bytes} (s : Bytes) (h : opening ≠ []) :
    Splits (readAddress opening s) (opening ++ s) := by
  have happ := Reader.address.scan_raw_append s
  have hgap : (Reader.address.scan s).rest.takeWhile Byte.isSpace ++
      (Reader.address.scan s).rest.dropWhile Byte.isSpace = (Reader.address.scan s).rest :=
    List.takeWhile_append_dropWhile
  unfold readAddress
  dsimp only
  split
  · rename_i hrest
    rw [hrest, List.append_nil] at hgap
    refine ⟨?_, by simp [h]⟩
    simp only [List.append_nil, List.append_assoc]
    rw [hgap, happ]
  · rename_i b rest hrest
    rw [hrest] at hgap
    split
    · refine ⟨?_, by simp [h]⟩
      simp only [List.append_assoc, List.singleton_append]
      rw [hgap, happ]
    · have hsplits := readBadAddress_splits (Reader.address.scan s).value (b :: rest)
        (show opening ++ (Reader.address.scan s).raw ++
          (Reader.address.scan s).rest.takeWhile Byte.isSpace ≠ [] by simp [h])
      simp only [List.append_assoc] at hsplits
      rw [hgap, happ] at hsplits
      simpa only [List.append_assoc] using hsplits

theorem readNamed_splits {s : Bytes} (h : (Reader.name.read s).isSome) :
    Splits (readNamed s) s := by
  have happ := Reader.name.scan_raw_append s
  have hne := Reader.name_scan_raw_ne_nil h
  unfold readNamed
  dsimp only
  split
  · rename_i rest hrest
    rw [hrest] at happ
    split
    · have hsplits := readAddress_splits (rest.dropWhile Byte.isSpace)
        (show (Reader.name.scan s).raw ++ [0x28] ++ rest.takeWhile Byte.isSpace ≠ [] by simp)
      have hgap : rest.takeWhile Byte.isSpace ++ rest.dropWhile Byte.isSpace = rest :=
        List.takeWhile_append_dropWhile
      simp only [List.append_assoc, List.cons_append, List.nil_append] at hsplits
      rw [hgap, happ] at hsplits
      simpa only [List.append_assoc, List.singleton_append] using hsplits
    · refine ⟨?_, by simp⟩
      simpa using happ
  · exact ⟨happ, hne⟩

theorem name_read_of_escape {s : Bytes} (h : Escape.startsHere s) :
    (Reader.name.read s).isSome := by
  unfold Escape.startsHere at h
  split at h
  · rename_i c s
    have hc : c ≠ 0x0A := by simpa using h
    have hname : Byte.isName 0x5C = false := by decide
    simp only [Reader.name, hname, Bool.false_eq_true, if_false, Escape.read, hc]
    split <;> rfl
  · cases h

theorem name_read_of_isName {b : UInt8} (s : Bytes) (h : Byte.isName b) :
    (Reader.name.read (b :: s)).isSome := by
  simp [Reader.name, h]

theorem readMarked_splits (kind : TokenKind) (mark : UInt8) (named : Bool) (s : Bytes) :
    Splits (readMarked kind mark named s) (mark :: s) := by
  unfold readMarked
  split
  · refine ⟨?_, by simp⟩
    rw [List.cons_append, Reader.name.scan_raw_append]
  · exact ⟨rfl, by simp [delim, verbatim]⟩

theorem readNumeric_splits {s : Bytes} (h : Numeral.startsHere s) :
    Splits (readNumeric s) s := by
  have happ := Numeral.read_append s
  have hne := Numeral.read_ne_nil h
  unfold readNumeric
  dsimp only
  split
  · refine ⟨?_, by simp [hne]⟩
    rw [List.append_assoc, Reader.name.scan_raw_append, happ]
  · split
    · rename_i rest hrest
      rw [hrest] at happ
      refine ⟨?_, by simp [verbatim]⟩
      simpa [verbatim] using happ
    · exact ⟨happ, hne⟩

theorem readHyphen_splits (s : Bytes) : Splits (readHyphen s) (0x2D :: s) := by
  unfold readHyphen
  split
  · exact ⟨rfl, by simp [verbatim]⟩
  · split
    · rename_i h
      exact readNumeric_splits h
    · split
      · exact readNamed_splits (name_read_of_isName s (by decide))
      · exact ⟨rfl, by simp [delim, verbatim]⟩

theorem readLessThan_splits (s : Bytes) : Splits (readLessThan s) (0x3C :: s) := by
  unfold readLessThan
  split <;> exact ⟨rfl, by simp [delim, verbatim]⟩

theorem startsHere_of_isDigit {b : UInt8} (s : Bytes) (h : Byte.isDigit b) :
    Numeral.startsHere (b :: s) := by
  have hplus : b ≠ 0x2B := by
    rintro rfl
    revert h
    decide
  have hminus : b ≠ 0x2D := by
    rintro rfl
    revert h
    decide
  have hdot : b ≠ 0x2E := by
    rintro rfl
    revert h
    decide
  have hsign : (Numeral.sign (b :: s)).2 = b :: s := by
    simp [Numeral.sign, hplus, hminus]
  unfold Numeral.startsHere
  rw [hsign]
  split
  · rename_i heq
    exact absurd (List.cons.inj heq).1 hdot
  · exact h

theorem read_splits (b : UInt8) (s : Bytes) : Splits (read b s) (b :: s) := by
  unfold read
  split
  · refine ⟨?_, by simp⟩
    rw [List.cons_append, List.takeWhile_append_dropWhile]
  · split
    · exact readString_splits b s
    · split
      · rename_i h
        exact readNumeric_splits (startsHere_of_isDigit s h)
      · split
        · rename_i h
          exact readNamed_splits (name_read_of_isName s (by simp [Byte.isName, h]))
        · split
          · exact ⟨rfl, by simp [verbatim]⟩
          · split
            · exact readMarked_splits _ _ _ _
            · split
              · exact readMarked_splits _ _ _ _
              · split
                · rename_i h
                  subst h
                  exact readHyphen_splits s
                · split
                  · rename_i h
                    subst h
                    exact readLessThan_splits s
                  · split
                    · rename_i h
                      exact readNumeric_splits h.2
                    · split
                      · rename_i h
                        exact readNamed_splits (name_read_of_escape h.2)
                      · exact ⟨rfl, by simp [delim, verbatim]⟩

theorem read_rest_length (b : UInt8) (s : Bytes) : (read b s).2.length < (b :: s).length := by
  obtain ⟨happ, hne⟩ := read_splits b s
  have hlen := congrArg List.length happ
  rw [List.length_append] at hlen
  have := List.length_pos_iff.mpr hne
  omega

end Lexeme
end StyleTrim
