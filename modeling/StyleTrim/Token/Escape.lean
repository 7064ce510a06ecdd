import StyleTrim.Token.Piece

/-!
# Escapes

A backslash and up to six hexadecimal digits stand for a code point; one white space character
after the digits belongs to the escape. A backslash before any other byte stands for that byte.
A backslash before a line feed, or at the end of the text, is no escape.
-/

namespace StyleTrim
namespace Escape

def hexValue (digits : Bytes) : Nat :=
  digits.foldl (fun n d => 16 * n + Byte.hexDigitValue d) 0

def terminator : Bytes -> Bytes
  | 0x0D :: 0x0A :: _ => [0x0D, 0x0A]
  | b :: _ => if Byte.isSpace b then [b] else []
  | [] => []

theorem terminator_append (s : Bytes) : terminator s ++ s.drop (terminator s).length = s := by
  unfold terminator
  split
  · rfl
  · split <;> rfl
  · rfl

def hexDigits (s : Bytes) : Bytes :=
  (s.take 6).takeWhile Byte.isHexDigit

theorem hexDigits_append (s : Bytes) : hexDigits s ++ s.drop (hexDigits s).length = s := by
  have hpre : hexDigits s <+: s :=
    (List.takeWhile_prefix _).trans (List.take_prefix 6 s)
  obtain ⟨t, ht⟩ := hpre
  have hdrop : s.drop (hexDigits s).length = t :=
    calc s.drop (hexDigits s).length
        = (hexDigits s ++ t).drop (hexDigits s).length := by rw [ht]
      _ = t := List.drop_left
  rw [hdrop, ht]

/-- The text starts with an escape. -/
def startsHere : Bytes -> Bool
  | 0x5C :: c :: _ => c != 0x0A
  | _ => false

/-- Reads one escape at the front of the text. -/
def read : Bytes -> Option (Piece × Bytes)
  | 0x5C :: c :: s =>
      if c = 0x0A then none
      else if Byte.isHexDigit c then
        let digits := hexDigits (c :: s)
        let after := (c :: s).drop digits.length
        let gap := terminator after
        some (⟨0x5C :: digits ++ gap, Utf8.encode (Utf8.scalarOrReplacement (hexValue digits))⟩,
          after.drop gap.length)
      else some (⟨[0x5C, c], [c]⟩, s)
  | _ => none

theorem read_raw_append {s rest : Bytes} {p : Piece} (h : read s = some (p, rest)) :
    p.raw ++ rest = s := by
  unfold read at h
  split at h
  · rename_i c s
    split at h
    · cases h
    · split at h
      · simp only [Option.some.injEq, Prod.mk.injEq] at h
        obtain ⟨rfl, rfl⟩ := h
        simp only [List.cons_append, List.append_assoc]
        rw [terminator_append, hexDigits_append]
      · simp only [Option.some.injEq, Prod.mk.injEq] at h
        obtain ⟨rfl, rfl⟩ := h
        rfl
  · cases h

theorem read_raw_ne_nil {s rest : Bytes} {p : Piece} (h : read s = some (p, rest)) :
    p.raw ≠ [] := by
  unfold read at h
  split at h
  · split at h
    · cases h
    · split at h <;>
      · simp only [Option.some.injEq, Prod.mk.injEq] at h
        obtain ⟨rfl, rfl⟩ := h
        simp
  · cases h

end Escape
end StyleTrim
