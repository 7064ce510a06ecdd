import StyleTrim.Text.Byte

/-!
# Words

Words are compared without regard to ASCII case. A word that is looked for is given in small
letters; the text it is looked for in may hold either case.
-/

namespace StyleTrim

/-- The text with its ASCII capitals made small. -/
def lower (s : Bytes) : Bytes :=
  s.map Byte.toLower

/-- Equality up to the case of ASCII letters. -/
def sameWord (a b : Bytes) : Bool :=
  lower a == lower b

def dropWord? : Bytes -> Bytes -> Option Bytes
  | [], s => some s
  | _ :: _, [] => none
  | w :: ws, b :: s => if Byte.toLower b = w then dropWord? ws s else none

def startsWithWord (word s : Bytes) : Bool :=
  (dropWord? word s).isSome

def trim (p : UInt8 -> Bool) (s : Bytes) : Bytes :=
  ((s.dropWhile p).reverse.dropWhile p).reverse

/-!
What is left after a word is never longer than the text, and shorter when the word is not empty.
-/

theorem dropWord?_length {word s rest : Bytes} (h : dropWord? word s = some rest) :
    rest.length + word.length = s.length := by
  induction word generalizing s with
  | nil =>
      cases s <;> simp_all [dropWord?]
  | cons w ws ih =>
      cases s with
      | nil => simp [dropWord?] at h
      | cons b s =>
          by_cases hb : Byte.toLower b = w
          · rw [dropWord?, if_pos hb] at h
            have := ih h
            simp only [List.length_cons]
            omega
          · rw [dropWord?, if_neg hb] at h
            cases h

@[simp] theorem lower_append (a b : Bytes) : lower (a ++ b) = lower a ++ lower b :=
  List.map_append

@[simp] theorem length_lower (a : Bytes) : (lower a).length = a.length :=
  List.length_map _

end StyleTrim
