import StyleTrim.Text.Byte

/-!
# Numerals

A numeral is an optional sign, digits, an optional fraction and an optional exponent. A point or
an `e` belongs to it only when a digit follows. Each part is a split of the text into what the
part takes and what it leaves.
-/

namespace StyleTrim
namespace Numeral

abbrev Split := Bytes × Bytes

def sign : Bytes -> Split
  | [] => ([], [])
  | b :: s => if b = 0x2B ∨ b = 0x2D then ([b], s) else ([], b :: s)

def digits (s : Bytes) : Split :=
  (s.takeWhile Byte.isDigit, s.dropWhile Byte.isDigit)

def startsWithDigit : Bytes -> Bool
  | [] => false
  | b :: _ => Byte.isDigit b

theorem startsWithDigit_eq (s : Bytes) : startsWithDigit s = s.head?.any Byte.isDigit := by
  cases s <;> rfl

def fraction : Bytes -> Split
  | [] => ([], [])
  | b :: s =>
      if b = 0x2E ∧ startsWithDigit s then (b :: (digits s).1, (digits s).2) else ([], b :: s)

def exponent : Bytes -> Split
  | [] => ([], [])
  | b :: s =>
      if (b = 0x65 ∨ b = 0x45) ∧ startsWithDigit (sign s).2 then
        (b :: ((sign s).1 ++ (digits (sign s).2).1), (digits (sign s).2).2)
      else ([], b :: s)

/-- A numeral begins at the front of the text. -/
def startsHere (s : Bytes) : Bool :=
  match (sign s).2 with
  | 0x2E :: after => startsWithDigit after
  | after => startsWithDigit after

/-- The longest numeral at the front of the text. -/
def read (s : Bytes) : Split :=
  let a := sign s
  let b := digits a.2
  let c := fraction b.2
  let d := exponent c.2
  (a.1 ++ b.1 ++ c.1 ++ d.1, d.2)

/-!
Every part loses nothing, so neither does the whole.
-/

theorem sign_append (s : Bytes) : (sign s).1 ++ (sign s).2 = s := by
  unfold sign
  split
  · rfl
  · split <;> rfl

theorem digits_append (s : Bytes) : (digits s).1 ++ (digits s).2 = s :=
  List.takeWhile_append_dropWhile

theorem fraction_append (s : Bytes) : (fraction s).1 ++ (fraction s).2 = s := by
  unfold fraction
  split
  · rfl
  · split
    · rw [List.cons_append, digits_append]
    · rfl

theorem exponent_append (s : Bytes) : (exponent s).1 ++ (exponent s).2 = s := by
  unfold exponent
  split
  · rfl
  · split
    · rw [List.cons_append, List.append_assoc, digits_append, sign_append]
    · rfl

theorem read_append (s : Bytes) : (read s).1 ++ (read s).2 = s := by
  unfold read
  simp only [List.append_assoc]
  rw [exponent_append, fraction_append, digits_append, sign_append]

theorem read_ne_nil {s : Bytes} (h : startsHere s) : (read s).1 ≠ [] := by
  intro hnil
  simp only [read, List.append_eq_nil_iff] at hnil
  obtain ⟨⟨⟨hsign, hdigits⟩, hfraction⟩, _⟩ := hnil
  have hfirst : ∀ t, startsWithDigit t -> (digits t).1 ≠ [] := by
    intro t ht
    cases t with
    | nil => cases ht
    | cons b t =>
        simp only [startsWithDigit] at ht
        simp [digits, ht]
  unfold startsHere at h
  split at h
  · rename_i after heq
    rw [heq] at hdigits hfraction
    have hdot : (digits (0x2E :: after)).2 = 0x2E :: after := by
      simp [digits, Byte.isDigit]
    rw [hdot] at hfraction
    simp [fraction, h] at hfraction
  · exact hfirst _ h hdigits

end Numeral
end StyleTrim
