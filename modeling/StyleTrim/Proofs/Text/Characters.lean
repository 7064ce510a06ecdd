import Mathlib.Data.List.Induction
import StyleTrim.Text.Byte
import StyleTrim.Text.Utf8

/-!
# Texts of whole characters

The readers of this library look at bytes, and so they may cut a text anywhere. A text is valid
UTF-8 when it is the encoded form of some characters. Where it is cut next to an ASCII byte, or in
front of a byte that continues no character, both parts are valid.
-/

namespace StyleTrim
namespace Utf8

/-- The text is the UTF-8 form of a list of characters, each of which is a Unicode scalar value. -/
def IsValid (s : Bytes) : Prop :=
  ∃ text : List Char, s = text.flatMap String.utf8EncodeChar

def isContinuation (b : UInt8) : Bool :=
  0x80 ≤ b && b ≤ 0xBF

theorem isContinuation_of_ascii {b : UInt8} (h : b < 0x80) : isContinuation b = false := by
  have hle : ¬0x80 ≤ b := UInt8.not_le.mpr h
  simp [isContinuation, hle]

/-!
## The bytes of a character
-/

theorem isContinuation_ofNat (n : Nat) : isContinuation (UInt8.ofNat (n % 64 + 128)) = true := by
  simp only [isContinuation, Bool.and_eq_true, decide_eq_true_eq, UInt8.le_iff_toNat_le,
    UInt8.toNat_ofNat', UInt8.reduceToNat]
  omega

theorem lead_ofNat {n : Nat} (hlow : 0xC0 ≤ n) (hhigh : n < 0x100) :
    isContinuation (UInt8.ofNat n) = false ∧ ¬UInt8.ofNat n < 0x80 := by
  simp only [isContinuation, Bool.and_eq_false_iff, decide_eq_false_iff_not,
    UInt8.le_iff_toNat_le, UInt8.lt_iff_toNat_lt, UInt8.toNat_ofNat', UInt8.reduceToNat]
  omega

theorem encodeChar_parts (c : Char) :
    ∃ b tail, String.utf8EncodeChar c = b :: tail ∧ isContinuation b = false ∧
      (∀ x ∈ tail, isContinuation x = true) ∧ (b < 0x80 -> tail = []) := by
  unfold String.utf8EncodeChar
  dsimp only
  generalize c.val.toNat = n
  split
  · rename_i hone
    refine ⟨_, [], rfl, isContinuation_of_ascii ?_, nofun, fun _ => rfl⟩
    simp only [UInt8.lt_iff_toNat_lt, UInt8.toNat_ofNat', UInt8.reduceToNat]
    omega
  · split
    · rcases lead_ofNat (n := n / 64 % 32 + 192) (by omega) (by omega) with ⟨hstart, hhigh⟩
      refine ⟨_, _, rfl, hstart, ?_, fun hlow => absurd hlow hhigh⟩
      simp only [List.forall_mem_cons, isContinuation_ofNat, true_and]
      nofun
    · split
      · rcases lead_ofNat (n := n / 4096 % 16 + 224) (by omega) (by omega) with ⟨hstart, hhigh⟩
        refine ⟨_, _, rfl, hstart, ?_, fun hlow => absurd hlow hhigh⟩
        simp only [List.forall_mem_cons, isContinuation_ofNat, true_and]
        nofun
      · rcases lead_ofNat (n := n / 262144 % 8 + 240) (by omega) (by omega) with ⟨hstart, hhigh⟩
        refine ⟨_, _, rfl, hstart, ?_, fun hlow => absurd hlow hhigh⟩
        simp only [List.forall_mem_cons, isContinuation_ofNat, true_and]
        nofun

/-!
## Putting texts together
-/

variable {a b s : Bytes}

theorem IsValid.nil : IsValid [] :=
  ⟨[], rfl⟩

theorem IsValid.append (ha : IsValid a) (hb : IsValid b) : IsValid (a ++ b) := by
  rcases ha with ⟨text, rfl⟩
  rcases hb with ⟨more, rfl⟩
  exact ⟨text ++ more, by rw [List.flatMap_append]⟩

theorem isValid_singleton {x : UInt8} (h : x < 0x80) : IsValid [x] := by
  have hlow : x.toNat < 0x80 := UInt8.lt_iff_toNat_lt.mp h
  have hval : (Char.ofNat x.toNat).val.toNat = x.toNat := by
    rw [Char.ofNat, dif_pos (Or.inl (by omega))]
    rfl
  refine ⟨[Char.ofNat x.toNat], ?_⟩
  rw [List.flatMap_singleton, String.utf8EncodeChar, hval, if_pos (by omega), UInt8.ofNat_toNat]

theorem IsValid.cons {x : UInt8} (hx : x < 0x80) (h : IsValid s) : IsValid (x :: s) :=
  (isValid_singleton hx).append h

theorem isValid_of_ascii (h : ∀ x ∈ s, x < 0x80) : IsValid s := by
  induction s with
  | nil => exact IsValid.nil
  | cons x s ih =>
      rw [List.forall_mem_cons] at h
      exact (ih h.2).cons h.1

theorem isValid_flatMap {α : Type} {l : List α} {f : α -> Bytes} (h : ∀ x ∈ l, IsValid (f x)) :
    IsValid (l.flatMap f) := by
  induction l with
  | nil => exact IsValid.nil
  | cons x l ih =>
      rw [List.forall_mem_cons] at h
      rw [List.flatMap_cons]
      exact h.1.append (ih h.2)

/-!
## Code points
-/

theorem encode_eq {code : Nat} (h : code.isValidChar) :
    encode code = String.utf8EncodeChar (Char.ofNat code) := by
  have hval : (Char.ofNat code).val.toNat = code := by
    rw [Char.ofNat, dif_pos h]
    rfl
  have hmax : code < 0x110000 := by
    simp only [Nat.isValidChar] at h
    omega
  rw [String.utf8EncodeChar, hval, encode]
  by_cases hone : code < 0x80
  · rw [if_pos hone, if_pos (by omega : code ≤ 0x7F)]
  rw [if_neg hone, if_neg (by omega : ¬code ≤ 0x7F)]
  by_cases htwo : code < 0x800
  · rw [if_pos htwo, if_pos (by omega : code ≤ 0x7FF), Nat.mod_eq_of_lt (by omega : code / 64 < 32)]
    simp only [continuation, Nat.toUInt8_eq, Nat.add_comm]
  rw [if_neg htwo, if_neg (by omega : ¬code ≤ 0x7FF)]
  by_cases hthree : code < 0x10000
  · rw [if_pos hthree, if_pos (by omega : code ≤ 0xFFFF),
      Nat.mod_eq_of_lt (by omega : code / 4096 < 16)]
    simp only [continuation, Nat.toUInt8_eq, Nat.add_comm]
  · rw [if_neg hthree, if_neg (by omega : ¬code ≤ 0xFFFF),
      Nat.mod_eq_of_lt (by omega : code / 262144 < 8)]
    simp only [continuation, Nat.toUInt8_eq, Nat.add_comm]

theorem isValid_encode (code : Nat) : IsValid (encode (scalarOrReplacement code)) := by
  have hscalar : (scalarOrReplacement code).isValidChar := by
    unfold scalarOrReplacement Nat.isValidChar
    split <;> omega
  exact ⟨[Char.ofNat (scalarOrReplacement code)], by
    rw [List.flatMap_singleton, encode_eq hscalar]⟩

/-!
## Cutting texts
-/

theorem IsValid.head (h : IsValid s) : ∀ x ∈ s.head?, isContinuation x = false := by
  rcases h with ⟨text, rfl⟩
  cases text with
  | nil => nofun
  | cons c text =>
      rcases encodeChar_parts c with ⟨x, tail, hc, hx, _⟩
      intro y hy
      rw [List.flatMap_cons, hc] at hy
      obtain rfl : x = y := Option.some.inj hy
      exact hx

theorem IsValid.split (h : IsValid (a ++ b)) (hb : ∀ x ∈ b.head?, isContinuation x = false) :
    IsValid a ∧ IsValid b := by
  rcases h with ⟨text, htext⟩
  induction text generalizing a with
  | nil =>
      rcases List.append_eq_nil_iff.mp htext with ⟨rfl, rfl⟩
      exact ⟨IsValid.nil, IsValid.nil⟩
  | cons c text ih =>
      have hc : IsValid (String.utf8EncodeChar c) := ⟨[c], (List.flatMap_singleton _ _).symm⟩
      rw [List.flatMap_cons] at htext
      rcases List.append_eq_append_iff.mp htext with ⟨t, ht, hrest⟩ | ⟨t, rfl, hrest⟩
      · rcases encodeChar_parts c with ⟨x, tail, hparts, _, htail, _⟩
        rw [hparts] at ht
        cases a with
        | nil =>
            have hall : IsValid b := ⟨c :: text, by rw [List.flatMap_cons, ← htext]; rfl⟩
            exact ⟨IsValid.nil, hall⟩
        | cons y a =>
            -- What is left of the character would have to begin `b`, so nothing is left.
            cases t with
            | nil =>
                rw [List.append_nil, ← hparts] at ht
                rw [← ht]
                exact ⟨hc, text, hrest⟩
            | cons z t =>
                have hz : isContinuation z = true := by
                  rw [(List.cons.inj ht).2] at htail
                  exact htail z (List.mem_append_right a List.mem_cons_self)
                rw [hb z (by rw [hrest]; rfl)] at hz
                cases hz
      · rcases ih hrest.symm with ⟨ha, hb⟩
        exact ⟨hc.append ha, hb⟩

theorem IsValid.tail {x : UInt8} (h : IsValid (x :: s)) (hx : x < 0x80) : IsValid s := by
  rcases h with ⟨text, htext⟩
  cases text with
  | nil => cases htext
  | cons c text =>
      rcases encodeChar_parts c with ⟨y, tail, hparts, _, _, hshort⟩
      rw [List.flatMap_cons, hparts] at htext
      rcases List.cons.inj htext with ⟨rfl, hs⟩
      rw [hshort hx] at hs
      exact ⟨text, hs⟩

theorem IsValid.behind (h : IsValid (a ++ b)) (ha : ∀ x ∈ a, x < 0x80) : IsValid b := by
  induction a with
  | nil => exact h
  | cons x a ih =>
      rw [List.forall_mem_cons] at ha
      exact ih (h.tail ha.1) ha.2

theorem head_of_ascii {x : UInt8} (hx : x < 0x80) (s : Bytes) :
    ∀ y ∈ (x :: s).head?, isContinuation y = false := by
  intro y hy
  obtain rfl : x = y := Option.some.inj hy
  exact isContinuation_of_ascii hx

theorem IsValid.around {x : UInt8} (h : IsValid (a ++ x :: b)) (hx : x < 0x80) :
    IsValid a ∧ IsValid b := by
  rcases h.split (head_of_ascii hx b) with ⟨hfront, hback⟩
  exact ⟨hfront, hback.tail hx⟩

def Seam (a b : Bytes) : Prop :=
  (∀ x ∈ a.getLast?, x < 0x80) ∨ ∀ x ∈ b.head?, isContinuation x = false

theorem seam_of_last {x : UInt8} (hx : x < 0x80) (a b : Bytes) : Seam (a ++ [x]) b := by
  left
  intro y hy
  rw [List.getLast?_concat] at hy
  obtain rfl : x = y := Option.some.inj hy
  exact hx

theorem IsValid.cut (h : IsValid (a ++ b)) (hseam : Seam a b) : IsValid a ∧ IsValid b := by
  rcases hseam with ha | hb
  · cases a using List.reverseRecOn with
    | nil => exact ⟨IsValid.nil, h⟩
    | append_singleton a x =>
        have hx : x < 0x80 := ha x List.getLast?_concat
        rw [List.append_assoc] at h
        rcases h.around hx with ⟨hfront, hback⟩
        exact ⟨hfront.append (isValid_singleton hx), hback⟩
  · exact h.split hb

def IsBoundary (text : Bytes) (n : Nat) : Prop :=
  ∀ x ∈ (text.drop n).head?, isContinuation x = false

theorem IsValid.isBoundary {text : Bytes} {n : Nat} (h : IsValid s) (hs : text.drop n = s) :
    IsBoundary text n := by
  rw [IsBoundary, hs]
  exact h.head

end Utf8

/-!
## Classes of bytes

Only the bytes of names may be those of a character beyond ASCII.
-/

namespace Byte

variable {b : UInt8}

theorem ascii_of_not_isName (h : isName b = false) : b < 0x80 := by
  simp only [isName, isNameStart, Bool.or_eq_false_iff, decide_eq_false_iff_not] at h
  exact UInt8.not_le.mp h.1.1.2

theorem ascii_of_isHexDigit (h : isHexDigit b = true) : b < 0x80 := by
  simp only [isHexDigit, isDigit, Bool.or_eq_true, Bool.and_eq_true, decide_eq_true_eq,
    UInt8.le_iff_toNat_le, UInt8.lt_iff_toNat_lt, UInt8.reduceToNat] at h ⊢
  omega

theorem ascii_of_isSpace (h : isSpace b = true) : b < 0x80 := by
  simp only [isSpace, Bool.or_eq_true, beq_iff_eq] at h
  rcases h with (((rfl | rfl) | rfl) | rfl) | rfl <;> decide

theorem ascii_of_isQuote (h : isQuote b = true) : b < 0x80 := by
  simp only [isQuote, Bool.or_eq_true, beq_iff_eq] at h
  rcases h with rfl | rfl <;> decide

end Byte
end StyleTrim
