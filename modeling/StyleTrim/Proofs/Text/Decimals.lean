import StyleTrim.Text.Decimal

/-!
# Decimal numbers read back

The digits that are written for a number stand for that number again, and no zero stands in front
of another digit.
-/

namespace StyleTrim
namespace Decimal

theorem toNat_digit {n : Nat} (h : n < 10) : (digit n).toNat = 0x30 + n := by
  have hsize : (0x30 + n) % 2 ^ 8 = 0x30 + n := Nat.mod_eq_of_lt (by omega)
  exact hsize

theorem isDigit_digit {n : Nat} (h : n < 10) : Byte.isDigit (digit n) = true := by
  have hdigit := toNat_digit h
  simp only [Byte.isDigit, Bool.and_eq_true, decide_eq_true_eq, UInt8.le_iff_toNat_le, hdigit,
    UInt8.reduceToNat]
  omega

theorem isDigit_ofNat (n : Nat) : (ofNat n).all Byte.isDigit = true := by
  fun_induction ofNat n with
  | case1 n h => rw [List.all_cons, isDigit_digit h]; rfl
  | case2 n h ih =>
      rw [List.all_append, ih, List.all_cons, isDigit_digit (Nat.mod_lt n (by decide))]
      rfl

theorem value_concat (digits : Bytes) (d : UInt8) :
    value (digits ++ [d]) = 10 * value digits + (d.toNat - 0x30) := by
  rw [value, List.foldl_append]
  rfl

theorem value_ofNat (n : Nat) : value (ofNat n) = n := by
  fun_induction ofNat n with
  | case1 n h =>
      have hdigit := toNat_digit h
      change 10 * 0 + ((digit n).toNat - 0x30) = n
      omega
  | case2 n h ih =>
      have hdigit := toNat_digit (Nat.mod_lt n (by decide : 0 < 10))
      rw [value_concat, ih, hdigit]
      omega

theorem ofNat_ne_nil (n : Nat) : ofNat n ≠ [] := by
  fun_induction ofNat n with
  | case1 n h => exact List.cons_ne_nil _ _
  | case2 n h ih => exact List.append_ne_nil_of_left_ne_nil ih _

theorem head?_ofNat {n : Nat} (h : 0 < n) : (ofNat n).head? ≠ some 0x30 := by
  fun_induction ofNat n with
  | case1 n hless =>
      intro hhead
      have hdigit := toNat_digit hless
      rw [Option.some.inj hhead] at hdigit
      change 0x30 = 0x30 + n at hdigit
      omega
  | case2 n hless ih =>
      cases hdigits : ofNat (n / 10) with
      | nil => exact absurd hdigits (ofNat_ne_nil _)
      | cons d digits =>
          rw [hdigits] at ih
          exact ih (by omega)

end Decimal
end StyleTrim
