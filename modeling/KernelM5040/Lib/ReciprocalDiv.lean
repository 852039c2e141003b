import Mathlib

/-!
# Division by a reciprocal: lib/reciprocal_div.c

A quotient of two numbers of 32 bits is computed with one multiplication by the
divisor's reciprocal, which is rounded up.
-/

namespace KernelM5040.ReciprocalDiv

open Nat

variable {a b : ℕ}

def reciprocalValue (k : ℕ) : ℕ := (2 ^ 32 + (k - 1)) / k % 2 ^ 32

def reciprocalDivide (a r : ℕ) : ℕ := a * r / 2 ^ 32 % 2 ^ 32

/-- By how much `2 ^ 32` misses the next multiple of a divisor. -/
def excess (b : ℕ) : ℕ := ((-2 ^ 32 : ℤ) % b).toNat

/-- The reciprocal is rounded up to this multiple. -/
theorem reciprocal_mul (hb : 0 < b) : (2 ^ 32 + (b - 1)) / b * b = 2 ^ 32 + excess b := by
  have hdiv := div_add_mod' (2 ^ 32 + (b - 1)) b
  have hmod := mod_lt (2 ^ 32 + (b - 1)) hb
  have hexcess : (-2 ^ 32 : ℤ) % b = ((2 ^ 32 + (b - 1)) / b * b : ℕ) - 2 ^ 32 := by
    rw [← Int.add_mul_emod_self_right _ ((2 ^ 32 + (b - 1)) / b : ℕ) (b : ℤ), ← cast_mul,
      Int.emod_eq_of_lt (by omega) (by omega)]
    ring
  rw [excess, hexcess]
  omega

theorem reciprocalValue_eq (hb : 1 < b) : reciprocalValue b = (2 ^ 32 + (b - 1)) / b := by
  refine mod_eq_of_lt (Nat.div_lt_of_lt_mul ?_)
  have hle : 2 * 2 ^ 32 ≤ b * 2 ^ 32 := Nat.mul_le_mul_right _ hb
  have hless : b < b * 2 ^ 32 := lt_mul_of_one_lt_right (by omega) (by norm_num)
  omega

theorem reciprocalDivide_of_one_lt (hb : 1 < b) (ha : a < 2 ^ 32) :
    reciprocalDivide a (reciprocalValue b) = a / b ↔ a * excess b < (b - a % b) * 2 ^ 32 := by
  have hpos : 0 < b := by omega
  have hmod := mod_lt a hpos
  have hproduct : a * reciprocalValue b * b =
      a / b * 2 ^ 32 * b + (a % b * 2 ^ 32 + a * excess b) := by
    rw [reciprocalValue_eq hb, mul_assoc, reciprocal_mul hpos, mul_add]
    nth_rewrite 1 [← div_add_mod' a b]
    ring
  have hfits : a * reciprocalValue b / 2 ^ 32 < 2 ^ 32 :=
    Nat.div_lt_of_lt_mul (Nat.mul_lt_mul'' ha (mod_lt _ (by norm_num)))
  have hlower : a / b * 2 ^ 32 ≤ a * reciprocalValue b := by
    refine Nat.le_of_mul_le_mul_right ?_ hpos
    omega
  have hupper : a * reciprocalValue b < (a / b + 1) * 2 ^ 32 ↔
      a % b * 2 ^ 32 + a * excess b < b * 2 ^ 32 := by
    rw [← Nat.mul_lt_mul_right hpos, hproduct, add_mul, add_mul, one_mul, mul_comm b]
    omega
  have hrest : (b - a % b) * 2 ^ 32 = b * 2 ^ 32 - a % b * 2 ^ 32 := Nat.sub_mul _ _ _
  rw [reciprocalDivide, mod_eq_of_lt hfits, hrest, Nat.lt_sub_iff_add_lt', ← hupper,
    Nat.div_eq_iff (by norm_num)]
  omega

/-- The quotient is exact if the rounding, times the dividend, does not reach the next multiple of
the divisor, and the divisor is not one, whose reciprocal does not fit into 32 bits. -/
theorem reciprocalDivide_exact_iff (ha : a < 2 ^ 32) (hb : 0 < b) :
    reciprocalDivide a (reciprocalValue b) = a / b ↔
      (b = 1 → a = 0) ∧ a * excess b < (b - a % b) * 2 ^ 32 := by
  rcases eq_or_ne b 1 with rfl | hne
  · have hvalue : reciprocalValue 1 = 0 := rfl
    have hexcess : excess 1 = 0 := rfl
    rw [hvalue, hexcess, reciprocalDivide, Nat.div_one, mod_one]
    simp [eq_comm]
  · rw [reciprocalDivide_of_one_lt (by omega) ha]
    simp [hne]

theorem reciprocalDivide_exact_ten : reciprocalDivide 99 (reciprocalValue 10) = 99 / 10 :=
  (reciprocalDivide_exact_iff (by norm_num) (by norm_num)).mpr ⟨by simp, by decide⟩

theorem reciprocalDivide_one : reciprocalDivide 5 (reciprocalValue 1) ≠ 5 / 1 := by decide

end KernelM5040.ReciprocalDiv
