import Mathlib

/-!
# Sums and differences of machine words

Words of 64 bits as numbers: what is left of a sum, a difference and a rounding up
to a power of two, and when nothing is lost.
-/

namespace KernelM5040.Word

open Nat

/-- What a word keeps of a sum. -/
def word (value : ℕ) : ℕ := value % 2 ^ 64

/-- The difference of two words. -/
def minus (left right : ℕ) : ℕ := word (left + 2 ^ 64 - right)

/-- Rounding a word up to a multiple, with the overflow of the sum. -/
def align (value mult : ℕ) : ℕ := word (value + (mult - 1)) / mult * mult

section Facts

variable {value left right mult : ℕ}

theorem word_lt (value : ℕ) : word value < 2 ^ 64 := mod_lt _ (by decide)

theorem word_eq (hvalue : value < 2 ^ 64) : word value = value :=
  mod_eq_of_lt hvalue

/-- A sum of two words that is not below the first has not overflowed. -/
theorem word_add_of_le (hleft : left < 2 ^ 64) (hright : right < 2 ^ 64)
    (hle : left ≤ word (right + left)) : word (right + left) = right + left := by
  rw [word] at hle ⊢
  omega

theorem minus_eq (hleft : left < 2 ^ 64) (hle : right ≤ left) :
    minus left right = left - right := by
  rw [minus, word]
  omega

theorem align_dvd (value mult : ℕ) : mult ∣ align value mult := Dvd.intro_left _ rfl

theorem le_align (hmult : 0 < mult) (hfits : value + (mult - 1) < 2 ^ 64) :
    value ≤ align value mult := by
  rw [align, word_eq hfits]
  have hmod := mod_lt (value + (mult - 1)) hmult
  have hdiv := div_add_mod' (value + (mult - 1)) mult
  omega

theorem align_le {multiple : ℕ} (hmult : 0 < mult) (hfits : value + (mult - 1) < 2 ^ 64)
    (hdvd : mult ∣ multiple) (hle : value ≤ multiple) : align value mult ≤ multiple := by
  obtain ⟨times, rfl⟩ := hdvd
  rw [align, word_eq hfits, mul_comm]
  refine Nat.mul_le_mul_left mult (Nat.lt_succ_iff.mp ((Nat.div_lt_iff_lt_mul hmult).mpr ?_))
  rw [succ_mul, mul_comm]
  omega

theorem align_lt (value mult : ℕ) : align value mult < 2 ^ 64 :=
  (div_mul_le_self _ _).trans_lt (word_lt _)

end Facts

end KernelM5040.Word
