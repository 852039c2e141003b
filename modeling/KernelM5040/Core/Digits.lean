import Mathlib

/-!
# Digits of a key

A key is read as a number in base `2 ^ shift`.  Two keys agree on their lowest
digits exactly when they are congruent, so that keys below the capacity of
these digits are told apart by them.
-/

namespace KernelM5040.Digits

open BitVec List

variable {shift level levels first second size : ℕ}

def digit (shift level key : ℕ) : ℕ := key / 2 ^ (shift * level) % 2 ^ shift

/-- The keys have the same lowest digits. -/
def Agree (shift levels first second : ℕ) : Prop :=
  ∀ level < levels, digit shift level first = digit shift level second

theorem agree_zero : Agree shift 0 first second := by
  intro level hlevel
  exact absurd hlevel (Nat.not_lt_zero level)

theorem agree_succ : Agree shift (levels + 1) first second ↔
    digit shift levels first = digit shift levels second ∧ Agree shift levels first second := by
  rw [Agree, Nat.forall_lt_succ_right, And.comm]
  rfl

theorem mod_succ (shift levels key : ℕ) :
    key % 2 ^ (shift * (levels + 1)) =
      2 ^ (shift * levels) * digit shift levels key + key % 2 ^ (shift * levels) := by
  rw [Nat.mul_succ, pow_add, Nat.mod_mul, digit, add_comm]

theorem agree_iff_mod_eq : Agree shift levels first second ↔
    first % 2 ^ (shift * levels) = second % 2 ^ (shift * levels) := by
  induction levels with
  | zero => simp [agree_zero, Nat.mod_one]
  | succ levels ih =>
    have hpos : 0 < 2 ^ (shift * levels) := Nat.two_pow_pos _
    rw [agree_succ, ih, mod_succ, mod_succ]
    constructor
    · rintro ⟨hdigit, hmod⟩
      rw [hdigit, hmod]
    intro hsum
    have hmod := congrArg (· % 2 ^ (shift * levels)) hsum
    simp only [Nat.mul_add_mod, Nat.mod_mod] at hmod
    rw [hmod, Nat.add_right_cancel_iff, Nat.mul_left_cancel_iff hpos] at hsum
    exact ⟨hsum, hmod⟩

theorem agree_iff_eq (hfirst : first < 2 ^ (shift * levels))
    (hsecond : second < 2 ^ (shift * levels)) :
    Agree shift levels first second ↔ first = second := by
  rw [agree_iff_mod_eq, Nat.mod_eq_of_lt hfirst, Nat.mod_eq_of_lt hsecond]

/-- A key is below a capacity when the digits above it are zero. -/
theorem digit_eq_zero_iff {key : ℕ} (hkey : key < 2 ^ (shift * (levels + 1))) :
    digit shift levels key = 0 ↔ key < 2 ^ (shift * levels) := by
  have hpos : 0 < 2 ^ (shift * levels) := Nat.two_pow_pos _
  rw [Nat.mul_succ, pow_add] at hkey
  rw [digit, Nat.mod_eq_of_lt (Nat.div_lt_of_lt_mul hkey), Nat.div_eq_zero_iff]
  exact ⟨fun h => h.resolve_left hpos.ne', Or.inr⟩

theorem mem_drop_finRange {start place : Fin size} :
    place ∈ (finRange size).drop start ↔ start ≤ place := by
  rw [mem_iff_getElem]
  constructor
  · rintro ⟨offset, _, rfl⟩
    rw [Fin.le_def, getElem_drop, getElem_finRange]
    exact Nat.le_add_right _ _
  intro hle
  rw [Fin.le_def] at hle
  refine ⟨place - start, ?_, ?_⟩
  · rw [length_drop, length_finRange]
    omega
  · rw [getElem_drop, getElem_finRange]
    exact Fin.ext (by simpa using Nat.add_sub_cancel' hle)

theorem find_drop_finRange {start place : Fin size} {test : Fin size → Bool}
    (hfind : ((finRange size).drop start).find? test = some place) :
    start ≤ place ∧ test place = true ∧
      ∀ between, start ≤ between → between < place → test between = false := by
  have hmem := mem_drop_finRange.mp (mem_of_find?_eq_some hfind)
  rw [find?_eq_some_iff_getElem] at hfind
  obtain ⟨htest, offset, hoffset, rfl, hbefore⟩ := hfind
  refine ⟨hmem, htest, fun between hge hlt => ?_⟩
  rw [Fin.le_def] at hge
  rw [Fin.lt_def, getElem_drop, getElem_finRange] at hlt
  have hsum : start.val + (between.val - start.val) = between.val := Nat.add_sub_cancel' hge
  have hbetween := hbefore (between - start) (by simp at hlt; omega)
  simpa [hsum] using hbetween

section Words

variable {width : ℕ}

theorem toNat_one_of_pos (hwidth : 0 < width) : (1 : BitVec width).toNat = 1 := by
  rw [ofNat_eq_ofNat, toNat_ofNat]
  exact Nat.mod_eq_of_lt (Nat.one_lt_two_pow hwidth.ne')

section

variable (hshift : shift < width)
include hshift

theorem toNat_one_shiftLeft : ((1 : BitVec width) <<< shift).toNat = 2 ^ shift := by
  have hlt : 2 ^ shift < 2 ^ width := Nat.pow_lt_pow_right (by decide) hshift
  rw [toNat_shiftLeft, toNat_one_of_pos (by omega), Nat.shiftLeft_eq, one_mul, Nat.mod_eq_of_lt hlt]

theorem toNat_mask : (((1 : BitVec width) <<< shift) - 1).toNat = 2 ^ shift - 1 := by
  have hpos : 0 < 2 ^ shift := Nat.two_pow_pos shift
  have hone := @toNat_one_of_pos width (by omega)
  rw [toNat_sub_of_le (by rw [le_def, hone, toNat_one_shiftLeft hshift]; omega),
    toNat_one_shiftLeft hshift, hone]

theorem toNat_and_not_mask (word : BitVec width) :
    (word &&& ~~~(((1 : BitVec width) <<< shift) - 1)).toNat =
      word.toNat / 2 ^ shift * 2 ^ shift := by
  have hclear : word &&& ~~~(((1 : BitVec width) <<< shift) - 1) = (word >>> shift) <<< shift := by
    apply eq_of_getLsbD_eq
    intro bit hbit
    rw [getLsbD_and, getLsbD_not, ← testBit_toNat (_ - _), toNat_mask hshift,
      Nat.testBit_two_pow_sub_one, getLsbD_shiftLeft, getLsbD_ushiftRight]
    by_cases hlow : bit < shift
    · simp [hlow, hbit]
    · have hsum : shift + (bit - shift) = bit := by omega
      simp [hlow, hbit, hsum]
  have hle := Nat.div_mul_le_self word.toNat (2 ^ shift)
  rw [hclear, toNat_shiftLeft, toNat_ushiftRight, Nat.shiftRight_eq_div_pow,
    Nat.shiftLeft_eq, Nat.mod_eq_of_lt (hle.trans_lt word.isLt)]

theorem toNat_or_mask (word : BitVec width) :
    (word ||| (((1 : BitVec width) <<< shift) - 1)).toNat =
      word.toNat / 2 ^ shift * 2 ^ shift + (2 ^ shift - 1) := by
  have hpos : 0 < 2 ^ shift := Nat.two_pow_pos shift
  have hall : word.toNat % 2 ^ shift ||| (2 ^ shift - 1) = 2 ^ shift - 1 := by
    apply Nat.eq_of_testBit_eq
    intro bit
    rw [Nat.testBit_or, Nat.testBit_two_pow_sub_one, Nat.testBit_mod_two_pow]
    cases decide (bit < shift) <;> simp
  have hlow : (2 ^ shift - 1) % 2 ^ shift = 2 ^ shift - 1 := Nat.mod_eq_of_lt (by omega)
  have hhigh : (2 ^ shift - 1) / 2 ^ shift = 0 := Nat.div_eq_of_lt (by omega)
  rw [toNat_or, toNat_mask hshift, ← Nat.div_add_mod' (word.toNat ||| (2 ^ shift - 1)) (2 ^ shift),
    Nat.or_div_two_pow, Nat.or_mod_two_pow, hlow, hhigh, Nat.or_zero, hall]

end

/-- The lowest digit is exchanged by two exclusive disjunctions. -/
theorem xor_exchange {number old new : ℕ} (hold : number % 2 ^ shift = old)
    (hnew : new < 2 ^ shift) : number ^^^ old ^^^ new = number / 2 ^ shift * 2 ^ shift + new := by
  have holdlt : old < 2 ^ shift := by
    rw [← hold]
    exact Nat.mod_lt _ (Nat.two_pow_pos shift)
  rw [← Nat.div_add_mod' (number ^^^ old ^^^ new) (2 ^ shift), Nat.xor_div_two_pow,
    Nat.xor_div_two_pow, Nat.xor_mod_two_pow, Nat.xor_mod_two_pow, hold, Nat.mod_eq_of_lt holdlt,
    Nat.mod_eq_of_lt hnew, Nat.div_eq_of_lt holdlt, Nat.div_eq_of_lt hnew, Nat.xor_self,
    Nat.xor_zero, Nat.xor_zero, Nat.zero_xor]

end Words

end KernelM5040.Digits
