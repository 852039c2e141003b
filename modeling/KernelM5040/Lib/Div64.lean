import KernelM5040.Core.Word

/-!
# Division of 64 bits by 32 bits: lib/div64.c

The functions for machines with words of 32 bits: division by shifts and
subtractions, and the division of signed numbers that rests on it.
-/

namespace KernelM5040.Div64

open Word Nat

variable {n base rem res k : ℕ} {dividend divisor : ℤ}

/-- The loop that doubles the divisor, until it is negative as a signed number or not below the
remainder, and with it the bit of the quotient. -/
def double (rem b d : ℕ) : ℕ × ℕ :=
  if 0 < b ∧ b < 2 ^ 63 ∧ b < rem then double rem (word (b + b)) (word (d + d)) else (b, d)
termination_by 2 ^ 64 - b
decreasing_by
  rw [word]
  omega

/-- The loop `do … while (d)`, with the quotient and the remainder. -/
def subtract (rem res b d : ℕ) : ℕ × ℕ :=
  let res := if b ≤ rem then word (res + d) else res
  let rem := if b ≤ rem then rem - b else rem
  if d / 2 = 0 then (res, rem) else subtract rem res (b / 2) (d / 2)
termination_by d

/-- `__div64_32`, with what is stored in `*n` and the returned remainder.  The high word is reduced
first, by a product of 32 bits. -/
def div64By32 (n base : ℕ) : ℕ × ℕ :=
  let high := n / 2 ^ 32 % 2 ^ 32
  let reduced :=
    if base ≤ high then
      (word (high / base * 2 ^ 32), minus n (word (high / base * base % 2 ^ 32 * 2 ^ 32)))
    else (0, n)
  let scaled := double reduced.2 base 1
  let result := subtract reduced.2 reduced.1 scaled.1 scaled.2
  (result.1, result.2 % 2 ^ 32)

theorem double_spec (hbase : 0 < base) (hrem : rem < 2 ^ 64) (hfits : base * 2 ^ k < 2 ^ 64) :
    ∃ shift, double rem (base * 2 ^ k) (2 ^ k) = (base * 2 ^ shift, 2 ^ shift) ∧
      rem < 2 * (base * 2 ^ shift) := by
  induction hleft : 2 ^ 64 - base * 2 ^ k using Nat.strong_induction_on generalizing k with
  | _ left ih =>
    have hpos : 0 < base * 2 ^ k := Nat.mul_pos hbase (Nat.two_pow_pos k)
    have hle : 2 ^ k ≤ base * 2 ^ k := Nat.le_mul_of_pos_left _ hbase
    rw [double]
    split_ifs with hmore
    · have hb : word (base * 2 ^ k + base * 2 ^ k) = base * 2 ^ (k + 1) := by
        rw [word_eq (by omega), pow_succ]
        ring
      have hd : word (2 ^ k + 2 ^ k) = 2 ^ (k + 1) := by
        rw [word_eq (by omega), pow_succ]
        ring
      rw [hb, hd]
      have hnext : base * 2 ^ (k + 1) = base * 2 ^ k + base * 2 ^ k := by ring
      exact ih _ (by omega) (by omega) rfl
    · exact ⟨k, rfl, by omega⟩

theorem subtract_spec (hbase : 0 < base) (hrem : rem < 2 * (base * 2 ^ k))
    (hres : res + rem / base < 2 ^ 64) :
    subtract rem res (base * 2 ^ k) (2 ^ k) = (res + rem / base, rem % base) := by
  induction k generalizing rem res with
  | zero =>
    rw [pow_zero, mul_one] at *
    rw [subtract, if_pos (by decide)]
    by_cases hge : base ≤ rem
    · have hdiv : rem / base = 1 := Nat.div_eq_of_lt_le (by omega) (by omega)
      rw [hdiv] at hres
      rw [if_pos hge, if_pos hge, word_eq hres, hdiv, mod_eq_sub_mod hge, mod_eq_of_lt (by omega)]
    · rw [if_neg hge, if_neg hge, div_eq_of_lt (by omega), mod_eq_of_lt (by omega), add_zero]
  | succ k ih =>
    have hhalf : base * 2 ^ (k + 1) / 2 = base * 2 ^ k := by
      rw [pow_succ, ← mul_assoc, Nat.mul_div_cancel _ (by decide)]
    have hbit : 2 ^ (k + 1) / 2 = 2 ^ k := by rw [pow_succ, Nat.mul_div_cancel _ (by decide)]
    have hsame : 2 * (base * 2 ^ k) = base * 2 ^ (k + 1) := by ring
    rw [subtract, hhalf, hbit, if_neg (Nat.two_pow_pos k).ne']
    by_cases hge : base * 2 ^ (k + 1) ≤ rem
    · have hdiv := sub_mul_div rem base (2 ^ (k + 1))
      have hquot : 2 ^ (k + 1) ≤ rem / base := by
        rw [Nat.le_div_iff_mul_le hbase, mul_comm]
        exact hge
      rw [if_pos hge, if_pos hge, word_eq (by omega), ih (by omega) (by omega), hdiv,
        sub_mul_mod hge, Nat.add_assoc, Nat.add_sub_cancel' hquot]
    · rw [if_neg hge, if_neg hge, ih (by omega) hres]

section

variable (hn : n < 2 ^ 64) (hbase : 0 < base) (hfits : base < 2 ^ 32)
include hn hbase hfits

/-- Both loops, for a quotient of which a part is already there. -/
theorem subtract_double (heq : n = rem + base * res) :
    subtract rem res (double rem base 1).1 (double rem base 1).2 = (n / base, n % base) := by
  have hdiv : n / base = res + rem / base := by
    rw [heq, add_mul_div_left _ _ hbase, add_comm]
  have hsmall := Nat.div_le_self n base
  obtain ⟨shift, hdouble, hrem⟩ := @double_spec base rem 0 hbase (by omega) (by omega)
  rw [pow_zero, mul_one] at hdouble
  rw [hdouble, subtract_spec hbase hrem (by omega), hdiv, heq, add_mul_mod_self_left]

theorem div64By32_spec : div64By32 n base = (n / base, n % base) := by
  have hrem : n % base % 2 ^ 32 = n % base := mod_eq_of_lt ((mod_lt n hbase).trans hfits)
  rw [div64By32, mod_eq_of_lt (Nat.div_lt_of_lt_mul hn : n / 2 ^ 32 < 2 ^ 32)]
  by_cases hhigh : base ≤ n / 2 ^ 32
  · have hproduct := div_mul_le_self (n / 2 ^ 32) base
    have hquot := Nat.div_le_self (n / 2 ^ 32) base
    have hback : base * (n / 2 ^ 32 / base * 2 ^ 32) = n / 2 ^ 32 / base * base * 2 ^ 32 := by ring
    have hle : n / 2 ^ 32 / base * base * 2 ^ 32 ≤ n := by omega
    rw [if_pos hhigh, mod_eq_of_lt (by omega), word_eq (by omega), word_eq (hle.trans_lt hn),
      minus_eq hn hle]
    have hloops := subtract_double hn hbase hfits (by rw [hback, Nat.sub_add_cancel hle])
    simp only [hloops, hrem]
  · have hloops := @subtract_double n base n 0 hn hbase hfits rfl
    simp only [if_neg hhigh, hloops, hrem]

end

/-- `do_div`, where numbers of 32 bits are divided by the machine. -/
def doDiv (n base : ℕ) : ℕ × ℕ :=
  if n / 2 ^ 32 = 0 then (n % 2 ^ 32 / base, n % 2 ^ 32 % base) else div64By32 n base

variable (value : ℤ)

/-- Conversion to `s64`. -/
def s64 : ℤ := (value + 2 ^ 63) % 2 ^ 64 - 2 ^ 63

/-- Conversion to `s32`. -/
def s32 : ℤ := (value + 2 ^ 31) % 2 ^ 32 - 2 ^ 31

/-- Conversion to `u64`. -/
def u64 : ℕ := (value % 2 ^ 64).toNat

/-- Conversion to `u32`. -/
def u32 : ℕ := (value % 2 ^ 32).toNat

/-- `abs` for an `int`. -/
def abs : ℤ := if value < 0 then s32 (-value) else value

/-- `div_s64_rem`, with the quotient and what is stored in `*remainder`. -/
def divS64Rem (dividend divisor : ℤ) : ℤ × ℤ :=
  if dividend < 0 then
    let result := doDiv (u64 (s64 (-dividend))) (u32 (abs divisor))
    let quotient := if 0 < divisor then u64 (-result.1) else result.1
    (s64 quotient, s32 (-s32 result.2))
  else
    let result := doDiv (u64 dividend) (u32 (abs divisor))
    let quotient := if divisor < 0 then u64 (-result.1) else result.1
    (s64 quotient, s32 result.2)

theorem doDiv_spec (hn : n < 2 ^ 64) (hbase : 0 < base) (hfits : base < 2 ^ 32) :
    doDiv n base = (n / base, n % base) := by
  rw [doDiv]
  split_ifs with hsmall
  · rw [mod_eq_of_lt (by omega)]
  · exact div64By32_spec hn hbase hfits

theorem s64_eq {value : ℤ} (hlower : -2 ^ 63 ≤ value) (hupper : value < 2 ^ 63) :
    s64 value = value := by
  rw [s64]
  omega

theorem s32_eq {value : ℤ} (hlower : -2 ^ 31 ≤ value) (hupper : value < 2 ^ 31) :
    s32 value = value := by
  rw [s32]
  omega

theorem s64_u64 : s64 (u64 value) = s64 value := by
  rw [s64, u64, s64]
  omega

theorem u32_abs (hdivisor : -2 ^ 31 ≤ divisor) (hfits : divisor < 2 ^ 31) :
    u32 (abs divisor) = divisor.natAbs := by
  rw [u32, abs, s32]
  split_ifs <;> omega

/-- The magnitudes are divided, and the sign is that of both numbers. -/
theorem tdiv_eq (dividend divisor : ℤ) :
    dividend.tdiv divisor = if dividend < 0 ↔ divisor < 0 then
      ((dividend.natAbs / divisor.natAbs : ℕ) : ℤ) else -(dividend.natAbs / divisor.natAbs : ℕ) := by
  cases dividend <;> cases divisor <;> simp [Int.tdiv]
  omega

theorem tmod_eq (dividend divisor : ℤ) :
    dividend.tmod divisor = if dividend < 0 then
      -((dividend.natAbs % divisor.natAbs : ℕ) : ℤ) else (dividend.natAbs % divisor.natAbs : ℕ) := by
  cases dividend <;> cases divisor <;> simp [Int.tmod]

/-- Both divisions are exact, the signed one with a quotient that is rounded towards zero. -/
theorem div64_exact (hn : n < 2 ^ 64) (hbase : 0 < base) (hfits : base < 2 ^ 32)
    (hdividend : -2 ^ 63 ≤ dividend) (hdividend' : dividend < 2 ^ 63)
    (hdivisor : -2 ^ 31 ≤ divisor) (hdivisor' : divisor < 2 ^ 31) (hne : divisor ≠ 0)
    (hquotient : dividend.tdiv divisor < 2 ^ 63) :
    div64By32 n base = (n / base, n % base) ∧
      divS64Rem dividend divisor = (dividend.tdiv divisor, dividend.tmod divisor) := by
  refine ⟨div64By32_spec hn hbase hfits, ?_⟩
  have hmod := mod_lt dividend.natAbs (Int.natAbs_pos.mpr hne)
  have hdiv := Nat.div_le_self dividend.natAbs divisor.natAbs
  have hresult := @doDiv_spec dividend.natAbs divisor.natAbs (by omega) (by omega) (by omega)
  rw [tdiv_eq] at hquotient ⊢
  rw [divS64Rem, u32_abs hdivisor hdivisor', tmod_eq]
  generalize dividend.natAbs / divisor.natAbs = quotient at *
  generalize dividend.natAbs % divisor.natAbs = remainder at *
  have hrem : s32 remainder = remainder := s32_eq (by omega) (by omega)
  by_cases hneg : dividend < 0
  · have habs : u64 (s64 (-dividend)) = dividend.natAbs := by
      rw [u64, s64]
      omega
    simp only [hneg, if_true, true_iff, habs, hresult, Prod.mk.injEq] at hquotient ⊢
    rw [hrem, s32_eq (by omega) (by omega)]
    refine ⟨?_, rfl⟩
    by_cases hsign : divisor < 0
    · rw [if_pos hsign] at hquotient ⊢
      rw [if_neg (by omega), s64_eq (by omega) hquotient]
    · rw [if_neg hsign, if_pos (by omega), s64_u64, s64_eq (by omega) (by omega)]
  · have habs : u64 dividend = dividend.natAbs := by
      rw [u64]
      omega
    simp only [hneg, if_false, false_iff, habs, hresult, Prod.mk.injEq] at hquotient ⊢
    rw [hrem]
    refine ⟨?_, rfl⟩
    by_cases hsign : divisor < 0
    · rw [if_pos hsign, if_neg (not_not.mpr hsign), s64_u64, s64_eq (by omega) (by omega)]
    · rw [if_neg hsign, if_pos hsign, s64_eq (by omega) (by omega)]

theorem div64_exact_lowest :
    div64By32 (2 ^ 63) 10 = (2 ^ 63 / 10, 2 ^ 63 % 10) ∧
      divS64Rem (-2 ^ 63) (-2 ^ 31) = ((-2 ^ 63 : ℤ).tdiv (-2 ^ 31), (-2 ^ 63 : ℤ).tmod (-2 ^ 31)) :=
  div64_exact (by norm_num) (by norm_num) (by norm_num) (by norm_num) (by norm_num) (by norm_num)
    (by norm_num) (by norm_num) (by rw [tdiv_eq]; norm_num)

end KernelM5040.Div64
