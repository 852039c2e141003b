import KernelM5040.Lib.Div64

/-!
# Forwarding a timer: kernel/hrtimer.c

`hrtimer_forward` on a machine with words of 32 bits and scalar times.  The
number of overruns is a quotient of times, for which both are shifted until the
divisor has 32 bits.
-/

namespace KernelM5040.Hrtimer

open Div64 Nat

variable {kt div sft shift delta incr : ℕ} {expires now interval resolution : ℤ}

/-- The loop that makes the divisor less than `2 ^ 32`. -/
def shiftDivisor (sft div : ℕ) : ℕ × ℕ :=
  if div / 2 ^ 32 = 0 then (sft, div) else shiftDivisor (sft + 1) (div / 2)
termination_by div

/-- `ktime_divns`, for a divisor that is not negative. -/
def ktimeDivns (kt : ℤ) (div : ℕ) : ℕ :=
  let shifted := shiftDivisor 0 div
  (doDiv (u64 kt / 2 ^ shifted.1) (u32 shifted.2)).1

/-- `ktime_set(KTIME_SEC_MAX, 0)` -/
def ktimeSecMax : ℤ := (2 ^ 31 - 1) * 1000000000

/-- `ktime_add_safe` -/
def ktimeAddSafe (lhs rhs : ℤ) : ℤ :=
  let res := s64 (lhs + rhs)
  if res < 0 ∨ res < lhs ∨ res < rhs then ktimeSecMax else res

/-- `hrtimer_forward`, with the overruns and `timer->expires`. -/
def hrtimerForward (expires now interval resolution : ℤ) : ℕ × ℤ :=
  let delta := s64 (now - expires)
  if delta < 0 then (0, expires)
  else
    let interval := if interval < resolution then resolution else interval
    if interval ≤ delta then
      let orun := ktimeDivns delta interval.toNat
      let expires := s64 (expires + u64 (interval * orun))
      if now < expires then (orun, expires)
      else (u64 (orun + 1), ktimeAddSafe expires interval)
    else (1, ktimeAddSafe expires interval)

theorem shiftDivisor_spec (sft div : ℕ) :
    ∃ shift, shiftDivisor sft div = (sft + shift, div / 2 ^ shift) ∧ div / 2 ^ shift < 2 ^ 32 ∧
      (shift = 0 ∨ 2 ^ 31 ≤ div / 2 ^ shift) := by
  fun_induction shiftDivisor sft div with
  | case1 sft div hsmall => exact ⟨0, by simp, by omega, .inl rfl⟩
  | case2 sft div hlarge ih =>
    obtain ⟨shift, heq, hlt, hge⟩ := ih
    have hdiv : div / 2 ^ (shift + 1) = div / 2 / 2 ^ shift := by
      rw [Nat.div_div_eq_div_mul, pow_succ, mul_comm]
    refine ⟨shift + 1, ?_, by rw [hdiv]; exact hlt, .inr ?_⟩
    · rw [heq, hdiv, add_assoc, add_comm 1]
    rw [hdiv]
    rcases hge with rfl | hge
    · rw [pow_zero, Nat.div_one]
      omega
    · exact hge

/-- The quotient of the shifted numbers is exact or too large by one. -/
theorem div_shifted (hpos : 0 < div / 2 ^ shift)
    (hsmall : kt / 2 ^ shift / (div / 2 ^ shift) ≤ div / 2 ^ shift) :
    kt / 2 ^ shift / (div / 2 ^ shift) = kt / div ∨
      kt / 2 ^ shift / (div / 2 ^ shift) = kt / div + 1 := by
  have hscale : 0 < 2 ^ shift := Nat.two_pow_pos shift
  have hdiv : 0 < div := pos_of_div_pos hpos
  have hlower : kt / div ≤ kt / 2 ^ shift / (div / 2 ^ shift) := by
    rw [Nat.le_div_iff_mul_le hpos, Nat.le_div_iff_mul_le hscale, mul_assoc]
    calc kt / div * (div / 2 ^ shift * 2 ^ shift)
        ≤ kt / div * div := Nat.mul_le_mul_left _ (div_mul_le_self div _)
      _ ≤ kt := div_mul_le_self kt div
  cases hquot : kt / 2 ^ shift / (div / 2 ^ shift) with
  | zero => exact .inl (le_zero.mp (hquot ▸ hlower)).symm
  | succ less =>
    have hupper : less ≤ kt / div := by
      rw [Nat.le_div_iff_mul_le hdiv]
      calc less * div
          ≤ less * ((div / 2 ^ shift + 1) * 2 ^ shift) :=
            Nat.mul_le_mul_left _ (lt_mul_of_div_lt (lt_succ_self _) hscale).le
        _ = (less * (div / 2 ^ shift) + less) * 2 ^ shift := by ring
        _ ≤ (kt / 2 ^ shift / (div / 2 ^ shift) * (div / 2 ^ shift)) * 2 ^ shift := by
            refine Nat.mul_le_mul_right _ ?_
            rw [hquot, succ_mul]
            omega
        _ ≤ kt / 2 ^ shift * 2 ^ shift := Nat.mul_le_mul_right _ (div_mul_le_self _ _)
        _ ≤ kt := div_mul_le_self _ _
    omega

theorem ktimeDivns_spec (hkt : kt ≤ 2 ^ 62) (hdiv : 0 < div) :
    (ktimeDivns kt div = kt / div ∨ ktimeDivns kt div = kt / div + 1) ∧
      (kt = div → ktimeDivns kt div = 1) := by
  obtain ⟨shift, heq, hlt, hge⟩ := shiftDivisor_spec 0 div
  have hpos : 0 < div / 2 ^ shift := by
    rcases hge with rfl | hge
    · simpa using hdiv
    · omega
  have hdo : ktimeDivns kt div = kt / 2 ^ shift / (div / 2 ^ shift) := by
    have hkt64 : u64 (kt : ℤ) = kt := by
      rw [u64]
      omega
    have hdiv32 : u32 ((div / 2 ^ shift : ℕ) : ℤ) = div / 2 ^ shift := by
      rw [u32]
      omega
    have hsmall := Nat.div_le_self kt (2 ^ shift)
    have hresult := doDiv_spec (hsmall.trans_lt (by omega)) hpos hlt
    simp only [ktimeDivns, heq, hkt64, hdiv32, zero_add, hresult]
  rw [hdo]
  refine ⟨?_, fun hsame => by rw [hsame, Nat.div_self hpos]⟩
  rcases hge with rfl | hge
  · simp
  · refine div_shifted hpos (le_trans ?_ hge)
    refine Nat.div_le_of_le_mul ((Nat.div_le_self _ _).trans (hkt.trans ?_))
    omega

/-- The timer expires after `now`, by the least number of intervals. -/
def Forwarded (expires now interval : ℤ) (result : ℕ × ℤ) : Prop :=
  if now < expires then result = (0, expires)
  else 1 ≤ result.1 ∧ result.2 = expires + result.1 * interval ∧
    IsLeast {k : ℕ | now < expires + k * interval} result.1

theorem ktimeAddSafe_spec (hexpires : 0 ≤ expires) (hinterval : 0 ≤ interval)
    (hsum : expires + interval ≤ 2 ^ 63) :
    ktimeAddSafe expires interval =
      if expires + interval = 2 ^ 63 then ktimeSecMax else expires + interval := by
  rw [ktimeAddSafe, s64]
  split_ifs <;> omega

/-- The time is passed by one interval more than have passed already. -/
theorem hrtimerForward_eq (hexpires : 0 ≤ expires) (hnow : expires + delta ≤ 2 ^ 62)
    (hpos : 0 < incr) (hincr : incr ≤ 2 ^ 62) (hmax : max interval resolution = incr) :
    hrtimerForward expires (expires + delta) interval resolution =
      (delta / incr + 1,
        if expires + incr * (delta / incr + 1 : ℕ) = 2 ^ 63 then ktimeSecMax
        else expires + incr * (delta / incr + 1 : ℕ)) := by
  have hdelta : s64 (expires + delta - expires) = delta := by
    rw [s64]
    omega
  have hif : (if interval < resolution then resolution else interval) = incr :=
    (max_def_lt interval resolution).symm.trans hmax
  have hlower : (incr : ℤ) * (delta / incr : ℕ) ≤ delta := by
    exact_mod_cast mul_div_le delta incr
  have hupper : (delta : ℤ) < incr * (delta / incr + 1 : ℕ) := by
    exact_mod_cast lt_mul_div_succ delta hpos
  have hnonneg : (0 : ℤ) ≤ incr * (delta / incr : ℕ) := by positivity
  obtain ⟨hdivns, hequal⟩ := @ktimeDivns_spec delta incr (by omega) hpos
  have hquot := Nat.div_le_self delta incr
  have hnext : (incr : ℤ) * (delta / incr + 1 : ℕ) = incr * (delta / incr : ℕ) + incr := by
    push_cast
    ring
  simp only [hrtimerForward, hdelta, hif, Int.toNat_natCast]
  rw [hnext] at hupper ⊢
  rw [if_neg (by omega)]
  by_cases hge : incr ≤ delta
  · rw [if_pos (by omega)]
    rcases hdivns with hexact | hexact
    · rw [hexact]
      generalize (incr : ℤ) * (delta / incr : ℕ) = product at *
      have hproduct : (u64 product : ℤ) = product := by
        rw [u64]
        omega
      have hcount : u64 ((delta / incr : ℕ) + 1) = delta / incr + 1 := by
        rw [u64]
        omega
      rw [hproduct, s64_eq (by omega) (by omega), if_neg (by omega), hcount,
        ktimeAddSafe_spec (by omega) (by omega) (by omega), add_assoc]
    · -- one interval too many reaches the same time, and does not overflow
      have hfits : expires + (incr * (delta / incr : ℕ) + incr) < 2 ^ 63 := by
        by_contra hover
        have hone := hequal (by omega)
        rw [hexact, Nat.add_eq_right, Nat.div_eq_zero_iff] at hone
        omega
      rw [hexact, hnext]
      generalize (incr : ℤ) * (delta / incr : ℕ) = product at *
      have hproduct : (u64 (product + incr) : ℤ) = product + incr := by
        rw [u64]
        omega
      rw [hproduct, s64_eq (by omega) (by omega), if_pos (by omega), if_neg (by omega)]
  · rw [if_neg (by omega), div_eq_of_lt (by omega),
      ktimeAddSafe_spec hexpires (by omega) (by omega)]
    simp

theorem isLeast_overruns (expires : ℤ) (hpos : 0 < incr) :
    IsLeast {k : ℕ | expires + delta < expires + k * incr} (delta / incr + 1) := by
  refine ⟨?_, fun k hk => ?_⟩
  · have hupper := lt_mul_div_succ delta hpos
    rw [Set.mem_ofPred_eq, add_lt_add_iff_left, mul_comm]
    exact_mod_cast hupper
  · rw [Set.mem_ofPred_eq, add_lt_add_iff_left] at hk
    exact succ_le_of_lt (Nat.div_lt_of_lt_mul (by rw [mul_comm]; exact_mod_cast hk))

theorem reaches_iff (hexpires : 0 ≤ expires) (hnow : expires + delta ≤ 2 ^ 62) (hpos : 0 < incr)
    (hincr : incr ≤ 2 ^ 62) :
    expires + incr * (delta / incr + 1 : ℕ) = 2 ^ 63 ↔
      expires + delta = 2 ^ 62 ∧ (incr : ℤ) = 2 ^ 62 ∧ (expires = 0 ∨ expires = 2 ^ 62) := by
  have hlower : (incr : ℤ) * (delta / incr : ℕ) ≤ delta := by
    exact_mod_cast mul_div_le delta incr
  push_cast [mul_add] at hlower ⊢
  constructor
  · intro hsum
    obtain rfl : incr = 2 ^ 62 := by omega
    omega
  · rintro ⟨hend, hsame, hfirst⟩
    obtain rfl : incr = 2 ^ 62 := by exact_mod_cast hsame
    omega

/-- The timer is forwarded exactly, unless the new time would be `2 ^ 63`. -/
theorem hrtimerForward_exact_iff (hexpires : 0 ≤ expires) (hexpires' : expires ≤ 2 ^ 62)
    (hnow : 0 ≤ now) (hnow' : now ≤ 2 ^ 62) (hinterval : 0 ≤ interval)
    (hinterval' : interval ≤ 2 ^ 62) (hresolution : 1 ≤ resolution)
    (hresolution' : resolution ≤ 2 ^ 62) :
    Forwarded expires now (max interval resolution)
        (hrtimerForward expires now interval resolution) ↔
      ¬ (now = 2 ^ 62 ∧ max interval resolution = 2 ^ 62 ∧ (expires = 0 ∨ expires = 2 ^ 62)) := by
  rw [Forwarded]
  by_cases hless : now < expires
  · have hnegative : s64 (now - expires) < 0 := by
      rw [s64]
      omega
    rw [if_pos hless, hrtimerForward, if_pos hnegative]
    simp only [true_iff]
    omega
  · obtain ⟨delta, rfl⟩ : ∃ delta : ℕ, now = expires + delta := ⟨(now - expires).toNat, by omega⟩
    obtain ⟨incr, hmax⟩ : ∃ incr : ℕ, max interval resolution = incr :=
      ⟨(max interval resolution).toNat, by omega⟩
    rw [if_neg hless, hrtimerForward_eq hexpires hnow' (by omega) (by omega) hmax, hmax,
      ← reaches_iff hexpires hnow' (by omega) (by omega), mul_comm (incr : ℤ)]
    have hleast := @isLeast_overruns delta incr expires (by omega)
    simp only [hleast, and_true, Nat.le_add_left, true_and]
    split_ifs with hsum
    · rw [hsum, ktimeSecMax]
      simp
    · exact iff_of_true rfl hsum

/-- Before `2 ^ 62` the timer is forwarded exactly. -/
theorem hrtimerForward_exact (hexpires : 0 ≤ expires) (hexpires' : expires ≤ 2 ^ 62)
    (hnow : 0 ≤ now) (hnow' : now < 2 ^ 62) (hinterval : 0 ≤ interval)
    (hinterval' : interval ≤ 2 ^ 62) (hresolution : 1 ≤ resolution)
    (hresolution' : resolution ≤ 2 ^ 62) :
    Forwarded expires now (max interval resolution)
      (hrtimerForward expires now interval resolution) := by
  rw [hrtimerForward_exact_iff hexpires hexpires' hnow hnow'.le hinterval hinterval' hresolution
    hresolution']
  rintro ⟨hend, -⟩
  exact hnow'.ne hend

theorem hrtimerForward_exact_five :
    Forwarded 5 (2 ^ 61) (max (2 ^ 33 + 1) 1) (hrtimerForward 5 (2 ^ 61) (2 ^ 33 + 1) 1) :=
  hrtimerForward_exact (by norm_num) (by norm_num) (by norm_num) (by norm_num) (by norm_num)
    (by norm_num) (by norm_num) (by norm_num)

/-- The sum of the largest times is replaced by a time that is long over. -/
theorem hrtimerForward_overflows :
    ¬ Forwarded (2 ^ 62) (2 ^ 62) (max (2 ^ 62) 1)
      (hrtimerForward (2 ^ 62) (2 ^ 62) (2 ^ 62) 1) := by
  norm_num [Forwarded, hrtimerForward, ktimeAddSafe, s64, ktimeSecMax]

end KernelM5040.Hrtimer
