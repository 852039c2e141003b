import KernelM5040.Kernel.Timer

/-!
# Where a timer hangs in the wheel

Ticks are counted here without wrapping around; the words of the source are
these numbers modulo `2 ^ 64`.  A timer in the first vector hangs in the list
of its expiry.  In a coarser one it hangs in a list that is cascaded at some
tick, its turn, which has not come yet and is not after the expiry.
-/

namespace KernelM5040.Timer

open Buckets Function Nat Vec
open BitVec (ofNat)

section Sizes

variable (baseSmall : Bool)

theorem bits_le : tvrBits baseSmall + 4 * tvnBits baseSmall ≤ 32 := by
  cases baseSmall <;> decide

theorem tvrMask_eq : tvrMask baseSmall = ofNat 64 (2 ^ tvrBits baseSmall - 1) := by
  rw [tvrMask, tvrSize, one_shiftLeft]

theorem tvnMask_eq : tvnMask baseSmall = ofNat 64 (2 ^ tvnBits baseSmall - 1) := by
  rw [tvnMask, tvnSize, one_shiftLeft]

/-- The lists of a vector are that many ticks apart, as a power of two. -/
def Vec.shift : Vec → ℕ
  | .tv1 => 0
  | .tv2 => tvrBits baseSmall
  | .tv3 => tvrBits baseSmall + tvnBits baseSmall
  | .tv4 => tvrBits baseSmall + 2 * tvnBits baseSmall
  | .tv5 => tvrBits baseSmall + 3 * tvnBits baseSmall

/-- The number that `INDEX` has for a coarser vector. -/
def Vec.level : Vec → ℕ
  | .tv1 | .tv2 => 0
  | .tv3 => 1
  | .tv4 => 2
  | .tv5 => 3

theorem Vec.shift_eq {tv : Vec} (htv : tv ≠ .tv1) :
    tv.shift baseSmall = tvrBits baseSmall + tv.level * tvnBits baseSmall := by
  cases tv <;> simp [shift, level] at htv ⊢

theorem Vec.shift_le (tv : Vec) : tv.shift baseSmall + tvnBits baseSmall ≤ 32 := by
  have hbits := bits_le baseSmall
  cases tv <;> simp only [shift] <;> omega

end Sizes

section Words

theorem toNat_shift_mask {shift bits : ℕ} (number : ℕ) (hbits : shift + bits ≤ 64) :
    ((ofNat 64 number >>> shift) &&& ofNat 64 (2 ^ bits - 1)).toNat =
      number / 2 ^ shift % 2 ^ bits := by
  have hmask : 2 ^ bits - 1 < 2 ^ 64 :=
    lt_of_lt_of_le (Nat.sub_one_lt (by positivity)) (Nat.pow_le_pow_right (by decide) (by omega))
  have hword : 2 ^ 64 = 2 ^ shift * 2 ^ (64 - shift) := by
    rw [← pow_add]
    congr 1
    omega
  have hdvd : 2 ^ bits ∣ 2 ^ (64 - shift) := Nat.pow_dvd_pow 2 (by omega)
  rw [BitVec.toNat_and, BitVec.toNat_ushiftRight, BitVec.toNat_ofNat, BitVec.toNat_ofNat,
    mod_eq_of_lt hmask, and_two_pow_sub_one_eq_mod, shiftRight_eq_div_pow, hword,
    mod_mul_right_div_self, mod_mod_of_dvd _ hdvd]

theorem toNat_mask {bits : ℕ} (number : ℕ) (hbits : bits ≤ 64) :
    (ofNat 64 number &&& ofNat 64 (2 ^ bits - 1)).toNat = number % 2 ^ bits := by
  have hshift := @toNat_shift_mask 0 bits number (by omega)
  rw [BitVec.ushiftRight_zero, pow_zero, Nat.div_one] at hshift
  exact hshift

theorem ofNat_sub_ofNat {now expiry : ℕ} (hle : now ≤ expiry) :
    ofNat 64 expiry - ofNat 64 now = ofNat 64 (expiry - now) := by
  obtain ⟨ahead, rfl⟩ := Nat.exists_eq_add_of_le hle
  rw [BitVec.ofNat_add, Nat.add_sub_cancel_left]
  ring

end Words

/-! ### The list chosen for a timer -/

variable {slot : Slot}

section Choice

variable (baseSmall : Bool)

/-- Where a timer may hang: `low` bounds the turn of each vector from below. -/
def Placed (now : ℕ) (low : Vec → ℕ) (expiry : ℕ) (slot : Slot) : Prop :=
  if slot.1 = .tv1 then
    now ≤ expiry ∧ expiry < now + 2 ^ tvrBits baseSmall ∧
      slot.2 = expiry % 2 ^ tvrBits baseSmall
  else
    ∃ turn, 2 ^ slot.1.shift baseSmall ∣ turn ∧ low slot.1 ≤ turn ∧ turn ≤ expiry ∧
      slot.2 = turn / 2 ^ slot.1.shift baseSmall % 2 ^ tvnBits baseSmall

variable {baseSmall} {now expiry : ℕ}

theorem Placed.mono {low low' : Vec → ℕ} (hplaced : Placed baseSmall now low expiry slot)
    (hlow : slot.1 ≠ .tv1 → low' slot.1 ≤ low slot.1) : Placed baseSmall now low' expiry slot := by
  unfold Placed at hplaced ⊢
  split_ifs at hplaced ⊢ with htv
  · exact hplaced
  · obtain ⟨turn, hdvd, hle, hrest⟩ := hplaced
    exact ⟨turn, hdvd, (hlow htv).trans hle, hrest⟩

/-- A list of a coarser vector that is reached after `now`: its turn is the
span's first tick. -/
theorem placed_span {tv : Vec} {target : ℕ} (htv : tv ≠ .tv1)
    (hahead : now + 2 ^ tv.shift baseSmall ≤ target) (hle : target ≤ expiry) :
    Placed baseSmall now (fun _ => now + 1) expiry
      (tv, (ofNat 64 target >>> tv.shift baseSmall &&& tvnMask baseSmall).toNat) := by
  have hpos : 0 < 2 ^ tv.shift baseSmall := by positivity
  have hbits := tv.shift_le baseSmall
  have hdiv := div_add_mod target (2 ^ tv.shift baseSmall)
  unfold Placed
  rw [if_neg htv]
  refine ⟨2 ^ tv.shift baseSmall * (target / 2 ^ tv.shift baseSmall), Dvd.intro _ rfl, ?_, ?_, ?_⟩
  · change now + 1 ≤ _
    omega
  · omega
  · rw [Nat.mul_div_cancel_left _ hpos, tvnMask_eq, toNat_shift_mask _ (by omega)]

/-- A timer that expires at or after the current tick is hung where it will be
found in time. -/
theorem placed_chooseVec (hle : now ≤ expiry) (hlt : expiry < now + 2 ^ 63) :
    Placed baseSmall now (fun _ => now + 1) expiry
      (chooseVec baseSmall (ofNat 64 now) (ofNat 64 expiry)) := by
  have hbits := bits_le baseSmall
  have hidx : (ofNat 64 (expiry - now)).toNat = expiry - now := by
    rw [BitVec.toNat_ofNat]
    omega
  have hsign : ¬ (ofNat 64 (expiry - now)).toInt < 0 := by
    rw [BitVec.toInt_eq_toNat_of_lt (by omega)]
    omega
  simp only [chooseVec, ofNat_sub_ofNat hle, hidx, tvrSize, one_shiftLeft, hsign, if_false]
  split_ifs with hroot htv2 htv3 htv4 hclip
  · refine (if_pos rfl).mpr ⟨hle, by omega, ?_⟩
    rw [tvrMask_eq]
    exact toNat_mask _ (by omega)
  · exact @placed_span baseSmall now expiry .tv2 expiry (by decide) (by simp only [shift]; omega) le_rfl
  · exact @placed_span baseSmall now expiry .tv3 expiry (by decide) (by simp only [shift]; omega) le_rfl
  · exact @placed_span baseSmall now expiry .tv4 expiry (by decide) (by simp only [shift]; omega) le_rfl
  · -- the clipped expiry comes before the real one
    have hclipped : (0xffffffff : Word) + ofNat 64 now = ofNat 64 (0xffffffff + now) := by
      rw [BitVec.ofNat_add]
      rfl
    have hspan : 2 ^ tv5.shift baseSmall ≤ 0xffffffff := by cases baseSmall <;> decide
    rw [hclipped]
    exact @placed_span baseSmall now expiry .tv5 (0xffffffff + now) (by decide) (by omega) (by omega)
  · exact @placed_span baseSmall now expiry .tv5 expiry (by decide) (by simp only [shift]; omega) le_rfl

theorem chooseVec_past {expires : Word} (hpast : (expires - ofNat 64 now).toInt < 0) :
    chooseVec baseSmall (ofNat 64 now) expires = (.tv1, now % 2 ^ tvrBits baseSmall) := by
  have hbits := bits_le baseSmall
  have hlarge : 2 ^ 32 ≤ (expires - ofNat 64 now).toNat := by
    rw [BitVec.toInt_eq_toNat_cond] at hpast
    split at hpast <;> omega
  have hbound : ∀ bits ≤ 32, ¬ (expires - ofNat 64 now).toNat < 2 ^ bits := by
    intro bits hle
    have hpow : 2 ^ bits ≤ 2 ^ 32 := Nat.pow_le_pow_right (by decide) hle
    omega
  simp only [chooseVec, tvrSize, one_shiftLeft, hbound _ (show tvrBits baseSmall ≤ 32 by omega),
    hbound _ (show tvrBits baseSmall + tvnBits baseSmall ≤ 32 by omega),
    hbound _ (show tvrBits baseSmall + 2 * tvnBits baseSmall ≤ 32 by omega),
    hbound _ (show tvrBits baseSmall + 3 * tvnBits baseSmall ≤ 32 by omega), hpast, if_true,
    if_false, tvrMask_eq, toNat_mask _ (show tvrBits baseSmall ≤ 64 by omega)]

end Choice

section Wheel

variable (baseSmall : Bool)

/-- The wheel just before tick `now`, for the expiries it is to keep. -/
structure Wheel (now : ℕ) (low : Vec → ℕ) (expiry : ℕ → ℕ) (base : Base) : Prop where
  clock : base.timerJiffies = ofNat 64 now
  apart : Buckets.Apart base.vec
  placed : ∀ {timer slot}, timer ∈ base.vec slot → Placed baseSmall now low (expiry timer) slot
  -- only timers of the first vector may have an expiry other than the requested one
  word : ∀ {timer slot}, timer ∈ base.vec slot → slot.1 ≠ .tv1 →
    base.expires timer = ofNat 64 (expiry timer) ∧ expiry timer < now + 2 ^ 63

variable {baseSmall} {now : ℕ} {low : Vec → ℕ} {expiry : ℕ → ℕ} {base : Base} {timer index : ℕ}
  {tv : Vec} {level : ℕ}

section

variable (hwheel : Wheel baseSmall now low expiry base)
include hwheel

theorem Wheel.mono {low' : Vec → ℕ} (hlow : ∀ tv ≠ .tv1, low' tv ≤ low tv) :
    Wheel baseSmall now low' expiry base :=
  { hwheel with placed := fun hmem => (hwheel.placed hmem).mono fun htv => hlow _ htv }

/-- A timer of a coarser vector does not expire before its turn. -/
theorem Wheel.low_le (hmem : timer ∈ base.vec slot) (htv : slot.1 ≠ .tv1) :
    low slot.1 ≤ expiry timer := by
  obtain ⟨turn, -, hle, hexpiry, -⟩ := (if_neg htv).mp (hwheel.placed hmem)
  exact hle.trans hexpiry

end

/-! ### Cascading -/

theorem foldl_internalAddTimer (timers : List ℕ) (base : Base) :
    timers.foldl (internalAddTimer baseSmall) base =
      { base with
        vec := pushAll
          (fun timer => chooseVec baseSmall base.timerJiffies (base.expires timer)) base.vec timers
        timerPending := fun timer => decide (timer ∈ timers) || base.timerPending timer } := by
  induction timers generalizing base with
  | nil => simp [pushAll]
  | cons head rest ih =>
    rw [List.foldl_cons, ih]
    simp only [internalAddTimer, Base.mk.injEq, true_and]
    refine ⟨rfl, ?_⟩
    funext timer
    by_cases heq : timer = head
    · rw [heq]
      simp
    · rw [update_of_ne heq]
      simp [heq]

theorem mem_cascade :
    timer ∈ (cascade baseSmall base tv index).vec slot ↔
      (timer ∈ base.vec slot ∧ slot ≠ (tv, index)) ∨
        timer ∈ base.vec (tv, index) ∧
          chooseVec baseSmall base.timerJiffies (base.expires timer) = slot := by
  rw [cascade, foldl_internalAddTimer]
  exact mem_pushAll.trans (or_congr_left mem_drain)

theorem holds_cascade :
    Holds (cascade baseSmall base tv index).vec timer ↔ Holds base.vec timer := by
  constructor
  · rintro ⟨slot, hslot⟩
    rcases mem_cascade.mp hslot with ⟨hmem, -⟩ | ⟨hmem, -⟩
    · exact ⟨slot, hmem⟩
    · exact ⟨(tv, index), hmem⟩
  · rintro ⟨slot, hslot⟩
    by_cases heq : slot = (tv, index)
    · exact ⟨_, mem_cascade.mpr (Or.inr ⟨heq ▸ hslot, rfl⟩)⟩
    · exact ⟨slot, mem_cascade.mpr (Or.inl ⟨hslot, heq⟩)⟩

section

variable (hwheel : Wheel baseSmall now low expiry base)
include hwheel

/-- Cascading the list whose turn it is leaves only later turns in its vector. -/
theorem Wheel.cascade (htv : tv ≠ .tv1) (hlow : ∀ tv, now ≤ low tv ∧ low tv ≤ now + 1) :
    Wheel baseSmall now (update low tv (now + 1)) expiry
      (cascade baseSmall base tv (now / 2 ^ tv.shift baseSmall % 2 ^ tvnBits baseSmall)) := by
  have hexpires : (Timer.cascade baseSmall base tv
      (now / 2 ^ tv.shift baseSmall % 2 ^ tvnBits baseSmall)).expires = base.expires := by
    rw [Timer.cascade, foldl_internalAddTimer]
  have hupdate : ∀ other, update low tv (now + 1) other ≤ now + 1 := by
    intro other
    by_cases heq : other = tv
    · rw [heq, update_self]
    · rw [update_of_ne heq]
      exact (hlow other).2
  constructor
  · rw [Timer.cascade, foldl_internalAddTimer]
    exact hwheel.clock
  · rw [Timer.cascade, foldl_internalAddTimer]
    exact hwheel.apart.drain.pushAll (hwheel.apart.nodup _)
      fun timer hmem => hwheel.apart.not_holds_drain hmem
  · intro timer slot hmem
    rcases mem_cascade.mp hmem with ⟨hold, hne⟩ | ⟨hmoved, rfl⟩
    · have hplaced := hwheel.placed hold
      by_cases hsame : slot.1 = tv
      · -- another list of the cascaded vector: its turn is not this tick
        have hslot : slot.1 ≠ .tv1 := hsame ▸ htv
        obtain ⟨turn, hdvd, hle, hexpiry, hindex⟩ := (if_neg hslot).mp hplaced
        refine (if_neg hslot).mpr ⟨turn, hdvd, ?_, hexpiry, hindex⟩
        rw [hsame] at hle hindex ⊢
        rw [update_self]
        have hturn : turn ≠ now := by
          rintro rfl
          exact hne (Prod.ext hsame hindex)
        have := (hlow tv).1
        omega
      · apply hplaced.mono
        intro _
        rw [update_of_ne hsame]
    · obtain ⟨hword, hlt⟩ := hwheel.word hmoved htv
      have hle := (hlow tv).1.trans (hwheel.low_le hmoved htv)
      rw [hwheel.clock, hword]
      exact (placed_chooseVec hle hlt).mono fun _ => hupdate _
  · intro timer slot hmem hslot
    rw [hexpires]
    rcases mem_cascade.mp hmem with ⟨hold, -⟩ | ⟨hmoved, -⟩
    · exact hwheel.word hold hslot
    · exact hwheel.word hmoved htv

theorem index_eq (hlevel : level ≤ 3) :
    base.index baseSmall level =
      now / 2 ^ (tvrBits baseSmall + level * tvnBits baseSmall) % 2 ^ tvnBits baseSmall := by
  have hbits := bits_le baseSmall
  have hlt : level * tvnBits baseSmall ≤ 3 * tvnBits baseSmall := Nat.mul_le_mul_right _ hlevel
  rw [Base.index, hwheel.clock, tvnMask_eq]
  exact toNat_shift_mask _ (by omega)

/-- A tick is divisible by the next power exactly when the digit in between is 0. -/
theorem not_dvd_of_index (hlevel : level ≤ 3) (hindex : base.index baseSmall level ≠ 0) :
    ¬ 2 ^ (tvrBits baseSmall + (level + 1) * tvnBits baseSmall) ∣ now := by
  rw [index_eq hwheel hlevel] at hindex
  rintro ⟨factor, rfl⟩
  apply hindex
  rw [succ_mul, ← Nat.add_assoc, pow_add, mul_assoc, Nat.mul_div_cancel_left _ (by positivity),
    mul_mod_right]

end

/-- The bounds on the turns once the vectors below a level were cascaded at this tick. -/
def lowAfter (now level : ℕ) (tv : Vec) : ℕ :=
  if tv.level < level then now + 1 else now

theorem lowAfter_bounds (level : ℕ) (tv : Vec) :
    now ≤ lowAfter now level tv ∧ lowAfter now level tv ≤ now + 1 := by
  unfold lowAfter
  split <;> omega

/-- The vectors that were not cascaded have no turn at this tick. -/
theorem Wheel.raise (hwheel : Wheel baseSmall now (lowAfter now level) expiry base)
    (hnot : ¬ 2 ^ (tvrBits baseSmall + level * tvnBits baseSmall) ∣ now) :
    Wheel baseSmall now (fun _ => now + 1) expiry base := by
  refine { hwheel with placed := ?_ }
  intro timer slot hmem
  have hplaced := hwheel.placed hmem
  unfold Placed at hplaced ⊢
  split_ifs at hplaced ⊢ with htv
  · exact hplaced
  obtain ⟨turn, hdvd, hle, hrest⟩ := hplaced
  refine ⟨turn, hdvd, ?_, hrest⟩
  have hlater : turn = now → slot.1.level < level := by
    rintro rfl
    by_contra hge
    rw [shift_eq baseSmall htv] at hdvd
    exact hnot ((Nat.pow_dvd_pow 2 (Nat.add_le_add_left (Nat.mul_le_mul_right _ (not_lt.mp hge))
      _)).trans hdvd)
  unfold lowAfter at hle
  change now + 1 ≤ turn
  split_ifs at hle <;> omega

theorem Wheel.cascade_index {tv : Vec}
    (hwheel : Wheel baseSmall now (lowAfter now tv.level) expiry base) (htv : tv ≠ .tv1) :
    Wheel baseSmall now (lowAfter now (tv.level + 1)) expiry
      (Timer.cascade baseSmall base tv (base.index baseSmall tv.level)) := by
  have hlevel : tv.level ≤ 3 := by cases tv <;> decide
  rw [index_eq hwheel hlevel, ← shift_eq baseSmall htv]
  refine (hwheel.cascade htv (lowAfter_bounds tv.level)).mono fun other hother => ?_
  by_cases heq : other = tv
  · rw [heq, update_self]
    exact (lowAfter_bounds _ _).2
  · rw [update_of_ne heq]
    cases other <;> cases tv <;> simp_all [lowAfter, level]

/-- After the cascades of a tick every coarser list has its turn later. -/
theorem Wheel.cascadeTimers (hwheel : Wheel baseSmall now (fun _ => now) expiry base) :
    Wheel baseSmall now (fun _ => now + 1) expiry
      (cascadeTimers baseSmall base (now % 2 ^ tvrBits baseSmall)) := by
  have hstart : Wheel baseSmall now (lowAfter now tv2.level) expiry base := by
    apply hwheel.mono
    intro tv _
    simp [lowAfter, level]
  have h2 := hstart.cascade_index (by decide)
  have h3 := @Wheel.cascade_index _ _ _ _ .tv3 h2 (by decide)
  have h4 := @Wheel.cascade_index _ _ _ _ .tv4 h3 (by decide)
  have h5 := @Wheel.cascade_index _ _ _ _ .tv5 h4 (by decide)
  simp only [Timer.cascadeTimers]
  split_ifs with hroot hindex2 hindex3 hindex4
  · refine h5.mono fun tv _ => ?_
    cases tv <;> simp [lowAfter, level]
  · exact h4.raise (not_dvd_of_index h3 (by decide) hindex4)
  · exact h3.raise (not_dvd_of_index h2 (by decide) hindex3)
  · exact h2.raise (not_dvd_of_index hstart (by decide) hindex2)
  · refine hstart.raise fun hdvd => hroot (mod_eq_zero_of_dvd ?_)
    simpa [level] using hdvd

theorem holds_cascadeTimers {index timer : ℕ} :
    Holds (Timer.cascadeTimers baseSmall base index).vec timer ↔ Holds base.vec timer := by
  simp only [Timer.cascadeTimers]
  split_ifs <;> simp only [holds_cascade]

/-- Every timer that hangs in the wheel is marked as pending. -/
def Marked (base : Base) : Prop :=
  ∀ timer, Buckets.Holds base.vec timer → base.timerPending timer = true

theorem cascade_timerPending (hmarked : Marked base) :
    (Timer.cascade baseSmall base tv index).timerPending = base.timerPending := by
  rw [Timer.cascade, foldl_internalAddTimer]
  funext timer
  by_cases hmem : timer ∈ base.vec (tv, index)
  · simp [hmem, hmarked timer ⟨_, hmem⟩]
  · simp [hmem]

theorem Marked.cascade (hmarked : Marked base) :
    Marked (Timer.cascade baseSmall base tv index) := by
  intro timer hholds
  rw [cascade_timerPending hmarked]
  exact hmarked timer (holds_cascade.mp hholds)

theorem cascadeTimers_timerPending (hmarked : Marked base) :
    (Timer.cascadeTimers baseSmall base index).timerPending = base.timerPending := by
  have hmarked2 : ∀ tv index tv' index', Marked (Timer.cascade baseSmall
      (Timer.cascade baseSmall base tv index) tv' index') := fun _ _ _ _ => hmarked.cascade.cascade
  simp only [Timer.cascadeTimers]
  split_ifs <;> simp only [cascade_timerPending, hmarked, Marked.cascade, hmarked2]

/-! ### Processing a tick -/

/-- The first vector, once nothing coarser is due: the list of a tick holds
exactly the timers that expire then. -/
theorem Wheel.mem_root_iff (hwheel : Wheel baseSmall now (fun _ => now + 1) expiry base) :
    timer ∈ base.vec (.tv1, now % 2 ^ tvrBits baseSmall) ↔
      Holds base.vec timer ∧ expiry timer = now := by
  constructor
  · intro hmem
    obtain ⟨hle, hlt, hindex⟩ : now ≤ expiry timer ∧ _ ∧ _ := hwheel.placed hmem
    refine ⟨⟨_, hmem⟩, ?_⟩
    obtain ⟨ahead, hahead⟩ := Nat.exists_eq_add_of_le hle
    have hdvd : 2 ^ tvrBits baseSmall ∣ ahead := by
      have hmod : (now + 0) % 2 ^ tvrBits baseSmall = (now + ahead) % 2 ^ tvrBits baseSmall := by
        rw [← hahead]
        exact hindex
      exact dvd_of_mod_eq_zero (Nat.ModEq.add_left_cancel' now hmod).symm
    have hzero := eq_zero_of_dvd_of_lt hdvd (by omega)
    omega
  · rintro ⟨⟨slot, hmem⟩, hexpiry⟩
    by_cases htv : slot.1 = .tv1
    · have hplaced := hwheel.placed hmem
      unfold Placed at hplaced
      rw [if_pos htv, hexpiry] at hplaced
      rw [← hplaced.2.2, ← htv]
      exact hmem
    · have hlow := hwheel.low_le hmem htv
      omega

/-- Processing tick `now` takes out exactly the timers that expire then, and
leaves the wheel ready for the next tick. -/
theorem Wheel.startTick (hwheel : Wheel baseSmall now (fun _ => now) expiry base) :
    Wheel baseSmall (now + 1) (fun _ => now + 1) expiry (startTick baseSmall base).1 ∧
      (∀ timer, timer ∈ (Timer.startTick baseSmall base).2 ↔
        Holds base.vec timer ∧ expiry timer = now) ∧
      (Timer.startTick baseSmall base).2.Nodup ∧
      (∀ timer, Holds (Timer.startTick baseSmall base).1.vec timer ↔
        Holds base.vec timer ∧ expiry timer ≠ now) := by
  have hbits := bits_le baseSmall
  have hindex : (base.timerJiffies &&& tvrMask baseSmall).toNat = now % 2 ^ tvrBits baseSmall := by
    rw [hwheel.clock, tvrMask_eq]
    exact toNat_mask _ (by omega)
  have hcascaded := hwheel.cascadeTimers
  have hholds := @holds_cascadeTimers baseSmall base (now % 2 ^ tvrBits baseSmall)
  simp only [Timer.startTick, hindex]
  generalize Timer.cascadeTimers baseSmall base (now % 2 ^ tvrBits baseSmall) = base'
    at hcascaded hholds ⊢
  refine ⟨⟨?_, hcascaded.apart.drain, ?_, ?_⟩, ?_, hcascaded.apart.nodup _, ?_⟩
  · rw [hcascaded.clock, BitVec.ofNat_add]
    rfl
  · intro timer slot hmem
    rw [mem_drain] at hmem
    have hplaced := hcascaded.placed hmem.1
    unfold Placed at hplaced ⊢
    split_ifs at hplaced ⊢ with htv
    · obtain ⟨hle, hlt, hslot⟩ := hplaced
      have hne : expiry timer ≠ now := by
        rintro heq
        exact hmem.2 (Prod.ext htv (hslot.trans (by rw [heq])))
      exact ⟨by omega, by omega, hslot⟩
    · exact hplaced
  · intro timer slot hmem htv
    obtain ⟨hword, hlt⟩ := hcascaded.word (mem_drain.mp hmem).1 htv
    exact ⟨hword, by omega⟩
  · intro timer
    rw [hcascaded.mem_root_iff, hholds]
  · intro timer
    rw [← hholds]
    constructor
    · rintro ⟨slot, hmem⟩
      rw [mem_drain] at hmem
      refine ⟨⟨slot, hmem.1⟩, ?_⟩
      intro hexpiry
      exact hmem.2 (hcascaded.apart.unique hmem.1
        (hcascaded.mem_root_iff.mpr ⟨⟨slot, hmem.1⟩, hexpiry⟩))
    · rintro ⟨⟨slot, hmem⟩, hexpiry⟩
      refine ⟨slot, mem_drain.mpr ⟨hmem, ?_⟩⟩
      rintro rfl
      exact hexpiry (hcascaded.mem_root_iff.mp hmem).2

end Wheel

end KernelM5040.Timer
