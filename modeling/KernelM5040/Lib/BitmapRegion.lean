import KernelM5040.Lib.Bitmap

/-!
# Regions of a bitmap: lib/bitmap.c

`bitmap_find_free_region` looks for a free region of a power of two of bits at a
multiple of its size.  It compares the end of its search for equality, so a
bitmap that is no multiple of the region may be left at its end.
-/

namespace KernelM5040.Bitmap

open Function List InPlace Nat BitVec

inductive RegOp
  | isfree
  | alloc
  | release

section Region

variable (words : Words) (pos order : ℕ)

/-- `nlongs_reg`: the words of a region. -/
def nlongsReg : ℕ := bitsToLongs (2 ^ order)

/-- The bits of a region in each of its words. -/
def regMask : BitVec 64 :=
  let nbitsinlong := min (2 ^ order) 64
  let mask := (1 : BitVec 64) <<< (nbitsinlong - 1)
  (mask + (mask - 1)) <<< (pos - pos / 64 * 64)

/-- `__reg_op`: what it returns and leaves in the bitmap. -/
def regOp : RegOp → Bool × Words
  | .isfree =>
    ((range (nlongsReg order)).all fun i => words (pos / 64 + i) &&& regMask pos order = 0, words)
  | .alloc =>
    (false, fill id (pos / 64 + ·) (fun words i => words (pos / 64 + i) ||| regMask pos order)
      (range (nlongsReg order)) words)
  | .release =>
    (false, fill id (pos / 64 + ·) (fun words i => words (pos / 64 + i) &&& ~~~regMask pos order)
      (range (nlongsReg order)) words)

/-- The loop of `bitmap_find_free_region`, for so many rounds. -/
def searchRegion (bits : ℕ) : ℕ → ℕ → ℕ
  | 0, pos => pos
  | rounds + 1, pos =>
    if pos < bits then
      if (regOp words pos order .isfree).1 then pos else searchRegion bits rounds (pos + 2 ^ order)
    else pos

/-- `bitmap_find_free_region`; `none` stands for `-ENOMEM`.  It takes a bit at
least with every round. -/
def bitmapFindFreeRegion (bits : ℕ) : Option ℕ × Words :=
  let pos := searchRegion words order bits bits 0
  if pos = bits then (none, words) else (some pos, (regOp words pos order .alloc).2)

end Region

variable {words : Words} {pos order bits : ℕ}

theorem getLsbD_regMask (pos order : ℕ) {place : ℕ} (hplace : place < 64) :
    (regMask pos order).getLsbD place =
      decide (pos % 64 ≤ place ∧ place < pos % 64 + min (2 ^ order) 64) := by
  obtain ⟨size, hsize⟩ : ∃ size, min (2 ^ order) 64 = size + 1 :=
    exists_eq_succ_of_ne_zero (by simp)
  have hlt : size < 64 := by omega
  have hones : ((1 : BitVec 64) <<< size + ((1 : BitVec 64) <<< size - 1)).toNat =
      2 ^ (size + 1) - 1 := by
    have hpos := Nat.two_pow_pos size
    have hpow := Nat.pow_le_pow_right (by decide : 0 < 2) (le_of_lt_succ hlt)
    rw [toNat_add, toNat_sub, Digits.toNat_one_shiftLeft hlt,
      show (1 : BitVec 64).toNat = 1 from rfl, pow_succ 2 size]
    omega
  rw [regMask, hsize, Nat.add_sub_cancel, getLsbD_shiftLeft, decide_eq_true hplace,
    getLsbD, hones, testBit_two_pow_sub_one, Bool.true_and, ← decide_not,
    ← Bool.decide_and]
  exact decide_eq_decide.mpr (by omega)

def InRegion (pos order i : ℕ) : Prop := pos ≤ i ∧ i < pos + 2 ^ order

theorem inRegion_iff (hpos : 2 ^ order ∣ pos) (i : ℕ) : InRegion pos order i ↔
    (pos / 64 ≤ i / 64 ∧ i / 64 < pos / 64 + nlongsReg order) ∧
      (regMask pos order).getLsbD (i % 64) := by
  rw [getLsbD_regMask _ _ (mod_lt _ (by decide)), decide_eq_true_eq, InRegion, nlongsReg,
    bitsToLongs]
  by_cases hsmall : order < 6
  · interval_cases order <;> omega
  obtain ⟨more, rfl⟩ := Nat.exists_eq_add_of_le (not_lt.mp hsmall)
  have hwords : 64 ∣ pos := (Dvd.intro (2 ^ more) (pow_add 2 6 more).symm).trans hpos
  rw [pow_add]
  omega

theorem isfree_iff (words : Words) (hpos : 2 ^ order ∣ pos) :
    (regOp words pos order .isfree).1 ↔ ∀ i, InRegion pos order i → bit words i = false := by
  simp only [regOp, all_eq_true, mem_range, decide_eq_true_eq, inRegion_iff hpos]
  constructor
  · rintro hfree i ⟨⟨hge, hlt⟩, hmask⟩
    have hword := congrArg (·.getLsbD (i % 64)) (hfree (i / 64 - pos / 64) (by omega))
    simpa [Nat.add_sub_cancel' hge, hmask, bit] using hword
  intro hfree k hk
  refine eq_of_getLsbD_eq fun place hplace => ?_
  have hbit := hfree (64 * (pos / 64 + k) + place)
  rw [bit_mul_add _ _ hplace, mul_add_div (by decide), mul_add_mod,
    div_eq_of_lt hplace, mod_eq_of_lt hplace] at hbit
  rw [getLsbD_and]
  cases hmask : (regMask pos order).getLsbD place with
  | false => simp
  | true => simp [hbit ⟨by omega, hmask⟩]

theorem bit_alloc (words : Words) (hpos : 2 ^ order ∣ pos) (i : ℕ) :
    bit (regOp words pos order .alloc).2 i ↔ bit words i ∨ InRegion pos order i := by
  obtain ⟨hset, hother⟩ := @fill_spec ℕ ℕ (BitVec 64) _ id (pos / 64 + ·)
    (fun words i => words (pos / 64 + i) ||| regMask pos order) (range (nlongsReg order))
    (fun words filled new other hne => update_of_ne hne _ _)
    (pairwise_lt_range.imp fun hlt => ⟨by omega, fun before after hsame => by
      rw [hsame _ (by omega)]⟩) words
  simp only [mem_range, id_eq] at hset hother
  rw [inRegion_iff hpos, regOp, bit, bit]
  by_cases hword : pos / 64 ≤ i / 64 ∧ i / 64 < pos / 64 + nlongsReg order
  · have hvalue := hset (i / 64 - pos / 64) (by omega)
    rw [Nat.add_sub_cancel' hword.1] at hvalue
    simp [hvalue, hword]
  · simp [hother (i / 64) fun k hk => by omega, hword]

/-- A free region at a position of the bitmap. -/
structure Fits (words : Words) (bits order pos : ℕ) : Prop where
  aligned : 2 ^ order ∣ pos
  inside : pos + 2 ^ order ≤ bits
  free : ∀ i, InRegion pos order i → bit words i = false

/-- The search stops at the first free region or at the first position behind the
bitmap. -/
theorem searchRegion_spec {rounds : ℕ} (hpos : 2 ^ order ∣ pos) (hrounds : bits ≤ pos + rounds)
    (hlow : pos < bits + 2 ^ order) (hbefore : ∀ p < pos, ¬Fits words bits order p) :
    ∃ stop, searchRegion words order bits rounds pos = stop ∧ 2 ^ order ∣ stop ∧
      stop < bits + 2 ^ order ∧ (∀ p < stop, ¬Fits words bits order p) ∧
      (stop < bits → ∀ i, InRegion stop order i → bit words i = false) := by
  induction rounds generalizing pos with
  | zero => exact ⟨pos, rfl, hpos, hlow, hbefore, fun hlt => absurd hlt (by omega)⟩
  | succ rounds ih =>
    rw [searchRegion]
    split_ifs with hlt hfree
    · exact ⟨pos, rfl, hpos, hlow, hbefore, fun _ => (isfree_iff words hpos).mp hfree⟩
    · have hsize := Nat.two_pow_pos order
      refine ih (hpos.add (dvd_refl _)) (by omega) (by omega) fun p hp hfits => ?_
      rcases (le_of_lt_add_of_dvd hp hfits.aligned hpos).lt_or_eq with hless | rfl
      · exact hbefore p hless hfits
      · exact hfree ((isfree_iff words hpos).mpr hfits.free)
    · exact ⟨pos, rfl, hpos, hlow, hbefore, fun hlt' => absurd hlt' hlt⟩

/-- The lowest free region is allocated, or there is none and nothing changes. -/
def Allocates (words : Words) (bits order : ℕ) : Option ℕ × Words → Prop
  | (some pos, words') => Fits words bits order pos ∧ (∀ p < pos, ¬Fits words bits order p) ∧
      ∀ i, bit words' i ↔ bit words i ∨ InRegion pos order i
  | (none, words') => (∀ p, ¬Fits words bits order p) ∧ words' = words

theorem allocates_iff (words : Words) (bits order : ℕ) :
    Allocates words bits order (bitmapFindFreeRegion words order bits) ↔
      2 ^ order ∣ bits ∨ ∃ p, Fits words bits order p := by
  obtain ⟨stop, hstop, hdvd, hlt, hbefore, hfree⟩ := @searchRegion_spec words 0 order bits bits
    (dvd_zero _) (by omega) (by have := Nat.two_pow_pos order; omega) (by simp)
  rw [bitmapFindFreeRegion, hstop]
  split_ifs with hend
  · subst hend
    refine iff_of_true ⟨fun p hfits => ?_, rfl⟩ (Or.inl hdvd)
    have hsize := Nat.two_pow_pos order
    exact hbefore p (by have := hfits.inside; omega) hfits
  constructor
  · rintro ⟨hfits, -⟩
    exact Or.inr ⟨stop, hfits⟩
  intro hcases
  have hinside : stop + 2 ^ order ≤ bits := by
    rcases hcases with hbits | ⟨p, hfits⟩
    · have hle := le_of_lt_add_of_dvd hlt hdvd hbits
      exact le_of_lt_add_of_dvd (by omega) (hdvd.add dvd_rfl) hbits
    · have hle := not_lt.mp fun hless => hbefore p hless hfits
      exact (Nat.add_le_add_right hle _).trans hfits.inside
  have hsize := Nat.two_pow_pos order
  exact ⟨⟨hdvd, hinside, hfree (by omega)⟩, hbefore, bit_alloc words hdvd⟩

theorem Fits.congr {other : Words} (hsame : ∀ i < bits, bit other i = bit words i)
    (hfits : Fits words bits order pos) : Fits other bits order pos := by
  refine ⟨hfits.aligned, hfits.inside, fun i hregion => ?_⟩
  rw [hsame i (hregion.2.trans_le hfits.inside)]
  exact hfits.free i hregion

theorem Allocates.fst_eq {other : Words} {first second : Option ℕ × Words}
    (hfirst : Allocates words bits order first) (hsecond : Allocates other bits order second)
    (hfits : ∀ p, Fits words bits order p ↔ Fits other bits order p) : second.1 = first.1 := by
  obtain ⟨_ | pos, _⟩ := first <;> obtain ⟨_ | pos', _⟩ := second
  · rfl
  · exact absurd ((hfits pos').mpr hsecond.1) (hfirst.1 pos')
  · exact absurd ((hfits pos).mp hfirst.1) (hsecond.1 pos)
  · refine congrArg some (le_antisymm (not_lt.mp fun hlt => ?_) (not_lt.mp fun hlt => ?_))
    · exact hsecond.2.1 pos hlt ((hfits pos).mp hfirst.1)
    · exact hfirst.2.1 pos' hlt ((hfits pos').mpr hsecond.1)

/-- The call does what it should and does not depend on what is behind the bitmap. -/
def FindsExactly (words : Words) (bits order : ℕ) : Prop :=
  Allocates words bits order (bitmapFindFreeRegion words order bits) ∧
    ∀ other : Words, (∀ i < bits, bit other i = bit words i) →
      (bitmapFindFreeRegion other order bits).1 = (bitmapFindFreeRegion words order bits).1

/-- The search is exact if it finds a region or ends at the end of the bitmap. -/
theorem bitmapFindFreeRegion_exact_iff (words : Words) (bits order : ℕ) :
    FindsExactly words bits order ↔ 2 ^ order ∣ bits ∨ ∃ p, Fits words bits order p := by
  rw [FindsExactly, allocates_iff]
  refine and_iff_left_of_imp fun hcases other hsame => ?_
  have hfits : ∀ p, Fits words bits order p ↔ Fits other bits order p := fun p =>
    ⟨Fits.congr hsame, Fits.congr fun i hi => (hsame i hi).symm⟩
  have hwords := (allocates_iff words bits order).mpr hcases
  simp only [hfits] at hcases
  exact hwords.fst_eq ((allocates_iff other bits order).mpr hcases) hfits

/-- A pair of bits is found in a bitmap of one bit. -/
theorem bitmapFindFreeRegion_beyond : ¬FindsExactly (fun _ => 0) 1 1 := by
  rintro ⟨hallocates, -⟩
  rcases (allocates_iff _ _ _).mp hallocates with hdvd | ⟨p, hfits⟩
  · exact absurd hdvd (by decide)
  · have hinside := hfits.inside
    omega

end KernelM5040.Bitmap
