import KernelM5040.Core.Digits
import KernelM5040.Core.InPlace

/-!
# Shifting bitmaps: lib/bitmap.c

A bitmap is an array of words of which the last may be used in part.  The loops
put every word together from two neighbours, masking what is not in use.
-/

namespace KernelM5040.Bitmap

open Function List InPlace BitVec Nat Bool

abbrev Words := ℕ → BitVec 64

def bitsToLongs (bits : ℕ) : ℕ := (bits + 63) / 64

/-- The bit at a position. -/
def bit (words : Words) (position : ℕ) : Bool := (words (position / 64)).getLsbD (position % 64)

/-- The masking of the last word of a bitmap, if it is used in part. -/
def maskLast (bits k : ℕ) (word : BitVec 64) : BitVec 64 :=
  if bits % 64 ≠ 0 ∧ k = bitsToLongs bits - 1 then
    word &&& ((1 : BitVec 64) <<< (bits % 64) - 1)
  else word

/-- `memset` to zero. -/
def clear (first count : ℕ) (words : Words) : Words :=
  fun k => if first ≤ k ∧ k < first + count then 0 else words k

section Shift

variable (shift bits : ℕ)

/-- What the loop of `__bitmap_shift_right` stores into `dst[k]`. -/
def rightWord (src : Words) (k : ℕ) : BitVec 64 :=
  let off := shift / 64
  let rem := shift % 64
  let upper :=
    if rem = 0 ∨ off + k + 1 ≥ bitsToLongs bits then 0
    else maskLast bits (off + k + 1) (src (off + k + 1))
  let lower := maskLast bits (off + k) (src (off + k))
  maskLast bits k (upper <<< (64 - rem) ||| lower >>> rem)

/-- What the loop of `__bitmap_shift_left` stores into `dst[k + off]`. -/
def leftWord (src : Words) (k : ℕ) : BitVec 64 :=
  let off := shift / 64
  let rem := shift % 64
  let lower := if rem ≠ 0 ∧ k > 0 then src (k - 1) else 0
  let upper := maskLast bits k (src k)
  maskLast bits (k + off) (lower >>> (64 - rem) ||| upper <<< rem)

/-- `__bitmap_shift_right`; `source` gives what `src` holds while `dst` is written. -/
def bitmapShiftRight (source : Words → Words) (dst : Words) : Words :=
  let lim := bitsToLongs bits
  let off := shift / 64
  let dst := fill source id (rightWord shift bits) (range (lim - off)) dst
  if off ≠ 0 then clear (lim - off) off dst else dst

/-- `__bitmap_shift_left`, which goes down from the last word. -/
def bitmapShiftLeft (source : Words → Words) (dst : Words) : Words :=
  let lim := bitsToLongs bits
  let off := shift / 64
  let dst := fill source (· + off) (leftWord shift bits) (range (lim - off)).reverse dst
  if off ≠ 0 then clear 0 off dst else dst

end Shift

variable {shift bits k position place : ℕ} {word : BitVec 64} {src dst : Words}
  {source : Words → Words}

theorem getLsbD_mask {left : ℕ} (hleft : left < 64) (place : ℕ) :
    ((1 : BitVec 64) <<< left - 1).getLsbD place = decide (place < left) := by
  have hmask : ((1 : BitVec 64) <<< left - 1).toNat = 2 ^ left - 1 := by
    have hpos := Nat.two_pow_pos left
    have hpow := Nat.pow_lt_pow_right (by decide : 1 < 2) hleft
    rw [toNat_sub, Digits.toNat_one_shiftLeft hleft, show (1 : BitVec 64).toNat = 1 from rfl]
    omega
  rw [getLsbD, hmask, testBit_two_pow_sub_one]

theorem getLsbD_maskLast (hk : k < bitsToLongs bits) (hplace : place < 64) :
    (maskLast bits k word).getLsbD place =
      (decide (64 * k + place < bits) && word.getLsbD place) := by
  rw [bitsToLongs] at hk
  rw [maskLast, bitsToLongs]
  split_ifs with hlast
  · rw [getLsbD_and, getLsbD_mask (mod_lt _ (by decide)), Bool.and_comm]
    exact congrArg (· && _) (decide_eq_decide.mpr (by omega))
  · rw [decide_eq_true (by omega), Bool.true_and]

theorem getLsbD_funnel (upper lower : BitVec 64) {rem place : ℕ} (hplace : place < 64)
    (hrem : rem ≤ 64) :
    (upper <<< (64 - rem) ||| lower >>> rem).getLsbD place =
      if place + rem < 64 then lower.getLsbD (place + rem) else
        upper.getLsbD (place + rem - 64) := by
  rw [getLsbD_or, getLsbD_shiftLeft, getLsbD_ushiftRight]
  split_ifs with hlow
  · rw [decide_eq_true (by omega : place < 64 - rem), Bool.not_true, Bool.and_false,
      Bool.false_and, Bool.false_or, add_comm]
  rw [getLsbD_of_ge lower (rem + place) (by omega), Bool.or_false, decide_eq_true hplace,
    decide_eq_false (by omega : ¬place < 64 - rem), Bool.not_false, Bool.and_true, Bool.true_and]
  congr 1
  omega

theorem bit_mul_add (words : Words) (k : ℕ) (hplace : place < 64) :
    bit words (64 * k + place) = (words k).getLsbD place := by
  rw [bit, mul_add_div (by decide), mul_add_mod, div_eq_of_lt hplace, mod_eq_of_lt hplace, add_zero]

theorem getLsbD_rightWord (hk : shift / 64 + k < bitsToLongs bits) (hplace : place < 64) :
    (rightWord shift bits src k).getLsbD place =
      (decide (64 * k + place + shift < bits) && bit src (64 * k + place + shift)) := by
  rw [rightWord, getLsbD_maskLast (by omega) hplace, getLsbD_funnel _ _ hplace (by omega)]
  split_ifs with hlow hnone
  · rw [getLsbD_maskLast hk hlow, ← bit_mul_add src _ hlow, ← Bool.and_assoc, ← decide_and]
    exact congrArg₂ _ (decide_eq_decide.mpr (by omega)) (congrArg _ (by omega))
  · rw [bitsToLongs] at hk hnone
    rw [decide_eq_false (by omega : ¬64 * k + place + shift < bits)]
    simp
  · rw [getLsbD_maskLast (by omega) (by omega), ← bit_mul_add src _ (by omega), ← Bool.and_assoc,
      ← decide_and]
    exact congrArg₂ _ (decide_eq_decide.mpr (by omega)) (congrArg _ (by omega))

theorem getLsbD_leftWord (hk : k + shift / 64 < bitsToLongs bits) (hplace : place < 64) :
    (leftWord shift bits src k).getLsbD place =
      (decide (shift ≤ 64 * (k + shift / 64) + place ∧ 64 * (k + shift / 64) + place < bits) &&
        bit src (64 * (k + shift / 64) + place - shift)) := by
  have hfunnel := fun upper lower : BitVec 64 =>
    @getLsbD_funnel upper lower (64 - shift % 64) place hplace (by omega)
  rw [Nat.sub_sub_self (by omega : shift % 64 ≤ 64)] at hfunnel
  rw [leftWord, getLsbD_maskLast hk hplace, BitVec.or_comm, hfunnel]
  split_ifs with hlow hsome
  · rw [← bit_mul_add src _ hlow]
    exact congrArg₂ _ (decide_eq_decide.mpr (by omega)) (congrArg _ (by omega))
  · rw [decide_eq_false (by omega : ¬(shift ≤ 64 * (k + shift / 64) + place ∧ _))]
    simp
  · rw [getLsbD_maskLast (by omega) (by omega), ← bit_mul_add src _ (by omega), ← Bool.and_assoc,
      ← decide_and]
    exact congrArg₂ _ (decide_eq_decide.mpr (by omega)) (congrArg _ (by omega))

/-- What `src` holds changes with `dst` at most where `dst` is written. -/
def Steady (source : Words → Words) : Prop :=
  ∀ words filled new other, other ≠ filled →
    source (update words filled new) other = source words other

theorem clear_apply (first count : ℕ) (words : Words) (k : ℕ) :
    (if count ≠ 0 then clear first count words else words) k =
      if first ≤ k ∧ k < first + count then 0 else words k := by
  split_ifs <;> first | rfl | omega | exact if_pos ‹_› | exact if_neg ‹_›

theorem bitmapShiftRight_apply (hsource : Steady source) (dst : Words) (k : ℕ) :
    bitmapShiftRight shift bits source dst k =
      if k < bitsToLongs bits - shift / 64 then rightWord shift bits (source dst) k
      else if k < bitsToLongs bits - shift / 64 + shift / 64 then 0 else dst k := by
  obtain ⟨hfilled, hother⟩ := @fill_spec ℕ ℕ (BitVec 64) _ source id (rightWord shift bits)
    (range (bitsToLongs bits - shift / 64)) hsource (pairwise_lt_range.imp fun hlt =>
      ⟨hlt.ne, fun before after hsame => by
        simp only [id_eq] at hsame
        rw [rightWord, rightWord, hsame _ (by omega), hsame _ (by omega)]⟩) dst
  rw [bitmapShiftRight, clear_apply]
  split_ifs with hcleared hlow hhigh hlow hhigh
  · omega
  · rfl
  · omega
  · exact hfilled k (mem_range.mpr hlow)
  · omega
  · exact hother k fun key hkey heq => hlow (heq ▸ mem_range.mp hkey)

theorem bitmapShiftLeft_apply (hsource : Steady source) (dst : Words) (k : ℕ) :
    bitmapShiftLeft shift bits source dst k =
      if k < shift / 64 then 0
      else if k < bitsToLongs bits then leftWord shift bits (source dst) (k - shift / 64)
      else dst k := by
  obtain ⟨hfilled, hother⟩ := @fill_spec ℕ ℕ (BitVec 64) _ source (· + shift / 64)
    (leftWord shift bits) (range (bitsToLongs bits - shift / 64)).reverse hsource
    (pairwise_reverse.mpr (pairwise_lt_range.imp fun hlt =>
      ⟨by omega, fun before after hsame => by
        rw [leftWord, leftWord, hsame _ (by omega), hsame _ (by omega)]⟩)) dst
  simp only [mem_reverse, mem_range] at hfilled hother
  rw [bitmapShiftLeft, clear_apply, zero_add]
  split_ifs with hcleared hlow hhigh hhigh
  · rfl
  · omega
  · omega
  · omega
  · have hword := hfilled (k - shift / 64) (by omega)
    rwa [Nat.sub_add_cancel (by omega)] at hword
  · exact hother k fun key hkey => by omega

/-- Both shifts move the bits, leave nothing in the unused ones, do the same in
place and write no further word. -/
theorem bitmapShift_exact (src dst : Words) (hshift : shift ≤ bits) :
    let right := bitmapShiftRight shift bits (fun _ => src) dst
    let left := bitmapShiftLeft shift bits (fun _ => src) dst
    (∀ i < bits, bit right i = (decide (i + shift < bits) && bit src (i + shift)) ∧
      bit left i = (decide (shift ≤ i) && bit src (i - shift))) ∧
    (∀ i < 64 * bitsToLongs bits, bits ≤ i → bit right i = false ∧ bit left i = false) ∧
    (∀ k < bitsToLongs bits, bitmapShiftRight shift bits id src k = right k ∧
      bitmapShiftLeft shift bits id src k = left k) ∧
    ∀ k ≥ bitsToLongs bits, right k = dst k ∧ left k = dst k := by
  have hother : Steady fun _ => src := fun _ _ _ _ _ => rfl
  have hsame : Steady id := fun words filled new other hne => update_of_ne hne _ _
  have hlim : bits ≤ 64 * bitsToLongs bits ∧ shift / 64 ≤ bitsToLongs bits := by
    rw [bitsToLongs]
    omega
  have hright : ∀ i < 64 * bitsToLongs bits, bit (bitmapShiftRight shift bits (fun _ => src) dst) i =
      (decide (i + shift < bits) && bit src (i + shift)) := by
    intro i hi
    rw [bit, bitmapShiftRight_apply hother]
    split_ifs with hlow hhigh
    · rw [getLsbD_rightWord (by omega) (by omega), div_add_mod]
    · rw [decide_eq_false (by omega)]
      simp
    · omega
  have hleft : ∀ i < 64 * bitsToLongs bits, bit (bitmapShiftLeft shift bits (fun _ => src) dst) i =
      (decide (shift ≤ i ∧ i < bits) && bit src (i - shift)) := by
    intro i hi
    rw [bit, bitmapShiftLeft_apply hother]
    split_ifs with hlow hhigh
    · rw [decide_eq_false (by omega)]
      simp
    · rw [getLsbD_leftWord (by omega) (by omega),
        Nat.sub_add_cancel (by omega : shift / 64 ≤ i / 64), div_add_mod]
    · omega
  refine ⟨fun i hi => ⟨hright i (by omega), ?_⟩, fun i hi hunused => ⟨?_, ?_⟩,
    fun k hk => ⟨?_, ?_⟩, fun k hk => ⟨?_, ?_⟩⟩
  · rw [hleft i (by omega), decide_and, decide_eq_true hi, Bool.and_true]
  · rw [hright i hi, decide_eq_false (by omega), Bool.false_and]
  · rw [hleft i hi, decide_eq_false (by omega), Bool.false_and]
  · rw [bitmapShiftRight_apply hsame, bitmapShiftRight_apply hother, id_eq]
    split_ifs <;> first | rfl | omega
  · rw [bitmapShiftLeft_apply hsame, bitmapShiftLeft_apply hother, id_eq, if_pos hk, if_pos hk]
  · rw [bitmapShiftRight_apply hother, if_neg (by omega), if_neg (by omega)]
  · rw [bitmapShiftLeft_apply hother, if_neg (by omega), if_neg (by omega)]

theorem bitmapShift_exact_byte :
    bit (bitmapShiftLeft 8 100 (fun _ _ => 1) fun _ => 0) 8 = true := by
  have hmoved := ((bitmapShift_exact (fun _ => 1) (fun _ => 0) (by decide : 8 ≤ 100)).1 8
    (by decide)).2
  exact hmoved.trans (by decide)

end KernelM5040.Bitmap
