import Mathlib

/-!
# Linear maps on bit vectors under exclusive or

A statement about all bit vectors that is closed under `^^^` follows from the
vectors with a single bit set.  Weighing the bits of a vector by elements of a
ring of characteristic two turns `^^^` into addition.
-/

namespace KernelM5040.XorLinear

open Finset BitVec

variable {width i : ℕ}

/-- Induction over exclusive or: from the zero vector and the single bits. -/
theorem xor_induction {motive : BitVec width → Prop} (zero : motive 0)
    (bit : ∀ i < width, motive (twoPow width i))
    (xor : ∀ left right, motive left → motive right → motive (left ^^^ right))
    (value : BitVec width) : motive value := by
  -- by the number of low positions that may hold a bit
  have hlow : ∀ (count : ℕ) (value : BitVec width),
      (∀ i, count ≤ i → value.getLsbD i = false) → motive value := by
    intro count
    induction count with
    | zero =>
      intro value hclear
      have hzero : value = 0 := by
        apply eq_of_getLsbD_eq
        intro i _
        rw [hclear i (Nat.zero_le i)]
        exact getLsbD_zero.symm
      rw [hzero]
      exact zero
    | succ count ih =>
      intro value hclear
      cases hbit : value.getLsbD count with
      | false =>
        apply ih
        intro i hi
        rcases Nat.eq_or_lt_of_le hi with rfl | hlt
        · exact hbit
        · exact hclear i hlt
      | true =>
        have hlt : count < width := by
          by_contra hge
          rw [getLsbD_of_ge value count (by omega)] at hbit
          cases hbit
        have hrest : motive (value ^^^ twoPow width count) := by
          apply ih
          intro i hi
          rw [getLsbD_xor, getLsbD_twoPow]
          rcases Nat.eq_or_lt_of_le hi with rfl | hlt'
          · simp [hbit, hlt]
          · simp [hclear i hlt', Nat.ne_of_lt hlt']
        have hback := xor _ _ hrest (bit count hlt)
        rw [BitVec.xor_assoc, BitVec.xor_self, BitVec.xor_zero] at hback
        exact hback
  exact hlow width value fun i hi => getLsbD_of_ge value i hi

section Weigh

variable {M : Type*} [AddCommMonoid M] (weight : ℕ → M)

/-- The weights of the bits that are set. -/
def weigh (value : BitVec width) : M :=
  ∑ i ∈ Finset.range width, if value.getLsbD i then weight i else 0

theorem weigh_zero : weigh weight (0 : BitVec width) = 0 := by
  apply sum_eq_zero
  intro i _
  simp

theorem weigh_twoPow (hi : i < width) : weigh weight (twoPow width i) = weight i := by
  simp [weigh, hi]

theorem weigh_xor (hself : ∀ value : M, value + value = 0) (left right : BitVec width) :
    weigh weight (left ^^^ right) = weigh weight left + weigh weight right := by
  unfold weigh
  rw [← sum_add_distrib]
  apply sum_congr rfl
  intro i _
  rw [getLsbD_xor]
  cases left.getLsbD i <;> cases right.getLsbD i <;> simp [hself]

end Weigh

theorem select_xor {wide : ℕ} (constant : BitVec wide) (i : ℕ) (left right : BitVec width) :
    (if (left ^^^ right).getLsbD i then constant else 0) =
      (if left.getLsbD i then constant else 0) ^^^ (if right.getLsbD i then constant else 0) := by
  rw [getLsbD_xor]
  cases left.getLsbD i <;> cases right.getLsbD i <;> simp

theorem and_twoPow_ne_zero_iff (value : BitVec width) (hi : i < width) :
    value &&& twoPow width i ≠ 0 ↔ value.getLsbD i = true := by
  rw [and_twoPow]
  cases value.getLsbD i with
  | false => simp
  | true =>
    simp only [if_true, iff_true]
    intro hzero
    have hbit := congrArg (fun vector => getLsbD vector i) hzero
    simp [hi] at hbit

theorem or_eq_xor {left right : BitVec width} (hdisjoint : left &&& right = 0) :
    left ||| right = left ^^^ right := by
  apply eq_of_getLsbD_eq
  intro i _
  have hbit := congrArg (fun vector => getLsbD vector i) hdisjoint
  simp only [getLsbD_and] at hbit
  rw [getLsbD_or, getLsbD_xor]
  cases hleft : left.getLsbD i <;> cases hright : right.getLsbD i <;> simp_all

section

variable (left right : BitVec width) {count rest : ℕ} (hcount : count + rest = width)
include hcount

/-- Shifted in from the other word: the bits fall into the gap. -/
theorem shift_or_eq_xor :
    (left >>> count) ||| (right <<< rest) = (left >>> count) ^^^ (right <<< rest) := by
  apply or_eq_xor
  apply eq_of_getLsbD_eq
  intro i hi
  rw [getLsbD_and, getLsbD_ushiftRight, getLsbD_shiftLeft]
  by_cases hlow : i < rest
  · simp [hlow]
  · rw [getLsbD_of_ge left (count + i) (by omega)]
    simp

theorem shiftLeft_or_eq_xor :
    (right <<< rest) ||| (left >>> count) = (right <<< rest) ^^^ (left >>> count) := by
  rw [BitVec.or_comm, shift_or_eq_xor left right hcount, BitVec.xor_comm]

end

theorem xor_interchange (first second third fourth : BitVec width) :
    (first ^^^ second) ^^^ (third ^^^ fourth) = (first ^^^ third) ^^^ (second ^^^ fourth) := by
  ac_rfl

end KernelM5040.XorLinear
