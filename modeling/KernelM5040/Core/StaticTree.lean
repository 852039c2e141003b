import KernelM5040.Core.FindNext

/-!
# Searching an implicit search tree

The entries of an ascending sequence are the leaves of a tree whose nodes are
numbered level by level: child `k` of node `n` is node `n * (keys + 1) + k` of
the level below.  A node has `keys` keys, the last entries below its first
`keys` children.  Going down to the first child whose key is not below what is
sought keeps the sought position below the node.
-/

namespace KernelM5040.StaticTree

open FindNext

variable {Key : Type*} [LinearOrder Key]

/-- From key `k` on, the first of the `left` next keys that is not below `sought`. -/
def firstAtLeast (key : ℕ → Key) (sought : Key) : ℕ → ℕ → ℕ
  | 0, k => k
  | left + 1, k => if sought ≤ key k then k else firstAtLeast key sought left (k + 1)

/-- `position` is the first entry of the sequence that is not below `sought`. -/
def Boundary (high : ℕ → Key) (sought : Key) (position : ℕ) : Prop :=
  ∀ i, sought ≤ high i ↔ position ≤ i

variable {key high : ℕ → Key} {sought : Key} {left k position : ℕ}

theorem found_firstAtLeast (key : ℕ → Key) (sought : Key) (left k : ℕ) :
    Found (fun k => sought ≤ key k) true (k + left) k (firstAtLeast key sought left k) := by
  have hfind : firstAtLeast key sought left k = findNext (fun k => sought ≤ key k) left k := by
    induction left generalizing k with
    | zero => rfl
    | succ left ih => simp [firstAtLeast, findNext, ih]
  rw [hfind]
  exact found_findNext_add _ left k

theorem firstAtLeast_congr {key' : ℕ → Key} (hsame : ∀ i, k ≤ i → i < k + left → key i = key' i) :
    firstAtLeast key sought left k = firstAtLeast key' sought left k := by
  induction left generalizing k with
  | zero => rfl
  | succ left ih =>
    rw [firstAtLeast, firstAtLeast, hsame k le_rfl (by omega),
      ih fun i hi hlt => hsame i (by omega) (by omega)]

section

variable (hboundary : Boundary high sought position)
include hboundary

/-- The first boundary among the ends of consecutive parts of `width` entries. -/
theorem firstAtLeast_parts (first keys : ℕ) {width : ℕ} (hwidth : 0 < width)
    (hlow : first * width ≤ position) :
    let k := firstAtLeast (fun k => high ((first + k + 1) * width - 1)) sought keys 0
    k ≤ keys ∧ (first + k) * width ≤ position ∧
      (k < keys → position < (first + k + 1) * width) := by
  intro k
  obtain ⟨-, hupper, hbefore, hfound⟩ :=
    found_firstAtLeast (fun k => high ((first + k + 1) * width - 1)) sought keys 0
  rw [zero_add] at hupper hfound
  refine ⟨hupper, ?_, fun hlt => ?_⟩
  · rcases Nat.eq_zero_or_pos k with hzero | hpos
    · rw [hzero]
      exact hlow
    have hless := hbefore (k - 1) ⟨Nat.zero_le _, Nat.sub_lt hpos Nat.one_pos⟩
    rw [Bool.not_true, decide_eq_false_iff_not, hboundary,
      show first + (k - 1) + 1 = first + k by omega] at hless
    omega
  · have hat := hfound hlt
    rw [decide_eq_true_eq, hboundary] at hat
    change position ≤ (first + k + 1) * width - 1 at hat
    have hend : 0 < (first + k + 1) * width := Nat.mul_pos (Nat.succ_pos _) hwidth
    omega

/-- A step down: the sought position stays below the node, and it stays before the node's end
where it was. -/
theorem descend {width n keys : ℕ} (hwidth : 0 < width) (hlow : n * ((keys + 1) * width) ≤ position)
    (hhigh : position ≤ (n + 1) * ((keys + 1) * width)) :
    let child := n * (keys + 1) +
      firstAtLeast (fun k => high ((n * (keys + 1) + k + 1) * width - 1)) sought keys 0
    child < (n + 1) * (keys + 1) ∧ child * width ≤ position ∧ position ≤ (child + 1) * width ∧
      (position < (n + 1) * ((keys + 1) * width) → position < (child + 1) * width) := by
  intro child
  obtain ⟨hle, hfirst, hlast⟩ := firstAtLeast_parts hboundary (n * (keys + 1)) keys hwidth
    (by rw [mul_assoc]; exact hlow)
  have hend : (n + 1) * (keys + 1) = n * (keys + 1) + keys + 1 := by ring
  have hlastChild : keys ≤ child - n * (keys + 1) → child + 1 = (n + 1) * (keys + 1) := by
    intro hge
    omega
  refine ⟨?_, hfirst, ?_, ?_⟩
  · omega
  · by_cases hmore : child - n * (keys + 1) < keys
    · exact (hlast (by omega)).le
    · rw [hlastChild (by omega), mul_assoc]
      exact hhigh
  · intro hstrict
    by_cases hmore : child - n * (keys + 1) < keys
    · exact hlast (by omega)
    · rw [hlastChild (by omega), mul_assoc]
      exact hstrict

theorem firstAtLeast_leaf {n keys : ℕ} (hlow : n * keys ≤ position)
    (hhigh : position ≤ (n + 1) * keys) :
    n * keys + firstAtLeast (fun k => high (n * keys + k)) sought keys 0 = position := by
  obtain ⟨hle, hfirst, hlast⟩ := firstAtLeast_parts hboundary (n * keys) keys Nat.one_pos (by omega)
  simp only [mul_one, Nat.add_sub_cancel] at hle hfirst hlast
  rw [add_mul, one_mul] at hhigh
  omega

end

end KernelM5040.StaticTree
