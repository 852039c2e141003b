import Mathlib

/-!
# Bubble sort

Passes over a list that exchange neighbours, until a pass exchanges nothing.
Each exchange removes an inversion, so the passes end; a pass without an
exchange has found the list in order.
-/

namespace KernelM5040.BubbleSort

open List Bool

variable {Element : Type*} (less : Element → Element → Bool)

/-- One pass: a neighbour that is less than the element before it changes places with it. -/
def pass : List Element → List Element × Bool
  | [] => ([], false)
  | [last] => ([last], false)
  | last :: cur :: rest =>
    if less cur last then (cur :: (pass (last :: rest)).1, true)
    else (last :: (pass (cur :: rest)).1, (pass (cur :: rest)).2)

/-- Passes until nothing changes. -/
def sort : ℕ → List Element → Option (List Element)
  | 0, _ => none
  | fuel + 1, elements =>
    if (pass less elements).2 then sort fuel (pass less elements).1
    else some (pass less elements).1

/-- The pairs in the wrong order. -/
def inversions : List Element → ℕ
  | [] => 0
  | first :: rest => rest.countP (fun other => less other first) + inversions rest

variable {less} {elements : List Element}

theorem inversions_le (elements : List Element) :
    inversions less elements ≤ elements.length * elements.length := by
  induction elements with
  | nil => exact le_rfl
  | cons first rest ih =>
    have hcount : rest.countP (fun other => less other first) ≤ rest.length :=
      countP_le_length
    rw [inversions, length_cons]
    nlinarith

theorem pass_perm (elements : List Element) : (pass less elements).1.Perm elements := by
  fun_induction pass less elements with
  | case1 | case2 => exact Perm.refl _
  | case3 last cur rest _ ih => exact (ih.cons cur).trans (Perm.swap last cur rest)
  | case4 last cur rest _ ih => exact ih.cons last

theorem inversions_pass (hasymm : ∀ left right, less left right → less right left = false)
    (elements : List Element) :
    inversions less (pass less elements).1 + (pass less elements).2.toNat ≤
      inversions less elements := by
  fun_induction pass less elements with
  | case1 | case2 => exact le_rfl
  | case3 last cur rest hless ih =>
    have hcount := (@pass_perm _ less (last :: rest)).countP_eq fun other => less other cur
    have hback : less last cur = false := hasymm cur last hless
    simp only [inversions, countP_cons, hback, hless, toNat_true] at hcount ih ⊢
    simp only [hcount, false_eq_true, if_false, if_true]
    omega
  | case4 last cur rest hless ih =>
    have hcount := (@pass_perm _ less (cur :: rest)).countP_eq fun other => less other last
    simp only [inversions, hcount]
    simp only [inversions] at ih
    omega

theorem chain_of_pass (hsame : (pass less elements).2 = false) :
    (pass less elements).1 = elements ∧
      elements.IsChain fun left right => less right left = false := by
  fun_induction pass less elements with
  | case1 => exact ⟨rfl, List.IsChain.nil⟩
  | case2 last => exact ⟨rfl, List.IsChain.singleton last⟩
  | case3 last cur rest hless ih => cases hsame
  | case4 last cur rest hless ih =>
    obtain ⟨hrest, hchain⟩ := ih hsame
    exact ⟨by rw [hrest], IsChain.cons_cons (by simpa using hless) hchain⟩

theorem sort_spec (hasymm : ∀ left right, less left right → less right left = false)
    (htrans : ∀ left middle right, less middle left = false → less right middle = false →
      less right left = false) {fuel : ℕ} (hfuel : inversions less elements < fuel) :
    ∃ sorted, sort less fuel elements = some sorted ∧ sorted.Perm elements ∧
      sorted.Pairwise fun left right => less right left = false := by
  induction fuel generalizing elements with
  | zero => omega
  | succ fuel ih =>
    rw [sort]
    split_ifs with hchanged
    · have hfewer := inversions_pass hasymm elements
      rw [hchanged, toNat_true] at hfewer
      have hfewer' : inversions less (pass less elements).1 < fuel := by omega
      obtain ⟨sorted, hsort, hperm, hpairwise⟩ := ih hfewer'
      exact ⟨sorted, hsort, hperm.trans (pass_perm elements), hpairwise⟩
    · obtain ⟨hsame, hchain⟩ := chain_of_pass (eq_false_of_not_eq_true hchanged)
      rw [hsame]
      have : IsTrans Element fun left right => less right left = false := ⟨htrans⟩
      exact ⟨elements, rfl, Perm.refl _, hchain.pairwise⟩

end KernelM5040.BubbleSort
