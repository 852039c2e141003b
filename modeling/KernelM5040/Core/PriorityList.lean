import Mathlib

/-!
# Lists in the order of a key

A new element goes behind all elements with the same key, so that equal elements
stay in the order of their arrival.
-/

namespace KernelM5040.PriorityList

open List

variable {α Key : Type*} [LinearOrder Key] {key key' : α → Key} {element other : α} {list : List α}

/-- Insert an element in front of the first one with a larger key. -/
def insert (key : α → Key) (element : α) : List α → List α
  | [] => [element]
  | head :: tail =>
    if key element < key head then element :: head :: tail else head :: insert key element tail

/-- The keys do not descend. -/
def Sorted (key : α → Key) (list : List α) : Prop :=
  list.Pairwise fun left right => key left ≤ key right

theorem insert_perm (key : α → Key) (element : α) (list : List α) :
    (insert key element list).Perm (element :: list) := by
  induction list with
  | nil => exact Perm.refl _
  | cons head tail ih =>
    rw [insert]
    split_ifs
    · exact Perm.refl _
    · exact (ih.cons head).trans (Perm.swap element head tail)

@[simp] theorem mem_insert : other ∈ insert key element list ↔ other = element ∨ other ∈ list := by
  rw [(insert_perm key element list).mem_iff, mem_cons]

theorem nodup_insert (hnew : element ∉ list) (hnodup : list.Nodup) :
    (insert key element list).Nodup :=
  (insert_perm key element list).nodup_iff.mpr (nodup_cons.mpr ⟨hnew, hnodup⟩)

theorem Sorted.insert (hsorted : Sorted key list) (element : α) :
    Sorted key (insert key element list) := by
  induction list with
  | nil => exact pairwise_singleton _ _
  | cons head tail ih =>
    obtain ⟨hhead, htail⟩ := pairwise_cons.mp hsorted
    rw [PriorityList.insert]
    split_ifs with hless
    · refine pairwise_cons.mpr ⟨?_, hsorted⟩
      rw [forall_mem_cons]
      exact ⟨hless.le, fun later hmem => hless.le.trans (hhead later hmem)⟩
    · refine pairwise_cons.mpr ⟨?_, ih htail⟩
      intro later hlater
      rcases mem_insert.mp hlater with rfl | hmem
      · exact not_lt.mp hless
      · exact hhead later hmem

theorem Sorted.congr (hsorted : Sorted key list)
    (hsame : ∀ other ∈ list, key' other = key other) : Sorted key' list := by
  refine Pairwise.imp_of_mem ?_ hsorted
  intro left right hleft hright hle
  rw [hsame left hleft, hsame right hright]
  exact hle

/-- The new element comes first if its key is smaller than that of the first. -/
theorem head?_insert (key : α → Key) (element : α) (list : List α) :
    (insert key element list).head? =
      match list.head? with
      | none => some element
      | some first => if key element < key first then some element else some first := by
  cases list with
  | nil => rfl
  | cons head tail =>
    rw [insert, head?_cons]
    split_ifs with hless
    · simp [hless]
    · simp [hless]

theorem Sorted.le_of_head? (hsorted : Sorted key list) (hhead : list.head? = some element)
    (hother : other ∈ list) : key element ≤ key other := by
  cases list with
  | nil => cases hhead
  | cons first tail =>
    obtain rfl : first = element := Option.some.inj hhead
    rcases mem_cons.mp hother with rfl | htail
    · exact le_rfl
    · exact (pairwise_cons.mp hsorted).1 other htail

/-- The least of a bound and the keys of a list. -/
def least (key : α → Key) (bound : Key) (list : List α) : Key :=
  list.foldr (fun element => min (key element)) bound

theorem le_least_iff {floor bound : Key} :
    floor ≤ least key bound list ↔ floor ≤ bound ∧ ∀ element ∈ list, floor ≤ key element := by
  induction list with
  | nil => simp [least]
  | cons head tail ih =>
    rw [least] at ih ⊢
    rw [foldr_cons, le_min_iff, ih, forall_mem_cons, and_left_comm]

theorem least_congr {bound : Key} (hsame : ∀ element ∈ list, key' element = key element) :
    least key' bound list = least key bound list := by
  refine eq_of_forall_le_iff fun floor => ?_
  rw [le_least_iff, le_least_iff]
  exact and_congr_right fun _ => forall₂_congr fun element helement => by rw [hsame element helement]

variable [DecidableEq α]

theorem Sorted.erase (hsorted : Sorted key list) (element : α) : Sorted key (list.erase element) :=
  hsorted.sublist erase_sublist

theorem head?_erase_of_ne (hhead : list.head? ≠ some element) :
    (list.erase element).head? = list.head? := by
  cases list with
  | nil => rfl
  | cons first tail =>
    have hne : first ≠ element := fun heq => hhead (by rw [heq, head?_cons])
    rw [erase_cons_tail (by simpa using hne)]
    rfl

end KernelM5040.PriorityList
