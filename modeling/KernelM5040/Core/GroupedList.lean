import Mathlib

/-!
# Lists grouped by a key

A list is grouped when elements of one key stand together.  The group of a key
can then be exchanged for another one at the same place.
-/

namespace KernelM5040.GroupedList

open List

variable {α β : Type*} {key : α → β} {before after list group : List α} {value : β}

/-- Between two elements of one key there are only elements of that key. -/
def Grouped (key : α → β) (list : List α) : Prop :=
  ∀ first middle last, [first, middle, last].Sublist list → key first = key last →
    key middle = key first

theorem Grouped.sublist {fewer : List α} (hgrouped : Grouped key list)
    (hsublist : fewer.Sublist list) : Grouped key fewer :=
  fun first middle last h => hgrouped first middle last (h.trans hsublist)

theorem Grouped.congr {key' : α → β} (hgrouped : Grouped key list)
    (hkey : ∀ element ∈ list, key' element = key element) : Grouped key' list := by
  intro first middle last hsublist hsame
  have hmem := hsublist.subset
  rw [hkey first (hmem (by simp)), hkey last (hmem (by simp))] at hsame
  rw [hkey middle (hmem (by simp)), hkey first (hmem (by simp))]
  exact hgrouped first middle last hsublist hsame

/-- A search for the first element of a key ends at the group of that key. -/
theorem Grouped.exists_group (hgrouped : Grouped key list) {other : α → Bool}
    (hother : ∀ element, other element = true ↔ key element ≠ value) :
    ∃ group after, list.dropWhile other = group ++ after ∧
      (∀ element ∈ group, key element = value) ∧ (∀ element ∈ after, key element ≠ value) ∧
      (group = [] → after = []) := by
  induction list with
  | nil => exact ⟨[], [], rfl, by simp, by simp, fun _ => rfl⟩
  | cons first rest ih =>
    by_cases hfirst : key first = value
    · have hnot : other first ≠ true := fun h => (hother first).mp h hfirst
      refine ⟨first :: rest.takeWhile fun element => !other element,
        rest.dropWhile fun element => !other element, ?_, ?_, ?_, by simp⟩
      · rw [dropWhile_cons_of_neg hnot, cons_append, takeWhile_append_dropWhile]
      · refine forall_mem_cons.mpr ⟨hfirst, fun element hmem => ?_⟩
        have hinside := mem_takeWhile_imp hmem
        rw [Bool.not_eq_true', ← Bool.not_eq_true, hother, not_not] at hinside
        exact hinside
      intro last hlast hkey
      cases hafter : rest.dropWhile fun element => !other element with
      | nil => simp [hafter] at hlast
      | cons middle later =>
        have hmiddle := head?_dropWhile_not (fun element => !other element) rest
        rw [hafter] at hlast hmiddle
        have hne := (hother middle).mp (by simpa using hmiddle)
        have hlater : [last].Sublist later := by
          rcases mem_cons.mp hlast with rfl | hlater
          · exact absurd hkey hne
          · exact singleton_sublist.mpr hlater
        have hsublist := (hlater.cons_cons middle).trans (hafter ▸ dropWhile_sublist _)
        exact hne ((hgrouped first middle last (hsublist.cons_cons first)
          (hfirst.trans hkey.symm)).trans hfirst)
    · obtain ⟨group, after, hdrop, hrest⟩ := ih (hgrouped.sublist (sublist_cons_self first rest))
      exact ⟨group, after, by rwa [dropWhile_cons_of_pos ((hother first).mpr hfirst)], hrest⟩

theorem Grouped.key_ne (hgrouped : Grouped key (before ++ group ++ after)) (hgroup : group ≠ [])
    (hvalue : ∀ element ∈ group, key element = value)
    (hbefore : ∀ element ∈ before, key element ≠ value) :
    ∀ first ∈ before, ∀ last ∈ after, key first ≠ key last := by
  intro first hfirst last hlast hsame
  obtain ⟨middle, hmiddle⟩ := exists_mem_of_ne_nil group hgroup
  have hsublist : [first, middle, last].Sublist (before ++ group ++ after) := by
    have hleft : [first, middle].Sublist (before ++ group) :=
      (singleton_sublist.mpr hfirst).append (singleton_sublist.mpr hmiddle)
    exact hleft.append (singleton_sublist.mpr hlast)
  have heq := hgrouped first middle last hsublist hsame
  exact hbefore first hfirst (heq ▸ hvalue middle hmiddle)

theorem Grouped.exchange (hgrouped : Grouped key (before ++ after))
    (hgroup : ∀ element ∈ group, key element = value)
    (hbefore : ∀ element ∈ before, key element ≠ value)
    (hafter : ∀ element ∈ after, key element ≠ value)
    (hcross : ∀ first ∈ before, ∀ last ∈ after, key first ≠ key last) :
    Grouped key (before ++ group ++ after) := by
  intro first middle last hsublist hsame
  obtain ⟨front, right, heq, hfront, hright⟩ := sublist_append_iff.mp hsublist
  obtain ⟨left, inner, rfl, hleft, hinner⟩ := sublist_append_iff.mp hfront
  have hvalue : ∀ element ∈ inner, key element = value := fun element hmem =>
    hgroup element (hinner.subset hmem)
  cases inner with
  | nil =>
    rw [append_nil] at heq
    exact hgrouped first middle last (heq ▸ hleft.append hright) hsame
  | cons inside inner =>
    -- where the last one lies, and then the first one
    have hlast : last ∈ after ∨ right = [] ∧ last ∈ inside :: inner := by
      rcases eq_nil_or_concat right with rfl | ⟨init, final, rfl⟩
      · have hfinal := congrArg getLast? heq
        refine .inr ⟨rfl, mem_of_getLast? ?_⟩
        simpa using hfinal.symm
      · have hfinal := congrArg getLast? heq
        rw [concat_eq_append, ← append_assoc, getLast?_concat] at hfinal
        obtain rfl : last = final := by simpa using hfinal
        exact .inl (hright.subset (by simp))
    cases left with
    | nil =>
      obtain ⟨rfl, -⟩ := List.cons.inj heq
      have hfirst := hvalue first mem_cons_self
      rcases hlast with hlast | ⟨rfl, -⟩
      · exact absurd (hsame ▸ hfirst) (hafter last hlast)
      · rw [append_nil, nil_append] at heq
        exact (hvalue middle (heq ▸ by simp)).trans hfirst.symm
    | cons outer left =>
      obtain ⟨rfl, -⟩ := List.cons.inj heq
      have hfirst := hleft.subset mem_cons_self
      rcases hlast with hlast | ⟨-, hlast⟩
      · exact absurd hsame (hcross first hfirst last hlast)
      · exact absurd (hsame.trans (hvalue last hlast)) (hbefore first hfirst)

/-- A relation along a list into which a middle part is put. -/
theorem pairwise_exchange {relation : α → α → Prop} {middle : List α}
    (hold : (before ++ after).Pairwise relation) (hmiddle : middle.Pairwise relation)
    (hleft : ∀ first ∈ before, ∀ second ∈ middle, relation first second)
    (hright : ∀ first ∈ middle, ∀ second ∈ after, relation first second) :
    (before ++ middle ++ after).Pairwise relation := by
  obtain ⟨hbefore, hafter, hcross⟩ := pairwise_append.mp hold
  refine pairwise_append.mpr ⟨pairwise_append.mpr ⟨hbefore, hmiddle, hleft⟩, hafter, ?_⟩
  rw [forall_mem_append]
  exact ⟨hcross, hright⟩

end KernelM5040.GroupedList
