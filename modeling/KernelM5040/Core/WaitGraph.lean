import Mathlib

/-!
# Wait graphs

A relation without cycles, and what one more edge does to it.  Where everybody
waits for at most one other, a bounded walk along the chain finds out whether
the edge would close a cycle.
-/

namespace KernelM5040.WaitGraph

open Finset Relation

variable {α : Type*} {relation relation' : α → α → Prop}

def Acyclic (relation : α → α → Prop) : Prop := ∀ node, ¬ TransGen relation node node

theorem Acyclic.mono (hacyclic : Acyclic relation)
    (hless : ∀ first second, relation' first second → relation first second) : Acyclic relation' :=
  fun node hcycle => hacyclic node (TransGen.mono hless node node hcycle)

theorem acyclic_of_descends {β : Type*} [Preorder β] (rank : α → β)
    (hless : ∀ first second, relation first second → rank second < rank first) :
    Acyclic relation := by
  intro node hcycle
  have hdescends : ∀ {first second}, TransGen relation first second → rank second < rank first := by
    intro first second hpath
    induction hpath with
    | single hedge => exact hless _ _ hedge
    | tail _ hedge ih => exact (hless _ _ hedge).trans ih
  exact lt_irrefl _ (hdescends hcycle)

/-- The relation with one more edge. -/
def addEdge (relation : α → α → Prop) (source target first second : α) : Prop :=
  relation first second ∨ first = source ∧ second = target

/-- A path in the larger relation avoids the new edge or leads up to it and away
from it. -/
theorem transGen_addEdge {source target first second : α}
    (hpath : TransGen (addEdge relation source target) first second) :
    TransGen relation first second ∨
      ReflTransGen relation first source ∧ ReflTransGen relation target second := by
  induction hpath with
  | single hedge =>
    rcases hedge with hedge | ⟨rfl, rfl⟩
    · exact Or.inl (.single hedge)
    · exact Or.inr ⟨.refl, .refl⟩
  | tail _ hedge ih =>
    rcases hedge with hedge | ⟨rfl, rfl⟩
    · exact ih.imp (fun hpath => hpath.tail hedge) (And.imp_right fun hpath => hpath.tail hedge)
    · rcases ih with hpath | ⟨hpath, _⟩
      · exact Or.inr ⟨hpath.to_reflTransGen, .refl⟩
      · exact Or.inr ⟨hpath, .refl⟩

/-- The new edge closes a cycle exactly when its target already leads to its
source. -/
theorem Acyclic.exists_cycle_addEdge (hacyclic : Acyclic relation) {source target : α} :
    (∃ node, TransGen (addEdge relation source target) node node) ↔
      ReflTransGen relation target source := by
  constructor
  · rintro ⟨node, hcycle⟩
    rcases transGen_addEdge hcycle with hold | ⟨hsource, htarget⟩
    · exact absurd hold (hacyclic node)
    · exact htarget.trans hsource
  · intro hpath
    have hback : ReflTransGen (addEdge relation source target) target source :=
      ReflTransGen.mono (fun _ _ => Or.inl) target source hpath
    exact ⟨source, TransGen.head' (Or.inr ⟨rfl, rfl⟩) hback⟩

variable [DecidableEq α] (next : α → Option α)

/-- The edges of a partial function. -/
def Follows (first second : α) : Prop := next first = some second

/-- Whether the goal is met in at least one and at most so many steps. -/
def meetsWithin (goal : α) : ℕ → α → Bool
  | 0, _ => false
  | steps + 1, node =>
    match next node with
    | none => false
    | some later => if goal = later then true else meetsWithin goal steps later

variable {next} {goal node : α} {steps : ℕ}

theorem transGen_of_meetsWithin (hmeets : meetsWithin next goal steps node = true) :
    TransGen (Follows next) node goal := by
  induction steps generalizing node with
  | zero => simp [meetsWithin] at hmeets
  | succ steps ih =>
    rw [meetsWithin] at hmeets
    cases hnext : next node with
    | none => simp [hnext] at hmeets
    | some later =>
      rw [hnext] at hmeets
      by_cases hgoal : goal = later
      · rw [hgoal]
        exact .single hnext
      · simp only [hgoal, if_false] at hmeets
        exact TransGen.head hnext (ih hmeets)

/-- A walk along the chain ends within so many steps. -/
def EndsWithin (next : α → Option α) : ℕ → α → Prop
  | 0, _ => False
  | steps + 1, node => ∀ later, next node = some later → EndsWithin next steps later

/-- A walk among finitely many nodes ends where it meets no cycle: no node comes twice, so as
many steps as there are nodes with a successor are enough. -/
theorem endsWithin_of_not_cycle {steps : ℕ} {sources : Finset α}
    (hsources : ∀ other, ReflTransGen (Follows next) node other → next other ≠ none →
      other ∈ sources) (hcard : sources.card ≤ steps)
    (hnone : ∀ other, ReflTransGen (Follows next) node other →
      ¬TransGen (Follows next) other other) : EndsWithin next (steps + 1) node := by
  induction steps generalizing node sources with
  | zero =>
    intro later hnext
    have hmem := hsources node .refl (by rw [hnext]; simp)
    rw [card_eq_zero.mp (Nat.le_zero.mp hcard)] at hmem
    exact absurd hmem (notMem_empty node)
  | succ steps ih =>
    intro later hnext
    have hmem := hsources node .refl (by rw [hnext]; simp)
    refine @ih later (sources.erase node) ?_ ?_ ?_
    · intro other hother hsome
      refine mem_erase.mpr ⟨?_, hsources other (.head hnext hother) hsome⟩
      -- `node` behind itself would be a cycle
      rintro rfl
      exact hnone other .refl (TransGen.head' hnext hother)
    · rw [card_erase_of_mem hmem]
      omega
    · exact fun other hother => hnone other (.head hnext hother)

theorem EndsWithin.meetsWithin (hends : EndsWithin next (steps + 1) node)
    (hpath : TransGen (Follows next) node goal) : meetsWithin next goal steps node = true := by
  induction steps generalizing node with
  | zero =>
    obtain ⟨later, hnext, _⟩ := TransGen.head'_iff.mp hpath
    exact (hends later hnext).elim
  | succ steps ih =>
    obtain ⟨later, hnext, hrest⟩ := TransGen.head'_iff.mp hpath
    rw [WaitGraph.meetsWithin, hnext]
    by_cases hgoal : goal = later
    · simp [hgoal]
    · simp only [hgoal, if_false]
      exact ih (hends later hnext) ((reflTransGen_iff_eq_or_transGen.mp hrest).resolve_left hgoal)

end KernelM5040.WaitGraph
