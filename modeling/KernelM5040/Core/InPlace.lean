import Mathlib.Data.List.Pairwise
import Mathlib.Logic.Function.Basic

/-!
# Loops that may overwrite what they read

A loop fills cells one after the other with values that it computes from a
source.  The source may be the cells themselves, as long as no value depends on
a cell that was filled before.
-/

namespace KernelM5040.InPlace

open Function List

variable {Key Place Value : Type*} [DecidableEq Place]

def fill (source : (Place → Value) → Place → Value) (place : Key → Place)
    (value : (Place → Value) → Key → Value) (keys : List Key) (cells : Place → Value) :
    Place → Value :=
  keys.foldl (fun cells key => update cells (place key) (value (source cells) key)) cells

variable {source : (Place → Value) → Place → Value} {place : Key → Place}
  {value : (Place → Value) → Key → Value} {keys : List Key}

/-- Every cell gets the value from the source at the start; the others stay. -/
theorem fill_spec (hsource : ∀ cells filled new other, other ≠ filled →
      source (update cells filled new) other = source cells other)
    (hkeys : keys.Pairwise fun key later => place key ≠ place later ∧
      ∀ before after : Place → Value, (∀ other, other ≠ place key → after other = before other) →
        value after later = value before later) (cells : Place → Value) :
    (∀ key ∈ keys, fill source place value keys cells (place key) = value (source cells) key) ∧
      ∀ other, (∀ key ∈ keys, place key ≠ other) →
        fill source place value keys cells other = cells other := by
  induction keys generalizing cells with
  | nil => exact ⟨fun key hkey => absurd hkey not_mem_nil, fun _ _ => rfl⟩
  | cons first keys ih =>
    obtain ⟨hfirst, hkeys⟩ := pairwise_cons.mp hkeys
    obtain ⟨hfilled, hother⟩ := ih hkeys (update cells (place first) (value (source cells) first))
    refine ⟨fun key hkey => ?_, fun other hnot => ?_⟩
    · rcases mem_cons.mp hkey with rfl | hlater
      · exact (hother _ fun later hlater => (hfirst later hlater).1.symm).trans (update_self ..)
      · refine (hfilled key hlater).trans ((hfirst key hlater).2 _ _ fun other hne => ?_)
        exact hsource cells _ _ other hne
    · refine (hother other fun key hkey => hnot key (mem_cons_of_mem _ hkey)).trans ?_
      exact update_of_ne (hnot first mem_cons_self).symm _ _

end KernelM5040.InPlace
