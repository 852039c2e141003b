import Mathlib.Data.List.Nodup
import Mathlib.Logic.Function.Basic

/-!
# Items kept in keyed lists

A family of lists indexed by a key, in which an item stands at most once
altogether.  Items are put at the tail of a list, taken out wherever they
stand, or moved by emptying a whole list and putting its items elsewhere.
-/

namespace KernelM5040.Buckets

open List Function

variable {Key Item : Type*}

/-- An item stands in some list. -/
def Holds (buckets : Key → List Item) (item : Item) : Prop := ∃ key, item ∈ buckets key

/-- No item stands in two lists, or twice in one. -/
structure Apart (buckets : Key → List Item) : Prop where
  nodup : ∀ key, (buckets key).Nodup
  unique : ∀ {item key other}, item ∈ buckets key → item ∈ buckets other → key = other

theorem apart_empty : Apart (fun _ : Key => ([] : List Item)) :=
  ⟨fun _ => nodup_nil, fun hmem => absurd hmem not_mem_nil⟩

section Push

variable [DecidableEq Key]

/-- Put an item at the tail of a list. -/
def push (buckets : Key → List Item) (key : Key) (item : Item) : Key → List Item :=
  Function.update buckets key (buckets key ++ [item])

/-- Put several items at the tails of the lists their keys name. -/
def pushAll (keyOf : Item → Key) (buckets : Key → List Item) (items : List Item) :
    Key → List Item :=
  items.foldl (fun buckets item => push buckets (keyOf item) item) buckets

/-- Empty one list. -/
def drain (buckets : Key → List Item) (key : Key) : Key → List Item :=
  Function.update buckets key []

variable {buckets : Key → List Item} {key other : Key} {item added : Item} {keyOf : Item → Key}
  {items : List Item}

theorem mem_push :
    item ∈ push buckets key added other ↔ item ∈ buckets other ∨ item = added ∧ other = key := by
  unfold push
  rw [update_apply]
  split_ifs with heq
  · rw [heq, mem_append, mem_singleton]
    simp
  · simp [heq]

theorem Apart.push (hapart : Apart buckets) (hfree : ¬ Holds buckets added) :
    Apart (push buckets key added) := by
  constructor
  · intro other
    unfold Buckets.push
    rw [update_apply]
    split_ifs
    · apply Nodup.append (hapart.nodup key) (nodup_singleton added)
      intro item hmem hadded
      rw [mem_singleton] at hadded
      exact hfree ⟨key, hadded ▸ hmem⟩
    · exact hapart.nodup other
  · intro item first second hfirst hsecond
    rw [mem_push] at hfirst hsecond
    rcases hfirst with hfirst | ⟨rfl, rfl⟩
    · rcases hsecond with hsecond | ⟨rfl, -⟩
      · exact hapart.unique hfirst hsecond
      · exact absurd ⟨first, hfirst⟩ hfree
    · rcases hsecond with hsecond | ⟨-, rfl⟩
      · exact absurd ⟨second, hsecond⟩ hfree
      · rfl

theorem mem_pushAll :
    item ∈ pushAll keyOf buckets items other ↔
      item ∈ buckets other ∨ item ∈ items ∧ keyOf item = other := by
  induction items generalizing buckets with
  | nil => simp [pushAll]
  | cons head rest ih =>
    have hstep : pushAll keyOf buckets (head :: rest) =
        pushAll keyOf (push buckets (keyOf head) head) rest := rfl
    rw [hstep, ih, mem_push, mem_cons]
    grind

theorem Apart.pushAll (hapart : Apart buckets) (hnodup : items.Nodup)
    (hfree : ∀ item ∈ items, ¬ Holds buckets item) : Apart (pushAll keyOf buckets items) := by
  induction items generalizing buckets with
  | nil => exact hapart
  | cons head rest ih =>
    rw [nodup_cons] at hnodup
    apply ih (hapart.push (hfree head mem_cons_self)) hnodup.2
    rintro item hitem ⟨place, hplace⟩
    rw [mem_push] at hplace
    rcases hplace with hplace | ⟨rfl, -⟩
    · exact hfree item (mem_cons_of_mem _ hitem) ⟨place, hplace⟩
    · exact hnodup.1 hitem

theorem mem_drain : item ∈ drain buckets key other ↔ item ∈ buckets other ∧ other ≠ key := by
  unfold drain
  rw [update_apply]
  split_ifs with heq
  · rw [heq]
    simp
  · simp [heq]

theorem Apart.drain (hapart : Apart buckets) : Apart (drain buckets key) := by
  constructor
  · intro other
    unfold Buckets.drain
    rw [update_apply]
    split_ifs
    · exact nodup_nil
    · exact hapart.nodup other
  · intro item first second hfirst hsecond
    exact hapart.unique (mem_drain.mp hfirst).1 (mem_drain.mp hsecond).1

theorem Apart.not_holds_drain (hapart : Apart buckets) (hmem : item ∈ buckets key) :
    ¬ Holds (Buckets.drain buckets key) item := by
  rintro ⟨other, hother⟩
  rw [mem_drain] at hother
  exact hother.2 (hapart.unique hother.1 hmem)

end Push

section Remove

variable [DecidableEq Item] {buckets : Key → List Item} {key : Key} {item removed : Item}

/-- Take an item out wherever it stands. -/
def remove (buckets : Key → List Item) (removed : Item) : Key → List Item :=
  fun key => (buckets key).erase removed

theorem mem_remove (hapart : Apart buckets) :
    item ∈ remove buckets removed key ↔ item ∈ buckets key ∧ item ≠ removed := by
  unfold remove
  rw [(hapart.nodup key).mem_erase_iff, and_comm]

theorem Apart.remove (hapart : Apart buckets) : Apart (remove buckets removed) := by
  constructor
  · intro key
    exact (hapart.nodup key).erase removed
  · intro item first second hfirst hsecond
    exact hapart.unique ((mem_remove hapart).mp hfirst).1 ((mem_remove hapart).mp hsecond).1

end Remove

end KernelM5040.Buckets
