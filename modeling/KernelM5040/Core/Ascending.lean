import Mathlib

/-!
# Values in ascending order

The values that a partial function takes on an interval, in the order of their
arguments.  A search that goes through the interval piece by piece collects the
same list.
-/

namespace KernelM5040.Ascending

open List

variable {Value : Type*} {value : ℕ → Option Value} {start middle stop : ℕ}

/-- The values on the half-open interval from `start` to `stop`. -/
def collect (value : ℕ → Option Value) (start stop : ℕ) : List Value :=
  (List.range' start (stop - start)).filterMap value

theorem collect_succ (hlt : start < stop) :
    collect value start stop = (value start).toList ++ collect value (start + 1) stop := by
  rw [collect, collect, show stop - start = stop - (start + 1) + 1 by omega, range'_succ]
  cases hvalue : value start with
  | none => rw [filterMap_cons_none hvalue, Option.toList_none, nil_append]
  | some found => rw [filterMap_cons_some hvalue, Option.toList_some, singleton_append]

theorem collect_self (start : ℕ) : collect value start start = [] := by
  rw [collect, Nat.sub_self, range'_zero, filterMap_nil]

theorem collect_eq_nil (hnone : ∀ key, start ≤ key → key < stop → value key = none) :
    collect value start stop = [] := by
  rw [collect, filterMap_eq_nil_iff]
  intro key hkey
  rw [mem_range'_1] at hkey
  exact hnone key hkey.1 (by omega)

theorem collect_congr {value' : ℕ → Option Value}
    (hsame : ∀ key, start ≤ key → key < stop → value key = value' key) :
    collect value start stop = collect value' start stop := by
  rw [collect, collect]
  refine filterMap_congr fun key hkey => ?_
  rw [mem_range'_1] at hkey
  exact hsame key hkey.1 (by omega)

theorem mem_collect {found : Value} :
    found ∈ collect value start stop ↔ ∃ key, start ≤ key ∧ key < stop ∧ value key = some found := by
  rw [collect, mem_filterMap]
  refine exists_congr fun key => ?_
  rw [mem_range'_1, and_assoc]
  refine and_congr_right fun hle => and_congr_left fun _ => ?_
  omega

theorem pairwise_collect {order : Value → Value → Prop}
    (horder : ∀ {first second firstValue secondValue}, first < second → second < stop →
      value first = some firstValue → value second = some secondValue → order firstValue secondValue) :
    (collect value start stop).Pairwise order := by
  have hrange : (range' start (stop - start)).Pairwise (· < ·) := pairwise_lt_range'
  rw [collect, pairwise_filterMap]
  refine hrange.imp_of_mem fun _ hmem hlt _ hfirst _ hsecond => horder hlt ?_ hfirst hsecond
  rw [mem_range'_1] at hmem
  omega

section

variable (hfirst : start ≤ middle) (hsecond : middle ≤ stop) {limit : ℕ}
include hfirst hsecond

theorem collect_append :
    collect value start middle ++ collect value middle stop = collect value start stop := by
  have hmiddle : start + 1 * (middle - start) = middle := by omega
  have hsplit := @List.range'_append start (middle - start) (stop - middle) 1
  rw [hmiddle, show middle - start + (stop - middle) = stop - start by omega] at hsplit
  rw [collect, collect, collect, ← hsplit, filterMap_append]

theorem take_collect_of_length (hlength : limit ≤ ((collect value start middle).take limit).length) :
    (collect value start middle).take limit = (collect value start stop).take limit := by
  rw [length_take] at hlength
  rw [← collect_append hfirst hsecond, take_append_of_le_length (by omega)]

theorem take_collect_append (hlength : ((collect value start middle).take limit).length < limit) :
    (collect value start middle).take limit ++
        (collect value middle stop).take
          (limit - ((collect value start middle).take limit).length) =
      (collect value start stop).take limit := by
  rw [length_take] at hlength
  have hall : (collect value start middle).take limit = collect value start middle :=
    take_of_length_le (by omega)
  rw [hall, ← collect_append hfirst hsecond, take_append, hall]

end

end KernelM5040.Ascending
