import Mathlib

/-!
# Writing with a limit

A cursor that goes on from address to address and stores only below a limit.
Addresses are numbers of a machine word and wrap around.  As long as they do
not, the stored values are a prefix of all values, whatever the limit is.
-/

namespace KernelM5040.BoundedWriter

open List

variable {Value : Type*}

/-- The address of the next value, and the stores so far. -/
structure Cursor (Value : Type*) where
  position : ℕ
  trace : List (ℕ × Value)
  deriving DecidableEq, Repr

/-- The address space. -/
def addressSpace : ℕ := 2 ^ 64

/-- Store a value below the limit, and go on in any case. -/
def put (limit : ℕ) (cursor : Cursor Value) (value : Value) : Cursor Value where
  position := (cursor.position + 1) % addressSpace
  trace :=
    if cursor.position < limit then cursor.trace ++ [(cursor.position, value)] else cursor.trace

def putAll (limit : ℕ) (cursor : Cursor Value) (values : List Value) : Cursor Value :=
  values.foldl (put limit) cursor

/-- The value that was stored last at an address. -/
def stored (trace : List (ℕ × Value)) (address : ℕ) : Option Value :=
  trace.reverse.lookup address

variable {limit position : ℕ} {values : List Value} {trace : List (ℕ × Value)} {value : Value}

theorem put_eq_putAll (cursor : Cursor Value) (value : Value) :
    put limit cursor value = putAll limit cursor [value] := rfl

theorem putAll_putAll (cursor : Cursor Value) (first second : List Value) :
    putAll limit (putAll limit cursor first) second = putAll limit cursor (first ++ second) :=
  foldl_append.symm

section

variable (condition : Prop) [Decidable condition] (cursor : Cursor Value)

theorem ite_putAll (first second : List Value) :
    (if condition then putAll limit cursor first else putAll limit cursor second) =
      putAll limit cursor (if condition then first else second) :=
  (apply_ite (putAll limit cursor) condition first second).symm

theorem ite_putAll_self (values : List Value) :
    (if condition then putAll limit cursor values else cursor) =
      putAll limit cursor (if condition then values else []) :=
  ite_putAll condition cursor values []

end

/-- What a function writes does not depend on where it starts and how much it may store. -/
def Emits (write : ℕ → Cursor Value → Cursor Value) : Prop :=
  ∃ output, ∀ limit cursor, write limit cursor = putAll limit cursor output

theorem stored_append (address address' : ℕ) :
    stored (trace ++ [(address, value)]) address' =
      if address' = address then some value else stored trace address' := by
  rw [stored, reverse_append, reverse_singleton, singleton_append, lookup_cons]
  by_cases heq : address' = address
  · simp [heq]
  · rw [if_neg heq, beq_eq_false_iff_ne.mpr heq]
    rfl

/-- The same values in the same places for every limit above them, and nothing outside. -/
structure Wrote (limit position : ℕ) (values : List Value) (cursor : Cursor Value) : Prop where
  reached : cursor.position = position + values.length
  inside : ∀ store ∈ cursor.trace, position ≤ store.1 ∧ store.1 < limit
  holds : ∀ i value, values[i]? = some value → position + i < limit →
    stored cursor.trace (position + i) = some value

theorem wrote_putAll (hspace : position + values.length < addressSpace) :
    Wrote limit position values (putAll limit ⟨position, []⟩ values) := by
  induction values using reverseRecOn with
  | nil => exact ⟨rfl, by simp [putAll], by simp⟩
  | append_singleton values last ih =>
    rw [length_append, length_singleton] at hspace
    obtain ⟨hposition, hinside, hholds⟩ := ih (by omega)
    rw [← putAll_putAll, ← put_eq_putAll]
    generalize putAll limit ⟨position, []⟩ values = cursor at hposition hinside hholds
    refine ⟨?_, ?_, ?_⟩
    · rw [put, hposition, length_append, length_singleton]
      exact Nat.mod_eq_of_lt (by omega)
    · intro store hstore
      simp only [put] at hstore
      split_ifs at hstore with hbelow
      · rcases mem_append.mp hstore with hold | hnew
        · exact hinside store hold
        · rw [mem_singleton.mp hnew]
          exact ⟨by rw [hposition]; omega, hbelow⟩
      · exact hinside store hstore
    · intro i value hvalue hlimit
      have hi : i < values.length + 1 := by
        simpa using (List.getElem?_eq_some_iff.mp hvalue).1
      simp only [put]
      rcases Nat.lt_succ_iff_lt_or_eq.mp hi with hlt | rfl
      · rw [getElem?_append_left hlt] at hvalue
        have hstored := hholds i value hvalue hlimit
        split_ifs
        · rw [stored_append, if_neg (by omega)]
          exact hstored
        · exact hstored
      · rw [getElem?_concat_length] at hvalue
        rw [if_pos (by omega), stored_append, if_pos hposition.symm, Option.some.inj hvalue]

/-- Where addresses wrap around, the values behind the last address are stored as well. -/
theorem mem_trace_putAll (hposition : position < addressSpace) (before after : List Value)
    (hbelow : (position + before.length) % addressSpace < limit) :
    ((position + before.length) % addressSpace, value) ∈
      (putAll limit ⟨position, []⟩ (before ++ value :: after)).trace := by
  have hreached : ∀ values : List Value, (putAll limit ⟨position, []⟩ values).position =
      (position + values.length) % addressSpace := by
    intro values
    induction values using reverseRecOn with
    | nil => exact (Nat.mod_eq_of_lt hposition).symm
    | append_singleton values last ih =>
      rw [← putAll_putAll, ← put_eq_putAll, put, ih, Nat.mod_add_mod, length_append,
        length_singleton, add_assoc]
  induction after using reverseRecOn with
  | nil =>
    rw [← putAll_putAll, ← put_eq_putAll, put, hreached]
    simp only [if_pos hbelow]
    exact mem_append_right _ (mem_singleton_self _)
  | append_singleton after last ih =>
    rw [← cons_append, ← append_assoc, ← putAll_putAll, ← put_eq_putAll, put]
    split_ifs
    · exact mem_append_left _ ih
    · exact ih

end KernelM5040.BoundedWriter
