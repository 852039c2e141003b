import Mathlib

/-!
# Ring buffers

A queue lies in a memory of fixed size from some place on and goes on at the front
behind the last place.  It is written and read in two pieces: up to the end of the
memory, and the rest from its front.
-/

namespace KernelM5040.RingBuffer

open List Nat

variable {Value : Type*} {memory : ℕ → Value} {size start count offset first : ℕ} {data : List Value}

/-- The memory with some values written from a place on. -/
def copyIn (memory : ℕ → Value) (offset : ℕ) (data : List Value) (pos : ℕ) : Value :=
  if offset ≤ pos then data.getD (pos - offset) (memory pos) else memory pos

/-- The values of the memory from a place on. -/
def copyOut (memory : ℕ → Value) (offset count : ℕ) : List Value :=
  (List.range count).map fun i => memory (offset + i)

/-- The values of a queue that begins at a place of the ring. -/
def window (memory : ℕ → Value) (size start count : ℕ) : List Value :=
  (List.range count).map fun i => memory ((start + i) % size)

@[simp]
theorem length_window : (window memory size start count).length = count := by
  rw [window, length_map, length_range]

theorem window_mod : window memory size (start % size) count = window memory size start count := by
  simp [window, mod_add_mod]

theorem ring_place (hstart : start < size) (hoffset : offset < size) :
    (start + offset) % size = if start + offset < size then start + offset
      else start + offset - size := by
  split
  · next hlt => exact mod_eq_of_lt hlt
  · next hge =>
    rw [mod_eq_sub_mod (not_lt.mp hge)]
    exact mod_eq_of_lt (by omega)

theorem copyOut_append (hstart : start < size) (hcount : count ≤ size) :
    copyOut memory start (min count (size - start)) ++
        copyOut memory 0 (count - min count (size - start)) = window memory size start count := by
  apply ext_getElem
  · simp only [copyOut, length_append, length_map, length_range, length_window]
    omega
  intro i hleft hright
  rw [length_window] at hright
  simp only [copyOut, window, getElem_append, length_map, length_range,
    getElem_map, getElem_range, ring_place hstart (hright.trans_le hcount)]
  split
  · next hfirst => rw [if_pos (by omega)]
  next hsecond =>
  rw [if_neg (by omega)]
  congr 1
  omega

/-- Values are written in two pieces. -/
def store (memory : ℕ → Value) (size start : ℕ) (data : List Value) : ℕ → Value :=
  copyIn (copyIn memory start (data.take (size - start))) 0 (data.drop (size - start))

theorem store_ring (hstart : start < size) (hdata : data.length ≤ size) (hoffset : offset < size) :
    store memory size start data ((start + offset) % size) =
      data.getD offset (memory ((start + offset) % size)) := by
  have hdrop : ∀ pos, data.length - (size - start) ≤ pos → ∀ value,
      (data.drop (size - start)).getD pos value = value := fun pos hpos value =>
    getD_eq_default _ _ (by rw [length_drop]; exact hpos)
  rw [ring_place hstart hoffset, store, copyIn, if_pos (Nat.zero_le _), Nat.sub_zero, copyIn]
  split
  · next hlt =>
    rw [hdrop _ (by omega), if_pos (Nat.le_add_right _ _), Nat.add_sub_cancel_left,
      getD_eq_getElem?_getD, getElem?_take_of_lt (by omega), ← getD_eq_getElem?_getD]
  · next hge =>
    rw [if_neg (by omega), getD_eq_getElem?_getD, getElem?_drop, ← getD_eq_getElem?_getD]
    congr 1
    omega

theorem window_store (hsize : 0 < size) (hroom : count + data.length ≤ size) :
    window (store memory size ((start + count) % size) data) size start (count + data.length) =
      window memory size start count ++ data := by
  have hstart := mod_lt (start + count) hsize
  -- an offset from the start of the queue, counted from the place that is written to
  have hplace : ∀ i offset, (count + offset) % size = i % size →
      (start + i) % size = ((start + count) % size + offset) % size := by
    intro i offset hsame
    rw [mod_add_mod, Nat.add_assoc, add_mod start (count + offset), hsame, ← add_mod]
  apply ext_getElem
  · simp
  intro i hleft hright
  rw [length_window] at hleft
  simp only [window, getElem_append, length_map, length_range, getElem_map, getElem_range]
  split
  · next hold =>
    rw [hplace i (size - count + i) (by rw [← Nat.add_assoc, Nat.add_sub_cancel' (by omega),
        add_mod_left]), store_ring hstart (by omega) (by omega)]
    exact getD_eq_default _ _ (by omega)
  · next hnew =>
    rw [hplace i (i - count) (by rw [Nat.add_sub_cancel' (not_lt.mp hnew)]),
      store_ring hstart (by omega) (by omega), getD_eq_getElem]

theorem drop_window :
    (window memory size start count).drop first =
      window memory size (start + first) (count - first) := by
  apply ext_getElem
  · simp
  · intro i _ _
    simp [window, getElem_drop, getElem_map, getElem_range, Nat.add_assoc]

theorem take_window (hle : first ≤ count) :
    (window memory size start count).take first = window memory size start first := by
  rw [window, ← map_take, take_range, Nat.min_eq_left hle, window]

end KernelM5040.RingBuffer
