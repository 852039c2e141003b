import KernelM5040.Core.RingBuffer

/-!
# Byte queues

Model of `__kfifo_put` and `__kfifo_get` in `kernel/kfifo.c`.  The indices are
`unsigned int`s that run freely and wrap around; a place in the buffer is an index
masked with the size, which is a power of two.
-/

namespace KernelM5040.Fifo

open List RingBuffer Nat
open BitVec (ofNat le_def allOnes toNat_sub_of_le)

/-- `struct kfifo`. -/
structure Kfifo (Byte : Type*) where
  buffer : ℕ → Byte
  size : BitVec 32
  inIndex : BitVec 32
  outIndex : BitVec 32

/-- `min` of two `unsigned int`s. -/
def umin (first second : BitVec 32) : BitVec 32 := if first < second then first else second

variable {Byte : Type*}

/-- `__kfifo_put` of a buffer: the number of bytes that are put. -/
def kfifoPut (fifo : Kfifo Byte) (data : List Byte) : BitVec 32 × Kfifo Byte :=
  let len := umin (ofNat 32 data.length) (fifo.size - fifo.inIndex + fifo.outIndex)
  let place := fifo.inIndex &&& (fifo.size - 1)
  let l := umin len (fifo.size - place)
  let buffer := copyIn fifo.buffer place.toNat (data.take l.toNat)
  let buffer := copyIn buffer 0 ((data.drop l.toNat).take (len - l).toNat)
  (len, { fifo with buffer := buffer, inIndex := fifo.inIndex + len })

/-- `__kfifo_get`: the bytes that are copied out, whose number it returns. -/
def kfifoGet (fifo : Kfifo Byte) (len : BitVec 32) : List Byte × Kfifo Byte :=
  let len := umin len (fifo.inIndex - fifo.outIndex)
  let place := fifo.outIndex &&& (fifo.size - 1)
  let l := umin len (fifo.size - place)
  (copyOut fifo.buffer place.toNat l.toNat ++ copyOut fifo.buffer 0 (len - l).toNat,
    { fifo with outIndex := fifo.outIndex + len })

variable {fifo : Kfifo Byte} {data queue : List Byte}

theorem toNat_umin (first second : BitVec 32) :
    (umin first second).toNat = min first.toNat second.toNat := by
  rw [umin]
  split
  · next hlt => exact (Nat.min_eq_left (Nat.le_of_lt (BitVec.lt_def.mp hlt))).symm
  · next hge => exact (Nat.min_eq_right (le_def.mp (BitVec.not_lt.mp hge))).symm

/-- The queue that a buffer holds. -/
structure Holds (fifo : Kfifo Byte) (queue : List Byte) : Prop where
  size_pow : ∃ exponent < 32, fifo.size.toNat = 2 ^ exponent
  in_eq : fifo.inIndex = fifo.outIndex + ofNat 32 queue.length
  length_le : queue.length ≤ fifo.size.toNat
  bytes : window fifo.buffer fifo.size.toNat fifo.outIndex.toNat queue.length = queue

section

variable (hholds : Holds fifo queue)
include hholds

theorem Holds.size_pos : 0 < fifo.size.toNat := by
  obtain ⟨exponent, _, hsize⟩ := hholds.size_pow
  rw [hsize]
  exact Nat.two_pow_pos exponent

theorem Holds.place (index : BitVec 32) :
    (index &&& (fifo.size - 1)).toNat = index.toNat % fifo.size.toNat := by
  obtain ⟨exponent, _, hsize⟩ := hholds.size_pow
  have hmask : (fifo.size - 1).toNat = 2 ^ exponent - 1 := by
    have hpos := hholds.size_pos
    rw [toNat_sub_of_le (by rw [le_def]; exact hpos), hsize]
    rfl
  rw [BitVec.toNat_and, hmask, and_two_pow_sub_one_eq_mod, hsize]

theorem Holds.place_add (index : BitVec 32) (count : ℕ) :
    (index + ofNat 32 count).toNat % fifo.size.toNat = (index.toNat + count) % fifo.size.toNat := by
  obtain ⟨exponent, hlt, hsize⟩ := hholds.size_pow
  have hdvd : fifo.size.toNat ∣ 2 ^ 32 := hsize ▸ Nat.pow_dvd_pow 2 hlt.le
  rw [BitVec.toNat_add, BitVec.toNat_ofNat, add_mod_mod, mod_mod_of_dvd _ hdvd]

theorem Holds.toNat_length : (ofNat 32 queue.length).toNat = queue.length := by
  rw [BitVec.toNat_ofNat]
  exact mod_eq_of_lt (hholds.length_le.trans_lt fifo.size.isLt)

theorem Holds.used : fifo.inIndex - fifo.outIndex = ofNat 32 queue.length := by
  rw [hholds.in_eq, BitVec.add_comm, BitVec.add_sub_cancel]

theorem Holds.room :
    (fifo.size - fifo.inIndex + fifo.outIndex).toNat = fifo.size.toNat - queue.length := by
  have hroom : fifo.size - fifo.inIndex + fifo.outIndex = fifo.size - ofNat 32 queue.length := by
    rw [← hholds.used]
    ring
  have hle := hholds.length_le
  rw [← hholds.toNat_length] at hle ⊢
  rw [hroom, toNat_sub_of_le hle]

end

section

variable (hholds : Holds fifo queue)
include hholds

/-- The part of a copy that goes up to the end of the buffer, and the rest. -/
theorem Holds.pieces (index len : BitVec 32) :
    (umin len (fifo.size - (index &&& (fifo.size - 1)))).toNat =
        min len.toNat (fifo.size.toNat - index.toNat % fifo.size.toNat) ∧
      (len - umin len (fifo.size - (index &&& (fifo.size - 1)))).toNat =
        len.toNat - min len.toNat (fifo.size.toNat - index.toNat % fifo.size.toNat) := by
  have hplace := hholds.place index
  have hlt := mod_lt index.toNat hholds.size_pos
  have hfirst : (umin len (fifo.size - (index &&& (fifo.size - 1)))).toNat =
      min len.toNat (fifo.size.toNat - index.toNat % fifo.size.toNat) := by
    rw [toNat_umin, toNat_sub_of_le (by rw [le_def, hplace]; exact hlt.le), hplace]
  refine ⟨hfirst, ?_⟩
  rw [toNat_sub_of_le (by rw [le_def, hfirst]; exact Nat.min_le_left _ _), hfirst]

theorem Holds.put_len (hdata : data.length < 2 ^ 32) :
    (kfifoPut fifo data).1.toNat = min data.length (fifo.size.toNat - queue.length) := by
  rw [kfifoPut, toNat_umin, hholds.room, BitVec.toNat_ofNat, mod_eq_of_lt hdata]

theorem Holds.put (hdata : data.length < 2 ^ 32) :
    Holds (kfifoPut fifo data).2 (queue ++ data.take (kfifoPut fifo data).1.toNat) := by
  have hlen := hholds.put_len hdata
  have hle := hholds.length_le
  obtain ⟨hfirst, hrest⟩ := hholds.pieces fifo.inIndex (kfifoPut fifo data).1
  have hlength : (data.take (kfifoPut fifo data).1.toNat).length = (kfifoPut fifo data).1.toNat := by
    rw [length_take]
    omega
  have hstart : fifo.inIndex.toNat % fifo.size.toNat =
      (fifo.outIndex.toNat + queue.length) % fifo.size.toNat := by
    rw [hholds.in_eq, hholds.place_add]
  -- the two pieces are those of the bytes that are accepted
  have hbuffer : (kfifoPut fifo data).2.buffer = store fifo.buffer fifo.size.toNat
      (fifo.inIndex.toNat % fifo.size.toNat) (data.take (kfifoPut fifo data).1.toNat) := by
    change copyIn (copyIn fifo.buffer _ _) 0 _ = _
    rw [hholds.place]
    change copyIn (copyIn _ _ (data.take (umin (kfifoPut fifo data).1 _).toNat)) 0
      ((data.drop (umin (kfifoPut fifo data).1 _).toNat).take
        ((kfifoPut fifo data).1 - umin (kfifoPut fifo data).1 _).toNat) = _
    rw [hfirst, hrest, store, take_take, Nat.min_comm (fifo.size.toNat - _), drop_take]
    congr 1
    rcases Nat.le_total (kfifoPut fifo data).1.toNat
      (fifo.size.toNat - fifo.inIndex.toNat % fifo.size.toNat) with hshort | hlong
    · rw [Nat.min_eq_left hshort, Nat.sub_self, Nat.sub_eq_zero_of_le hshort, take_zero, take_zero]
    · rw [Nat.min_eq_right hlong]
  refine ⟨hholds.size_pow, ?_, ?_, ?_⟩
  · change fifo.inIndex + (kfifoPut fifo data).1 = fifo.outIndex + _
    rw [hholds.in_eq, length_append, hlength, BitVec.ofNat_add, BitVec.ofNat_toNat,
      BitVec.setWidth_eq, BitVec.add_assoc]
  · change _ ≤ fifo.size.toNat
    rw [length_append, hlength, hlen]
    omega
  · change window (kfifoPut fifo data).2.buffer fifo.size.toNat fifo.outIndex.toNat _ = _
    rw [hbuffer, hstart, length_append, window_store hholds.size_pos
      (by rw [hlength, hlen]; omega), hholds.bytes]

theorem Holds.get_len (len : BitVec 32) :
    (umin len (fifo.inIndex - fifo.outIndex)).toNat = min len.toNat queue.length := by
  rw [toNat_umin, hholds.used, hholds.toNat_length]

theorem Holds.get_bytes (len : BitVec 32) : (kfifoGet fifo len).1 = queue.take len.toNat := by
  obtain ⟨hfirst, hrest⟩ :=
    hholds.pieces fifo.outIndex (umin len (fifo.inIndex - fifo.outIndex))
  have hlen := hholds.get_len len
  have hle := hholds.length_le
  simp only [kfifoGet, hfirst, hrest, hholds.place]
  rw [copyOut_append (mod_lt _ hholds.size_pos) (by omega), hlen, window_mod,
    ← take_window (Nat.min_le_right _ _), hholds.bytes, ← take_take, take_length]

theorem Holds.get (len : BitVec 32) : Holds (kfifoGet fifo len).2 (queue.drop len.toNat) := by
  have hlen := hholds.get_len len
  have hle := hholds.length_le
  have hdrop : queue.drop len.toNat = queue.drop (min len.toNat queue.length) := by
    rcases Nat.le_total len.toNat queue.length with hshort | hlong
    · rw [Nat.min_eq_left hshort]
    · rw [Nat.min_eq_right hlong, drop_length, drop_eq_nil_of_le hlong]
  have hout : fifo.outIndex + umin len (fifo.inIndex - fifo.outIndex) =
      fifo.outIndex + ofNat 32 (min len.toNat queue.length) := by
    rw [← hlen, BitVec.ofNat_toNat, BitVec.setWidth_eq]
  rw [hdrop]
  refine ⟨hholds.size_pow, ?_, ?_, ?_⟩
  · change fifo.inIndex = fifo.outIndex + umin len _ + _
    rw [hout, hholds.in_eq, BitVec.add_assoc, ← BitVec.ofNat_add, length_drop,
      Nat.add_sub_cancel' (Nat.min_le_right _ _)]
  · change _ ≤ fifo.size.toNat
    rw [length_drop]
    omega
  · change window fifo.buffer fifo.size.toNat (fifo.outIndex + umin len _).toNat _ = _
    rw [hout, ← window_mod, hholds.place_add, window_mod, length_drop, ← drop_window, hholds.bytes]

end

/-- The states that a fifo comes to when it is used, with the bytes that it has
accepted and those that it has handed out. -/
inductive Run : Kfifo Byte → List Byte → List Byte → Prop
  | start (buffer : ℕ → Byte) (index : BitVec 32) {size : BitVec 32} {exponent : ℕ}
      (hexponent : exponent < 32) (hsize : size.toNat = 2 ^ exponent) :
      Run ⟨buffer, size, index, index⟩ [] []
  | put {fifo : Kfifo Byte} {accepted obtained data : List Byte} (hrun : Run fifo accepted obtained)
      (hdata : data.length < 2 ^ 32) :
      Run (kfifoPut fifo data).2 (accepted ++ data.take (kfifoPut fifo data).1.toNat) obtained
  | get {fifo : Kfifo Byte} {accepted obtained : List Byte} (hrun : Run fifo accepted obtained)
      (len : BitVec 32) :
      Run (kfifoGet fifo len).2 accepted (obtained ++ (kfifoGet fifo len).1)

theorem Run.holds {accepted obtained : List Byte} (hrun : Run fifo accepted obtained) :
    ∃ queue, Holds fifo queue ∧ accepted = obtained ++ queue := by
  induction hrun with
  | start buffer index hexponent hsize =>
    exact ⟨[], ⟨⟨_, hexponent, hsize⟩, (BitVec.add_zero _).symm, Nat.zero_le _, rfl⟩, rfl⟩
  | put _ hdata ih =>
    obtain ⟨queue, hholds, rfl⟩ := ih
    exact ⟨_, hholds.put hdata, append_assoc _ _ _⟩
  | get _ len ih =>
    obtain ⟨queue, hholds, rfl⟩ := ih
    refine ⟨_, hholds.get len, ?_⟩
    rw [hholds.get_bytes, append_assoc, take_append_drop]

/-- In every state the bytes handed out and those in the queue are the accepted ones in
order; the next bytes that are put are accepted as far as there is room, and the next
ones that are handed out are the first in the queue. -/
theorem kfifo_refines_queue {accepted obtained : List Byte} (hrun : Run fifo accepted obtained) :
    ∃ queue, accepted = obtained ++ queue ∧
      (fifo.inIndex - fifo.outIndex).toNat = queue.length ∧ queue.length ≤ fifo.size.toNat ∧
      (∀ data : List Byte, data.length < 2 ^ 32 →
        (kfifoPut fifo data).1.toNat = min data.length (fifo.size.toNat - queue.length)) ∧
      ∀ len, (kfifoGet fifo len).1 = queue.take len.toNat := by
  obtain ⟨queue, hholds, haccepted⟩ := hrun.holds
  refine ⟨queue, haccepted, ?_, hholds.length_le, fun data hdata => hholds.put_len hdata,
    hholds.get_bytes⟩
  rw [hholds.used, hholds.toNat_length]

/-- Three bytes in a fifo of two, with indices that wrap around. -/
theorem kfifo_refines_wrapping :
    (kfifoGet (kfifoPut ⟨fun _ => 0, 2, allOnes 32, allOnes 32⟩ [7, 8, 9]).2 5).1 = [7, 8] := by
  obtain ⟨queue, hqueue, _, _, _, hget⟩ := kfifo_refines_queue
    (.put (@Run.start ℕ (fun _ => 0) (allOnes 32) 2 1 (by decide) rfl)
      (show [7, 8, 9].length < 2 ^ 32 by decide))
  have hput : (kfifoPut ⟨fun _ => 0, 2, allOnes 32, allOnes 32⟩ [7, 8, 9]).1 = 2 := rfl
  rw [hput] at hqueue
  rw [hget 5, ← nil_append queue, ← hqueue]
  rfl

end KernelM5040.Fifo
