import KernelM5040.Core.Digits
import KernelM5040.Lib.Idr

/-!
# Trees of ids

A tree stands for a partial map from ids to registered pointers, where an id may
be registered with `NULL`.  In a well-formed tree a bit tells whether the slot is
taken at the bottom, and above it whether the layer below is full.
-/

namespace KernelM5040.Idr

open Slot BitVec Function Digits

variable {Ptr : Type*} {id : Id} {level pos x block count : ℕ} {bitmap : Bitmap}
  {ary : Fin idrSize → Slot Ptr} {p child : Slot Ptr} {n m : Fin idrSize}

/-- The number of ids below a slot of a layer. -/
def span (level : ℕ) : ℕ := 2 ^ (idrBits * level)

/-- The slot of an id in a layer. -/
def place (pos level : ℕ) : Fin idrSize := Fin.ofNat idrSize (pos / span level)

theorem span_pos (level : ℕ) : 0 < span level := Nat.two_pow_pos _

theorem span_succ (level : ℕ) : span (level + 1) = span level * idrSize := by
  rw [span, span, Nat.mul_succ, pow_add]

theorem span_dvd {small large : ℕ} (hle : small ≤ large) : span small ∣ span large :=
  Nat.pow_dvd_pow 2 (Nat.mul_le_mul_left idrBits hle)

theorem div_span_succ (pos level : ℕ) : pos / span (level + 1) = pos / span level / idrSize := by
  rw [span_succ, Nat.div_div_eq_div_mul]

theorem place_val (pos level : ℕ) : (place pos level).val = pos / span level % idrSize := rfl

theorem div_span_eq_iff : pos / span level = block ↔
    block * span level ≤ pos ∧ pos < (block + 1) * span level := by
  rw [Nat.div_eq_iff (span_pos level), Nat.succ_mul]
  have := span_pos level
  omega

theorem div_span_congr {small large : ℕ} (hle : small ≤ large)
    (hblock : pos / span small = x / span small) : pos / span large = x / span large := by
  obtain ⟨factor, hfactor⟩ : span small ∣ span large := span_dvd hle
  rw [hfactor, ← Nat.div_div_eq_div_mul, ← Nat.div_div_eq_div_mul, hblock]

theorem div_span_slot : pos / span level = block * idrSize + n ↔
    pos / span (level + 1) = block ∧ place pos level = n := by
  have hn : n.val < idrSize := n.isLt
  rw [div_span_succ, Fin.ext_iff, place_val, Nat.div_mod_unique (by decide), and_iff_left hn,
    add_comm, mul_comm, eq_comm]

theorem toNat_sshiftRight (hid : id.toNat < 2 ^ maxIdShift) (shift : ℕ) :
    (id.sshiftRight shift).toNat = id.toNat / 2 ^ shift := by
  have hmsb : id.msb = false := by
    rw [msb_eq_decide, decide_eq_false_iff_not, not_le]
    exact hid
  rw [sshiftRight_eq_of_msb_false hmsb, toNat_ushiftRight, Nat.shiftRight_eq_div_pow]

theorem digit_eq_place (hid : id.toNat < 2 ^ maxIdShift) (level : ℕ) :
    digit id level = place id.toNat level := by
  rw [digit, place, toNat_sshiftRight hid, Nat.and_two_pow_sub_one_eq_mod, span]
  apply Fin.ext
  rw [Fin.val_ofNat, Fin.val_ofNat, Nat.mod_mod]

theorem toNat_roundUp (hlevel : idrBits * level < 32)
    (hend : (id.toNat / span level + 1) * span level < 2 ^ 32) :
    (roundUp id level).toNat = (id.toNat / span level + 1) * span level := by
  have hpos := span_pos level
  have hsum : id.toNat / span level * span level + (span level - 1) + 1 =
      (id.toNat / span level + 1) * span level := by
    rw [Nat.succ_mul]
    omega
  rw [roundUp, toNat_add, Digits.toNat_or_mask hlevel]
  change (id.toNat / span level * span level + (span level - 1) + 1) % 2 ^ 32 = _
  rw [hsum, Nat.mod_eq_of_lt hend]

theorem toNat_moveTo (hid : id.toNat < 2 ^ maxIdShift)
    (hend : (id.toNat / span (level + 1) * idrSize + m) * span level < 2 ^ 32) :
    (moveTo id level (digit id level) m).toNat =
      (id.toNat / span (level + 1) * idrSize + m) * span level := by
  have hn : (digit id level).val = id.toNat / span level % 2 ^ idrBits := by
    rw [digit_eq_place hid, place_val]
  have hlt : ∀ n : Fin idrSize, n.val < 2 ^ 32 := fun n => n.isLt.trans (by decide)
  have hexchange := Digits.xor_exchange hn.symm m.isLt
  rw [moveTo, toNat_shiftLeft, toNat_xor, toNat_xor, toNat_sshiftRight hid, toNat_ofNat,
    toNat_ofNat, Nat.mod_eq_of_lt (hlt _), Nat.mod_eq_of_lt (hlt _), Nat.shiftLeft_eq]
  change (id.toNat / span level ^^^ (digit id level).val ^^^ m.val) * span level % 2 ^ 32 = _
  rw [hexchange, ← div_span_succ, Nat.mod_eq_of_lt hend]

theorem findNextZero_eq_none : findNextZero bitmap n = none ↔ ∀ m, n ≤ m → bitmap m = true := by
  rw [findNextZero, List.find?_eq_none]
  simp [Digits.mem_drop_finRange]

theorem findNextZero_eq_some (hfind : findNextZero bitmap n = some m) :
    n ≤ m ∧ bitmap m = false ∧ ∀ k, n ≤ k → k < m → bitmap k = true := by
  obtain ⟨hle, hzero, hbefore⟩ := Digits.find_drop_finRange hfind
  exact ⟨hle, by simpa using hzero, fun k hk hlt => by simpa using hbefore k hk hlt⟩

theorem isFull_iff : isFull bitmap = true ↔ ∀ n, bitmap n = true := decide_eq_true_iff

def Slot.toPtr : Slot Ptr → Option Ptr
  | .ptr value => some value
  | _ => none

/-- What is registered for an id below a layer. -/
def entry (pos : ℕ) : ℕ → Slot Ptr → Option (Option Ptr)
  | 0, .layer bitmap ary _ =>
    if bitmap (place pos 0) then some (ary (place pos 0)).toPtr else none
  | level + 1, .layer _ ary _ => entry pos level (ary (place pos (level + 1)))
  | _, _ => none

@[simp]
theorem entry_null (pos level : ℕ) : entry pos level (.null : Slot Ptr) = none := by
  cases level <;> rfl

@[simp]
theorem entry_layer (pos level count : ℕ) (bitmap : Bitmap) (ary : Fin idrSize → Slot Ptr) :
    entry pos (level + 1) (.layer bitmap ary count) =
      entry pos level (ary (place pos (level + 1))) := rfl

theorem entry_bottom (pos count : ℕ) (bitmap : Bitmap) (ary : Fin idrSize → Slot Ptr) :
    entry pos 0 (.layer bitmap ary count) =
      if bitmap (place pos 0) then some (ary (place pos 0)).toPtr else none := rfl

/-- The number of slots in use. -/
def used (ary : Fin idrSize → Slot Ptr) : ℕ :=
  (Finset.univ.filter fun n => (ary n).isNull = false).card

/-- The number of bits that are set. -/
def weight (bitmap : Bitmap) : ℕ := (Finset.univ.filter fun n => bitmap n = true).card

/-- A layer counts its slots in use and marks those that are full.  At the bottom
a bit is set when the id is taken, and only then a pointer may be stored. -/
def LayerOk : ℕ → Slot Ptr → Prop
  | 0, .layer bitmap ary count =>
    count = weight bitmap ∧
    ∀ n, (bitmap n = false → ary n = .null) ∧ ary n = .ofPtr (ary n).toPtr
  | level + 1, .layer bitmap ary count =>
    count = used ary ∧
    ∀ n, bitmap n = (ary n).full ∧ (ary n = .null ∨ LayerOk level (ary n))
  | _, _ => False

theorem eq_null_of_isNull (hnull : p.isNull = true) : p = .null := by
  cases p with
  | null => rfl
  | ptr _ | layer _ _ _ => simp [isNull] at hnull

theorem LayerOk.exists_layer (hok : LayerOk level p) :
    ∃ bitmap ary count, p = .layer bitmap ary count := by
  cases p with
  | layer bitmap ary count => exact ⟨bitmap, ary, count, rfl⟩
  | _ => cases level <;> exact hok.elim

theorem LayerOk.isNull (hok : LayerOk level p) : p.isNull = false := by
  cases p with
  | null => cases level <;> exact hok.elim
  | ptr _ | layer _ _ _ => rfl

theorem entry_of_full (hok : LayerOk level p) (hfull : p.full = true) (pos : ℕ) :
    entry pos level p ≠ none := by
  induction level generalizing p with
  | zero =>
    obtain ⟨bitmap, ary, count, rfl⟩ := hok.exists_layer
    rw [full, isFull_iff] at hfull
    rw [entry_bottom, if_pos (hfull _)]
    simp
  | succ level ih =>
    obtain ⟨bitmap, ary, count, rfl⟩ := hok.exists_layer
    rw [full, isFull_iff] at hfull
    obtain ⟨hbit, hchild⟩ := hok.2 (place pos (level + 1))
    rw [hfull] at hbit
    rw [entry_layer]
    rcases hchild with hnull | hchild
    · rw [hnull] at hbit
      simp [full] at hbit
    · exact ih hchild hbit.symm

/-- The bit of a slot is set when all ids below the slot are taken. -/
theorem bit_of_entries (hok : LayerOk level (.layer bitmap ary count))
    (hall : ∀ pos, pos / span level = block * idrSize + n →
      entry pos level (.layer bitmap ary count) ≠ none) : bitmap n = true := by
  induction level generalizing bitmap ary count block n with
  | zero =>
    have hslot : (block * idrSize + n) / span 0 = block * idrSize + n := Nat.div_one _
    have hentry := hall _ hslot
    rw [entry_bottom, (div_span_slot.mp hslot).2] at hentry
    by_contra hbit
    rw [if_neg hbit] at hentry
    exact hentry rfl
  | succ level ih =>
    obtain ⟨hbit, hchild⟩ := hok.2 n
    have hbelow : ∀ pos, pos / span (level + 1) = block * idrSize + n →
        entry pos level (ary n) ≠ none := by
      intro pos hpos
      have hentry := hall pos hpos
      rwa [entry_layer, (div_span_slot.mp hpos).2] at hentry
    rw [hbit]
    cases hary : ary n with
    | null =>
      have hentry := hbelow _ (Nat.mul_div_cancel (block * idrSize + n) (span_pos (level + 1)))
      rw [hary, entry_null] at hentry
      exact absurd rfl hentry
    | ptr _ =>
      rw [hary] at hchild
      cases level <;> exact (hchild.resolve_left (by simp)).elim
    | layer bitmap' ary' count' =>
      rw [hary] at hchild hbelow
      rw [full, isFull_iff]
      intro m
      exact ih (hchild.resolve_left (by simp)) fun pos hpos => hbelow pos (div_span_slot.mp hpos).1

/-- A layer is full when all ids of a block below it are taken. -/
theorem full_of_entries (hok : LayerOk level p)
    (hall : ∀ pos, pos / span (level + 1) = block → entry pos level p ≠ none) : p.full = true := by
  obtain ⟨bitmap, ary, count, rfl⟩ := hok.exists_layer
  rw [full, isFull_iff]
  exact fun n => bit_of_entries hok fun pos hpos => hall pos (div_span_slot.mp hpos).1

theorem agree_layer : Agree idrBits (level + 1) pos x ↔
    place pos level = place x level ∧ Agree idrBits level pos x := by
  rw [agree_succ, Fin.ext_iff]
  rfl

/-- An id gets a new value, and the others keep theirs. -/
structure Changed (level x : ℕ) (value : Option (Option Ptr)) (p p' : Slot Ptr) : Prop where
  at_id : ∀ pos, Agree idrBits (level + 1) pos x → entry pos level p' = value
  elsewhere : ∀ pos, ¬Agree idrBits (level + 1) pos x → entry pos level p' = entry pos level p

variable {bitmap' : Bitmap} {count' : ℕ} {bit : Bool} {slot : Slot Ptr}
  {value : Option (Option Ptr)}

theorem Changed.bottom (hvalue : (if bit then some slot.toPtr else none) = value) :
    Changed 0 x value (.layer bitmap ary count)
      (.layer (update bitmap (place x 0) bit) (update ary (place x 0) slot) count') := by
  refine ⟨fun pos hagree => ?_, fun pos hagree => ?_⟩
  · rw [entry_bottom, (agree_layer.mp hagree).1, update_self, update_self, hvalue]
  · have hplace : place pos 0 ≠ place x 0 := fun hplace =>
      hagree (agree_layer.mpr ⟨hplace, agree_zero⟩)
    rw [entry_bottom, entry_bottom, update_of_ne hplace, update_of_ne hplace]

theorem Changed.layer (hchanged : Changed level x value (ary (place x (level + 1))) child) :
    Changed (level + 1) x value (.layer bitmap ary count)
      (.layer bitmap' (update ary (place x (level + 1)) child) count') := by
  refine ⟨fun pos hagree => ?_, fun pos hagree => ?_⟩
  · obtain ⟨hplace, hagree⟩ := agree_layer.mp hagree
    rw [entry_layer, hplace, update_self]
    exact hchanged.at_id pos hagree
  · rw [entry_layer, entry_layer]
    by_cases hplace : place pos (level + 1) = place x (level + 1)
    · rw [hplace, update_self]
      exact hchanged.elsewhere pos fun h => hagree (agree_layer.mpr ⟨hplace, h⟩)
    · rw [update_of_ne hplace]

end KernelM5040.Idr
