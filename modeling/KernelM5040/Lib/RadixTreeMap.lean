import KernelM5040.Core.Digits
import KernelM5040.Lib.RadixTree

/-!
# Radix trees as finite maps

A well-formed tree stands for a map from indices to items.  What the operations
do below a slot goes up through the node above it; the digits of an index decide
which slots it goes through.
-/

namespace KernelM5040.RadixTree

open Finset Function Digits BitVec Nat Slot

variable {Item : Type*} {index key : Index} {level height count nodes : ℕ}
  {slots : Fin mapSize → Slot Item} {tags : Tags} {slot child : Slot Item} {place : Fin mapSize}
  {child' : Slot Item} {found : Slot Item}

/-! ## Indices -/

theorem offset_val (index : Index) (level : ℕ) :
    (offset index level).val = digit mapShift level index.toNat := by
  have hmask : (index >>> (level * mapShift)).toNat &&& (mapSize - 1) =
      index.toNat / 2 ^ (mapShift * level) % 2 ^ mapShift := by
    rw [mapSize, and_two_pow_sub_one_eq_mod, toNat_ushiftRight, shiftRight_eq_div_pow, mul_comm]
  rw [offset, hmask, Fin.val_ofNat, mapSize, mod_mod, digit]

theorem offset_eq_iff : offset key level = offset index level ↔
    digit mapShift level key.toNat = digit mapShift level index.toNat := by
  rw [Fin.ext_iff, offset_val, offset_val]

/-- The indices take the same path below a level. -/
def SamePath (level : ℕ) (key index : Index) : Prop :=
  Agree mapShift level key.toNat index.toNat

theorem samePath_succ : SamePath (level + 1) key index ↔
    offset key level = offset index level ∧ SamePath level key index := by
  rw [SamePath, agree_succ, offset_eq_iff]
  rfl

theorem toNat_radixTreeMaxindex (height : ℕ) :
    (radixTreeMaxindex height).toNat = 2 ^ min (mapShift * height) indexBits - 1 := by
  unfold radixTreeMaxindex
  rw [mul_comm height mapShift]
  generalize mapShift * height = width
  by_cases hover : (indexBits : ℤ) - (width : ℤ) < 0
  · rw [if_pos hover, toNat_allOnes, min_eq_right (by omega)]
  rw [if_neg hover, min_eq_left (by omega)]
  by_cases hzero : (indexBits : ℤ) ≤ (indexBits : ℤ) - (width : ℤ)
  · obtain rfl : width = 0 := by omega
    rw [if_pos hzero]
    rfl
  have hshift : ((indexBits : ℤ) - (width : ℤ)).toNat = indexBits - width := by omega
  have hsplit : 2 ^ indexBits = 2 ^ (indexBits - width) * 2 ^ width := by
    rw [← pow_add, Nat.sub_add_cancel (by omega)]
  have hpos : 0 < 2 ^ (indexBits - width) * 2 ^ width := by positivity
  have hdiv := mul_sub_div 0 (2 ^ (indexBits - width)) (2 ^ width) hpos
  rw [if_neg hzero, toNat_ushiftRight, toNat_allOnes, shiftRight_eq_div_pow, hshift, hsplit]
  simpa using hdiv

theorem le_radixTreeMaxindex (index : Index) (height : ℕ) :
    index ≤ radixTreeMaxindex height ↔ index.toNat < 2 ^ (mapShift * height) := by
  have hindex : index.toNat < 2 ^ indexBits := index.isLt
  have hpos : 0 < 2 ^ min (mapShift * height) indexBits := Nat.two_pow_pos _
  rw [le_def, toNat_radixTreeMaxindex, Nat.le_sub_one_iff_lt hpos]
  rcases le_total (mapShift * height) indexBits with hle | hge
  · rw [min_eq_left hle]
  · rw [min_eq_right hge]
    exact iff_of_true hindex (hindex.trans_le (Nat.pow_le_pow_right (by decide) hge))

/-! ## The map of a tree -/

/-- The item of an index below a place at the given level. -/
def find (index : Index) : ℕ → Slot Item → Option Item
  | 0, .item value => some value
  | level + 1, .node _ _ slots _ => find index level (slots (offset index level))
  | _, _ => none

/-- The pointer that stands for the value of the map. -/
def Slot.ofOption : Option Item → Slot Item
  | none => .null
  | some value => .item value

@[simp]
theorem find_null (index : Index) (level : ℕ) : find index level (.null : Slot Item) = none := by
  cases level <;> rfl

@[simp]
theorem find_node (index : Index) (level height count : ℕ) (slots : Fin mapSize → Slot Item)
    (tags : Tags) :
    find index (level + 1) (.node height count slots tags) =
      find index level (slots (offset index level)) := rfl

theorem eq_null_of_isNull (hnull : slot.isNull = true) : slot = .null := by
  cases slot with
  | null => rfl
  | item _ | node _ _ _ _ => simp [isNull] at hnull

theorem find_of_isNull (hnull : slot.isNull = true) : find index level slot = none := by
  rw [eq_null_of_isNull hnull, find_null]

theorem find_congr (hpath : SamePath level key index) :
    find key level slot = find index level slot := by
  induction level generalizing slot with
  | zero => cases slot <;> rfl
  | succ level ih =>
    obtain ⟨hoffset, hrest⟩ := samePath_succ.mp hpath
    cases slot with
    | null | item _ => rfl
    | node _ _ slots _ =>
      rw [find_node, find_node, hoffset]
      exact ih hrest

@[simp]
theorem isNull_ofOption (found : Option Item) : (ofOption found).isNull = found.isNone := by
  cases found <;> rfl

/-! ## Well-formed trees -/

/-- The number of slots in use. -/
def used (slots : Fin mapSize → Slot Item) : ℕ :=
  (Finset.univ.filter fun place => (slots place).isNull = false).card

/-- Items are at the bottom, nodes above it; a node knows its height and the
number of its slots in use. -/
def WellFormed : ℕ → Slot Item → Prop
  | _, .null => True
  | 0, .item _ => True
  | level + 1, .node height count slots _ =>
    height = level + 1 ∧ count = used slots ∧ ∀ place, WellFormed level (slots place)
  | _, _ => False

theorem wellFormed_null (level : ℕ) : WellFormed level (.null : Slot Item) := by
  cases level <;> trivial

theorem WellFormed.induction {motive : ∀ level (slot : Slot Item), WellFormed level slot → Prop}
    (null : ∀ level, motive level .null (wellFormed_null level))
    (item : ∀ value, motive 0 (.item value) trivial) (node : ∀ level height count slots tags
      (hnode : WellFormed (level + 1) (.node height count slots tags)),
      (∀ place, motive level (slots place) (hnode.2.2 place)) → motive (level + 1) _ hnode)
    {level : ℕ} {slot : Slot Item} (hslot : WellFormed level slot) : motive level slot hslot := by
  induction level generalizing slot with
  | zero =>
    cases slot with
    | null => exact null 0
    | item value => exact item value
    | node _ _ _ _ => exact hslot.elim
  | succ level ih =>
    cases slot with
    | null => exact null (level + 1)
    | item _ => exact hslot.elim
    | node height count slots tags => exact node _ _ _ _ _ hslot fun place => ih (hslot.2.2 place)

theorem WellFormed.exists_node (hslot : WellFormed (level + 1) slot) (hnull : slot.isNull = false) :
    ∃ count slots tags, slot = .node (level + 1) count slots tags := by
  cases slot with
  | null => cases hnull
  | item _ => exact hslot.elim
  | node height count slots tags =>
    obtain ⟨rfl, _⟩ := hslot
    exact ⟨count, slots, tags, rfl⟩

theorem used_update (slots : Fin mapSize → Slot Item) (place : Fin mapSize) (child : Slot Item) :
    used (update slots place child) + (if (slots place).isNull = false then 1 else 0) =
      used slots + (if child.isNull = false then 1 else 0) := by
  have hrest : ∀ other ∈ univ.erase place,
      update slots place child other = slots other := fun other hother =>
    update_of_ne (ne_of_mem_erase hother) _ _
  have hsum := fun slots : Fin mapSize → Slot Item => (add_sum_erase univ
    (fun other => if (slots other).isNull = false then 1 else 0) (mem_univ place)).symm
  rw [used, used, card_filter, card_filter, hsum, hsum slots,
    sum_congr rfl fun other hother => by rw [hrest other hother], update_self]
  omega

theorem isNull_of_used_eq_zero (hused : used slots = 0) (place : Fin mapSize) :
    (slots place).isNull = true := by
  have hnone := filter_eq_empty_iff.mp (card_eq_zero.mp hused) (mem_univ place)
  rwa [Bool.not_eq_false] at hnone

theorem isNull_of_used_eq_one (hused : used slots = 1) {other : Fin mapSize}
    (hplace : (slots place).isNull = false) (hother : other ≠ place) :
    (slots other).isNull = true := by
  have hupdate := used_update slots place .null
  rw [if_pos hplace, hused] at hupdate
  have hzero : used (update slots place .null) = 0 := by
    simpa [isNull] using hupdate
  have hnull := isNull_of_used_eq_zero hzero other
  rwa [update_of_ne hother] at hnull

theorem wellFormed_update (hslots : ∀ place, WellFormed level (slots place))
    (hchild : WellFormed level child) (place other : Fin mapSize) :
    WellFormed level (update slots place child other) := by
  rw [update_apply]
  split_ifs
  · exact hchild
  · exact hslots other

/-- A slot is exchanged: what is found through the others stays. -/
theorem find_update (slots : Fin mapSize → Slot Item) (child : Slot Item) (tags tags' : Tags)
    (height height' count count' : ℕ) :
    find key (level + 1)
        (.node height count (update slots (offset index level) child) tags) =
      if offset key level = offset index level then find key level child
      else find key (level + 1) (.node height' count' slots tags') := by
  rw [find_node, find_node]
  by_cases hoffset : offset key level = offset index level
  · rw [if_pos hoffset, hoffset, update_self]
  · rw [if_neg hoffset, update_of_ne hoffset]

/-! ## Lookup -/

theorem lookupFrom_eq (hslot : WellFormed level slot) :
    lookupFrom index level slot = some (.ofOption (find index level slot)) := by
  induction hslot using WellFormed.induction with
  | null level => cases level <;> rfl
  | item => rfl
  | node _ _ _ _ _ _ ih =>
    rw [lookupFrom, find_node]
    exact ih _

/-! ## Insertion -/

theorem wellFormed_newNode (level : ℕ) :
    WellFormed (level + 1) (newNode (level + 1) : Slot Item) := by
  refine ⟨rfl, ?_, fun _ => wellFormed_null level⟩
  simp [used, isNull]

/-- A child that is linked to a node is counted, and never lost. -/
theorem wellFormed_link (hnode : WellFormed (level + 1) (.node height count slots tags))
    (hchild : WellFormed level child) (hgrows : child.isNull = true → (slots place).isNull = true) :
    WellFormed (level + 1) ((node height count slots tags).link place child) := by
  obtain ⟨hheight, hcount, hslots⟩ := hnode
  refine ⟨hheight, ?_, wellFormed_update hslots hchild place⟩
  have hupdate := used_update slots place child
  cases hold : (slots place).isNull with
  | true =>
    cases hnew : child.isNull with
    | true | false =>
      rw [hold, hnew] at hupdate
      simpa [hcount] using hupdate.symm
  | false =>
    cases hnew : child.isNull with
    | true => exact absurd (hgrows hnew) (by simp [hold])
    | false =>
      rw [hold, hnew] at hupdate
      simpa [hcount] using hupdate.symm

/-- What an insertion below a place has done. -/
structure Inserted (index : Index) (value : Item) (level : ℕ) (slot : Slot Item)
    (status : Status) (slot' : Slot Item) : Prop where
  wellFormed : WellFormed level slot'
  grows : slot'.isNull = true → slot.isNull = true
  eexist_iff : status = .eexist ↔ find index level slot ≠ none
  stored : status = .ok → ∀ key, SamePath level key index → find key level slot' = some value
  kept : ∀ key, status ≠ .ok ∨ ¬ SamePath level key index →
    find key level slot' = find key level slot

theorem Inserted.link {value : Item} {status : Status}
    (hinserted : Inserted index value level (slots (offset index level)) status child')
    (hnode : WellFormed (level + 1) (.node height count slots tags)) :
    Inserted index value (level + 1) (.node height count slots tags) status
      ((node height count slots tags).link (offset index level) child') := by
  refine ⟨wellFormed_link hnode hinserted.wellFormed hinserted.grows, by simp [Slot.link,
    isNull], hinserted.eexist_iff, ?_, ?_⟩
  · intro hok key hpath
    obtain ⟨hoffset, hrest⟩ := samePath_succ.mp hpath
    rw [Slot.link, find_node, hoffset, update_self]
    exact hinserted.stored hok key hrest
  intro key hkey
  rw [Slot.link, find_update slots child' tags tags height height _ count]
  split
  · rename_i hoffset
    rw [find_node, hoffset]
    apply hinserted.kept
    rw [samePath_succ] at hkey
    tauto
  · rfl

/-! ## Tags -/

/-- A change that the map does not see. -/
structure Retagged (level : ℕ) (slot slot' : Slot Item) : Prop where
  wellFormed : WellFormed level slot'
  isNull : slot'.isNull = slot.isNull
  find : ∀ key, find key level slot' = find key level slot

theorem Retagged.node (hretagged : Retagged level (slots (offset index level)) child')
    (hnode : WellFormed (level + 1) (.node height count slots tags)) (tags' : Tags) :
    Retagged (level + 1) (.node height count slots tags)
      (.node height count (update slots (offset index level) child') tags') := by
  obtain ⟨hheight, hcount, hslots⟩ := hnode
  refine ⟨⟨hheight, ?_, wellFormed_update hslots hretagged.wellFormed _⟩, rfl, fun key => ?_⟩
  · have hupdate := used_update slots (offset index level) child'
    rw [hretagged.isNull, Nat.add_right_cancel_iff] at hupdate
    rw [hupdate, hcount]
  rw [find_update slots child' tags' tags height height count count]
  split
  · rename_i hoffset
    rw [find_node, hoffset]
    exact hretagged.find key
  · rfl

/-! ## Deletion -/

/-- What a deletion below a place has done. -/
structure Deleted (index : Index) (level : ℕ) (slot found slot' : Slot Item) : Prop where
  wellFormed : WellFormed level slot'
  found_eq : found = .ofOption (find index level slot)
  removed : ∀ key, SamePath level key index → find key level slot' = none
  kept : ∀ key, ¬ SamePath level key index → find key level slot' = find key level slot

theorem Deleted.of_none (hslot : WellFormed level slot) (hnone : find index level slot = none) :
    Deleted index level slot .null slot := by
  refine ⟨hslot, by rw [hnone]; rfl, fun key hpath => ?_, fun _ _ => rfl⟩
  rw [find_congr hpath]
  exact hnone

theorem Deleted.in_use {slot' : Slot Item}
    (hdeleted : Deleted index level slot found slot') (hfound : found.isNull = false) :
    slot.isNull = false := by
  rw [Bool.eq_false_iff]
  intro hempty
  rw [hdeleted.found_eq, find_of_isNull hempty] at hfound
  simp [ofOption, isNull] at hfound

/-- The number of slots in use once the slot of the path has become empty. -/
theorem used_of_emptied (hold : (slots place).isNull = false) (hchild : child.isNull = true) :
    used (update slots place child) = used slots - 1 := by
  have hupdate := used_update slots place child
  rw [hold, hchild] at hupdate
  simp only [if_true, Bool.true_eq_false, if_false, add_zero] at hupdate
  omega

/-- The path through a node, with the slot of the path exchanged. -/
theorem Deleted.node {count' : ℕ}
    (hdeleted : Deleted index level (slots (offset index level)) found child')
    (hnode : WellFormed (level + 1) (.node height count slots tags))
    (hcount : count' = used (update slots (offset index level) child')) :
    Deleted index (level + 1) (.node height count slots tags) found
      (.node height count' (update slots (offset index level) child') tags) := by
  obtain ⟨hheight, _, hslots⟩ := hnode
  refine ⟨⟨hheight, hcount, wellFormed_update hslots hdeleted.wellFormed _⟩,
    hdeleted.found_eq, ?_, ?_⟩
  · intro key hpath
    obtain ⟨hoffset, hrest⟩ := samePath_succ.mp hpath
    rw [find_node, hoffset, update_self]
    exact hdeleted.removed key hrest
  intro key hpath
  rw [find_update slots child' tags tags height height _ count]
  split
  · rename_i hoffset
    rw [find_node, hoffset]
    apply hdeleted.kept
    rw [samePath_succ] at hpath
    tauto
  · rfl

theorem Deleted.free
    (hdeleted : Deleted index (level + 1) slot found (.node height count slots tags))
    (hused : used slots = 0) : Deleted index (level + 1) slot found .null := by
  have hnone : ∀ key, find key (level + 1) (.node height count slots tags) = none := by
    intro key
    rw [find_node]
    exact find_of_isNull (isNull_of_used_eq_zero hused (offset key level))
  refine ⟨trivial, hdeleted.found_eq, fun key _ => find_null key _, fun key hpath => ?_⟩
  rw [← hdeleted.kept key hpath, hnone, find_null]

theorem deleteFrom_null : deleteFrom index level (.null : Slot Item) = some (.null, .null) := by
  cases level <;> rfl

end KernelM5040.RadixTree
