import KernelM5040.Core.Ascending
import KernelM5040.Lib.RadixTreeRuns

/-!
# Gang lookup

A search goes through the indices in ascending order, block by block.  It stops
at the end of a node of the bottom level, or where a node has nothing more, and
the loop around it goes on from there; the index zero stands for the end of all
indices.
-/

namespace KernelM5040.RadixTree

open Option Slot List Digits Machine Ascending Nat Bool

variable {Item : Type*} {index key next first : Index} {tag : Fin maxTags}
  {level height count maxItems : ℕ}
  {slots : Fin mapSize → Slot Item} {tags : Tags} {slot : Slot Item}
  {above : Fin maxTags → Bool} {test test : Fin mapSize → Bool} {items items : Index → Option Item}
  {root : Root Item} {found : List (Slot Item)}

/-! ## Blocks of indices -/

/-- The number of indices below a place. -/
def capacity (level : ℕ) : ℕ := 2 ^ (mapShift * level)

/-- The block of indices that an index belongs to at a level. -/
def blockOf (level : ℕ) (index : Index) : ℕ := index.toNat / capacity level

theorem capacity_pos (level : ℕ) : 0 < capacity level := Nat.two_pow_pos _

theorem capacity_succ (level : ℕ) : capacity (level + 1) = capacity level * mapSize := by
  rw [capacity, capacity, mul_succ, pow_add]

theorem blockOf_succ (level : ℕ) (index : Index) :
    blockOf (level + 1) index = blockOf level index / mapSize := by
  rw [blockOf, blockOf, capacity_succ, Nat.div_div_eq_div_mul]

theorem offset_eq_mod (index : Index) (level : ℕ) :
    (offset index level).val = blockOf level index % mapSize := offset_val index level

theorem blockOf_eq_iff {block : ℕ} : blockOf level index = block ↔
    block * capacity level ≤ index.toNat ∧ index.toNat < (block + 1) * capacity level := by
  rw [blockOf, Nat.div_eq_iff (capacity_pos level), succ_mul]
  have := capacity_pos level
  omega

theorem offset_of_block (hblock : blockOf level key = blockOf level index) :
    offset key level = offset index level := by
  rw [Fin.ext_iff, offset_eq_mod, offset_eq_mod, hblock]

/-- A block below the top ends at the end of all indices at the latest. -/
theorem block_end_le (hlevel : level < maxPath) (index : Index) :
    (blockOf level index + 1) * capacity level ≤ 2 ^ indexBits := by
  have hfits : mapShift * level ≤ indexBits := by
    have : maxPath = 11 := rfl
    change 6 * level ≤ 64
    omega
  have hsplit : 2 ^ indexBits = 2 ^ (indexBits - mapShift * level) * capacity level := by
    rw [capacity, ← pow_add, Nat.sub_add_cancel hfits]
  rw [hsplit]
  apply Nat.mul_le_mul_right
  rw [blockOf, succ_le_iff, Nat.div_lt_iff_lt_mul (capacity_pos level), ← hsplit]
  exact index.isLt

/-- Where a search goes on. -/
def position (next : Index) : ℕ := if next = 0 then 2 ^ indexBits else next.toNat

theorem position_of_ne (hnext : index ≠ 0) : position index = index.toNat := if_neg hnext

theorem position_le (next : Index) : position next ≤ 2 ^ indexBits := by
  rw [position]
  split
  · exact le_rfl
  · exact next.isLt.le

theorem position_of_toNat {target : ℕ} (hpos : 0 < target) (hle : target ≤ 2 ^ indexBits)
    (hindex : index.toNat = target % 2 ^ indexBits) : position index = target := by
  rw [position]
  rcases Nat.lt_or_eq_of_le hle with hlt | rfl
  · rw [mod_eq_of_lt hlt] at hindex
    rw [if_neg, hindex]
    intro hzero
    rw [hzero] at hindex
    exact hpos.ne hindex
  · rw [mod_self] at hindex
    rw [if_pos]
    exact BitVec.eq_of_toNat_eq hindex

theorem position_nextBlock (hlevel : level < maxPath) (index : Index) :
    position (nextBlock level index) = (blockOf level index + 1) * capacity level := by
  have hshift : level * mapShift < indexBits := by
    have : maxPath = 11 := rfl
    change level * 6 < 64
    omega
  have hpos := capacity_pos level
  have hend := block_end_le hlevel index
  apply position_of_toNat (Nat.mul_pos (succ_pos _) hpos) hend
  rw [nextBlock]
  rw [BitVec.toNat_add, toNat_and_not_mask hshift, toNat_one_shiftLeft hshift,
    succ_mul, blockOf, capacity, mul_comm mapShift level]

/-! ## The slots of a node -/

theorem placesFrom_eq_cons (place : Fin mapSize) :
    placesFrom place = place :: (finRange mapSize).drop (place + 1) := by
  rw [placesFrom, drop_eq_getElem_cons (by simp), getElem_finRange]
  rfl

theorem blockOf_of_position (hindex : key.toNat = (blockOf level index + 1) * capacity level) :
    blockOf level key = blockOf level index + 1 := by
  rw [blockOf_eq_iff, hindex]
  exact ⟨le_rfl, Nat.mul_lt_mul_of_pos_right (lt_succ_self _) (capacity_pos level)⟩

theorem succ_block (block : ℕ) :
    block % mapSize + 1 = mapSize ∧ (block + 1) / mapSize = block / mapSize + 1 ∨
      (block + 1) % mapSize = block % mapSize + 1 ∧ (block + 1) / mapSize = block / mapSize := by
  change block % 64 + 1 = 64 ∧ (block + 1) / 64 = block / 64 + 1 ∨
    (block + 1) % 64 = block % 64 + 1 ∧ (block + 1) / 64 = block / 64
  omega

/-- The slots behind the slot of an index are those of the next block, if this
is still in the same node. -/
theorem drop_offset (hkey : blockOf level key = blockOf level index + 1) :
    (finRange mapSize).drop (offset index level + 1) = [] ∧
        blockOf (level + 1) key = blockOf (level + 1) index + 1 ∨
      (finRange mapSize).drop (offset index level + 1) = placesFrom (offset key level) ∧
        blockOf (level + 1) key = blockOf (level + 1) index := by
  rw [blockOf_succ, blockOf_succ, placesFrom, offset_eq_mod, offset_eq_mod, hkey]
  rcases succ_block (blockOf level index) with ⟨hlast, hdiv⟩ | ⟨hmod, hdiv⟩
  · left
    rw [hlast]
    exact ⟨drop_eq_nil_of_le (length_finRange).le, hdiv⟩
  · right
    rw [hmod]
    exact ⟨rfl, hdiv⟩

/-- What the loop over the slots of a node has found. -/
structure Scanned (test : Fin mapSize → Bool) (level : ℕ) (index : Index) (next : ℕ) : Prop where
  ge : index.toNat ≤ next
  skipped : ∀ key : Index, index ≤ key → key.toNat < next → test (offset key level) = false

theorem Scanned.of_block (htest : test (offset index level) = false) {next : ℕ}
    (hge : index.toNat ≤ next) (hnext : next ≤ (blockOf level index + 1) * capacity level) :
    Scanned test level index next := by
  refine ⟨hge, fun key hkey hlt => ?_⟩
  have hblock : blockOf level key = blockOf level index := by
    rw [blockOf_eq_iff]
    exact ⟨(div_mul_le_self _ _).trans hkey, hlt.trans_le hnext⟩
  rw [offset_of_block hblock]
  exact htest

theorem Scanned.trans {middle : Index} {next : ℕ} (hfirst : Scanned test level index middle.toNat)
    (hsecond : Scanned test level middle next) : Scanned test level index next := by
  refine ⟨hfirst.ge.trans hsecond.ge, fun key hkey hlt => ?_⟩
  rcases lt_or_ge key.toNat middle.toNat with hbefore | hafter
  · exact hfirst.skipped key hkey hbefore
  · exact hsecond.skipped key hafter hlt

theorem lt_block_end (level : ℕ) (index : Index) :
    index.toNat < (blockOf level index + 1) * capacity level :=
  (blockOf_eq_iff.mp rfl).2

/-- The end of a block is not behind the end of the node's block. -/
theorem block_end_mono (level : ℕ) (index : Index) :
    (blockOf level index + 1) * capacity level ≤
      (blockOf (level + 1) index + 1) * capacity (level + 1) := by
  rw [blockOf_succ, capacity_succ, mul_comm (capacity level), ← mul_assoc]
  apply Nat.mul_le_mul_right
  rw [succ_le_iff]
  exact lt_mul_of_div_lt (lt_succ_self _) (by decide)

theorem scanSlots_spec (test : Fin mapSize → Bool) (hlevel : level < maxPath) (index : Index) :
    (∃ next, scanSlots test level (placesFrom (offset index level)) index = (next, none) ∧
        index.toNat < position next ∧
        position next ≤ (blockOf (level + 1) index + 1) * capacity (level + 1) ∧
        Scanned test level index (position next)) ∨
      ∃ next, scanSlots test level (placesFrom (offset index level)) index =
          (next, some (offset next level)) ∧
        test (offset next level) = true ∧
        blockOf (level + 1) next = blockOf (level + 1) index ∧
        Scanned test level index next.toNat := by
  generalize hplaces : placesFrom (offset index level) = places
  induction places generalizing index with
  | nil =>
    rw [placesFrom_eq_cons] at hplaces
    simp at hplaces
  | cons place rest ih =>
    rw [placesFrom_eq_cons, List.cons.injEq] at hplaces
    obtain ⟨rfl, hrest⟩ := hplaces
    have hlt := lt_block_end level index
    have hposition := position_nextBlock hlevel index
    rw [scanSlots]
    by_cases htest : test (offset index level) = true
    · right
      exact ⟨index, if_pos htest, htest, rfl, le_rfl,
        fun key hkey hlt => absurd hlt (not_lt.mpr hkey)⟩
    rw [if_neg htest]
    rw [not_eq_true] at htest
    have hstop : index.toNat < position (nextBlock level index) ∧
        position (nextBlock level index) ≤ (blockOf (level + 1) index + 1) * capacity (level + 1) ∧
        Scanned test level index (position (nextBlock level index)) := by
      rw [hposition]
      exact ⟨hlt, block_end_mono level index, .of_block htest hlt.le le_rfl⟩
    by_cases hzero : nextBlock level index = 0
    · left
      rw [hzero] at hstop
      exact ⟨0, if_pos hzero, hstop⟩
    rw [if_neg hzero]
    have hskip := hstop.2.2
    rw [position_of_ne hzero] at hposition hskip
    have hblock := blockOf_of_position hposition
    rcases drop_offset hblock with ⟨hnil, hupper⟩ | ⟨hcons, hupper⟩
    · left
      rw [hrest] at hnil
      rw [hnil]
      exact ⟨nextBlock level index, rfl, hstop⟩
    rw [hrest] at hcons
    rcases ih (nextBlock level index) hcons.symm with
      ⟨next, heq, hgt, hle, hscanned⟩ | ⟨next, heq, htrue, hsame, hscanned⟩
    · left
      rw [hupper] at hle
      exact ⟨next, heq, hskip.ge.trans_lt hgt, hle, hskip.trans hscanned⟩
    · right
      exact ⟨next, heq, htrue, hsame.trans hupper, hskip.trans hscanned⟩

/-! ## One search -/

/-- The values of a map by number. -/
def numbered (items : Index → Option Item) (number : ℕ) : Option Item :=
  items (BitVec.ofNat indexBits number)

/-- A search from an index has found the first items and says where it goes on. -/
structure Searched (items : Index → Option Item) (maxItems level : ℕ) (index : Index)
    (found : List (Slot Item)) (next : Index) : Prop where
  found_eq : found.filterMap Slot.toOption =
    (collect (numbered items) index.toNat (position next)).take maxItems
  gt : index.toNat < position next
  le : position next ≤ (blockOf level index + 1) * capacity level

theorem toNat_ofNat_of_lt {number : ℕ} (hlt : number < 2 ^ indexBits) :
    (BitVec.ofNat indexBits number).toNat = number := by
  rw [BitVec.toNat_ofNat, mod_eq_of_lt hlt]

theorem Scanned.collect_eq_nil {next : ℕ}
    (hscanned : Scanned test level index next) (hnext : next ≤ 2 ^ indexBits)
    (hitems : ∀ key, test (offset key level) = false → items key = none) :
    collect (numbered items) index.toNat next = [] := by
  refine Ascending.collect_eq_nil fun number hge hlt => ?_
  have hnumber := toNat_ofNat_of_lt (hlt.trans_le hnext)
  apply hitems
  apply hscanned.skipped
  · rw [BitVec.le_def, hnumber]
    exact hge
  · rw [hnumber]
    exact hlt

theorem Searched.congr {items' : Index → Option Item}
    (hsearched : Searched items maxItems level index found next)
    (hsame : ∀ key, blockOf level key = blockOf level index → items key = items' key) :
    Searched items' maxItems level index found next := by
  obtain ⟨hfound, hgt, hle⟩ := hsearched
  refine ⟨hfound.trans (congrArg _ (collect_congr fun number hge hlt => ?_)), hgt, hle⟩
  have hnumber := toNat_ofNat_of_lt (hlt.trans_le (position_le next))
  refine hsame _ (blockOf_eq_iff.mpr ?_)
  rw [hnumber]
  exact ⟨(div_mul_le_self _ _).trans hge, hlt.trans_le hle⟩

theorem Scanned.searched (hscanned : Scanned test level index (position next))
    (hitems : ∀ key, test (offset key level) = false → items key = none) (maxItems : ℕ)
    (hgt : index.toNat < position next)
    (hle : position next ≤ (blockOf (level + 1) index + 1) * capacity (level + 1)) :
    Searched items maxItems (level + 1) index [] next := by
  refine ⟨?_, hgt, hle⟩
  rw [hscanned.collect_eq_nil (position_le next) hitems, take_nil, filterMap_nil]

/-- A search behind a slot of a node is a search in the node: the slots before it have
nothing, and the search stays in the block. -/
theorem Searched.node {middle : Index}
    (hsearched : Searched items maxItems (level + 1) middle found next)
    (hscanned : Scanned test level index middle.toNat)
    (hblock : blockOf (level + 1) middle = blockOf (level + 1) index)
    (hitems : ∀ key, test (offset key level) = false → items key = none) :
    Searched items maxItems (level + 1) index found next := by
  obtain ⟨hfound, hgt, hle⟩ := hsearched
  refine ⟨?_, hscanned.ge.trans_lt hgt, hblock ▸ hle⟩
  rw [hfound, ← collect_append hscanned.ge hgt.le,
    hscanned.collect_eq_nil middle.isLt.le hitems, nil_append]

theorem Searched.up (hsearched : Searched items maxItems level index found next) :
    Searched items maxItems (level + 1) index found next :=
  ⟨hsearched.found_eq, hsearched.gt, hsearched.le.trans (block_end_mono level index)⟩

/-- What a node of the bottom level holds, as far as the test allows. -/
def bottomItem (test : Fin mapSize → Bool) (slots : Fin mapSize → Slot Item) (key : Index) :
    Option Item :=
  if test (offset key 0) then (slots (offset key 0)).toOption else none

theorem position_succ (index : Index) : position (index + 1) = index.toNat + 1 := by
  refine position_of_toNat (succ_pos _) index.isLt ?_
  rw [BitVec.toNat_add]
  rfl

theorem blockOf_zero (index : Index) : blockOf 0 index = index.toNat := by
  rw [blockOf, capacity, mul_zero, pow_zero, Nat.div_one]

theorem drop_bottom (index : Index) :
    (finRange mapSize).drop (offset index 0 + 1) = [] ∨
      (finRange mapSize).drop (offset index 0 + 1) = placesFrom (offset (index + 1) 0) ∧
        (index + 1).toNat = index.toNat + 1 ∧ blockOf 1 (index + 1) = blockOf 1 index := by
  rcases succ_block (blockOf 0 index) with ⟨hlast, _⟩ | ⟨hmod, _⟩
  · left
    rw [offset_eq_mod, hlast]
    exact drop_eq_nil_of_le (length_finRange).le
  have hnext : (index + 1).toNat = index.toNat + 1 := by
    rw [← position_succ, position_of_ne]
    intro hzero
    have hwrap := position_succ index
    rw [hzero, position, if_pos rfl] at hwrap
    rw [blockOf_zero, ← hwrap] at hmod
    simp at hmod
  have hblock : blockOf 0 (index + 1) = blockOf 0 index + 1 := by
    rw [blockOf_zero, blockOf_zero, hnext]
  rcases drop_offset hblock with ⟨hnil, _⟩ | ⟨hcons, hupper⟩
  · exact Or.inl hnil
  · exact Or.inr ⟨hcons, hnext, hupper⟩

section

variable (items : Index → Option Item) (limit : ℕ) (index : Index)

/-- What a search in a node of the bottom level finds behind an index. -/
structure Behind (found : List (Slot Item)) (next : Index) : Prop where
  found_eq : found.filterMap toOption =
    (collect (numbered items) (index.toNat + 1) (position next)).take limit
  gt : index.toNat < position next
  le : position next ≤ (blockOf 1 index + 1) * capacity 1

theorem behind_succ : Behind items limit index [] (index + 1) := by
  constructor <;> rw [position_succ]
  · rw [collect_self, take_nil, filterMap_nil]
  · exact lt_succ_self _
  · exact lt_block_end 1 index

end

theorem Searched.cons {maxItems : ℕ} {first found : List (Slot Item)} {next : Index}
    (hfirst : first.filterMap toOption = (items index).toList)
    (hlength : (items index).toList.length ≤ maxItems)
    (hbehind : Behind items (maxItems - (items index).toList.length) index found next) :
    Searched items maxItems 1 index (first ++ found) next := by
  obtain ⟨hfound, hgt, hle⟩ := hbehind
  refine ⟨?_, hgt, hle⟩
  have hnumber : numbered items index.toNat = items index := by
    rw [numbered, BitVec.ofNat_toNat, BitVec.setWidth_eq]
  rw [filterMap_append, hfirst, hfound, collect_succ hgt, hnumber, take_append,
    take_of_length_le hlength]

theorem grabItems_spec {maxItems : ℕ}
    (hslots : ∀ place, WellFormed 0 (slots place)) (results : List (Slot Item)) (index : Index)
    (hlength : results.length < maxItems) :
    ∃ found next, grabItems test slots maxItems (placesFrom (offset index 0)) results index =
        (results ++ found, next) ∧
      Searched (bottomItem test slots) (maxItems - results.length) 1 index found next := by
  generalize hplaces : placesFrom (offset index 0) = places
  induction places generalizing index results with
  | nil =>
    rw [placesFrom_eq_cons] at hplaces
    simp at hplaces
  | cons place rest ih =>
    rw [placesFrom_eq_cons, List.cons.injEq] at hplaces
    obtain ⟨rfl, hrest⟩ := hplaces
    -- the loop goes on with the next slot, or leaves the node
    have hcontinue : ∀ results : List (Slot Item), results.length < maxItems → ∃ found next,
        grabItems test slots maxItems rest results (index + 1) = (results ++ found, next) ∧
        Behind (bottomItem test slots) (maxItems - results.length) index found next := by
      intro results hlength
      rcases drop_bottom index with hnil | ⟨hcons, hnext, hblock⟩
      · rw [hrest] at hnil
        rw [hnil]
        exact ⟨[], index + 1, by rw [grabItems, append_nil], behind_succ _ _ index⟩
      · rw [hrest] at hcons
        obtain ⟨found, next, heq, hfound, hgt, hle⟩ := ih results (index + 1) hlength hcons.symm
        rw [hnext] at hfound hgt
        rw [hblock] at hle
        exact ⟨found, next, heq, hfound, by omega, hle⟩
    rw [grabItems]
    by_cases hgrab : (test (offset index 0) && !(slots (offset index 0)).isNull) = true
    · rw [if_pos hgrab]
      rw [and_eq_true] at hgrab
      obtain ⟨value, hvalue⟩ : ∃ value, slots (offset index 0) = .item value := by
        have hslot := hslots (offset index 0)
        cases hcase : slots (offset index 0) with
        | null => simp [hcase, isNull] at hgrab
        | item value => exact ⟨value, rfl⟩
        | node _ _ _ _ => rw [hcase] at hslot; exact hslot.elim
      have hitem : bottomItem test slots index = some value := by
        rw [bottomItem, if_pos hgrab.1, hvalue, toOption]
      have hfirst : [slots (offset index 0)].filterMap toOption =
          (bottomItem test slots index).toList := by
        rw [hitem, hvalue]
        rfl
      by_cases hfull : results.length + 1 = maxItems
      · rw [if_pos hfull]
        refine ⟨[slots (offset index 0)], index + 1, rfl, ?_⟩
        refine Searched.cons hfirst ?_ (behind_succ _ _ index)
        rw [hitem, toList_some, length_singleton]
        omega
      rw [if_neg hfull]
      obtain ⟨found, next, heq, hbehind⟩ :=
        hcontinue (results ++ [slots (offset index 0)]) (by
          rw [length_append, length_singleton]
          omega)
      rw [length_append, length_singleton, ← Nat.sub_sub] at hbehind
      refine ⟨[slots (offset index 0)] ++ found, next, by rw [heq, append_assoc], ?_⟩
      refine Searched.cons hfirst ?_ ?_ <;> rw [hitem, toList_some, length_singleton]
      · omega
      · exact hbehind
    · rw [if_neg hgrab]
      obtain ⟨found, next, heq, hbehind⟩ := hcontinue results hlength
      have hitem : bottomItem test slots index = none := by
        rw [bottomItem]
        split
        · rename_i htest
          have hnull : (slots (offset index 0)).isNull = true := by simpa [htest] using hgrab
          rw [eq_null_of_isNull hnull]
          rfl
        · rfl
      refine ⟨found, next, heq, ?_⟩
      refine @Searched.cons _ index _ _ [] found _ ?_ ?_ ?_ <;> rw [hitem]
      · rfl
      · exact Nat.zero_le _
      · exact hbehind

/-- A search goes on below the slot that the loop over a node has found. -/
theorem descend_spec
    {search : Fin mapSize → Index → Option (List (Slot Item) × Index)} (hlevel : level < maxPath)
    (index : Index) (hempty : ∀ key, test (offset key level) = false → items key = none)
    (hsearch : ∀ middle, test (offset middle level) = true → ∃ found next,
      search (offset middle level) middle = some (found, next) ∧
      Searched items maxItems level middle found next) :
    ∃ found next, (match scanSlots test level (placesFrom (offset index level)) index with
        | (index, none) => some ([], index)
        | (index, some place) => search place index) = some (found, next) ∧
      Searched items maxItems (level + 1) index found next := by
  rcases scanSlots_spec test hlevel index with
    ⟨next, heq, hgt, hle, hscanned⟩ | ⟨middle, heq, htest, hblock, hscanned⟩
  · rw [heq]
    exact ⟨[], next, rfl, hscanned.searched hempty maxItems hgt hle⟩
  · obtain ⟨found, next, hfound, hsearched⟩ := hsearch middle htest
    rw [heq]
    exact ⟨found, next, hfound, hsearched.up.node hscanned hblock hempty⟩

theorem find_bottom (key : Index) (slot : Slot Item) : find key 0 slot = slot.toOption := by
  cases slot <;> rfl

theorem lookup_spec (hmax : 0 < maxItems) (hlevel : level < maxPath)
    (hslot : WellFormed (level + 1) slot) (hnull : slot.isNull = false) (index : Index) :
    ∃ found next, lookup maxItems (level + 1) slot index = some (found, next) ∧
      Searched (fun key => find key (level + 1) slot) maxItems (level + 1) index found next := by
  induction level generalizing slot index with
  | zero =>
    obtain ⟨count, slots, tags, rfl⟩ := hslot.exists_node hnull
    obtain ⟨found, next, heq, hsearched⟩ :=
      @grabItems_spec _ slots (fun _ => true) maxItems hslot.2.2 [] index hmax
    have hitems : bottomItem (fun _ => true) slots =
        fun key => find key 1 (.node 1 count slots tags) := by
      funext key
      rw [find_node, find_bottom]
      rfl
    rw [hitems] at hsearched
    exact ⟨found, next, congrArg some heq, hsearched⟩
  | succ level ih =>
    obtain ⟨count, slots, tags, rfl⟩ := hslot.exists_node hnull
    refine descend_spec hlevel index (fun key hkey => ?_) fun middle hused => ?_
    · rw [find_node]
      exact find_of_isNull (by simpa using hkey)
    obtain ⟨found, next, hlookup, hsearched⟩ := ih (by omega)
      (hslot.2.2 (offset middle (level + 1))) (by simpa using hused) middle
    refine ⟨found, next, hlookup, hsearched.congr fun key hkey => ?_⟩
    rw [find_node, offset_of_block hkey]

theorem carries_of_untagged (hok : TagsOk level slot above) (htag : above tag = false)
    (key : Index) : carries key tag level slot above = false := by
  induction level generalizing slot above with
  | zero => exact htag
  | succ level ih =>
    cases slot with
    | null | item _ => rfl
    | node height count slots tags =>
      obtain ⟨hunion, _, hslots⟩ := tagsOk_node.mp hok
      refine ih (hslots (offset key level)) ?_
      rw [eq_false_iff]
      intro hset
      have habove := (hunion tag).mpr ⟨_, hset⟩
      rw [htag] at habove
      simp at habove

/-- The item at an index, if it has a tag. -/
def findTagged (key : Index) (tag : Fin maxTags) (level : ℕ) (slot : Slot Item)
    (above : Fin maxTags → Bool) : Option Item :=
  if carries key tag level slot above then find key level slot else none

theorem findTagged_node (key : Index) (tag : Fin maxTags) :
    findTagged key tag (level + 1) (.node height count slots tags) above =
      findTagged key tag level (slots (offset key level)) fun tag => tags tag (offset key level) :=
  rfl

theorem findTagged_of_untagged (hok : TagsOk (level + 1) (.node height count slots tags) above)
    (htag : tagGet tags tag (offset key level) = false) :
    findTagged key tag (level + 1) (.node height count slots tags) above = none := by
  rw [findTagged_node, findTagged, carries_of_untagged (hok.2.2 _) htag]
  rfl

theorem lookupTag_spec {maxItems : ℕ} (hmax : 0 < maxItems) (hlevel : level < maxPath)
    (hslot : WellFormed (level + 1) slot) (hok : TagsOk (level + 1) slot above)
    (hnull : slot.isNull = false) (index : Index) :
    ∃ found next, lookupTag tag maxItems (level + 1) slot index = some (found, next) ∧
      Searched (fun key => findTagged key tag (level + 1) slot above) maxItems (level + 1) index
        found next := by
  induction level generalizing slot above index with
  | zero =>
    obtain ⟨count, slots, tags, rfl⟩ := hslot.exists_node hnull
    have hitems : bottomItem (tagGet tags tag) slots =
        fun key => findTagged key tag 1 (.node 1 count slots tags) above := by
      funext key
      rw [findTagged_node, findTagged, find_bottom]
      rfl
    rw [lookupTag]
    rcases scanSlots_spec (tagGet tags tag) hlevel index with
      ⟨next, heq, hgt, hle, hscanned⟩ | ⟨middle, heq, _, hblock, hscanned⟩
    · rw [heq]
      exact ⟨[], next, rfl, hscanned.searched (fun key => findTagged_of_untagged hok)
        maxItems hgt hle⟩
    rw [heq]
    obtain ⟨found, next, hgrab, hsearched⟩ :=
      @grabItems_spec _ slots (tagGet tags tag) maxItems hslot.2.2 [] middle hmax
    rw [hitems] at hsearched
    exact ⟨found, next, congrArg some hgrab,
      hsearched.node hscanned hblock fun key => findTagged_of_untagged hok⟩
  | succ level ih =>
    obtain ⟨count, slots, tags, rfl⟩ := hslot.exists_node hnull
    refine descend_spec hlevel index (fun key => findTagged_of_untagged hok) fun middle hset => ?_
    have hplace := hok.2.2 (offset middle (level + 1))
    -- a tagged slot is in use
    have hused : (slots (offset middle (level + 1))).isNull = false := by
      rw [eq_false_iff]
      intro hempty
      rw [eq_null_of_isNull hempty, tagsOk_null] at hplace
      rw [tagGet, hplace tag] at hset
      simp at hset
    obtain ⟨found, next, hlookup, hsearched⟩ := ih (by omega)
      (hslot.2.2 (offset middle (level + 1))) hplace hused middle
    refine ⟨found, next, hlookup, hsearched.congr fun key hkey => ?_⟩
    rw [findTagged_node, offset_of_block hkey]

/-! ## The loop -/

/-- The items of a map from an index on, in ascending order of the indices. -/
def itemsFrom (items : Index → Option Item) (first : Index) : List Item :=
  collect (numbered items) first.toNat (2 ^ indexBits)

/-- The results of the loop are the first items up to the current index. -/
structure GangOk (items : Index → Option Item) (first : Index) (maxItems : ℕ) (gang : Gang Item) :
    Prop where
  results : gang.results = (collect (numbered items) first.toNat gang.curIndex.toNat).take maxItems
  ge : first.toNat ≤ gang.curIndex.toNat

theorem GangOk.searched {gang : Gang Item} (hgang : GangOk items first maxItems gang)
    (hlength : gang.results.length < maxItems)
    (hsearched : Searched items (maxItems - gang.results.length) height gang.curIndex found next) :
    gang.results ++ found.filterMap toOption =
      (collect (numbered items) first.toNat (position next)).take maxItems := by
  obtain ⟨hresults, hge⟩ := hgang
  rw [hresults] at hlength
  rw [hsearched.found_eq, hresults]
  exact take_collect_append hge hsearched.gt.le hlength

theorem gang_spec {search : ℕ → Index → Option (List (Slot Item) × Index)} {maxIndex : Index}
    (maxItems : ℕ) (first : Index) (hsearch : ∀ maxItems index, 0 < maxItems → index ≤ maxIndex →
      ∃ found next, search maxItems index = some (found, next) ∧ Searched items maxItems height
      index found next) (hbeyond : ∀ key, key > maxIndex → items key = none) :
    ∃ rounds, ∀ more, rounds ≤ more → runFor (gangStep search maxIndex maxItems) more ⟨[], first⟩ =
      .exit (some ((itemsFrom items first).take maxItems)) := by
  have hnext : ∀ gang gang', GangOk items first maxItems gang →
      (gangStep search maxIndex maxItems gang).control = .next gang' →
        GangOk items first maxItems gang' ∧
          2 ^ indexBits - gang'.curIndex.toNat < 2 ^ indexBits - gang.curIndex.toNat := by
    intro gang gang' hgang hcontrol
    rw [gangStep] at hcontrol
    split_ifs at hcontrol with hlength hbig
    obtain ⟨found, next, heq, hsearched⟩ := hsearch (maxItems - gang.results.length)
      gang.curIndex (by omega) (BitVec.not_lt.mp hbig)
    rw [heq] at hcontrol
    dsimp only at hcontrol
    split_ifs at hcontrol with hzero
    obtain rfl := Control.next.inj hcontrol
    have hgt := hsearched.gt
    have hresults := hgang.searched hlength hsearched
    rw [position_of_ne hzero] at hresults hgt
    exact ⟨⟨hresults, hgang.ge.trans hgt.le⟩, Nat.sub_lt_sub_left gang.curIndex.isLt hgt⟩
  have hexit : ∀ gang result, GangOk items first maxItems gang →
      (gangStep search maxIndex maxItems gang).control = .exit result →
        result = some ((itemsFrom items first).take maxItems) := by
    intro gang result hgang hcontrol
    have hlast := gang.curIndex.isLt.le
    rw [gangStep] at hcontrol
    dsimp only at hcontrol
    split_ifs at hcontrol with hlength hbig
    · obtain rfl := Control.exit.inj hcontrol
      have hnone : collect (numbered items) gang.curIndex.toNat (2 ^ indexBits) = [] := by
        refine collect_eq_nil fun number hge hlt => hbeyond _ ?_
        rw [gt_iff_lt, BitVec.lt_def, toNat_ofNat_of_lt hlt]
        exact (BitVec.lt_def.mp hbig).trans_le hge
      rw [hgang.results, itemsFrom, ← collect_append hgang.ge hlast, hnone, append_nil]
    · obtain ⟨found, next, heq, hsearched⟩ := hsearch (maxItems - gang.results.length)
        gang.curIndex (by omega) (BitVec.not_lt.mp hbig)
      rw [heq] at hcontrol
      dsimp only at hcontrol
      split_ifs at hcontrol with hzero
      obtain rfl := Control.exit.inj hcontrol
      rw [hgang.searched hlength hsearched, hzero]
      rfl
    · obtain rfl := Control.exit.inj hcontrol
      rw [hgang.results] at hlength ⊢
      rw [take_collect_of_length hgang.ge hlast (not_lt.mp hlength)]
      rfl
  have hstart : GangOk items first maxItems ⟨[], first⟩ := by
    refine ⟨?_, le_rfl⟩
    rw [collect_self, take_nil]
  obtain ⟨_, hrun, rfl⟩ := exists_exit_of_measure (GangOk items first maxItems) _
    (fun gang => 2 ^ indexBits - gang.curIndex.toNat)
    (fun gang _ => Nat.sub_pos_of_lt gang.curIndex.isLt) hnext hexit hstart le_rfl
  exact ⟨_, fun more hmore => runFor_exit_mono hrun hmore⟩

/-- A search serves a map: it finds the items of a node, and a single item in
the root is the whole map. -/
def Serves (search : ℕ → ℕ → Slot Item → Index → Option (List (Slot Item) × Index))
    (items : Index → Option Item) : Slot Item → Prop
  | .null => ∀ key, items key = none
  | .item value => ∀ key, items key = if key = 0 then some value else none
  | .node height count slots tags =>
    (∀ key, key > radixTreeMaxindex height → items key = none) ∧
    ∀ maxItems index, 0 < maxItems → index ≤ radixTreeMaxindex height → ∃ found next,
      search maxItems height (.node height count slots tags) index = some (found, next) ∧
        Searched items maxItems height index found next

theorem itemsFrom_eq_nil (hnone : ∀ key, first ≤ key → items key = none) :
    itemsFrom items first = [] := by
  refine collect_eq_nil fun number hge hlt => hnone _ ?_
  rw [BitVec.le_def, toNat_ofNat_of_lt hlt]
  exact hge

theorem itemsFrom_single {value : Item} (first : Index)
    (hitems : ∀ key, items key = if key = 0 then some value else none) :
    itemsFrom items first = if first > 0 then [] else [value] := by
  split
  · rename_i hfirst
    refine itemsFrom_eq_nil fun key hkey => ?_
    rw [hitems, if_neg]
    rintro rfl
    exact absurd hfirst (BitVec.not_lt.mpr hkey)
  rename_i hfirst
  have hzero : first.toNat = 0 := le_zero.mp (BitVec.not_lt.mp hfirst)
  have hrest : collect (numbered items) 1 (2 ^ indexBits) = [] := by
    refine collect_eq_nil fun number hge hlt => ?_
    rw [numbered, hitems, if_neg]
    intro hnumber
    have := toNat_ofNat_of_lt hlt
    rw [hnumber] at this
    exact absurd this (by simp; omega)
  have hnumber : numbered items 0 = some value := by
    rw [numbered, hitems]
    rfl
  rw [itemsFrom, hzero, collect_succ (by decide), hrest, hnumber]
  rfl

theorem blockOf_eq_zero_iff : blockOf height key = 0 ↔ key ≤ radixTreeMaxindex height := by
  rw [blockOf, div_eq_zero_iff_lt (capacity_pos height), le_radixTreeMaxindex, capacity]

theorem le_maxindex_zero : key ≤ radixTreeMaxindex 0 ↔ key = 0 := by
  rw [show radixTreeMaxindex 0 = 0 by decide, BitVec.le_def]
  exact ⟨fun hle => BitVec.eq_of_toNat_eq (le_zero.mp hle), fun hzero => by rw [hzero]⟩

theorem serves_lookup (hok : RootOk root) : Serves lookup root.items root.rnode := by
  obtain ⟨hroot, hheight⟩ := hok
  obtain ⟨height, above, rnode⟩ := root
  cases rnode with
  | null => exact fun key => mapAt_null height key
  | item value =>
    cases height with
    | zero =>
      intro key
      rw [Root.items, mapAt, find_bottom]
      simp only [le_maxindex_zero]
      rfl
    | succ _ => exact hroot.elim
  | node nodeHeight count slots tags =>
    cases height with
    | zero => exact hroot.elim
    | succ level =>
      obtain rfl : nodeHeight = level + 1 := hroot.1
      refine ⟨fun key hkey => if_neg (BitVec.not_le.mpr hkey), fun maxItems index hmax hle => ?_⟩
      obtain ⟨found, next, heq, hsearched⟩ := lookup_spec hmax hheight hroot rfl index
      refine ⟨found, next, heq, hsearched.congr fun key hkey => ?_⟩
      rw [blockOf_eq_zero_iff.mpr hle, blockOf_eq_zero_iff] at hkey
      exact (if_pos hkey).symm

/-- The items of a tree that have a tag. -/
def Root.taggedItems (root : Root Item) (tag : Fin maxTags) (key : Index) : Option Item :=
  if root.carries key tag then root.items key else none

theorem serves_lookupTag (hok : TaggedOk root) (htag : root.tags tag = true) :
    Serves (lookupTag tag) (root.taggedItems tag) root.rnode := by
  obtain ⟨⟨hroot, hheight⟩, htags⟩ := hok
  obtain ⟨height, above, rnode⟩ := root
  cases rnode with
  | null =>
    intro key
    rw [Root.taggedItems, Root.items, mapAt_null, ite_self]
  | item value =>
    cases height with
    | zero =>
      intro key
      rw [Root.taggedItems, Root.items, mapAt, find_bottom, Root.carries, tagAt, carries, htag]
      simp only [le_maxindex_zero, Bool.and_true, decide_eq_true_eq]
      split
      · rfl
      · rfl
    | succ _ => exact hroot.elim
  | node nodeHeight count slots tags =>
    cases height with
    | zero => exact hroot.elim
    | succ level =>
      obtain rfl : nodeHeight = level + 1 := hroot.1
      have hitems : ∀ key, key ≤ radixTreeMaxindex (level + 1) →
          findTagged key tag (level + 1) (.node (level + 1) count slots tags) above =
            Root.taggedItems ⟨level + 1, above, .node (level + 1) count slots tags⟩ tag key := by
        intro key hkey
        rw [Root.taggedItems, Root.items, mapAt, if_pos hkey, Root.carries, tagAt,
          decide_eq_true hkey, Bool.true_and, findTagged]
      refine ⟨fun key hkey => ?_, fun maxItems index hmax hle => ?_⟩
      · rw [Root.taggedItems, Root.items, mapAt, if_neg (BitVec.not_le.mpr hkey), ite_self]
      obtain ⟨found, next, heq, hsearched⟩ :=
        @lookupTag_spec _ tag level _ above maxItems hmax hheight hroot htags rfl index
      refine ⟨found, next, heq, hsearched.congr fun key hkey => ?_⟩
      rw [blockOf_eq_zero_iff.mpr hle, blockOf_eq_zero_iff] at hkey
      exact hitems key hkey

/-- A gang lookup returns the first items in ascending order.  When none are
wanted and the root holds a single item, it returns this item nevertheless. -/
theorem gangLookup_spec {search : ℕ → ℕ → Slot Item → Index → Option (List (Slot Item) × Index)}
    (hserves : Serves search items root.rnode) (first : Index) (maxItems : ℕ) :
    (∃ rounds, ∀ more, rounds ≤ more → gangLookup search root first maxItems more =
        some ((itemsFrom items first).take maxItems)) ↔
      ¬ (maxItems = 0 ∧ first = 0 ∧ ∃ value, root.rnode = .item value) := by
  obtain ⟨height, above, rnode⟩ := root
  cases rnode with
  | null =>
    refine iff_of_true ⟨0, fun more _ => ?_⟩ (by simp)
    rw [itemsFrom_eq_nil fun key _ => hserves key, take_nil]
    rfl
  | item value =>
    have hresult : ∀ more, gangLookup search ⟨height, above, .item value⟩ first maxItems more =
        some (itemsFrom items first) := by
      intro more
      rw [itemsFrom_single first hserves]
      by_cases hfirst : first > 0
      · rw [if_pos hfirst]
        exact if_pos hfirst
      · rw [if_neg hfirst]
        exact if_neg hfirst
    simp only [hresult, some_inj, itemsFrom_single first hserves]
    by_cases hfirst : first > 0
    · have hne : first ≠ 0 := fun hzero => absurd hfirst (by rw [hzero]; decide)
      rw [if_pos hfirst]
      exact iff_of_true ⟨0, fun _ _ => (take_nil).symm⟩ fun hbad => hne hbad.2.1
    have hzero : first = 0 := by
      apply BitVec.eq_of_toNat_eq
      exact le_zero.mp (BitVec.not_lt.mp hfirst)
    rw [if_neg hfirst]
    cases maxItems with
    | zero =>
      refine iff_of_false ?_ fun hgood => hgood ⟨rfl, hzero, value, rfl⟩
      rintro ⟨rounds, hrounds⟩
      simpa using hrounds rounds le_rfl
    | succ _ => exact iff_of_true ⟨0, fun _ _ => by simp⟩ (by simp)
  | node nodeHeight count slots tags =>
    obtain ⟨hbeyond, hsearch⟩ := hserves
    refine iff_of_true ?_ (by simp)
    obtain ⟨rounds, hrounds⟩ := gang_spec maxItems first hsearch hbeyond
    refine ⟨rounds, fun more hmore => ?_⟩
    rw [gangLookup]
    dsimp only
    rw [hrounds more hmore]

end KernelM5040.RadixTree
