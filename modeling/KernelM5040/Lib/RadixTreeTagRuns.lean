import KernelM5040.Lib.RadixTreeGang

/-!
# Runs of a radix tree with tags

Over every run of insertions, deletions and changes of tags, a tag of a slot
tells exactly whether an item below has it, and the gang lookups return the
first items in ascending order.
-/

namespace KernelM5040.RadixTree

open Digits Option

variable {Item : Type*} {index key : Index} {tag : Fin maxTags} {level height count nodes block : ℕ}
  {slots : Fin mapSize → Slot Item} {tags : Tags} {slot : Slot Item}
  {above : Fin maxTags → Bool} {root : Root Item} {place : Fin mapSize}

/-! ## Exact tags -/

/-- At every node below a place, whose indices form a block, a tag of a slot is
set exactly when an index of the slot has it. -/
def TagsExact (carrying : Index → Fin maxTags → Prop) : ℕ → ℕ → Slot Item → Prop
  | level + 1, block, .node _ _ slots tags => ∀ place : Fin mapSize,
      (∀ tag, tagGet tags tag place = true ↔
        ∃ key, blockOf level key = block * mapSize + place ∧ carrying key tag) ∧
      TagsExact carrying level (block * mapSize + place) (slots place)
  | _, _, _ => True

theorem blockOf_slot :
    blockOf level key = block * mapSize + place ↔
      blockOf (level + 1) key = block ∧ offset key level = place := by
  have hplace : place.val < mapSize := place.isLt
  rw [blockOf_succ, Fin.ext_iff, offset_eq_mod, Nat.div_mod_unique (by decide),
    and_iff_left hplace, add_comm, mul_comm, eq_comm]

/-- The indices of a slot: there are some if there are some below the node and
the slot is one that indices lead to. -/
theorem slot_inhabited (hblock : block * capacity (level + 1) < 2 ^ indexBits)
    (hplace : place.val * capacity level < 2 ^ indexBits) :
    (block * mapSize + place) * capacity level < 2 ^ indexBits := by
  rcases Nat.eq_zero_or_pos block with rfl | hpos
  · rwa [zero_mul, zero_add]
  have hfits : mapShift * (level + 1) ≤ indexBits := by
    have hle : capacity (level + 1) < 2 ^ indexBits :=
      (Nat.le_mul_of_pos_left _ hpos).trans_lt hblock
    exact ((Nat.pow_lt_pow_iff_right (by decide)).mp hle).le
  have hsplit : 2 ^ indexBits = 2 ^ (indexBits - mapShift * (level + 1)) * capacity (level + 1) := by
    rw [capacity, ← pow_add, Nat.sub_add_cancel hfits]
  rw [hsplit, Nat.mul_lt_mul_right (capacity_pos _)] at hblock
  have hplace' : place.val * capacity level < capacity (level + 1) := by
    rw [capacity_succ, mul_comm]
    exact Nat.mul_lt_mul_of_pos_left place.isLt (capacity_pos level)
  have hend : (block + 1) * capacity (level + 1) ≤ 2 ^ indexBits := by
    rw [hsplit]
    exact Nat.mul_le_mul_right _ hblock
  calc (block * mapSize + place) * capacity level
      = block * capacity (level + 1) + place * capacity level := by
        rw [add_mul, capacity_succ, mul_assoc, mul_comm mapSize]
    _ < (block + 1) * capacity (level + 1) := by
        rw [Nat.succ_mul]
        exact Nat.add_lt_add_left hplace' _
    _ ≤ 2 ^ indexBits := hend

theorem exists_carries {block : ℕ} (hslot : WellFormed level slot) (hok : TagsOk level slot above)
    (htag : above tag = true) (hblock : block * capacity level < 2 ^ indexBits) :
    ∃ key, blockOf level key = block ∧ carries key tag level slot above = true := by
  induction level generalizing slot above block with
  | zero =>
    rw [capacity, mul_zero, pow_zero, mul_one] at hblock
    refine ⟨BitVec.ofNat indexBits block, ?_, htag⟩
    rw [blockOf_zero, toNat_ofNat_of_lt hblock]
  | succ level ih =>
    cases slot with
    | null =>
      rw [tagsOk_null.mp hok tag] at htag
      simp at htag
    | item _ => exact hslot.elim
    | node height count slots tags =>
      obtain ⟨hunion, hreal, hslots⟩ := tagsOk_node.mp hok
      obtain ⟨place, hset⟩ := (hunion tag).mp htag
      obtain ⟨key, hkey, hcarries⟩ := ih (hslot.2.2 place) (hslots place) hset
        (slot_inhabited hblock (hreal tag place hset))
      obtain ⟨hupper, rfl⟩ := blockOf_slot.mp hkey
      exact ⟨key, hupper, hcarries⟩

theorem tagsExact_of_ok {carrying : Index → Fin maxTags → Prop} (hslot : WellFormed level slot)
    (hok : TagsOk level slot above) (hcarrying : ∀ key tag, blockOf level key = block →
      (carrying key tag ↔ carries key tag level slot above = true))
    (hblock : ∀ tag, above tag = true → block * capacity level < 2 ^ indexBits) :
    TagsExact carrying level block slot := by
  induction level generalizing slot above block with
  | zero => trivial
  | succ level ih =>
    cases slot with
    | null | item _ => trivial
    | node height count slots tags =>
      obtain ⟨hunion, hreal, hslots⟩ := tagsOk_node.mp hok
      intro place
      have hbelow : ∀ key tag, blockOf level key = block * mapSize + place →
          (carrying key tag ↔
            carries key tag level (slots place) (fun tag => tags tag place) = true) := by
        intro key tag hkey
        obtain ⟨hupper, rfl⟩ := blockOf_slot.mp hkey
        exact hcarrying key tag hupper
      have hinhabited : ∀ tag, tags tag place = true →
          (block * mapSize + place) * capacity level < 2 ^ indexBits := fun tag hset =>
        slot_inhabited (hblock tag ((hunion tag).mpr ⟨place, hset⟩)) (hreal tag place hset)
      refine ⟨fun tag => ⟨fun hset => ?_, fun ⟨key, hkey, hcarries⟩ => ?_⟩,
        ih (hslot.2.2 place) (hslots place) hbelow hinhabited⟩
      · obtain ⟨key, hkey, hcarries⟩ :=
          exists_carries (hslot.2.2 place) (hslots place) hset (hinhabited tag hset)
        exact ⟨key, hkey, (hbelow key tag hkey).mpr hcarries⟩
      · rw [hbelow key tag hkey] at hcarries
        by_contra hunset
        rw [carries_of_untagged (hslots place) (by simpa [tagGet] using hunset)] at hcarries
        simp at hcarries

theorem root_tag_iff (hok : TaggedOk root) (tag : Fin maxTags) :
    root.tags tag = true ↔ ∃ key, root.carries key tag = true := by
  constructor
  · intro htag
    obtain ⟨key, hkey, hcarries⟩ := @exists_carries _ tag root.height root.rnode root.tags 0
      hok.ok.wellFormed hok.tags htag (by simp)
    refine ⟨key, ?_⟩
    rw [carries_of_le (blockOf_eq_zero_iff.mp hkey), hcarries]
  · rintro ⟨key, hcarries⟩
    rw [Root.carries, tagAt, Bool.and_eq_true] at hcarries
    by_contra hunset
    rw [carries_of_untagged hok.tags (by simpa using hunset)] at hcarries
    simp at hcarries

theorem TaggedOk.exact (hok : TaggedOk root) :
    TagsExact (fun key tag => root.carries key tag = true) root.height 0 root.rnode := by
  refine tagsExact_of_ok hok.ok.wellFormed hok.tags (fun key tag hkey => ?_) fun _ _ => by simp
  rw [carries_of_le (blockOf_eq_zero_iff.mp hkey)]

/-! ## Runs -/

/-- What has happened to a tree: its items have changed, or a tag of an item. -/
inductive TagEvent (Item : Type*)
  | item (event : Event Item)
  | set (index : Index) (tag : Fin maxTags)
  | cleared (index : Index) (tag : Fin maxTags)

/-- The changes of the items in a history. -/
def itemEvents : List (TagEvent Item) → List (Event Item)
  | [] => []
  | .item event :: earlier => event :: itemEvents earlier
  | .set _ _ :: earlier => itemEvents earlier
  | .cleared _ _ :: earlier => itemEvents earlier

/-- The tag of an item is the last one that it has been given; an item comes and
goes without tags.  The latest event comes first. -/
def carried (key : Index) (tag : Fin maxTags) : List (TagEvent Item) → Bool
  | [] => false
  | .item (.inserted index _) :: earlier => if key = index then false else carried key tag earlier
  | .item (.deleted index) :: earlier => if key = index then false else carried key tag earlier
  | .set index other :: earlier =>
    if key = index ∧ tag = other then true else carried key tag earlier
  | .cleared index other :: earlier =>
    if key = index ∧ tag = other then false else carried key tag earlier

/-- The trees that insertions, deletions and changes of tags lead to.  Only items
that are present may be tagged. -/
inductive TagRun : List (TagEvent Item) → Root Item → Prop
  | start : TagRun [] initRadixTree
  | inserted {history : List (TagEvent Item)} {root root' : Root Item} {index : Index}
      {value : Item} {nodes : ℕ} (hrun : TagRun history root)
      (hinsert : radixTreeInsert root index value nodes = some (.ok, root')) :
      TagRun (.item (.inserted index value) :: history) root'
  | refused {history : List (TagEvent Item)} {root root' : Root Item} {index : Index}
      {value : Item} {nodes : ℕ} {status : Status} (hrun : TagRun history root)
      (hinsert : radixTreeInsert root index value nodes = some (status, root'))
      (hstatus : status ≠ .ok) : TagRun history root'
  | deleted {history : List (TagEvent Item)} {root root' : Root Item} {index : Index}
      {found : Slot Item} (hrun : TagRun history root)
      (hdelete : radixTreeDelete root index = some (found, root')) :
      TagRun (.item (.deleted index) :: history) root'
  | set {history : List (TagEvent Item)} {root root' : Root Item} {index : Index}
      {tag : Fin maxTags} {found : Slot Item} (hrun : TagRun history root)
      (hpresent : current index (itemEvents history) ≠ none)
      (hset : radixTreeTagSet root index tag = some (found, root')) :
      TagRun (.set index tag :: history) root'
  | cleared {history : List (TagEvent Item)} {root root' : Root Item} {index : Index}
      {tag : Fin maxTags} (hrun : TagRun history root)
      (hclear : radixTreeTagClear root index tag = some root') :
      TagRun (.cleared index tag :: history) root'

variable {history : List (TagEvent Item)}

/-- The tree stands for the items and the tags of its history. -/
structure Follows (history : List (TagEvent Item)) (root : Root Item) : Prop where
  ok : TaggedOk root
  items : ∀ key, root.items key = current key (itemEvents history)
  carries : ∀ key tag, root.carries key tag = carried key tag history

theorem Follows.start : Follows [] (initRadixTree : Root Item) := by
  refine ⟨⟨⟨trivial, Nat.zero_le _⟩, fun _ => rfl⟩, fun key => mapAt_null 0 key, fun key tag => ?_⟩
  exact tagAt_null (tagsOk_null.mpr fun _ => rfl) key tag

theorem Follows.refused {root' : Root Item} {value : Item} {status : Status}
    (hfollows : Follows history root)
    (hinsert : radixTreeInsert root index value nodes = some (status, root'))
    (hstatus : status ≠ .ok) : Follows history root' := by
  obtain ⟨hstep, htags, hcarries⟩ := insertStep_of_eq hfollows.ok hinsert
  exact ⟨⟨hstep.ok, htags⟩, fun key => (hstep.kept key (Or.inl hstatus)).trans (hfollows.items key),
    fun key tag => (hcarries key tag).trans (hfollows.carries key tag)⟩

section

variable (history : List (TagEvent Item))
include history

/-- The items that a history has left. -/
def currentItems (key : Index) : Option Item :=
  current key (itemEvents history)

/-- The items that a history has left with a tag. -/
def currentTagged (tag : Fin maxTags) (key : Index) : Option Item :=
  if carried key tag history then currentItems history key else none

/-- An item is present and has a tag. -/
def Carrying (key : Index) (tag : Fin maxTags) : Prop :=
  currentItems history key ≠ none ∧ carried key tag history = true

end

section

variable (hfollows : Follows history root) {root' : Root Item}
include hfollows

theorem Follows.inserted {value : Item}
    (hinsert : radixTreeInsert root index value nodes = some (.ok, root')) :
    Follows (.item (.inserted index value) :: history) root' := by
  obtain ⟨hstep, htags, hcarries⟩ := insertStep_of_eq hfollows.ok hinsert
  have hnew : root.items index = none := by
    by_contra hold
    have hexists := hstep.eexist_iff.mpr hold
    simp at hexists
  refine ⟨⟨hstep.ok, htags⟩, fun key => hstep.items_eq hfollows.items key, fun key tag => ?_⟩
  rw [carried, hcarries]
  split_ifs with hkey
  · rw [hkey]
    exact carries_of_items_none hfollows.ok hnew tag
  · exact hfollows.carries key tag

theorem Follows.deleted {found : Slot Item}
    (hdelete : radixTreeDelete root index = some (found, root')) :
    Follows (.item (.deleted index) :: history) root' := by
  obtain ⟨hstep, htags, hremoved, hkept⟩ := deleteStep_of_eq hfollows.ok hdelete
  refine ⟨⟨hstep.ok, htags⟩, fun key => hstep.items_eq hfollows.items key, fun key tag => ?_⟩
  rw [carried]
  split_ifs with hkey
  · rw [hkey]
    exact hremoved tag
  · rw [hkept key tag hkey, hfollows.carries]

theorem Follows.tagStep {state : Bool} {event : TagEvent Item}
    (hstep : TagStep root index tag state root')
    (hitems : itemEvents (event :: history) = itemEvents history)
    (hcarried : ∀ key other, carried key other (event :: history) =
      if key = index ∧ other = tag then state else carried key other history) :
    Follows (event :: history) root' := by
  refine ⟨⟨hstep.items.ok hfollows.ok.ok, hstep.tags⟩, fun key => ?_, fun key other => ?_⟩
  · rw [hstep.items.items, hitems, hfollows.items]
  rw [hcarried]
  split_ifs with hkey
  · rw [hkey.1, hkey.2]
    exact hstep.changed
  · rw [hstep.kept key other hkey, hfollows.carries]

theorem Follows.gangLookup (first : Index) (maxItems : ℕ) :
    (∃ rounds, ∀ more, rounds ≤ more → radixTreeGangLookup root first maxItems more =
        some ((itemsFrom (currentItems history) first).take maxItems)) ↔
      ¬ (maxItems = 0 ∧ first = 0 ∧ ∃ value, root.rnode = .item value) := by
  have hitems : root.items = currentItems history := funext hfollows.items
  rw [← hitems]
  exact gangLookup_spec (serves_lookup hfollows.ok.ok) first maxItems

theorem Follows.gangLookupTag (tag : Fin maxTags) (first : Index) (maxItems : ℕ) :
    (∃ rounds, ∀ more, rounds ≤ more → radixTreeGangLookupTag root first maxItems tag more =
        some ((itemsFrom (currentTagged history tag) first).take maxItems)) ↔
      ¬ (maxItems = 0 ∧ first = 0 ∧ root.tags tag = true ∧ ∃ value, root.rnode = .item value) := by
  have hitems : root.taggedItems tag = currentTagged history tag := by
    funext key
    rw [Root.taggedItems, hfollows.items, hfollows.carries, currentTagged, currentItems]
  rw [← hitems]
  cases htag : root.tags tag with
  | true =>
    simp only [radixTreeGangLookupTag, htag, true_and]
    exact gangLookup_spec (serves_lookupTag hfollows.ok htag) first maxItems
  | false =>
    refine iff_of_true ⟨0, fun more _ => ?_⟩ (by simp)
    have hnone : ∀ key, first ≤ key → root.taggedItems tag key = none := by
      intro key _
      rw [Root.taggedItems, Root.carries, tagAt, carries_of_untagged hfollows.ok.tags htag,
        Bool.and_false]
      rfl
    rw [itemsFrom_eq_nil hnone, List.take_nil, radixTreeGangLookupTag, htag]
    rfl

theorem Follows.carrying_iff (key : Index) (tag : Fin maxTags) :
    root.carries key tag = true ↔ Carrying history key tag := by
  rw [Carrying, ← hfollows.carries, currentItems, ← hfollows.items]
  refine ⟨fun hcarries => ⟨fun hnone => ?_, hcarries⟩, And.right⟩
  rw [carries_of_items_none hfollows.ok hnone] at hcarries
  simp at hcarries

end

theorem TagRun.follows (hrun : TagRun history root) : Follows history root := by
  induction hrun with
  | start => exact .start
  | inserted _ hinsert ih => exact ih.inserted hinsert
  | refused _ hinsert hstatus ih => exact ih.refused hinsert hstatus
  | deleted _ hdelete ih => exact ih.deleted hdelete
  | @set history root root' index tag found _ hpresent hset ih =>
    obtain ⟨value, hvalue⟩ := ne_none_iff_exists'.mp hpresent
    rw [← ih.items] at hvalue
    obtain ⟨_, heq, hstep⟩ := radixTreeTagSet_spec tag ih.ok hvalue
    rw [hset, some_inj, Prod.mk.injEq] at heq
    obtain ⟨_, rfl⟩ := heq
    exact ih.tagStep hstep rfl fun _ _ => rfl
  | @cleared history root root' index tag _ hclear ih =>
    obtain ⟨_, heq, hstep⟩ := radixTreeTagClear_spec index tag ih.ok
    rw [hclear, some_inj] at heq
    subst heq
    exact ih.tagStep hstep rfl fun _ _ => rfl

/-- After every run the tags are exact at every node and in the root.  A gang
lookup returns the first items, or the first items with a tag, in ascending
order; the only exception is one for no items of a tree whose root holds a
single item. -/
theorem radixTree_tags_exact (hrun : TagRun history root) :
    TagsExact (Carrying history) root.height 0 root.rnode ∧
    (∀ tag, root.tags tag = true ↔ ∃ key, Carrying history key tag) ∧
    (∀ first maxItems,
      (∃ rounds, ∀ more, rounds ≤ more → radixTreeGangLookup root first maxItems more =
          some ((itemsFrom (currentItems history) first).take maxItems)) ↔
        ¬ (maxItems = 0 ∧ first = 0 ∧ ∃ value, root.rnode = .item value)) ∧
    ∀ tag first maxItems,
      (∃ rounds, ∀ more, rounds ≤ more → radixTreeGangLookupTag root first maxItems tag more =
          some ((itemsFrom (currentTagged history tag) first).take maxItems)) ↔
        ¬ (maxItems = 0 ∧ first = 0 ∧ root.tags tag = true ∧
          ∃ value, root.rnode = .item value) := by
  have hfollows := hrun.follows
  have hcarrying : (fun key tag => root.carries key tag = true) = Carrying history := by
    funext key tag
    exact propext (hfollows.carrying_iff key tag)
  refine ⟨?_, fun tag => ?_, hfollows.gangLookup, hfollows.gangLookupTag⟩
  · rw [← hcarrying]
    exact hfollows.ok.exact
  · rw [root_tag_iff hfollows.ok]
    exact exists_congr fun key => hfollows.carrying_iff key tag

def taggedHistory : List (TagEvent ℕ) :=
  [.set (BitVec.allOnes 64) 1, .item (.inserted (BitVec.allOnes 64) 8), .item (.inserted 0 7)]

/-- The tree after a tag has been set, if it has been possible. -/
def tagSetOr (root : Root ℕ) (index : Index) (tag : Fin maxTags) : Root ℕ :=
  match radixTreeTagSet root index tag with
  | some (_, root') => root'
  | none => root

def taggedItems : Root ℕ := tagSetOr twoItems (BitVec.allOnes 64) 1

theorem taggedItems_run : TagRun taggedHistory taggedItems := by
  have hfirst : radixTreeInsert initRadixTree 0 7 0 =
      some (.ok, insertOr initRadixTree 0 7 0) := rfl
  have hsecond : radixTreeInsert (insertOr initRadixTree 0 7 0) (BitVec.allOnes 64) 8 30 =
      some (.ok, twoItems) := rfl
  have hset : radixTreeTagSet twoItems (BitVec.allOnes 64) 1 = some (.item 8, taggedItems) := rfl
  exact .set (.inserted (.inserted .start hfirst) hsecond) (by decide) hset

theorem taggedItems_tags_exact :
    (taggedItems.tags 1 = true ↔ ∃ key, Carrying taggedHistory key 1) ∧
      ∃ rounds, ∀ more, rounds ≤ more → radixTreeGangLookupTag taggedItems 1 4 1 more =
        some ((itemsFrom (currentTagged taggedHistory 1) 1).take 4) := by
  obtain ⟨_, hroot, _, hgang⟩ := radixTree_tags_exact taggedItems_run
  exact ⟨hroot 1, (hgang 1 1 4).mpr (by simp)⟩

def oneItem : Root ℕ := insertOr initRadixTree 0 7 0

/-- No items are wanted, and the item in the root is returned. -/
theorem gangLookup_exceeds_limit :
    TagRun [.item (.inserted 0 7)] oneItem ∧
      (∀ rounds, radixTreeGangLookup oneItem 0 0 rounds = some [7]) ∧
      ¬ ∃ rounds, ∀ more, rounds ≤ more → radixTreeGangLookup oneItem 0 0 more =
        some ((itemsFrom (currentItems [.item (.inserted 0 7)]) 0).take 0) := by
  have hinsert : radixTreeInsert initRadixTree 0 7 0 = some (.ok, oneItem) := rfl
  have hresult : ∀ rounds, radixTreeGangLookup oneItem 0 0 rounds = some [7] := fun _ => rfl
  refine ⟨.inserted .start hinsert, hresult, ?_⟩
  rintro ⟨rounds, hrounds⟩
  have hempty := hrounds rounds le_rfl
  rw [hresult, List.take_zero] at hempty
  simp at hempty

end KernelM5040.RadixTree
