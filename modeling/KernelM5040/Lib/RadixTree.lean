import KernelM5040.Core.Machine

/-!
# Radix trees

Model of `lib/radix-tree.c` for 64-bit words and `RADIX_TREE_MAP_SHIFT` 6.  A
tree is a value, and a function that changes it returns the new one.  The
functions return `none` where the source would follow a pointer that is no node,
or stop at the `BUG_ON` of `radix_tree_shrink`.

A call of `radix_tree_insert` ends with the first allocation that fails, so the
allocations of a call are given by the number `nodes` of those that succeed.
-/

namespace KernelM5040.RadixTree

open Machine Function

/-- `RADIX_TREE_MAP_SHIFT`. -/
abbrev mapShift : ℕ := 6

/-- `RADIX_TREE_MAP_SIZE`. -/
abbrev mapSize : ℕ := 2 ^ mapShift

/-- `RADIX_TREE_INDEX_BITS`. -/
abbrev indexBits : ℕ := 64

/-- `RADIX_TREE_MAX_PATH`. -/
def maxPath : ℕ := (indexBits + mapShift - 1) / mapShift

/-- `RADIX_TREE_MAX_TAGS`. -/
abbrev maxTags : ℕ := 2

instance : NeZero mapSize := ⟨by decide⟩

scoped instance : NeZero maxTags := ⟨by decide⟩

abbrev Index := BitVec indexBits

abbrev Tags := Fin maxTags → Fin mapSize → Bool

/-- What a pointer of the tree leads to.  In `root->rnode` a node is told from an
item by the lowest bit, and in a slot by the level. -/
inductive Slot (Item : Type*)
  | null
  | item (value : Item)
  | node (height count : ℕ) (slots : Fin mapSize → Slot Item) (tags : Tags)

/-- `tags` are the bits of `gfp_mask` above `__GFP_BITS_SHIFT`. -/
structure Root (Item : Type*) where
  height : ℕ
  tags : Fin maxTags → Bool
  rnode : Slot Item

inductive Status
  | ok
  | eexist
  | enomem
  deriving DecidableEq

variable {Item : Type*}

def Slot.isNull : Slot Item → Bool
  | .null => true
  | _ => false

def initRadixTree : Root Item := ⟨0, fun _ => false, .null⟩

/-- `__maxindex`, which fills the table of `radix_tree_maxindex`. -/
def radixTreeMaxindex (height : ℕ) : Index :=
  let width := height * mapShift
  let shift : ℤ := indexBits - width
  if shift < 0 then BitVec.allOnes indexBits
  else if (indexBits : ℤ) ≤ shift then 0
  else BitVec.allOnes indexBits >>> shift.toNat

variable (root : Root Item) (index : Index)

/-- `(index >> shift) & RADIX_TREE_MAP_MASK` with the shift of a level, counted
from the leaves. -/
def offset (level : ℕ) : Fin mapSize :=
  Fin.ofNat mapSize ((index >>> (level * mapShift)).toNat &&& (mapSize - 1))

/-! ## Lookup -/

/-- The loop of `radix_tree_lookup`. -/
def lookupFrom (index : Index) : ℕ → Slot Item → Option (Slot Item)
  | 0, slot => some slot
  | _ + 1, .null => some .null
  | level + 1, .node _ _ slots _ => lookupFrom index level (slots (offset index level))
  | _ + 1, .item _ => none

def radixTreeLookup : Option (Slot Item) :=
  match root.rnode with
  | .null => some .null
  | .item value => if index > 0 then some .null else some (.item value)
  | .node height count slots tags =>
    if index > radixTreeMaxindex height then some .null
    else lookupFrom index height (.node height count slots tags)

/-! ## Insertion -/

/-- What `radix_tree_node_alloc` returns, with the height filled in. -/
def newNode (height : ℕ) : Slot Item := .node height 0 (fun _ => .null) (fun _ _ => false)

/-- The loop that looks for the height: `fuel` rounds are enough when it is
`RADIX_TREE_MAX_PATH`. -/
def growHeight (index : Index) : ℕ → ℕ → ℕ
  | 0, height => height
  | fuel + 1, height =>
    if index > radixTreeMaxindex height then growHeight index fuel (height + 1) else height

/-- One more level on top of the tree. -/
def addLevel : Root Item :=
  { root with
    height := root.height + 1
    rnode := .node (root.height + 1) 1 (update (fun _ => .null) 0 root.rnode)
      fun tag slot => decide (slot = 0) && root.tags tag }

/-- The loop of `radix_tree_extend` with so many levels to go.  It returns the
number of allocations that are left, or nothing for `-ENOMEM`. -/
def extendLevels : ℕ → Root Item → ℕ → Option ℕ × Root Item
  | 0, root, nodes => (some nodes, root)
  | _ + 1, root, 0 => (none, root)
  | levels + 1, root, nodes + 1 => extendLevels levels (addLevel root) nodes

def radixTreeExtend (nodes : ℕ) : Option ℕ × Root Item :=
  let height := growHeight index maxPath (root.height + 1)
  if root.rnode.isNull then (some nodes, { root with height := height })
  else extendLevels (height - root.height) root nodes

/-- A slot of a node is assigned; one that was empty counts. -/
def Slot.link : Slot Item → Fin mapSize → Slot Item → Slot Item
  | .node height count slots tags, place, child =>
    .node height (if (slots place).isNull && !child.isNull then count + 1 else count)
      (update slots place child) tags
  | slot, _, _ => slot

/-- The loop of `radix_tree_insert` and what follows it.  The nodes that a failed
call has allocated stay in the tree. -/
def insertFrom (index : Index) (value : Item) :
    ℕ → Slot Item → ℕ → Option (Status × Slot Item)
  | 0, .null, _ => some (.ok, .item value)
  | 0, slot, _ => some (.eexist, slot)
  | _ + 1, .null, 0 => some (.enomem, .null)
  | level + 1, .null, nodes + 1 =>
    (insertFrom index value level .null nodes).map fun (status, child) =>
      (status, (newNode (level + 1)).link (offset index level) child)
  | level + 1, .node height count slots tags, nodes =>
    (insertFrom index value level (slots (offset index level)) nodes).map
      fun (status, child) =>
        (status, (Slot.node height count slots tags).link (offset index level) child)
  | _ + 1, .item _, _ => none

def insertInto (value : Item) (nodes : ℕ) : Option (Status × Root Item) :=
  (insertFrom index value root.height root.rnode nodes).map fun (status, rnode) =>
    (status, { root with rnode := rnode })

def radixTreeInsert (value : Item) (nodes : ℕ) : Option (Status × Root Item) :=
  if index > radixTreeMaxindex root.height then
    match radixTreeExtend root index nodes with
    | (none, root) => some (.enomem, root)
    | (some nodes, root) => insertInto root index value nodes
  else insertInto root index value nodes

/-! ## Tags -/

section

variable (tags : Tags) (tag : Fin maxTags) (place : Fin mapSize)

def tagGet : Bool := tags tag place

def tagClear : Tags :=
  update tags tag (update (tags tag) place false)

def tagSet : Tags :=
  update tags tag (update (tags tag) place true)

end

def anyTagSet (tags : Tags) (tag : Fin maxTags) : Bool := decide (∃ place, tags tag place = true)

/-- The loop of `radix_tree_tag_set`: the changed place and the item that the
call returns.  An empty slot on the path is a `BUG_ON`. -/
def tagSetFrom (index : Index) (tag : Fin maxTags) :
    ℕ → Slot Item → Option (Slot Item × Slot Item)
  | 0, slot => some (slot, slot)
  | level + 1, .node height count slots tags =>
    let place := offset index level
    let tags := if tagGet tags tag place then tags else tagSet tags tag place
    if (slots place).isNull then none
    else
      (tagSetFrom index tag level (slots place)).map fun (child, found) =>
        (.node height count (update slots place child) tags, found)
  | _ + 1, _ => none

def radixTreeTagSet (tag : Fin maxTags) : Option (Slot Item × Root Item) :=
  if index > radixTreeMaxindex root.height then none
  else
    (tagSetFrom index tag root.height root.rnode).map fun (rnode, found) =>
      (found, { root with
        rnode := rnode
        tags := if !found.isNull && !root.tags tag then update root.tags tag true else root.tags })

/-- The path of `radix_tree_tag_clear` down and up again.  The flag says whether
the loop that clears the tags goes on above this place. -/
def tagClearFrom (index : Index) (tag : Fin maxTags) :
    ℕ → Slot Item → Option (Slot Item × Bool)
  | 0, slot => some (slot, !slot.isNull)
  | _ + 1, .null => some (.null, false)
  | level + 1, .node height count slots tags =>
    (tagClearFrom index tag level (slots (offset index level))).map fun (child, up) =>
      let slots := update slots (offset index level) child
      if up && tagGet tags tag (offset index level) then
        let tags := tagClear tags tag (offset index level)
        (.node height count slots tags, !anyTagSet tags tag)
      else (.node height count slots tags, false)
  | _ + 1, .item _ => none

def radixTreeTagClear (tag : Fin maxTags) : Option (Root Item) :=
  if index > radixTreeMaxindex root.height then some root
  else
    (tagClearFrom index tag root.height root.rnode).map fun (rnode, up) =>
      { root with
        rnode := rnode
        tags := if up then update root.tags tag false else root.tags }

/-- The tag of an item in the node that holds it. -/
def leafTag (index : Index) (tag : Fin maxTags) : ℕ → Slot Item → Bool
  | 1, .node _ _ _ tags => tagGet tags tag (offset index 0)
  | level + 2, .node _ _ slots _ => leafTag index tag (level + 1) (slots (offset index (level + 1)))
  | _, _ => false

/-- One round of the loop over the tags in `radix_tree_delete`. -/
def clearItemTag (root : Root Item) (tag : Fin maxTags) : Option (Root Item) :=
  if leafTag index tag root.height root.rnode then radixTreeTagClear root index tag
  else some root

/-! ## Deletion -/

/-- The loop of `radix_tree_shrink`. -/
def shrinkFrom : ℕ → Slot Item → Option (ℕ × Slot Item)
  | 0, slot => some (0, slot)
  | level + 1, .node height count slots tags =>
    if count ≠ 1 then some (level + 1, .node height count slots tags)
    else if (slots 0).isNull then some (level + 1, .node height count slots tags)
    else shrinkFrom level (slots 0)
  | _ + 1, _ => none

def radixTreeShrink : Option (Root Item) :=
  (shrinkFrom root.height root.rnode).map fun (height, rnode) =>
    { root with height := height, rnode := rnode }

/-- The path of `radix_tree_delete` down to the item, which it returns, and up
again as far as nodes become empty. -/
def deleteFrom (index : Index) : ℕ → Slot Item → Option (Slot Item × Slot Item)
  | 0, slot => some (slot, .null)
  | _ + 1, .null => some (.null, .null)
  | level + 1, .node height count slots tags =>
    (deleteFrom index level (slots (offset index level))).map fun (found, child) =>
      let slots' := update slots (offset index level) child
      if found.isNull then (found, .node height count slots tags)
      else if !child.isNull then (found, .node height count slots' tags)
      else if count - 1 ≠ 0 then (found, .node height (count - 1) slots' tags)
      else (found, .null)
  | _ + 1, .item _ => none

/-- The slot of the top node that a path goes through. -/
def topSlot (height : ℕ) : Slot Item → Slot Item
  | .node _ _ slots _ => slots (offset index (height - 1))
  | _ => .null

/-- `radix_tree_delete` once the item is found.  If the last node that is changed
is the top one, its slot has become empty, and the tree may shrink. -/
def removeItem : Option (Root Item) :=
  match deleteFrom index root.height root.rnode with
  | none => none
  | some (_, .null) => some ⟨0, fun _ => false, .null⟩
  | some (_, rnode) =>
    if (topSlot index root.height rnode).isNull then
      radixTreeShrink { root with rnode := rnode }
    else some { root with rnode := rnode }

def radixTreeDelete : Option (Slot Item × Root Item) :=
  if index > radixTreeMaxindex root.height then some (.null, root)
  else if root.height = 0 then
    some (root.rnode, { root with tags := fun _ => false, rnode := .null })
  else
    match lookupFrom index root.height root.rnode with
    | none => none
    | some .null => some (.null, root)
    | some found =>
      ((List.finRange maxTags).foldlM (clearItemTag index) root).bind fun root =>
        (removeItem root index).map fun root => (found, root)

/-! ## Gang lookup -/

/-- `index &= ~((1UL << shift) - 1)` and `index += 1UL << shift`. -/
def nextBlock (level : ℕ) (index : Index) : Index :=
  let size := (1 : Index) <<< (level * mapShift)
  (index &&& ~~~(size - 1)) + size

/-- The slots from a place on. -/
def placesFrom (place : Fin mapSize) : List (Fin mapSize) :=
  (List.finRange mapSize).drop place

/-- The loop of `__lookup` and `__lookup_tag` that looks for a slot worth going
into.  It leaves the node behind its last slot, or when the index wraps around. -/
def scanSlots (test : Fin mapSize → Bool) (level : ℕ) :
    List (Fin mapSize) → Index → Index × Option (Fin mapSize)
  | [], index => (index, none)
  | place :: rest, index =>
    if test place then (index, some place)
    else if nextBlock level index = 0 then (0, none)
    else scanSlots test level rest (nextBlock level index)

/-- The loop over a node of the bottom level. -/
def grabItems (test : Fin mapSize → Bool) (slots : Fin mapSize → Slot Item) (maxItems : ℕ) :
    List (Fin mapSize) → List (Slot Item) → Index → List (Slot Item) × Index
  | [], results, index => (results, index)
  | place :: rest, results, index =>
    if test place && !(slots place).isNull then
      if results.length + 1 = maxItems then (results ++ [slots place], index + 1)
      else grabItems test slots maxItems rest (results ++ [slots place]) (index + 1)
    else grabItems test slots maxItems rest results (index + 1)

/-- `__lookup`, which returns what the slots in `results` hold, and `next_index`. -/
def lookup (maxItems : ℕ) : ℕ → Slot Item → Index → Option (List (Slot Item) × Index)
  | 0, _, index => some ([], index)
  | _ + 1, .null, index => some ([], index)
  | _ + 1, .item _, _ => none
  | 1, .node _ _ slots _, index =>
    some (grabItems (fun _ => true) slots maxItems (placesFrom (offset index 0)) [] index)
  | level + 2, .node _ _ slots _, index =>
    match scanSlots (fun place => !(slots place).isNull) (level + 1)
        (placesFrom (offset index (level + 1))) index with
    | (index, none) => some ([], index)
    | (index, some place) => lookup maxItems (level + 1) (slots place) index

/-- `__lookup_tag`.  It looks for a tagged slot at the bottom level, too. -/
def lookupTag (tag : Fin maxTags) (maxItems : ℕ) :
    ℕ → Slot Item → Index → Option (List (Slot Item) × Index)
  | 0, _, index => some ([], index)
  | _ + 1, .null, index => some ([], index)
  | _ + 1, .item _, _ => none
  | 1, .node _ _ slots tags, index =>
    match scanSlots (tagGet tags tag) 0 (placesFrom (offset index 0)) index with
    | (index, none) => some ([], index)
    | (index, some _) =>
      some (grabItems (tagGet tags tag) slots maxItems (placesFrom (offset index 0)) [] index)
  | level + 2, .node _ _ slots tags, index =>
    match scanSlots (tagGet tags tag) (level + 1)
        (placesFrom (offset index (level + 1))) index with
    | (index, none) => some ([], index)
    | (index, some place) => lookupTag tag maxItems (level + 1) (slots place) index

/-- The items found so far, and `cur_index`. -/
structure Gang (Item : Type*) where
  results : List Item
  curIndex : Index

def Slot.toOption : Slot Item → Option Item
  | .item value => some value
  | _ => none

/-- One round of the loop of `radix_tree_gang_lookup`.  The loop is left without
a result where the search would follow a pointer that is no node. -/
def gangStep (search : ℕ → Index → Option (List (Slot Item) × Index)) (maxIndex : Index)
    (maxItems : ℕ) (gang : Gang Item) : Step (Gang Item) (Option (List Item)) Unit :=
  ⟨[], if gang.results.length < maxItems then
      if gang.curIndex > maxIndex then .exit (some gang.results)
      else
        match search (maxItems - gang.results.length) gang.curIndex with
        | none => .exit none
        | some (found, nextIndex) =>
          let results := gang.results ++ found.filterMap Slot.toOption
          if nextIndex = 0 then .exit (some results) else .next ⟨results, nextIndex⟩
    else .exit (some gang.results)⟩

/-- What `radix_tree_gang_lookup` and `radix_tree_gang_lookup_tag` share.  They
run for so many rounds at most. -/
def gangLookup (search : ℕ → ℕ → Slot Item → Index → Option (List (Slot Item) × Index))
    (root : Root Item) (firstIndex : Index) (maxItems rounds : ℕ) : Option (List Item) :=
  match root.rnode with
  | .null => some []
  | .item value => if firstIndex > 0 then some [] else some [value]
  | .node height count slots tags =>
    match runFor (gangStep (fun maxItems index =>
          search maxItems height (.node height count slots tags) index)
        (radixTreeMaxindex height) maxItems) rounds ⟨[], firstIndex⟩ with
    | .exit result => result
    | .next _ => none

def radixTreeGangLookup (firstIndex : Index) (maxItems rounds : ℕ) : Option (List Item) :=
  gangLookup lookup root firstIndex maxItems rounds

def radixTreeGangLookupTag (firstIndex : Index) (maxItems : ℕ) (tag : Fin maxTags) (rounds : ℕ) :
    Option (List Item) :=
  if !root.tags tag then some []
  else gangLookup (lookupTag tag) root firstIndex maxItems rounds

end KernelM5040.RadixTree
