import KernelM5040.Core.Machine

/-!
# Small ids

Model of `lib/idr.c` for 64-bit words: an id is an `int`, and the layers of the
tree hold 64 slots each.  A tree is a value, and a function that changes it
returns the new one.  The array `pa` of the layers on a path is the recursion
over the layers: what a call returns tells the layer above how to go on.

New layers come from the list of layers that `idr_pre_get` has prepared.  They
are zeroed, so only their number matters.
-/

namespace KernelM5040.Idr

open Machine Function

abbrev idrBits : ℕ := 6

abbrev idrSize : ℕ := 2 ^ idrBits

abbrev maxIdShift : ℕ := 31

def maxLevel : ℕ := (maxIdShift + idrBits - 1) / idrBits

def idrFreeMax : ℕ := maxLevel + maxLevel

instance : NeZero idrSize := ⟨by decide⟩

/-- An `int`. -/
abbrev Id := BitVec 32

def maxIdMask : Id := BitVec.ofNat 32 (2 ^ maxIdShift - 1)

abbrev Bitmap := Fin idrSize → Bool

/-- What a pointer in a tree leads to: a `struct idr_layer`, or what the user
has registered at the bottom. -/
inductive Slot (Ptr : Type*)
  | null
  | ptr (value : Ptr)
  | layer (bitmap : Bitmap) (ary : Fin idrSize → Slot Ptr) (count : ℕ)

/-- `struct idr`. -/
structure Handle (Ptr : Type*) where
  top : Slot Ptr
  layers : ℕ
  idFreeCnt : ℕ

variable {Ptr : Type*}

def Slot.isNull : Slot Ptr → Bool
  | .null => true
  | _ => false

/-- The pointer that a user registers may be `NULL`. -/
def Slot.ofPtr : Option Ptr → Slot Ptr
  | none => .null
  | some value => .ptr value

def newLayer : Slot Ptr := .layer (fun _ => false) (fun _ => .null) 0

def idrInit : Handle Ptr := ⟨.null, 0, 0⟩

variable (idp : Handle Ptr) (id : Id)

/-- `idr_pre_get` when so many layers can be allocated; it returns whether they
have been enough. -/
def idrPreGet (available : ℕ) : Bool × Handle Ptr :=
  if idp.idFreeCnt < idrFreeMax then
    if idp.idFreeCnt + available < idrFreeMax then
      (false, { idp with idFreeCnt := idp.idFreeCnt + available })
    else (true, { idp with idFreeCnt := idrFreeMax })
  else (true, idp)

/-- `(id >> (IDR_BITS * l)) & IDR_MASK`. -/
def digit (level : ℕ) : Fin idrSize :=
  Fin.ofNat idrSize ((id.sshiftRight (idrBits * level)).toNat &&& (idrSize - 1))

/-- `(id | ((1 << (IDR_BITS * l)) - 1)) + 1`. -/
def roundUp (level : ℕ) : Id :=
  (id ||| (((1 : Id) <<< (idrBits * level)) - 1)) + 1

/-- `((id >> sh) ^ n ^ m) << sh`. -/
def moveTo (level : ℕ) (n m : Fin idrSize) : Id :=
  (id.sshiftRight (idrBits * level) ^^^ BitVec.ofNat 32 n ^^^ BitVec.ofNat 32 m) <<<
    (idrBits * level)

/-- `find_next_bit` in the complement of a bitmap. -/
def findNextZero (bitmap : Bitmap) (n : Fin idrSize) : Option (Fin idrSize) :=
  ((List.finRange idrSize).drop n).find? fun m => !bitmap m

/-- `bitmap == IDR_FULL`. -/
def isFull (bitmap : Bitmap) : Bool := decide (∀ n, bitmap n = true)

/-! ## Allocation -/

/-- `-1` and `IDR_NOMORE_SPACE`. -/
inductive AllocError
  | noMemory
  | noSpace
  deriving DecidableEq

/-- How the search of `sub_alloc` in a layer and below it ends: with an id, or
because the layer is full behind the id, with the id before and behind it, or
with a restart from the top, or with an error. -/
inductive SubAlloc (Ptr : Type*)
  | found (p : Slot Ptr) (id : Id) (idFreeCnt : ℕ)
  | up (p : Slot Ptr) (oid id : Id) (idFreeCnt : ℕ)
  | restart (p : Slot Ptr) (id : Id) (idFreeCnt : ℕ)
  | failed (p : Slot Ptr) (error : AllocError) (idFreeCnt : ℕ)
  | stuck

/-- The id after the search in the bitmap of a layer. -/
def nextId (level : ℕ) (m : Fin idrSize) : Id :=
  if m ≠ digit id level then moveTo id level (digit id level) m else id

/-- `(id >= MAX_ID_BIT) || (id < 0)`. -/
def outOfRange : Bool := decide (BitVec.ofNat 32 (2 ^ maxIdShift) ≤ id) || id.slt 0

/-- How `sub_alloc` goes on in a layer when it has left the layer below: if that
one is full and the id has not left this layer, it looks for the next slot. -/
def comeBack (again : Slot Ptr → Id → ℕ → SubAlloc Ptr) (level : ℕ) (link : Slot Ptr → Slot Ptr) :
    SubAlloc Ptr → SubAlloc Ptr
  | .found child id idFreeCnt => .found (link child) id idFreeCnt
  | .up child oid id idFreeCnt =>
    if oid.sshiftRight (idrBits * (level + 1)) = id.sshiftRight (idrBits * (level + 1)) then
      again (link child) id idFreeCnt
    else .restart (link child) id idFreeCnt
  | .restart child id idFreeCnt => .restart (link child) id idFreeCnt
  | .failed child error idFreeCnt => .failed (link child) error idFreeCnt
  | .stuck => .stuck

/-- The loop of `sub_alloc` at a layer above the bottom.  It comes back to this
layer when the layer below is full, at most once for every slot. -/
def allocLoop (below : Slot Ptr → Id → ℕ → SubAlloc Ptr) (level : ℕ) :
    ℕ → Slot Ptr → Id → ℕ → SubAlloc Ptr
  | 0, _, _, _ => .stuck
  | _ + 1, .null, _, _ => .stuck
  | _ + 1, .ptr _, _, _ => .stuck
  | rounds + 1, .layer bitmap ary count, id, idFreeCnt =>
    match findNextZero bitmap (digit id level) with
    | none => .up (.layer bitmap ary count) id (roundUp id (level + 1)) idFreeCnt
    | some m =>
      if outOfRange (nextId id level m) then
        .failed (.layer bitmap ary count) .noSpace idFreeCnt
      else if (ary m).isNull && idFreeCnt == 0 then
        .failed (.layer bitmap ary count) .noMemory idFreeCnt
      else
        let child := if (ary m).isNull then newLayer else ary m
        let count := if (ary m).isNull then count + 1 else count
        let idFreeCnt := if (ary m).isNull then idFreeCnt - 1 else idFreeCnt
        comeBack (allocLoop below level rounds) level
          (fun child => .layer bitmap (update ary m child) count)
          (below child (nextId id level m) idFreeCnt)

/-- `sub_alloc` from a layer on. -/
def subAllocFrom : ℕ → Slot Ptr → Id → ℕ → SubAlloc Ptr
  | 0, .layer bitmap ary count, id, idFreeCnt =>
    match findNextZero bitmap (digit id 0) with
    | none => .up (.layer bitmap ary count) id (roundUp id 1) idFreeCnt
    | some m =>
      if outOfRange (nextId id 0 m) then .failed (.layer bitmap ary count) .noSpace idFreeCnt
      else .found (.layer bitmap ary count) (nextId id 0 m) idFreeCnt
  | 0, _, _, _ => .stuck
  | level + 1, p, id, idFreeCnt =>
    allocLoop (subAllocFrom level) (level + 1) idrSize p id idFreeCnt

def Slot.count : Slot Ptr → ℕ
  | .layer _ _ count => count
  | _ => 0

def Slot.full : Slot Ptr → Bool
  | .layer bitmap _ _ => isFull bitmap
  | _ => false

/-- A layer is put on top of the tree. -/
def addTop (p : Slot Ptr) : Slot Ptr :=
  .layer (fun n => decide (n = 0) && p.full) (update (fun _ => .null) 0 p) 1

/-- The loop of `idr_get_empty_slot` that adds layers, with so many more allowed.
If the layers run out, those that have been taken are put back. -/
def growTop (id : Id) : ℕ → Slot Ptr → ℕ → ℕ → Option (Slot Ptr × ℕ × ℕ)
  | 0, p, layers, idFreeCnt => some (p, layers, idFreeCnt)
  | more + 1, p, layers, idFreeCnt =>
    if ((1 : Id) <<< (layers * idrBits)).sle id then
      if p.count = 0 then growTop id more p (layers + 1) idFreeCnt
      else if idFreeCnt = 0 then none
      else growTop id more (addTop p) (layers + 1) (idFreeCnt - 1)
    else some (p, layers, idFreeCnt)

/-- `idr_get_empty_slot` from `build_up` to the call of `sub_alloc`. -/
def buildUp : Option (Handle Ptr) :=
  let grown :=
    if idp.top.isNull then
      if idp.idFreeCnt = 0 then none
      else growTop id (maxLevel - 1 - 1) newLayer 1 (idp.idFreeCnt - 1)
    else growTop id (maxLevel - 1 - idp.layers) idp.top idp.layers idp.idFreeCnt
  grown.map fun (p, layers, idFreeCnt) => ⟨p, layers, idFreeCnt⟩

/-- The two labels of the search for an empty slot: `build_up`, and `restart` in
`sub_alloc`. -/
inductive Label
  | buildUp
  | restart

structure Search (Ptr : Type*) where
  label : Label
  idp : Handle Ptr
  id : Id

/-- The search for an empty slot from one label to the next.  It ends without a
result where the source would follow a pointer that is no layer. -/
def slotStep (search : Search Ptr) :
    Step (Search Ptr) (Option (Handle Ptr × Except AllocError Id)) Unit :=
  ⟨[],
    match search.label with
    | .buildUp =>
      match buildUp search.idp search.id with
      | none => .exit (some (search.idp, .error .noMemory))
      | some idp => .next ⟨.restart, idp, search.id⟩
    | .restart =>
      let idp := search.idp
      match subAllocFrom (idp.layers - 1) idp.top search.id idp.idFreeCnt with
      | .found top id idFreeCnt => .exit (some (⟨top, idp.layers, idFreeCnt⟩, .ok id))
      | .up top _ id idFreeCnt => .next ⟨.buildUp, ⟨top, idp.layers, idFreeCnt⟩, id⟩
      | .restart top id idFreeCnt => .next ⟨.restart, ⟨top, idp.layers, idFreeCnt⟩, id⟩
      | .failed top error idFreeCnt =>
        .exit (some (⟨top, idp.layers, idFreeCnt⟩, .error error))
      | .stuck => .exit none⟩

/-- `idr_get_empty_slot`, for so many labels at most. -/
def idrGetEmptySlot (startingId : Id) (rounds : ℕ) : Option (Handle Ptr × Except AllocError Id) :=
  match runFor slotStep rounds ⟨.buildUp, idp, startingId⟩ with
  | .exit result => result
  | .next _ => none

/-- The pointer is stored, and `idr_mark_full` marks the slots that have become
full; the flag says whether its loop goes on in the layer above. -/
def install (id : Id) (ptr : Option Ptr) : ℕ → Slot Ptr → Slot Ptr × Bool
  | 0, .layer bitmap ary count =>
    let bitmap := update bitmap (digit id 0) true
    (.layer bitmap (update ary (digit id 0) (.ofPtr ptr)) (count + 1), isFull bitmap)
  | level + 1, .layer bitmap ary count =>
    let n := digit id (level + 1)
    let (child, up) := install id ptr level (ary n)
    let bitmap := if up then update bitmap n true else bitmap
    (.layer bitmap (update ary n child) count, up && isFull bitmap)
  | _, p => (p, false)

def idrGetNewAboveInt (ptr : Option Ptr) (startingId : Id) (rounds : ℕ) :
    Option (Handle Ptr × Except AllocError Id) :=
  (idrGetEmptySlot idp startingId rounds).map fun
    | (idp, .error error) => (idp, .error error)
    | (idp, .ok id) => ({ idp with top := (install id ptr (idp.layers - 1) idp.top).1 }, .ok id)

/-- What `idr_get_new_above` returns. -/
inductive Errno
  | eagain
  | enospc
  deriving DecidableEq

def idrRcToErrno : AllocError → Errno
  | .noMemory => .eagain
  | .noSpace => .enospc

def idrGetNewAbove (ptr : Option Ptr) (startingId : Id) (rounds : ℕ) :
    Option (Handle Ptr × Except Errno Id) :=
  (idrGetNewAboveInt idp ptr startingId rounds).map fun (idp, result) =>
    (idp, result.mapError idrRcToErrno)

def idrGetNew (ptr : Option Ptr) (rounds : ℕ) : Option (Handle Ptr × Except Errno Id) :=
  idrGetNewAbove idp ptr 0 rounds

/-! ## Lookup -/

/-- The loop of `idr_find`. -/
def findFrom (id : Id) : ℕ → Slot Ptr → Option (Slot Ptr)
  | 0, p => some p
  | _ + 1, .null => some .null
  | level + 1, .layer _ ary _ => findFrom id level (ary (digit id level))
  | _ + 1, .ptr _ => none

def idrFind : Option (Slot Ptr) :=
  let id := id &&& maxIdMask
  if ((1 : Id) <<< (idp.layers * idrBits)).sle id then some .null
  else findFrom id idp.layers idp.top

/-! ## Iteration -/

/-- The inner loop of `idr_for_each` that goes down: the number of layers below, the
pointer, and the pointers on the stack `pa`. -/
def descend (id : Id) : ℕ → Slot Ptr → List (Slot Ptr) → Option (ℕ × Slot Ptr × List (Slot Ptr))
  | 0, p, paa => some (0, p, paa)
  | level + 1, .null, paa => some (level + 1, .null, paa)
  | level + 1, .layer bitmap ary count, paa =>
    descend id level (ary (digit id level)) (.layer bitmap ary count :: paa)
  | _ + 1, .ptr _, _ => none

/-- The inner loop that goes up, for so many rounds at most.  What lies below the
stack is arbitrary; it is read when the loop is over. -/
def climb (garbage : Slot Ptr) (bits : ℕ) :
    ℕ → ℕ → Slot Ptr → List (Slot Ptr) → ℕ × Slot Ptr × List (Slot Ptr)
  | 0, level, p, paa => (level, p, paa)
  | rounds + 1, level, p, paa =>
    if idrBits * level < bits then
      climb garbage bits rounds (level + 1) (paa.headD garbage) paa.tail
    else (level, p, paa)

def fls : ℕ := id.toNat.size

structure Walk (Ptr Data : Type*) where
  level : ℕ
  id : Id
  p : Slot Ptr
  paa : List (Slot Ptr)
  data : Data

/-- What the loop does after the call of the function. -/
def walkOn {Data : Type*} (garbage : Slot Ptr) (id : Id) (level : ℕ) (p : Slot Ptr)
    (paa : List (Slot Ptr)) (data : Data) : Walk Ptr Data :=
  let id := id + ((1 : Id) <<< (idrBits * level))
  let (level, p, paa) := climb garbage (fls id) (fls id) level p paa
  ⟨level, id, p, paa, data⟩

/-- A round of the outer loop of `idr_for_each`.  The function works on some data
and returns an error code. -/
def walkStep {Data : Type*} (max : Id) (garbage : Slot Ptr) (fn : Id → Ptr → Data → Data × BitVec 32)
    (walk : Walk Ptr Data) : Step (Walk Ptr Data) (Option (Data × BitVec 32)) Unit :=
  ⟨[], if walk.id.slt max then
      match descend walk.id walk.level walk.p walk.paa with
      | none => .exit none
      | some (level, .null, paa) => .next (walkOn garbage walk.id level .null paa walk.data)
      | some (level, .ptr value, paa) =>
        let (data, error) := fn walk.id value walk.data
        if error ≠ 0 then .exit (some (data, error))
        else .next (walkOn garbage walk.id level (.ptr value) paa data)
      | some (_, .layer _ _ _, _) => .exit none
    else .exit (some (walk.data, 0))⟩

/-- `idr_for_each`, for so many rounds at most. -/
def idrForEach {Data : Type*} (idp : Handle Ptr) (garbage : Slot Ptr)
    (fn : Id → Ptr → Data → Data × BitVec 32) (data : Data) (rounds : ℕ) :
    Option (Data × BitVec 32) :=
  match runFor (walkStep ((1 : Id) <<< (idp.layers * idrBits)) garbage fn) rounds
      ⟨idp.layers, 0, idp.top, [], data⟩ with
  | .exit result => result
  | .next _ => none

/-! ## Removal -/

/-- The path of `sub_remove` down to the id and up again: the layer that is left,
and whether it has been freed. -/
def removeFrom (id : Id) : ℕ → Slot Ptr → Option (Slot Ptr × Bool)
  | _, .null => some (.null, false)
  | 0, .layer bitmap ary count =>
    let n := digit id 0
    if bitmap n then
      if count - 1 = 0 then some (.null, true)
      else some (.layer (update bitmap n false) (update ary n .null)
        (count - 1), false)
    else some (.layer bitmap ary count, false)
  | level + 1, .layer bitmap ary count =>
    let n := digit id (level + 1)
    (removeFrom id level (ary n)).map fun (child, freed) =>
      let bitmap := update bitmap n false
      let ary := update ary n child
      if freed then
        if count - 1 = 0 then (.null, true) else (.layer bitmap ary (count - 1), false)
      else (.layer bitmap ary count, false)
  | _, .ptr _ => none

/-- The tree shrinks when the top layer has a single child in its first slot. -/
def shrinkTop : Handle Ptr :=
  match idp.top with
  | .layer _ ary count =>
    if count = 1 ∧ 1 < idp.layers ∧ (ary 0).isNull = false then
      { idp with top := ary 0, layers := idp.layers - 1 }
    else idp
  | _ => idp

def idrRemove : Option (Handle Ptr) :=
  (removeFrom (id &&& maxIdMask) (idp.layers - 1) idp.top).map fun (top, freed) =>
    let idp := shrinkTop { idp with top := top, layers := if freed then 0 else idp.layers }
    { idp with idFreeCnt := min idp.idFreeCnt (idrFreeMax - 1) }

end KernelM5040.Idr
