import Mathlib
import KernelM5040.Lib.RbTree

/-!
# Areas of an address space: mm/mmap.c

An `mm_struct` keeps its areas in a list sorted by address, in a red-black
tree and behind a one-entry cache.  Areas are addressed by their structs: the
`vm_next` list is a list of struct ids, the tree holds the same ids, and the
fields of a struct are looked up in `area`, so that an update of one field is
seen through the list and the tree alike.  Addresses are byte addresses, page
offsets are 64-bit.  Locks, the reverse maps, accounting and the page tables
take no part.
-/

namespace KernelM5040.Mmap

open SearchTree RbTree

/-- A `struct vm_area_struct`, by its address. -/
abbrev Vma := ℕ

abbrev Pgoff := BitVec 64

abbrev Flags := BitVec 64

def pageShift : ℕ := 14

def pageSize : ℕ := 2 ^ pageShift

def taskSize : ℕ := 0x10000000000

def pageAlign (len : ℕ) : ℕ := (len + (pageSize - 1)) / pageSize * pageSize

/-- The fields of an area that the operations below read or write; `hasClose`
is `vm_ops && vm_ops->close`.  Files and anon_vmas are pointers, NULL being
`none`; policies are compared by contents. -/
structure Area where
  vmStart : ℕ
  vmEnd : ℕ
  vmPgoff : Pgoff
  vmFlags : Flags
  vmFile : Option ℕ
  vmPolicy : Option ℕ
  anonVma : Option ℕ
  hasClose : Bool
  deriving DecidableEq

/-- `struct mm_struct`.  The flag `bug` is raised where the kernel would stop:
at a failed `BUG_ON` and at the use of a NULL area. -/
structure Mm where
  area : Vma → Area
  mmap : List Vma
  mmRb : RbRoot Vma
  mapCount : ℤ
  mmapCache : Option Vma
  bug : Bool

inductive Errno
  | einval
  | enomem
  deriving DecidableEq, Repr

/-- The areas that follow an area on the `vm_next` list. -/
def following (vma : Vma) (list : List Vma) : List Vma :=
  (list.dropWhile (· != vma)).tail

/-- The list up to and including an area. -/
def upTo (vma : Vma) (list : List Vma) : List Vma :=
  list.takeWhile (· != vma) ++ [vma]

namespace Mm

variable (mm : Mm)

/-- `vma->vm_next`. -/
def vmNext (vma : Vma) : Option Vma := (following vma mm.mmap).head?

def setArea (vma : Vma) (area : Area) : Mm :=
  { mm with area := Function.update mm.area vma area }

/-- What `find_vma_prepare` reports: the first area that ends above the
address, the last area passed on the way down, and the place in the tree. -/
structure Prepared where
  vma : Option Vma
  prev : Option Vma
  rbLink : RbLink Vma
  rbParent : Option Vma

def findVmaPrepareLoop (addr : ℕ) : RbRoot Vma → Prepared → Prepared
  | .leaf, found => found
  | .node colour left tmp right, found =>
    if addr < (mm.area tmp).vmEnd then
      if (mm.area tmp).vmStart ≤ addr then
        { found with vma := some tmp, rbParent := some tmp }
      else
        findVmaPrepareLoop addr left
          { found with
            vma := some tmp
            rbLink := .left colour tmp right :: found.rbLink
            rbParent := some tmp }
    else
      findVmaPrepareLoop addr right
        { found with
          prev := some tmp
          rbLink := .right colour left tmp :: found.rbLink
          rbParent := some tmp }

def findVmaPrepare (addr : ℕ) : Prepared :=
  mm.findVmaPrepareLoop addr mm.mmRb ⟨none, none, [], none⟩

def vmaLinkList (vma : Vma) (prev rbParent : Option Vma) : List Vma :=
  match prev with
  | some prev => upTo prev mm.mmap ++ vma :: following prev mm.mmap
  | none =>
    match rbParent with
    | some parent => vma :: parent :: following parent mm.mmap
    | none => [vma]

/-- `vma_link`, and `__vma_link` with the count that `__insert_vm_struct` adds. -/
def vmaLink (vma : Vma) (prev : Option Vma) (rbLink : RbLink Vma) (rbParent : Option Vma) : Mm :=
  { mm with
    mmap := mm.vmaLinkList vma prev rbParent
    mmRb := rbLinkNode vma rbLink
    mapCount := mm.mapCount + 1 }

/-- `mmap_region` once it has filled in a new area: the place is found and the
area linked there. -/
def linkNew (vma : Vma) (area : Area) : Mm :=
  let mm' := mm.setArea vma area
  let found := mm'.findVmaPrepare area.vmStart
  mm'.vmaLink vma found.prev found.rbLink found.rbParent

def insertVmStruct (vma : Vma) : Mm :=
  let found := mm.findVmaPrepare (mm.area vma).vmStart
  let overlaps : Bool := match found.vma with
    | some other => (mm.area other).vmStart < (mm.area vma).vmEnd
    | none => false
  { mm.vmaLink vma found.prev found.rbLink found.rbParent with bug := mm.bug || overlaps }

def vmaUnlink (vma prev : Vma) : Mm :=
  { mm with
    mmap := upTo prev mm.mmap ++ following vma mm.mmap
    mmRb := rbErase vma mm.mmRb
    mmapCache := if mm.mmapCache = some vma then some prev else mm.mmapCache }

/-- The expanding area takes over the anon_vma of the two, if it had none. -/
def importAnonVma (importer vma next : Vma) : Mm :=
  let anonVma := ((mm.area vma).anonVma).or (mm.area next).anonVma
  if (mm.area importer).anonVma = none then
    mm.setArea importer { mm.area importer with anonVma := anonVma }
  else mm

def setBounds (vma : Vma) (start endAddr : ℕ) (pgoff : Pgoff) : Mm :=
  mm.setArea vma { mm.area vma with vmStart := start, vmEnd := endAddr, vmPgoff := pgoff }

/-- Move the start of the area after a moved boundary by `adjust` pages. -/
def adjustNext (next : Vma) (adjust : ℤ) : Mm :=
  mm.setArea next
    { mm.area next with
      vmStart := ((mm.area next).vmStart + adjust * pageSize).toNat
      vmPgoff := (mm.area next).vmPgoff + BitVec.ofInt 64 adjust }

/-- One pass of `vma_adjust` from its label `again`: the area grows up to the
end of `next`, which is taken out. -/
def swallowNext (vma next : Vma) (start : ℕ) (pgoff : Pgoff) : Mm :=
  let mm' := ((mm.importAnonVma vma vma next).setBounds vma start (mm.area next).vmEnd
    pgoff).vmaUnlink next vma
  { mm' with mapCount := mm'.mapCount - 1 }

/-- The passes of `vma_adjust` over `again`: where the new end lies beyond
`next`, the area after it is taken out too. -/
def removeNext (vma : Vma) (start : ℕ) (pgoff : Pgoff) : ℕ → Mm → Vma → ℕ → Mm
  | 0, mm, _, _ => { mm with bug := true }
  | fuel + 1, mm, next, endAddr =>
    let mm' := mm.swallowNext vma next start pgoff
    if (mm.area next).vmEnd < endAddr then
      match mm'.vmNext vma with
      | some next' => removeNext vma start pgoff fuel mm' next' (mm.area next).vmEnd
      | none => { mm' with bug := true }
    else mm'

def vmaAdjust (vma : Vma) (start endAddr : ℕ) (pgoff : Pgoff) (insert : Option Vma) : Mm :=
  match insert with
  | some new => (mm.setBounds vma start endAddr pgoff).insertVmStruct new
  | none =>
    match mm.vmNext vma with
    | none => mm.setBounds vma start endAddr pgoff
    | some next =>
      if (mm.area next).vmEnd ≤ endAddr then
        removeNext vma start pgoff mm.mmap.length mm next endAddr
      else if (mm.area next).vmStart < endAddr then
        ((mm.importAnonVma vma vma next).setBounds vma start endAddr pgoff).adjustNext next
          ((endAddr - (mm.area next).vmStart) / pageSize : ℕ)
      else if endAddr < (mm.area vma).vmEnd then
        ((mm.importAnonVma next vma next).setBounds vma start endAddr pgoff).adjustNext next
          (-(((mm.area vma).vmEnd - endAddr) / pageSize : ℕ))
      else mm.setBounds vma start endAddr pgoff

end Mm

/-- `VM_IO | VM_DONTEXPAND | VM_RESERVED | VM_PFNMAP`. -/
def vmSpecial : Flags := 0x00004000 ||| 0x00040000 ||| 0x00080000 ||| 0x00000400

/-- What a caller asks `vma_merge` to map, apart from the range. -/
structure Request where
  vmFlags : Flags
  anonVma : Option ℕ
  file : Option ℕ
  pgoff : Pgoff
  policy : Option ℕ

def pages (start endAddr : ℕ) : Pgoff := BitVec.ofNat 64 ((endAddr - start) / pageSize)

def isMergeableVma (area : Area) (file : Option ℕ) (vmFlags : Flags) : Bool :=
  area.vmFlags = vmFlags && area.vmFile = file && !area.hasClose

def isMergeableAnonVma (anonVma1 anonVma2 : Option ℕ) : Bool :=
  anonVma1.isNone || anonVma2.isNone || anonVma1 = anonVma2

section

variable (area : Area) (vmFlags : Flags) (anonVma file : Option ℕ) (vmPgoff : Pgoff)

def canVmaMergeBefore : Bool :=
  isMergeableVma area file vmFlags && isMergeableAnonVma anonVma area.anonVma &&
    area.vmPgoff = vmPgoff

def canVmaMergeAfter : Bool :=
  isMergeableVma area file vmFlags && isMergeableAnonVma anonVma area.anonVma &&
    area.vmPgoff + pages area.vmStart area.vmEnd = vmPgoff

end

namespace Mm

variable (mm : Mm)

/-- The test of `vma_merge` for merging behind `prev`. -/
def mergesAfter (addr : ℕ) (request : Request) (prev : Vma) : Bool :=
  (mm.area prev).vmEnd = addr && (mm.area prev).vmPolicy = request.policy &&
    canVmaMergeAfter (mm.area prev) request.vmFlags request.anonVma request.file request.pgoff

/-- The test of `vma_merge` for merging in front of `next`. -/
def mergesBefore (endAddr : ℕ) (request : Request) (pglen : Pgoff) (next : Vma) : Bool :=
  endAddr = (mm.area next).vmStart && request.policy = (mm.area next).vmPolicy &&
    canVmaMergeBefore (mm.area next) request.vmFlags request.anonVma request.file
      (request.pgoff + pglen)

/-- The area that `vma_merge` finds behind `prev`. -/
def mergeArea : Option Vma → Option Vma
  | some prev => mm.vmNext prev
  | none => mm.mmap.head?

/-- The `next` of `vma_merge`: an area that ends with the range is passed over. -/
def mergeNext (area : Option Vma) (endAddr : ℕ) : Option Vma :=
  match area with
  | some next => if (mm.area next).vmEnd = endAddr then mm.vmNext next else some next
  | none => none

def vmaMerge (prev : Option Vma) (addr endAddr : ℕ) (request : Request) : Option Vma × Mm :=
  let pglen := pages addr endAddr
  let area := mm.mergeArea prev
  let next := mm.mergeNext area endAddr
  if request.vmFlags &&& vmSpecial ≠ 0 then (none, mm)
  else
    match prev.filter (mm.mergesAfter addr request) with
    | some prev =>
      match next.filter fun next => mm.mergesBefore endAddr request pglen next &&
          isMergeableAnonVma (mm.area prev).anonVma (mm.area next).anonVma with
      | some next =>
        -- cases 1, 6
        (some prev, mm.vmaAdjust prev (mm.area prev).vmStart (mm.area next).vmEnd
          (mm.area prev).vmPgoff none)
      | none =>
        -- cases 2, 5, 7
        (some prev, mm.vmaAdjust prev (mm.area prev).vmStart endAddr (mm.area prev).vmPgoff none)
    | none =>
      match area, next.filter (mm.mergesBefore endAddr request pglen) with
      | some area, some next =>
        match prev.filter fun prev => addr < (mm.area prev).vmEnd with
        | some prev =>
          -- case 4
          (some area, mm.vmaAdjust prev (mm.area prev).vmStart addr (mm.area prev).vmPgoff none)
        | none =>
          -- cases 3, 8
          (some area, mm.vmaAdjust area addr (mm.area next).vmEnd
            ((mm.area next).vmPgoff - pglen) none)
      | _, _ => (none, mm)

/-- The `vma_merge` that `mmap_region` tries before it makes a new area. -/
def mmapMerge (addr endAddr : ℕ) (request : Request) : Option Vma × Mm :=
  mm.vmaMerge (mm.findVmaPrepare addr).prev addr endAddr request

/-- `vma->vm_flags = newflags`, in `mprotect_fixup`. -/
def setFlags (vma : Vma) (newflags : Flags) : Mm :=
  mm.setArea vma { mm.area vma with vmFlags := newflags }

def findVmaLoop (addr : ℕ) : RbRoot Vma → Option Vma → Option Vma
  | .leaf, vma => vma
  | .node _ left tmp right, vma =>
    if addr < (mm.area tmp).vmEnd then
      if (mm.area tmp).vmStart ≤ addr then some tmp
      else findVmaLoop addr left (some tmp)
    else findVmaLoop addr right vma

/-- The cached area, if the address lies in it. -/
def cacheHit (addr : ℕ) : Option Vma :=
  mm.mmapCache.filter fun vma => addr < (mm.area vma).vmEnd && (mm.area vma).vmStart ≤ addr

def findVma (addr : ℕ) : Option Vma × Mm :=
  match mm.cacheHit addr with
  | some vma => (some vma, mm)
  | none =>
    match mm.findVmaLoop addr mm.mmRb none with
    | some vma => (some vma, { mm with mmapCache := some vma })
    | none => (none, mm)

def findVmaPrevLoop (addr : ℕ) : RbRoot Vma → Option Vma → Option Vma
  | .leaf, prev => prev
  | .node _ left tmp right, prev =>
    if addr < (mm.area tmp).vmEnd then findVmaPrevLoop addr left prev
    else
      match mm.vmNext tmp with
      | none => some tmp
      | some next =>
        if addr < (mm.area next).vmEnd then some tmp
        else findVmaPrevLoop addr right (some tmp)

/-- `find_vma_prev`: the area and its predecessor `*pprev`. -/
def findVmaPrev (addr : ℕ) : Option Vma × Option Vma :=
  match mm.findVmaPrevLoop addr mm.mmRb none with
  | some prev => (mm.vmNext prev, some prev)
  | none => (mm.mmap.head?, none)

/-- The predecessor that `sys_mprotect` hands to `mprotect_fixup` for a range
inside `vma`. -/
def mprotectPrev (vma : Vma) (start : ℕ) : Option Vma :=
  if (mm.area vma).vmStart < start then some vma else (mm.findVmaPrev start).2

/-- What `mprotect_fixup` asks `vma_merge` for. -/
def mprotectRequest (vma : Vma) (start : ℕ) (newflags : Flags) : Request where
  vmFlags := newflags
  anonVma := (mm.area vma).anonVma
  file := (mm.area vma).vmFile
  pgoff := (mm.area vma).vmPgoff + pages (mm.area vma).vmStart start
  policy := (mm.area vma).vmPolicy

/-- The `vma_merge` that `mprotect_fixup` tries first. -/
def mprotectMerge (vma : Vma) (start endAddr : ℕ) (newflags : Flags) : Option Vma × Mm :=
  mm.vmaMerge (mm.mprotectPrev vma start) start endAddr (mm.mprotectRequest vma start newflags)

/-- The loop of `detach_vmas_to_be_unmapped`, on the list from `vma` on: the
rest of the list, the tree and the count. -/
def detachLoop (endAddr : ℕ) : List Vma → RbRoot Vma → ℤ → List Vma × RbRoot Vma × ℤ
  | [], root, count => ([], root, count)
  | [vma], root, count => ([], rbErase vma root, count - 1)
  | vma :: next :: rest, root, count =>
    if (mm.area next).vmStart < endAddr then
      detachLoop endAddr (next :: rest) (rbErase vma root) (count - 1)
    else (next :: rest, rbErase vma root, count - 1)

/-- `detach_vmas_to_be_unmapped`, on the list after `prev`. -/
def detachVmasToBeUnmapped (prev : Option Vma) (endAddr : ℕ) : Mm :=
  let list := match prev with
    | some prev => following prev mm.mmap
    | none => mm.mmap
  match mm.detachLoop endAddr list mm.mmRb mm.mapCount with
  | (rest, root, count) =>
    { mm with
      mmap := match prev with
        | some prev => upTo prev mm.mmap ++ rest
        | none => rest
      mmRb := root
      mapCount := count
      mmapCache := none
      bug := mm.bug || list.isEmpty }

end Mm

/-- One call of the area allocator: it fails or hands out a struct that is not
in use. -/
structure Allocation where
  pick : List Vma → Option Vma
  fresh : ∀ live vma, pick live = some vma → vma ∉ live

/-- The outcomes of the fallible calls in `split_vma`: the allocation of the
new area and whether `mpol_dup` succeeds. -/
structure Attempt where
  alloc : Allocation
  mpolDup : Bool

namespace Mm

variable (mm : Mm)

/-- The copy of `vma` that becomes the lower or the upper part. -/
def splitPart (vma : Vma) (addr : ℕ) (newBelow : Bool) : Area :=
  if newBelow then { mm.area vma with vmEnd := addr }
  else
    { mm.area vma with
      vmStart := addr
      vmPgoff := (mm.area vma).vmPgoff + pages (mm.area vma).vmStart addr }

def splitVma (sysctlMaxMapCount : ℤ) (attempt : Attempt) (vma : Vma) (addr : ℕ)
    (newBelow : Bool) : Except Errno Unit × Mm :=
  if sysctlMaxMapCount ≤ mm.mapCount then (.error .enomem, mm)
  else
    match attempt.alloc.pick mm.mmap with
    | none => (.error .enomem, mm)
    | some new =>
      let copied := mm.setArea new (mm.splitPart vma addr newBelow)
      if attempt.mpolDup then
        if newBelow then
          (.ok (), copied.vmaAdjust vma addr (mm.area vma).vmEnd
            ((mm.area vma).vmPgoff + pages (mm.area vma).vmStart addr) (some new))
        else
          (.ok (), copied.vmaAdjust vma (mm.area vma).vmStart addr (mm.area vma).vmPgoff (some new))
      else (.error .enomem, copied)

/-- The second half of `do_munmap`, once no area straddles the start: split the
last area and detach what lies between. -/
def munmapFrom (sysctlMaxMapCount : ℤ) (attempt : Attempt) (prev : Option Vma) (endAddr : ℕ) :
    Except Errno Unit × Mm :=
  match mm.findVma endAddr with
  | (last, mm) =>
    let split : Except Errno Unit × Mm := match last with
      | some last =>
        if (mm.area last).vmStart < endAddr then
          mm.splitVma sysctlMaxMapCount attempt last endAddr true
        else (.ok (), mm)
      | none => (.ok (), mm)
    match split with
    | (.error errno, mm) => (.error errno, mm)
    | (.ok (), mm) => (.ok (), mm.detachVmasToBeUnmapped prev endAddr)

def doMunmap (sysctlMaxMapCount : ℤ) (lower upper : Attempt) (start len : ℕ) :
    Except Errno Unit × Mm :=
  if start % pageSize ≠ 0 ∨ taskSize < start ∨ taskSize - start < len then (.error .einval, mm)
  else if pageAlign len = 0 then (.error .einval, mm)
  else
    match mm.findVmaPrev start with
    | (none, _) => (.ok (), mm)
    | (some vma, prev) =>
      let endAddr := start + pageAlign len
      if endAddr ≤ (mm.area vma).vmStart then (.ok (), mm)
      else if (mm.area vma).vmStart < start then
        match mm.splitVma sysctlMaxMapCount lower vma start false with
        | (.error errno, mm) => (.error errno, mm)
        | (.ok (), mm) => mm.munmapFrom sysctlMaxMapCount upper (some vma) endAddr
      else mm.munmapFrom sysctlMaxMapCount upper prev endAddr

end Mm

end KernelM5040.Mmap
