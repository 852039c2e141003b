import KernelM5040.Core.Word

/-!
# Areas of the vmalloc space: mm/vmalloc.c

`vmlist` is the list of the areas in use.  Addresses and sizes are `unsigned long`,
and the size of an area in the list includes its guard page.
-/

namespace KernelM5040.Vmalloc

open Word

def pageShift : ℕ := 14

def pageSize : ℕ := 2 ^ pageShift

def vmIoremap : ℕ := 0x00000001

def ioremapMaxOrder : ℕ := 7 + pageShift

/-- `struct vm_struct`, without its link -/
structure VmStruct where
  addr : ℕ
  size : ℕ
  flags : ℕ
  pages : Option ℕ
  nrPages : ℕ
  physAddr : ℕ
  caller : ℕ
  deriving DecidableEq

/-- Where an area ends. -/
def VmStruct.stop (area : VmStruct) : ℕ := area.addr + area.size

/-- `fls`, whose argument is an `int` -/
def fls (value : ℕ) : ℕ := Nat.size (value % 2 ^ 32)

/-- The alignment that `__get_vm_area_node` computes first. -/
def alignOf (size flags : ℕ) : ℕ :=
  if flags &&& vmIoremap ≠ 0 then
    let bit := fls size
    let bit :=
      if bit > ioremapMaxOrder then ioremapMaxOrder
      else if bit < pageShift then pageShift
      else bit
    2 ^ bit
  else 1

def pageAlign (size : ℕ) : ℕ := align size pageSize

/-- The size of an area with its guard page. -/
def guarded (size : ℕ) : ℕ := word (pageAlign size + pageSize)

/-- The walk of `__get_vm_area_node` along the list from an address on; the new list and the
address found, if any. -/
def walk (mult size stop : ℕ) (area : ℕ → VmStruct) : ℕ → List VmStruct →
    Option (List VmStruct × ℕ)
  | addr, [] =>
    if word (size + addr) < addr then none
    else if addr > minus stop size then none
    else some ([area addr], addr)
  | addr, tmp :: next =>
    if tmp.addr < addr then
      let addr :=
        if word (tmp.addr + tmp.size) ≥ addr then align (word (tmp.size + tmp.addr)) mult
        else addr
      (walk mult size stop area addr next).map fun result => (tmp :: result.1, result.2)
    else if word (size + addr) < addr then none
    else if word (size + addr) ≤ tmp.addr then some (area addr :: tmp :: next, addr)
    else
      let addr := align (word (tmp.size + tmp.addr)) mult
      if addr > minus stop size then none
      else (walk mult size stop area addr next).map fun result => (tmp :: result.1, result.2)

/-- `__get_vm_area_node`; `kmalloc` says whether a descriptor could be allocated. -/
def getVmAreaNode (kmalloc : Bool) (vmlist : List VmStruct) (size flags start stop caller : ℕ) :
    List VmStruct × Option VmStruct :=
  let mult := alignOf size flags
  let addr := align start mult
  if pageAlign size = 0 then (vmlist, none)
  else if kmalloc = false then (vmlist, none)
  else
    let area := fun addr => ⟨addr, guarded size, flags, none, 0, 0, caller⟩
    match walk mult (guarded size) stop area addr vmlist with
    | none => (vmlist, none)
    | some (vmlist', addr) => (vmlist', some (area addr))

def removeVmArea (addr : ℕ) : List VmStruct → List VmStruct × Option VmStruct
  | [] => ([], none)
  | tmp :: next =>
    if tmp.addr = addr then (next, some { tmp with size := minus tmp.size pageSize })
    else
      let (next', removed) := removeVmArea addr next
      (tmp :: next', removed)

end KernelM5040.Vmalloc
