import KernelM5040.Core.FindNext

/-!
# Allocating process numbers: kernel/pid.c

The numbers of a pid namespace are bits in pages of a bitmap, each with a count of
the bits that are clear; a page is allocated when its first number is needed.
`alloc_pidmap` goes round the pages, from behind the number it gave out last.
-/

namespace KernelM5040.Pid

open FindNext Function

def reservedPids : ℕ := 300

/-- `BITS_PER_PAGE` with pages of 16K -/
def bitsPerPage : ℕ := 131072

/-- `struct pid_namespace` with its `struct pidmap`s; a page that is not there is nothing. -/
structure PidNamespace where
  page : ℕ → Option (ℕ → Bool)
  nrFree : ℕ → ℕ
  lastPid : ℕ

namespace PidNamespace

variable (ns : PidNamespace)

/-- The bits of a page, those of a page that is not there being clear. -/
def bits (map : ℕ) : ℕ → Bool := (ns.page map).getD fun _ => false

/-- The number is in use. -/
def used (pid : ℕ) : Bool := ns.bits (pid / bitsPerPage) (pid % bitsPerPage)

/-- The page that `kzalloc` gives. -/
def provide (map : ℕ) : PidNamespace :=
  { ns with page := update ns.page map (some (ns.bits map)) }

/-- `test_and_set_bit` with the count that goes with it, and `last_pid`. -/
def take (map offset : ℕ) : PidNamespace where
  page := update ns.page map (some (update (ns.bits map) offset true))
  nrFree := update ns.nrFree map (ns.nrFree map - 1)
  lastPid := map * bitsPerPage + offset

def freePidmap (pid : ℕ) : PidNamespace :=
  let map := pid / bitsPerPage
  { ns with
    page := update ns.page map (some (update (ns.bits map) (pid % bitsPerPage) false))
    nrFree := update ns.nrFree map (ns.nrFree map + 1) }

def findNextOffset (map offset : ℕ) : ℕ :=
  findNext (fun bit => !ns.bits map bit) (bitsPerPage - offset) offset

/-- The inner loop of `alloc_pidmap` over one page, with the offset it finds; `final` says that it
is the last page to be looked at.  Nothing is a loop that does not end. -/
def searchPage (pidMax last map : ℕ) (final : Bool) : ℕ → ℕ → Option (Option ℕ)
  | 0, _ => none
  | turns + 1, offset =>
    if !ns.bits map offset then some (some offset)
    else
      let offset := ns.findNextOffset map offset
      let pid := map * bitsPerPage + offset
      if offset < bitsPerPage ∧ pid < pidMax ∧
          (final = false ∨ pid < last ∨ (last + 1) % bitsPerPage = 0) then
        searchPage pidMax last map final turns offset
      else some none

end PidNamespace

/-- The outer loop of `alloc_pidmap`; the first number is how many turns are left after this one,
and `kzalloc` says whether there is memory for a page. -/
def allocLoop (kzalloc : ℕ → Bool) (pidMax last : ℕ) :
    ℕ → PidNamespace → ℕ → ℕ → Option (PidNamespace × Option ℕ)
  | left, ns, map, offset =>
    if (ns.page map).isNone ∧ kzalloc map = false then some (ns, none)
    else
      let ns := ns.provide map
      let searched :=
        if ns.nrFree map ≠ 0 then
          ns.searchPage pidMax last map (left = 0) (bitsPerPage + 1) offset
        else some none
      match searched with
      | none => none
      | some (some found) => some (ns.take map found, some (map * bitsPerPage + found))
      | some none =>
        if map < (pidMax - 1) / bitsPerPage then
          match left with
          | 0 => some (ns, none)
          | left + 1 => allocLoop kzalloc pidMax last left ns (map + 1) 0
        else if last = reservedPids then some (ns, none)
        else
          match left with
          | 0 => some (ns, none)
          | left + 1 => allocLoop kzalloc pidMax last left ns 0 reservedPids

/-- `alloc_pidmap`; the number is nothing for the result -1. -/
def allocPidmap (kzalloc : ℕ → Bool) (pidMax : ℕ) (ns : PidNamespace) :
    Option (PidNamespace × Option ℕ) :=
  let last := ns.lastPid
  let pid := if last + 1 ≥ pidMax then reservedPids else last + 1
  let offset := pid % bitsPerPage
  let maxScan := (pidMax + bitsPerPage - 1) / bitsPerPage - (if offset = 0 then 1 else 0)
  allocLoop kzalloc pidMax last maxScan ns (pid / bitsPerPage) offset

end KernelM5040.Pid
