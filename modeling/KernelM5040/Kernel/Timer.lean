import Mathlib
import KernelM5040.Core.Buckets

/-!
# The timer wheel: kernel/timer.c

Pending timers hang in five vectors of lists, the first by the tick at which
they expire, the others by ever coarser spans of ticks.  Processing a tick
first moves the lists whose span begins there down to finer vectors
(`cascade`), then detaches the list of that tick.
-/

namespace KernelM5040.Timer

/-- `unsigned long`. -/
abbrev Word := BitVec 64

section Sizes

-- CONFIG_BASE_SMALL
variable (baseSmall : Bool)

def tvnBits : ℕ := if baseSmall then 4 else 6

def tvrBits : ℕ := if baseSmall then 6 else 8

def tvnSize : ℕ := 1 <<< tvnBits baseSmall

def tvrSize : ℕ := 1 <<< tvrBits baseSmall

def tvnMask : Word := BitVec.ofNat 64 (tvnSize baseSmall - 1)

def tvrMask : Word := BitVec.ofNat 64 (tvrSize baseSmall - 1)

end Sizes

/-- The vectors of `struct tvec_base`. -/
inductive Vec
  | tv1
  | tv2
  | tv3
  | tv4
  | tv5
  deriving DecidableEq, Repr

/-- A list head: a vector and an index into it. -/
abbrev Slot := Vec × ℕ

/-- `struct tvec_base` with the two fields of its timers that take part. -/
structure Base where
  timerJiffies : Word
  vec : Slot → List ℕ
  expires : ℕ → Word
  -- timer_pending: entry.next is not NULL
  timerPending : ℕ → Bool

section Wheel

variable (baseSmall : Bool)

/-- The list that `internal_add_timer` chooses. -/
def chooseVec (timerJiffies expires : Word) : Slot :=
  let tvr := tvrBits baseSmall
  let tvn := tvnBits baseSmall
  let idx := expires - timerJiffies
  if idx.toNat < tvrSize baseSmall then
    (.tv1, (expires &&& tvrMask baseSmall).toNat)
  else if idx.toNat < 1 <<< (tvr + tvn) then
    (.tv2, ((expires >>> tvr) &&& tvnMask baseSmall).toNat)
  else if idx.toNat < 1 <<< (tvr + 2 * tvn) then
    (.tv3, ((expires >>> (tvr + tvn)) &&& tvnMask baseSmall).toNat)
  else if idx.toNat < 1 <<< (tvr + 3 * tvn) then
    (.tv4, ((expires >>> (tvr + 2 * tvn)) &&& tvnMask baseSmall).toNat)
  else if idx.toInt < 0 then
    -- the expiry has passed: the next list to be processed
    (.tv1, (timerJiffies &&& tvrMask baseSmall).toNat)
  else
    let expires := if 0xffffffff < idx.toNat then 0xffffffff + timerJiffies else expires
    (.tv5, ((expires >>> (tvr + 3 * tvn)) &&& tvnMask baseSmall).toNat)

variable (base : Base)

def internalAddTimer (timer : ℕ) : Base :=
  let slot := chooseVec baseSmall base.timerJiffies (base.expires timer)
  { base with
    vec := Buckets.push base.vec slot timer
    timerPending := Function.update base.timerPending timer true }

/-- `cascade` without its return value, which is the index. -/
def cascade (tv : Vec) (index : ℕ) : Base :=
  let tvList := base.vec (tv, index)
  tvList.foldl (internalAddTimer baseSmall) { base with vec := Buckets.drain base.vec (tv, index) }

/-- `INDEX(N)`. -/
def Base.index (level : ℕ) : ℕ :=
  ((base.timerJiffies >>> (tvrBits baseSmall + level * tvnBits baseSmall)) &&&
    tvnMask baseSmall).toNat

/-- The chain of cascades at the start of a tick: each one only when the index
of the one before was 0. -/
def cascadeTimers (index : ℕ) : Base :=
  if index = 0 then
    let base2 := cascade baseSmall base .tv2 (base.index baseSmall 0)
    if base.index baseSmall 0 = 0 then
      let base3 := cascade baseSmall base2 .tv3 (base2.index baseSmall 1)
      if base2.index baseSmall 1 = 0 then
        let base4 := cascade baseSmall base3 .tv4 (base3.index baseSmall 2)
        if base3.index baseSmall 2 = 0 then
          cascade baseSmall base4 .tv5 (base4.index baseSmall 3)
        else base4
      else base3
    else base2
  else base

/-- One round of the outer loop of `__run_timers` up to its inner loop: the
base, and the work list. -/
def startTick : Base × List ℕ :=
  let index := (base.timerJiffies &&& tvrMask baseSmall).toNat
  let base := cascadeTimers baseSmall base index
  ({ base with
      timerJiffies := base.timerJiffies + 1
      vec := Buckets.drain base.vec (.tv1, index) },
    base.vec (.tv1, index))

end Wheel

/-- `time_after_eq(a, b)`. -/
def timeAfterEq (a b : Word) : Bool := decide (0 ≤ (a - b).toInt)

/-- The base, the clock and the work list of `__run_timers`, empty outside its
inner loop. -/
structure State where
  base : Base
  jiffies : Word
  workList : List ℕ

/-- `detach_timer(timer, 1)`: out of whichever list the timer hangs in. -/
def detachTimer (state : State) (timer : ℕ) : State :=
  { state with
    base := { state.base with
      vec := Buckets.remove state.base.vec timer
      timerPending := Function.update state.base.timerPending timer false }
    workList := state.workList.erase timer }

/-- What can happen while the lock of the base is free, and the two points at
which `__run_timers` holds it. -/
inductive Op
  /-- the clock interrupt -/
  | advance (ticks : ℕ)
  /-- `add_timer`, or the second half of `__mod_timer` -/
  | add (timer : ℕ) (expires : Word)
  /-- `del_timer`, or the first half of `__mod_timer` -/
  | remove (timer : ℕ)
  /-- `__run_timers` starts the next round of its outer loop -/
  | tick
  /-- `__run_timers` detaches the first timer of the work list and calls it -/
  | execute (timer : ℕ)

def step (baseSmall : Bool) (state : State) : Op → Option State
  | .advance ticks => some { state with jiffies := state.jiffies + BitVec.ofNat 64 ticks }
  | .add timer expires =>
    if state.base.timerPending timer then none
    else
      let base := { state.base with expires := Function.update state.base.expires timer expires }
      some { state with base := internalAddTimer baseSmall base timer }
  | .remove timer =>
    if state.base.timerPending timer then some (detachTimer state timer) else none
  | .tick =>
    if state.workList.isEmpty && timeAfterEq state.jiffies state.base.timerJiffies then
      let (base, workList) := startTick baseSmall state.base
      some { state with base := base, workList := workList }
    else none
  | .execute timer =>
    if state.workList.head? = some timer then some (detachTimer state timer) else none

def run (baseSmall : Bool) (state : State) : List Op → Option State
  | [] => some state
  | op :: ops => (step baseSmall state op).bind fun next => run baseSmall next ops

/-- `init_timers_cpu`: empty lists. -/
def State.init (timerJiffies jiffies : Word) : State :=
  { base :=
      { timerJiffies := timerJiffies
        vec := fun _ => []
        expires := fun _ => 0
        timerPending := fun _ => false }
    jiffies := jiffies
    workList := [] }

end KernelM5040.Timer
