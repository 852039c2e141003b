import KernelM5040.Core.PriorityList

/-!
# Mutexes with priority inheritance: kernel/rtmutex.c

Each mutex has a list of waiters, each task a list of the top waiters of the
mutexes that it owns.  A smaller number is a higher priority.  The operations
run without interference: a task goes on until it sleeps or returns.
-/

namespace KernelM5040.RtMutex

open Function

variable {Task Lock : Type}

/-- The tasks and the mutexes.  A waiter is on the stack of its task and is named by it.
`blockedOn` is `pi_blocked_on->lock`; `waiting` says in which call of `rt_mutex_slowlock` a task
sleeps, with its argument `detect_deadlock`. -/
structure State (Task Lock : Type) where
  owner : Lock → Option Task
  pending : Lock → Bool
  waitList : Lock → List Task
  piWaiters : Task → List Task
  blockedOn : Task → Option Lock
  listPrio : Task → ℕ
  piPrio : Task → ℕ
  normalPrio : Task → ℕ
  prio : Task → ℕ
  waiting : Task → Option (Lock × Bool)

/-- What the functions return. -/
inductive Ret
  | ok
  | edeadlk
  | eintr
  deriving DecidableEq, Repr

/-- `deadlock_detect ? -EDEADLK : 0` -/
def verdict (deadlockDetect : Bool) : Ret := if deadlockDetect then .edeadlk else .ok

/-- What tasks do. -/
inductive Op (Task Lock : Type)
  | lock (current : Task) (lock : Lock) (detectDeadlock signal : Bool)
  | wake (current : Task) (signal : Bool)
  | unlock (current : Task) (lock : Lock)
  | setScheduler (task : Task) (normalPrio : ℕ)
  deriving DecidableEq

namespace State

/-- `rt_mutex_top_waiter` -/
def topWaiter (s : State Task Lock) (lock : Lock) : Option Task := (s.waitList lock).head?

/-- `task_top_pi_waiter` -/
def topPiWaiter (s : State Task Lock) (task : Task) : Option Task := (s.piWaiters task).head?

/-- `rt_mutex_getprio` -/
def getprio (s : State Task Lock) (task : Task) : ℕ :=
  match s.topPiWaiter task with
  | none => s.normalPrio task
  | some waiter => min (s.piPrio waiter) (s.normalPrio task)

variable [DecidableEq Task] [DecidableEq Lock] (maxLockDepth : ℕ) (s : State Task Lock)

section

variable (lock : Lock) (task waiter current : Task)

/-- `__rt_mutex_adjust_prio` -/
def adjustPrio : State Task Lock :=
  { s with prio := update s.prio task (s.getprio task) }

/-- `plist_add(&waiter->list_entry, &lock->wait_list)` -/
def waitAdd : State Task Lock :=
  { s with
    waitList :=
      update s.waitList lock (PriorityList.insert s.listPrio waiter (s.waitList lock)) }

/-- `plist_del(&waiter->list_entry, &lock->wait_list)` -/
def waitDel : State Task Lock :=
  { s with waitList := update s.waitList lock ((s.waitList lock).erase waiter) }

/-- `plist_add(&waiter->pi_list_entry, &task->pi_waiters)` -/
def piAdd : State Task Lock :=
  { s with
    piWaiters :=
      update s.piWaiters task (PriorityList.insert s.piPrio waiter (s.piWaiters task)) }

/-- `plist_del(&waiter->pi_list_entry, &task->pi_waiters)` -/
def piDel : State Task Lock :=
  { s with piWaiters := update s.piWaiters task ((s.piWaiters task).erase waiter) }

/-- `waiter->list_entry.prio = task->prio` -/
def setListPrio : State Task Lock :=
  { s with listPrio := update s.listPrio waiter (s.prio waiter) }

/-- `waiter->pi_list_entry.prio = waiter->list_entry.prio` -/
def setPiPrio : State Task Lock :=
  { s with piPrio := update s.piPrio waiter (s.listPrio waiter) }

/-- `rt_mutex_set_owner` -/
def setOwner (pending : Bool) : State Task Lock :=
  { s with
    owner := update s.owner lock (some task)
    pending := update s.pending lock pending }

def setBlockedOn (lock : Option Lock) : State Task Lock :=
  { s with blockedOn := update s.blockedOn task lock }

def setWaiting (call : Option (Lock × Bool)) : State Task Lock :=
  { s with waiting := update s.waiting task call }

/-! ## The chain -/

/-- `rt_mutex_adjust_prio_chain`: requeue the waiter. -/
def requeue : State Task Lock :=
  ((s.waitDel lock waiter).setListPrio waiter).waitAdd lock waiter

/-- `rt_mutex_adjust_prio_chain`: boost or deboost the owner, whose mutex had this top waiter
before; and the waiter to go on with. -/
def adjustOwner (owner waiter : Task) (top : Option Task) : State Task Lock × Task :=
  if s.topWaiter lock = some waiter then
    ((((s.piDel owner (top.getD waiter)).setPiPrio waiter).piAdd owner waiter).adjustPrio owner,
      waiter)
  else if top = some waiter then
    match s.topWaiter lock with
    | none => (s, waiter)
    | some next =>
      ((((s.piDel owner waiter).setPiPrio next).piAdd owner next).adjustPrio owner, next)
  else (s, waiter)

/-- `rt_mutex_adjust_prio_chain`; the first number is the depth that is left. -/
def adjustPrioChain (deadlockDetect : Bool) (origLock : Option Lock) (origWaiter : Option Task)
    (topTask : Task) : ℕ → State Task Lock → Task → Option Task → State Task Lock × Ret
  | 0, s, _, _ => (s, verdict deadlockDetect)
  | depth + 1, s, task, topWaiter =>
    match s.blockedOn task with
    | none => (s, .ok)
    | some lock =>
      if (origWaiter.map s.blockedOn) = some none then (s, .ok)
      else if topWaiter ≠ none ∧ s.topPiWaiter task ≠ topWaiter then (s, .ok)
      else if deadlockDetect = false ∧ s.listPrio task = s.prio task then (s, .ok)
      else if origLock = some lock ∨ s.owner lock = some topTask then
        (s, verdict deadlockDetect)
      else
        match s.owner lock with
        | none => (s, .ok)
        | some owner =>
          let adjusted := (s.requeue lock task).adjustOwner lock owner task (s.topWaiter lock)
          if deadlockDetect = false ∧ adjusted.1.topWaiter lock ≠ some adjusted.2 then
            (adjusted.1, .ok)
          else
            adjustPrioChain deadlockDetect origLock origWaiter topTask depth adjusted.1 owner
              (adjusted.1.topWaiter lock)

/-! ## Taking a mutex -/

/-- `try_to_steal_lock` for a pending owner who is another task. -/
def stealLock (pendowner current : Task) : State Task Lock :=
  match s.topWaiter lock with
  | none => s
  | some next =>
    let s := (s.piDel pendowner next).adjustPrio pendowner
    if next = current then s else (s.piAdd current next).adjustPrio current

/-- `try_to_take_rt_mutex`; nothing changes where it fails. -/
def tryToTake : Option (State Task Lock) :=
  match s.owner lock with
  | none => some (s.setOwner lock current false)
  | some pendowner =>
    if s.pending lock = false then none
    else if pendowner = current then some (s.setOwner lock current false)
    else if s.prio pendowner ≤ s.prio current then none
    else some ((s.stealLock lock pendowner current).setOwner lock current false)

/-- `task_blocks_on_rt_mutex`: the waiter is set up and queued. -/
def enqueue : State Task Lock :=
  ((((s.adjustPrio current).setListPrio current).setPiPrio current).waitAdd lock
    current).setBlockedOn current (some lock)

/-- `task_blocks_on_rt_mutex` -/
def taskBlocks (detectDeadlock : Bool) : State Task Lock × Ret :=
  match s.owner lock with
  | none => (s, .ok)
  | some owner =>
    let queued := s.enqueue lock current
    let chain (s : State Task Lock) :=
      adjustPrioChain detectDeadlock (some lock) (some current) current maxLockDepth s owner
        (some current)
    if queued.topWaiter lock = some current then
      let boosted := ((queued.piDel owner ((s.topWaiter lock).getD current)).piAdd owner
        current).adjustPrio owner
      if boosted.blockedOn owner = none then (boosted, .ok) else chain boosted
    else if detectDeadlock then chain queued
    else (queued, .ok)

/-- `remove_waiter`: the waiter leaves the mutex. -/
def removed : State Task Lock :=
  (s.waitDel lock current).setBlockedOn current none

/-- `remove_waiter`: the next waiter takes the place of the top waiter in the owner's list. -/
def relinked (owner current : Task) : State Task Lock :=
  match (s.removed lock current).topWaiter lock with
  | none => (s.removed lock current).piDel owner current
  | some next => ((s.removed lock current).piDel owner current).piAdd owner next

def removeWaiter : State Task Lock :=
  match s.owner lock with
  | none => s.removed lock current
  | some owner =>
    if s.topWaiter lock = some current ∧ owner ≠ current then
      let adjusted := (s.relinked lock owner current).adjustPrio owner
      if adjusted.blockedOn owner = none then adjusted
      else
        (adjustPrioChain false (some lock) none current maxLockDepth adjusted owner none).1
    else s.removed lock current

/-- The end of `rt_mutex_slowlock` without the mutex. -/
def giveUp : State Task Lock :=
  let s := if s.blockedOn current = none then s else s.removeWaiter maxLockDepth lock current
  (s.adjustPrio current).setWaiting current none

/-- The part of the loop of `rt_mutex_slowlock` from `task_blocks_on_rt_mutex` on, up to the next
sleep. -/
def block (detectDeadlock : Bool) : State Task Lock × Ret :=
  let blocked := s.taskBlocks maxLockDepth lock current detectDeadlock
  if blocked.2 = .ok then
    (blocked.1.setWaiting current (some (lock, detectDeadlock)), .ok)
  else (blocked.1.giveUp maxLockDepth lock current, blocked.2)

def wakeupNextWaiter (pendowner : Task) : State Task Lock :=
  let s := ((((s.waitDel lock pendowner).piDel current pendowner).setOwner lock pendowner
    true).setBlockedOn pendowner none)
  match s.topWaiter lock with
  | none => s
  | some next => s.piAdd pendowner next

/-- `rt_mutex_slowunlock` -/
def unlock : State Task Lock :=
  match s.topWaiter lock with
  | none => { s with owner := update s.owner lock none }
  | some pendowner => (s.wakeupNextWaiter lock current pendowner).adjustPrio current

end

/-! ## The operations -/

/-- `rt_mutex_lock` and its variants, up to the first sleep; `signal` says whether a signal is
pending or the timeout is over. -/
def lock (lock : Lock) (current : Task) (detectDeadlock signal : Bool) : State Task Lock × Ret :=
  match s.tryToTake lock current with
  | some taken => (taken, .ok)
  | none =>
    if signal then (s.giveUp maxLockDepth lock current, .eintr)
    else s.block maxLockDepth lock current detectDeadlock

/-- A sleeping task runs until it sleeps again or leaves `rt_mutex_slowlock`. -/
def wake (current : Task) (signal : Bool) : State Task Lock × Ret :=
  match s.waiting current with
  | none => (s, .ok)
  | some (lock, detectDeadlock) =>
    match s.tryToTake lock current with
    | some taken =>
      let left :=
        if taken.blockedOn current = none then taken
        else taken.removeWaiter maxLockDepth lock current
      (left.setWaiting current none, .ok)
    | none =>
      if signal then (s.giveUp maxLockDepth lock current, .eintr)
      else if s.blockedOn current = none then s.block maxLockDepth lock current detectDeadlock
      else (s, .ok)

/-- `__setscheduler` with the new `normal_prio`. -/
def newPrio (task : Task) (normalPrio : ℕ) : State Task Lock :=
  { s with normalPrio := update s.normalPrio task normalPrio }.adjustPrio task

/-- `__setscheduler`, and then `rt_mutex_adjust_pi`. -/
def setScheduler (task : Task) (normalPrio : ℕ) : State Task Lock :=
  let s := s.newPrio task normalPrio
  if s.blockedOn task = none ∨ s.listPrio task = s.prio task then s
  else (adjustPrioChain false none none task maxLockDepth s task none).1

/-- A task that sleeps in `rt_mutex_slowlock` can only wake up, and only the owner unlocks. -/
def Enabled : Op Task Lock → Prop
  | .lock current _ _ _ => s.waiting current = none
  | .wake current _ => s.waiting current ≠ none
  | .unlock current lock =>
    s.waiting current = none ∧ s.owner lock = some current ∧ s.pending lock = false
  | .setScheduler _ _ => True

instance : (op : Op Task Lock) → Decidable (s.Enabled op)
  | .lock current _ _ _ => inferInstanceAs (Decidable (s.waiting current = none))
  | .wake current _ => inferInstanceAs (Decidable (s.waiting current ≠ none))
  | .unlock current lock => inferInstanceAs (Decidable
      (s.waiting current = none ∧ s.owner lock = some current ∧ s.pending lock = false))
  | .setScheduler _ _ => inferInstanceAs (Decidable True)

def perform : Op Task Lock → State Task Lock
  | .lock current lock detectDeadlock signal =>
    (s.lock maxLockDepth lock current detectDeadlock signal).1
  | .wake current signal => (s.wake maxLockDepth current signal).1
  | .unlock current lock => s.unlock lock current
  | .setScheduler task normalPrio => s.setScheduler maxLockDepth task normalPrio

/-- Free mutexes and no waiters. -/
def initial (normalPrio : Task → ℕ) : State Task Lock where
  owner := fun _ => none
  pending := fun _ => false
  waitList := fun _ => []
  piWaiters := fun _ => []
  blockedOn := fun _ => none
  listPrio := fun _ => 0
  piPrio := fun _ => 0
  normalPrio := normalPrio
  prio := normalPrio
  waiting := fun _ => none

/-- The states that operations lead to, if only some of them are done. -/
inductive Reachable (Allowed : State Task Lock → Op Task Lock → Prop) : State Task Lock → Prop
  | initial (normalPrio : Task → ℕ) : Reachable Allowed (initial normalPrio)
  | perform {s : State Task Lock} (op : Op Task Lock) (hreachable : Reachable Allowed s)
      (henabled : s.Enabled op) (hallowed : Allowed s op) :
      Reachable Allowed (s.perform maxLockDepth op)

end State

end KernelM5040.RtMutex
