import Mathlib

/-!
# POSIX record locks

Model of `__posix_lock_file` in `fs/locks.c` with its conflict check, deadlock
detection and wait queues.  A `struct file_lock` is a number, and the state maps
it to its fields.  An inode's list is a list of such numbers; a position
`before` in it is the list of locks already passed together with the rest.
-/

namespace KernelM5040.Locks

open Function

inductive LockType
  | rdlck
  | wrlck
  | unlck
  deriving DecidableEq

/-- The fields of a `struct file_lock` that the functions below read.  Two
locks have the same owner when `posix_same_owner` says so, so `flOwner` stands
for everything that it compares. -/
structure FileLock (Owner : Type*) where
  flOwner : Owner
  isPosix : Bool
  flAccess : Bool
  flSleep : Bool
  flExists : Bool
  flType : LockType
  flStart : ℤ
  flEnd : ℤ

/-- `iFlock` are the lists of the inodes.  `flNext` is the blocker of a waiter;
for a lock on an inode's list the source uses the same word as list link.
`flBlock` are the waiters of a lock, in the order in which they came. -/
structure LockState (Owner : Type*) where
  lock : ℕ → FileLock Owner
  iFlock : ℕ → List ℕ
  flBlock : ℕ → List ℕ
  flNext : ℕ → Option ℕ
  blockedList : List ℕ

def offsetMax : ℤ := 2 ^ 63 - 1

def maxDeadlkIterations : ℕ := 10

variable {Owner : Type*} [DecidableEq Owner]

def locksOverlap (fl1 fl2 : FileLock Owner) : Bool :=
  decide (fl2.flStart ≤ fl1.flEnd) && decide (fl1.flStart ≤ fl2.flEnd)

def posixSameOwner (fl1 fl2 : FileLock Owner) : Bool := decide (fl1.flOwner = fl2.flOwner)

def locksConflict (caller sys : FileLock Owner) : Bool :=
  if sys.flType = .wrlck then true
  else if caller.flType = .wrlck then true
  else false

def posixLocksConflict (caller sys : FileLock Owner) : Bool :=
  if !sys.isPosix || posixSameOwner caller sys then false
  else if !locksOverlap caller sys then false
  else locksConflict caller sys

variable (state : LockState Owner)

/-- `__locks_delete_block`, and `locks_delete_block`, which only takes the
kernel lock around it. -/
def locksDeleteBlock (waiter : ℕ) : LockState Owner :=
  { state with
    flBlock := fun blocker => (state.flBlock blocker).filter (· ≠ waiter)
    blockedList := state.blockedList.filter (· ≠ waiter)
    flNext := update state.flNext waiter none }

def locksInsertBlock (blocker waiter : ℕ) : LockState Owner :=
  { state with
    flBlock := update state.flBlock blocker (state.flBlock blocker ++ [waiter])
    flNext := update state.flNext waiter (some blocker)
    blockedList := if (state.lock blocker).isPosix then waiter :: state.blockedList
      else state.blockedList }

/-- `locks_wake_up_blocks`: each waiter is taken off, first to last. -/
def locksWakeUpBlocks (blocker : ℕ) : LockState Owner :=
  (state.flBlock blocker).foldl locksDeleteBlock state

def whatOwnerIsWaitingFor (block : ℕ) : Option ℕ :=
  match state.blockedList.find? fun fl =>
    posixSameOwner (state.lock fl) (state.lock block) with
  | some fl => state.flNext fl
  | none => none

/-- The loop of `posix_locks_deadlock`; with `rounds` left the counter `i` is
`MAX_DEADLK_ITERATIONS + 1 - rounds`, and at zero every answer is no. -/
def posixLocksDeadlockFrom (state : LockState Owner) (caller : ℕ) : ℕ → ℕ → Bool
  | 0, _ => false
  | rounds + 1, block =>
    match whatOwnerIsWaitingFor state block with
    | none => false
    | some block =>
      if posixSameOwner (state.lock caller) (state.lock block) then true
      else posixLocksDeadlockFrom state caller rounds block

def posixLocksDeadlock (caller block : ℕ) : Bool :=
  posixLocksDeadlockFrom state caller (maxDeadlkIterations + 1) block

def setLock (fl : ℕ) (value : FileLock Owner) : LockState Owner :=
  { state with lock := update state.lock fl value }

variable (request fl : ℕ)

/-- The lower start becomes the start of both. -/
def mergeStart : LockState Owner :=
  if (state.lock request).flStart < (state.lock fl).flStart then
    setLock state fl { state.lock fl with flStart := (state.lock request).flStart }
  else setLock state request { state.lock request with flStart := (state.lock fl).flStart }

/-- The higher end becomes the end of both. -/
def mergeEnd : LockState Owner :=
  if (state.lock fl).flEnd < (state.lock request).flEnd then
    setLock state fl { state.lock fl with flEnd := (state.lock request).flEnd }
  else setLock state request { state.lock request with flEnd := (state.lock fl).flEnd }

def mergeRange : LockState Owner :=
  mergeEnd (mergeStart state request fl) request fl

/-- The request takes the place of a lock of another type. -/
def replaceLock : LockState Owner :=
  let state := locksWakeUpBlocks state fl
  setLock state fl { state.lock fl with
    flStart := (state.lock request).flStart
    flEnd := (state.lock request).flEnd
    flType := (state.lock request).flType }

/-- The variables of the loop over the owner's locks. -/
structure Scan (Owner : Type*) where
  state : LockState Owner
  request : ℕ
  left : Option ℕ
  right : Option ℕ
  added : Bool

/-- How a round ends: on to the next lock, on with this one deleted, or out of
the loop. -/
inductive Round (Owner : Type*)
  | next (scan : Scan Owner)
  | delete (scan : Scan Owner)
  | leave (scan : Scan Owner)

variable (scan : Scan Owner)

/-- The body of the loop for the lock `fl`. -/
def scanLock (fl : ℕ) : Round Owner :=
  let request := scan.state.lock scan.request
  let old := scan.state.lock fl
  if request.flType = old.flType then
    if old.flEnd < request.flStart - 1 then .next scan
    else if request.flEnd < old.flStart - 1 then .leave scan
    else
      let state := mergeRange scan.state scan.request fl
      if scan.added then .delete { scan with state := locksWakeUpBlocks state fl }
      else .next { scan with state := state, request := fl, added := true }
  else
    if old.flEnd < request.flStart then .next scan
    else if request.flEnd < old.flStart then .leave scan
    else
      let scan := if request.flType = .unlck then { scan with added := true } else scan
      let scan := if old.flStart < request.flStart then { scan with left := some fl } else scan
      if request.flEnd < old.flEnd then .leave { scan with right := some fl }
      else if request.flStart ≤ old.flStart then
        if scan.added then
          .delete { scan with state := locksWakeUpBlocks scan.state fl }
        else
          .next { scan with
            state := replaceLock scan.state scan.request fl
            request := fl
            added := true }
      else .next scan

/-- The loop.  It returns its variables and the list on both sides of
`before`. -/
def processLocks : Scan Owner → List ℕ → List ℕ → Scan Owner × List ℕ × List ℕ
  | scan, passed, [] => (scan, passed, [])
  | scan, passed, fl :: rest =>
    if !posixSameOwner (scan.state.lock scan.request) (scan.state.lock fl) then
      (scan, passed, fl :: rest)
    else
      match scanLock scan fl with
      | .next scan => processLocks scan (passed ++ [fl]) rest
      | .delete scan => processLocks scan passed rest
      | .leave scan => (scan, passed, fl :: rest)

/-- What `__posix_lock_file` returns. -/
inductive Outcome
  | done
  | eagain
  | edeadlk
  | deferred
  | enolck
  | enoent
  deriving DecidableEq

structure LockResult (Owner : Type*) where
  outcome : Outcome
  state : LockState Owner
  conflock : Option (FileLock Owner)

def setList (inode : ℕ) (list : List ℕ) : LockState Owner :=
  { state with iFlock := update state.iFlock inode list }

/-- `right->fl_start = request->fl_end + 1` and the wake-up, if there is a lock
on the right. -/
def cutRight (request : ℕ) : Option ℕ → LockState Owner
  | none => state
  | some right => locksWakeUpBlocks (setLock state right
      { state.lock right with flStart := (state.lock request).flEnd + 1 }) right

/-- `left->fl_end = request->fl_start - 1` and the wake-up, if there is a lock on
the left. -/
def cutLeft (request : ℕ) : Option ℕ → LockState Owner
  | none => state
  | some left => locksWakeUpBlocks (setLock state left
      { state.lock left with flEnd := (state.lock request).flStart - 1 }) left

/-- The lock that is split: it reaches past the request on both sides. -/
def splitLock : Option ℕ :=
  if scan.left = scan.right then scan.right else none

section

variable (inode : ℕ) (newFl2 : Option ℕ) (passed rest : List ℕ)

/-- A copy of the split lock is inserted at `before`. -/
def copySplit : LockState Owner :=
  match splitLock scan, newFl2 with
  | some right, some copy =>
    setList (setLock scan.state copy (scan.state.lock right)) inode (passed ++ copy :: rest)
  | _, _ => setList scan.state inode (passed ++ rest)

/-- The end of `__posix_lock_file`, once the request is on the list.  A split
lock keeps the part on the right, and its copy takes the part on the left. -/
def cutNeighbours : LockState Owner :=
  let left := if (splitLock scan).isSome then newFl2 else scan.left
  let state := copySplit scan inode newFl2 passed rest
  let state := cutRight state scan.request scan.right
  cutLeft state scan.request left

end

/-- `__posix_lock_file` after the loop. -/
def finishLock (inode : ℕ) (newFl newFl2 : Option ℕ)
    (passed rest : List ℕ) : Outcome × LockState Owner :=
  let unchanged := setList scan.state inode (passed ++ rest)
  let request := scan.state.lock scan.request
  if (splitLock scan).isSome && newFl2.isNone then
    (.enolck, unchanged)
  else if scan.added then (.done, cutNeighbours scan inode newFl2 passed rest)
  else if request.flType = .unlck then
    (if request.flExists then .enoent else .done, unchanged)
  else
    match newFl with
    | none => (.enolck, unchanged)
    | some new =>
      (.done, cutNeighbours { scan with state := setLock scan.state new request } inode
        newFl2 passed (new :: rest))

/-- The first lock that the request conflicts with. -/
def findConflict (inode request : ℕ) : Option ℕ :=
  (state.iFlock inode).find? fun fl =>
    (state.lock fl).isPosix && posixLocksConflict (state.lock request) (state.lock fl)

/-- The loop that skips the locks of others ends at the first lock of the
owner of the request. -/
def isOther : Bool :=
  !(state.lock fl).isPosix || !posixSameOwner (state.lock request) (state.lock fl)

/-- The loop over the owner's locks, from the first of them on. -/
def processOwn (inode request : ℕ) : Scan Owner × List ℕ × List ℕ :=
  processLocks ⟨state, request, none, none, false⟩
    ((state.iFlock inode).takeWhile (isOther state request))
    ((state.iFlock inode).dropWhile (isOther state request))

/-- `__posix_lock_file` once nothing conflicts. -/
def changeLocks (inode request : ℕ) (newFl newFl2 : Option ℕ) : Outcome × LockState Owner :=
  let scanned := processOwn state inode request
  finishLock scanned.1 inode newFl newFl2 scanned.2.1 scanned.2.2

/-- `__posix_lock_file`; `alloc` and `alloc2` are what the two calls of
`locks_alloc_lock` return. -/
def posixLockFile (inode request : ℕ) (alloc alloc2 : Option ℕ) : LockResult Owner :=
  let req := state.lock request
  let needsNew : Bool := !req.flAccess &&
    (req.flType != .unlck || req.flStart != 0 || req.flEnd != offsetMax)
  let newFl := if needsNew then alloc else none
  let newFl2 := if needsNew then alloc2 else none
  match if req.flType = .unlck then none else findConflict state inode request with
  | some fl =>
    if !req.flSleep then ⟨.eagain, state, some (state.lock fl)⟩
    else if posixLocksDeadlock state request fl then
      ⟨.edeadlk, state, some (state.lock fl)⟩
    else ⟨.deferred, locksInsertBlock state fl request, some (state.lock fl)⟩
  | none =>
    if req.flAccess then ⟨.done, state, none⟩
    else
      let finished := changeLocks state inode request newFl newFl2
      ⟨finished.1, finished.2, none⟩

end KernelM5040.Locks
