import KernelM5040.Core.Segments
import KernelM5040.Fs.Locks

/-!
# One round of the loop over the owner's locks

What the updates of `__posix_lock_file` do, field by field, and the eight ways
in which a round of its loop can go.  The proofs about ranges and about wait
queues both start from these.
-/

namespace KernelM5040.Locks

open Segments

variable {Owner : Type*} {request : ℕ}

/-- The bytes of a lock and its type. -/
def FileLock.segment (lock : FileLock Owner) : Segment LockType :=
  ⟨lock.flStart, lock.flEnd, lock.flType⟩

/-- The lock with its range extended to that of another one. -/
def FileLock.extend (lock other : FileLock Owner) : FileLock Owner :=
  { lock with
    flStart := min lock.flStart other.flStart
    flEnd := max lock.flEnd other.flEnd }

/-- The lock that the request asks for. -/
abbrev Scan.wanted (scan : Scan Owner) : FileLock Owner := scan.state.lock scan.request

theorem posixLocksConflict_iff [DecidableEq Owner] {caller sys : FileLock Owner} :
    posixLocksConflict caller sys = true ↔
      sys.isPosix = true ∧ caller.flOwner ≠ sys.flOwner ∧
        sys.flStart ≤ caller.flEnd ∧ caller.flStart ≤ sys.flEnd ∧
        (sys.flType = .wrlck ∨ caller.flType = .wrlck) := by
  unfold posixLocksConflict posixSameOwner locksOverlap locksConflict
  by_cases hposix : sys.isPosix = true
  · by_cases howner : caller.flOwner = sys.flOwner
    · simp [howner]
    by_cases hoverlap : sys.flStart ≤ caller.flEnd ∧ caller.flStart ≤ sys.flEnd
    · by_cases hsys : sys.flType = .wrlck
      · simp [hposix, howner, hoverlap, hsys]
      · simp [hposix, howner, hoverlap, hsys]
    · simp only [hposix, howner, Bool.not_true, decide_false, Bool.or_false, Bool.false_eq_true,
        if_false, ne_eq, not_false_eq_true, true_and, ← and_assoc, hoverlap, false_and, iff_false]
      simpa using fun h h' => absurd ⟨h, h'⟩ hoverlap
  · simp [hposix]

section Updates

variable (state : LockState Owner) {fl other : ℕ}

/-- Taking several waiters off the queues. -/
def wake (waiters : List ℕ) : LockState Owner :=
  { state with
    flBlock := fun blocker => (state.flBlock blocker).filter (· ∉ waiters)
    blockedList := state.blockedList.filter (· ∉ waiters)
    flNext := fun waiter => if waiter ∈ waiters then none else state.flNext waiter }

theorem foldl_locksDeleteBlock (waiters : List ℕ) :
    waiters.foldl locksDeleteBlock state = wake state waiters := by
  induction waiters generalizing state with
  | nil => simp [wake]
  | cons waiter rest ih =>
    rw [List.foldl_cons, ih]
    simp only [wake, locksDeleteBlock, List.filter_filter, LockState.mk.injEq, true_and]
    refine ⟨?_, ?_, ?_⟩
    · funext blocker
      congr 1
      funext other
      simp [Bool.and_comm]
    · funext other
      by_cases hother : other ∈ rest
      · simp [hother]
      · by_cases heq : other = waiter
        · simp [heq]
        · simp [hother, heq]
    · congr 1
      funext other
      simp [Bool.and_comm]

theorem locksWakeUpBlocks_eq (blocker : ℕ) :
    locksWakeUpBlocks state blocker = wake state (state.flBlock blocker) :=
  foldl_locksDeleteBlock state _

@[simp]
theorem locksWakeUpBlocks_lock (blocker : ℕ) :
    (locksWakeUpBlocks state blocker).lock = state.lock := by
  rw [locksWakeUpBlocks_eq]
  rfl

@[simp]
theorem locksWakeUpBlocks_iFlock (blocker : ℕ) :
    (locksWakeUpBlocks state blocker).iFlock = state.iFlock := by
  rw [locksWakeUpBlocks_eq]
  rfl

@[simp]
theorem setLock_lock_self (fl : ℕ) (value : FileLock Owner) :
    (setLock state fl value).lock fl = value := by
  simp [setLock]

theorem setLock_lock_of_ne (hne : other ≠ fl) (value : FileLock Owner) :
    (setLock state fl value).lock other = state.lock other := by
  simp [setLock, hne]

theorem setLock_eq_self (fl : ℕ) : setLock state fl (state.lock fl) = state := by
  simp [setLock]

theorem setLock_setLock (fl : ℕ) (value value' : FileLock Owner) :
    setLock (setLock state fl value) fl value' = setLock state fl value' := by
  simp [setLock]

theorem setLock_comm (hne : fl ≠ other) (value value' : FileLock Owner) :
    setLock (setLock state fl value) other value' =
      setLock (setLock state other value') fl value := by
  simp only [setLock]
  rw [Function.update_comm hne]

theorem mergeStart_eq (hne : request ≠ fl) :
    mergeStart state request fl =
      setLock (setLock state request { state.lock request with
          flStart := min (state.lock request).flStart (state.lock fl).flStart }) fl
        { state.lock fl with
          flStart := min (state.lock fl).flStart (state.lock request).flStart } := by
  unfold mergeStart
  split
  · rename_i hlt
    rw [min_eq_left hlt.le, min_eq_right hlt.le, setLock_eq_self]
  · rename_i hge
    have hle := not_lt.mp hge
    rw [min_eq_right hle, min_eq_left hle, setLock_comm _ hne, setLock_eq_self]

theorem mergeEnd_eq (hne : request ≠ fl) :
    mergeEnd state request fl =
      setLock (setLock state request { state.lock request with
          flEnd := max (state.lock request).flEnd (state.lock fl).flEnd }) fl
        { state.lock fl with
          flEnd := max (state.lock fl).flEnd (state.lock request).flEnd } := by
  unfold mergeEnd
  split
  · rename_i hlt
    rw [max_eq_left hlt.le, max_eq_right hlt.le, setLock_eq_self]
  · rename_i hge
    have hle := not_lt.mp hge
    rw [max_eq_right hle, max_eq_left hle, setLock_comm _ hne, setLock_eq_self]

theorem mergeRange_eq (hne : request ≠ fl) :
    mergeRange state request fl =
      setLock (setLock state request ((state.lock request).extend (state.lock fl))) fl
        ((state.lock fl).extend (state.lock request)) := by
  rw [mergeRange, mergeEnd_eq _ hne, mergeStart_eq _ hne]
  simp only [setLock_lock_self, setLock_lock_of_ne _ hne]
  rw [setLock_comm _ hne.symm, setLock_setLock, setLock_setLock]
  rfl

end Updates

section Rounds

/-- `added` after the code has looked at the type of the request. -/
def Scan.addedNow (scan : Scan Owner) : Bool :=
  scan.added || decide (scan.wanted.flType = .unlck)

theorem Scan.addedNow_eq_false {scan : Scan Owner} : scan.addedNow = false ↔
    scan.added = false ∧ scan.wanted.flType ≠ .unlck := by
  rw [Scan.addedNow, Bool.or_eq_false_iff, decide_eq_false_iff_not]

variable (scan : Scan Owner) (fl : ℕ) (wanted old : FileLock Owner)

/-- A lock of another type that reaches beyond the end of the request. -/
structure CutsRight : Prop where
  type_ne : wanted.flType ≠ old.flType
  reach : old.flStart ≤ wanted.flEnd
  stop : wanted.flEnd < old.flEnd
  start : wanted.flStart ≤ old.flStart

/-- A lock of another type that reaches beyond the request on both sides. -/
structure Splits : Prop where
  type_ne : wanted.flType ≠ old.flType
  stop : wanted.flEnd < old.flEnd
  start : old.flStart < wanted.flStart

/-- The ways in which a round can go, with what it knows in each. -/
inductive RoundCase : Round Owner → Prop
  | before (hbefore : old.segment.Before wanted.segment) : RoundCase (.next scan)
  | after (hafter : wanted.segment.Before old.segment) : RoundCase (.leave scan)
  | extend (htype : wanted.flType = old.flType) (hbefore : ¬ old.segment.Before wanted.segment)
      (hafter : ¬ wanted.segment.Before old.segment) (hadded : scan.added = false) :
      RoundCase (.next { scan with
        state := mergeRange scan.state scan.request fl
        request := fl
        added := true })
  | absorb (htype : wanted.flType = old.flType) (hbefore : ¬ old.segment.Before wanted.segment)
      (hafter : ¬ wanted.segment.Before old.segment) (hadded : scan.added = true) :
      RoundCase (.delete { scan with
        state := locksWakeUpBlocks (mergeRange scan.state scan.request fl) fl })
  | right (hright : CutsRight wanted old) :
      RoundCase (.leave { scan with added := scan.addedNow, right := some fl })
  | split (hsplit : Splits wanted old) :
      RoundCase (.leave { scan with added := scan.addedNow, left := some fl, right := some fl })
  | left (htype : wanted.flType ≠ old.flType) (hreach : wanted.flStart ≤ old.flEnd)
      (hstop : old.flEnd ≤ wanted.flEnd) (hstart : old.flStart < wanted.flStart) :
      RoundCase (.next { scan with added := scan.addedNow, left := some fl })
  | cover (hstop : old.flEnd ≤ wanted.flEnd) (hstart : wanted.flStart ≤ old.flStart)
      (hadded : scan.addedNow = true) :
      RoundCase (.delete { scan with added := true, state := locksWakeUpBlocks scan.state fl })
  | replace (hstop : old.flEnd ≤ wanted.flEnd) (hstart : wanted.flStart ≤ old.flStart)
      (hadded : scan.addedNow = false) :
      RoundCase (.next { scan with
        state := replaceLock scan.state scan.request fl
        request := fl
        added := true })

theorem roundCase_scanLock :
    RoundCase scan fl scan.wanted (scan.state.lock fl) (scanLock scan fl) := by
  simp only [scanLock]
  by_cases htype : scan.wanted.flType = (scan.state.lock fl).flType
  · -- same type: apart means a gap of at least one byte
    have hbefore : (scan.state.lock fl).segment.Before scan.wanted.segment ↔
        (scan.state.lock fl).flEnd < scan.wanted.flStart - 1 :=
      ⟨fun h => h.2 htype.symm, fun h => ⟨h.trans (sub_one_lt _), fun _ => h⟩⟩
    have hafter : scan.wanted.segment.Before (scan.state.lock fl).segment ↔
        scan.wanted.flEnd < (scan.state.lock fl).flStart - 1 :=
      ⟨fun h => h.2 htype, fun h => ⟨h.trans (sub_one_lt _), fun _ => h⟩⟩
    rw [if_pos htype]
    split
    · exact .before (hbefore.mpr ‹_›)
    split
    · exact .after (hafter.mpr ‹_›)
    split
    · exact .absorb htype (mt hbefore.mp ‹_›) (mt hafter.mp ‹_›) ‹_›
    · exact .extend htype (mt hbefore.mp ‹_›) (mt hafter.mp ‹_›) (Bool.eq_false_iff.mpr ‹_›)
  · have hnow : (if scan.wanted.flType = .unlck then { scan with added := true } else scan) =
        { scan with added := scan.addedNow } := by
      unfold Scan.addedNow
      split <;> simp [*]
    rw [if_neg htype, hnow]
    split
    · exact .before ⟨‹_›, fun h => absurd h.symm htype⟩
    split
    · exact .after ⟨‹_›, fun h => absurd h htype⟩
    by_cases hstart : (scan.state.lock fl).flStart < scan.wanted.flStart
    · simp only [if_pos hstart, if_neg (not_le.mpr hstart)]
      split
      · exact .split ⟨htype, ‹_›, hstart⟩
      · exact .left htype (not_lt.mp ‹_›) (not_lt.mp ‹_›) hstart
    simp only [if_neg hstart, if_pos (not_lt.mp hstart)]
    split
    · exact .right ⟨htype, not_lt.mp ‹_›, ‹_›, not_lt.mp hstart⟩
    by_cases hadded : scan.addedNow = true
    · rw [if_pos hadded, hadded]
      exact .cover (not_lt.mp ‹_›) (not_lt.mp hstart) hadded
    · rw [if_neg hadded]
      exact .replace (not_lt.mp ‹_›) (not_lt.mp hstart) (Bool.eq_false_iff.mpr hadded)

end Rounds

/-! ## The whole call -/

/-- The request conflicts with no lock, or it is an unlock. -/
def Unopposed [DecidableEq Owner] (state : LockState Owner) (inode request : ℕ) : Prop :=
  (state.lock request).flType = .unlck ∨ ∀ fl ∈ state.iFlock inode,
    posixLocksConflict (state.lock request) (state.lock fl) = false

theorem findConflict_eq_none [DecidableEq Owner] {state : LockState Owner} {inode : ℕ}
    (hnone : findConflict state inode request = none) :
    ∀ fl ∈ state.iFlock inode, posixLocksConflict (state.lock request) (state.lock fl) = false := by
  intro fl hmem
  have hnot := List.find?_eq_none.mp hnone fl hmem
  by_contra hconflict
  rw [Bool.not_eq_false] at hconflict
  exact hnot (by rw [hconflict, (posixLocksConflict_iff.mp hconflict).1]; rfl)

variable [DecidableEq Owner] (state : LockState Owner) (inode request : ℕ) (alloc alloc2 : Option ℕ)

/-- What `posixLockFile` can return: a refusal, a request that is blocked, the
answer to a test, or the outcome of the loop and what comes after it. -/
inductive CallCase : LockResult Owner → Prop
  | refused {outcome : Outcome} {conflock : Option (FileLock Owner)}
      (houtcome : outcome ≠ .done) : CallCase ⟨outcome, state, conflock⟩
  | deferred {fl : ℕ} {conflock : Option (FileLock Owner)} (hmem : fl ∈ state.iFlock inode)
      (hconflict : posixLocksConflict (state.lock request) (state.lock fl) = true)
      (hdeadlock : posixLocksDeadlock state request fl = false) :
      CallCase ⟨.deferred, locksInsertBlock state fl request, conflock⟩
  | tested (haccess : (state.lock request).flAccess = true) : CallCase ⟨.done, state, none⟩
  | changed {newFl newFl2 : Option ℕ} (haccess : (state.lock request).flAccess = false)
      (hnone : Unopposed state inode request)
      (hnew : ∀ fl, newFl = some fl → alloc = some fl)
      (hnew2 : ∀ fl, newFl2 = some fl → alloc2 = some fl) :
      CallCase ⟨(changeLocks state inode request newFl newFl2).1,
        (changeLocks state inode request newFl newFl2).2, none⟩

theorem callCase_posixLockFile : CallCase state inode request alloc alloc2
    (posixLockFile state inode request alloc alloc2) := by
  have hif : ∀ {needed : Bool} {alloc : Option ℕ} fl,
      (if needed = true then alloc else none) = some fl → alloc = some fl := by
    intro needed alloc fl hsome
    cases needed
    · simp at hsome
    · exact hsome
  unfold posixLockFile
  dsimp only
  split
  · rename_i fl hfound
    have hconflict : findConflict state inode request = some fl := by
      split at hfound
      · simp at hfound
      · exact hfound
    have hpred := List.find?_some hconflict
    rw [Bool.and_eq_true] at hpred
    split
    · exact .refused (by simp)
    split
    · exact .refused (by simp)
    · rename_i hdeadlock
      exact .deferred (List.mem_of_find?_eq_some hconflict) hpred.2
        (Bool.eq_false_iff.mpr hdeadlock)
  · rename_i hfound
    split
    · exact .tested ‹_›
    rename_i haccess
    refine .changed (Bool.eq_false_iff.mpr haccess) ?_ hif hif
    split at hfound
    · exact Or.inl ‹_›
    · exact Or.inr (findConflict_eq_none hfound)

end KernelM5040.Locks
