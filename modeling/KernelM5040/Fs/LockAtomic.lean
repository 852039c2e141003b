import KernelM5040.Fs.LockRuns

/-!
# Calls that fail

The loop of `__posix_lock_file` changes locks before it is known whether a new lock
can be had.  It has changed none when the request turns out to need one: a request
that is not on the list yet has touched nothing, and a lock that is to be split is the
first one that the request meets.
-/

namespace KernelM5040.Locks

open Relation

variable {Owner : Type*} {call : Call Owner} {scan : Scan Owner}
  {passed rest done placed todo : List ℕ} {inode request : ℕ} {newFl newFl2 alloc alloc2 : Option ℕ}
  {state : LockState Owner} {result : LockResult Owner}

/-- Without an addition the list and its locks are as they were. -/
theorem ScanRange.unchanged (hscan : ScanRange call scan passed rest done placed todo)
    (hadded : scan.added = false) :
    passed ++ rest = call.before ++ call.own ++ call.after ∧
      ∀ fl, fl ≠ call.start → scan.state.lock fl = call.base fl := by
  refine ⟨(hscan.relisted hadded).1, fun fl hstart => ?_⟩
  by_cases hown : fl ∈ call.own
  · obtain ⟨rfl, _⟩ := hscan.place_of_not_added hadded
    rw [← hscan.kept hadded] at hown
    exact hscan.values fl hown
  · exact hscan.others fl hown hstart

theorem ScanExit.unchanged {result : Outcome × LockState Owner}
    (hexit : ScanExit call scan passed rest)
    (hcase : FinishCase scan inode newFl newFl2 passed rest result) (hfailed : result.1 ≠ .done) :
    result.2 = setList scan.state inode (call.before ++ call.own ++ call.after) ∧
      ∀ fl, fl ≠ call.start → scan.state.lock fl = call.base fl := by
  -- all but the last case leave the list as the loop has left it
  have hkept : result.2 = setList scan.state inode (passed ++ rest) ∧
      ((splitLock scan).isSome = true ∨ scan.added = false) := by
    cases hcase with
    | noCopy hsplit => exact ⟨rfl, .inl hsplit⟩
    | noNew hadded | nothing hadded _ => exact ⟨rfl, .inr hadded⟩
    | cut _ _ => exact absurd rfl hfailed
  obtain ⟨hresult, hreason⟩ := hkept
  rw [hresult]
  cases hexit with
  | apart hscan _ =>
    have hadded : scan.added = false := hreason.resolve_left (by simp [splitLock, hscan.right])
    obtain ⟨hlist, hlocks⟩ := hscan.unchanged hadded
    exact ⟨by rw [hlist], hlocks⟩
  | @right scan _ _ _ _ _ fl hscan _ =>
    have hne : scan.left ≠ some fl := fun hleft => hscan.fl_not_mem (by simp [hleft])
    have hnow := hreason.resolve_left (by simp [splitLock, hne])
    obtain ⟨hlist, hlocks⟩ := hscan.unchanged (Scan.addedNow_eq_false.mp hnow).1
    exact ⟨by rw [hlist], hlocks⟩
  | split hscan hsplits =>
    obtain ⟨hlist, hlocks⟩ := hscan.unchanged (hscan.untouched hsplits.start).2.1
    exact ⟨by rw [hlist], hlocks⟩

/-- A call that neither goes through nor waits has changed nothing but the request. -/
theorem ListOk.unchanged [DecidableEq Owner] (hok : ListOk state.lock (state.iFlock inode))
    (hrequested : Requested (state.lock request)) (hlisted : request ∉ state.iFlock inode)
    (hresult : posixLockFile state inode request alloc alloc2 = result)
    (hdone : result.outcome ≠ .done) (hdeferred : result.outcome ≠ .deferred) :
    result.state.iFlock = state.iFlock ∧
      ∀ fl, fl ≠ request → result.state.lock fl = state.lock fl := by
  have hcase := callCase_posixLockFile state inode request alloc alloc2
  rw [hresult] at hcase
  cases hcase with
  | refused _ => exact ⟨rfl, fun _ _ => rfl⟩
  | deferred _ _ _ => exact absurd rfl hdeferred
  | tested _ => exact absurd rfl hdone
  | changed _ _ _ _ =>
    obtain ⟨call, hbase, rfl, hlist, _, _, hexit⟩ := hok.exists_call hrequested hlisted
    obtain ⟨hsame, hlocks⟩ := hexit.unchanged (finishCase_finishLock _ inode _ _ _ _) hdone
    rw [← hlist] at hsame
    simp only [changeLocks]
    refine ⟨?_, fun fl hne => ?_⟩
    · rw [hsame, setList, processOwn_iFlock, Function.update_eq_self]
    · rw [hsame, setList_lock, hlocks fl hne, hbase]

/-- A call that returns `-EAGAIN`, `-EDEADLK`, `-ENOLCK` or `-ENOENT` leaves every list
and all locks as they were, whatever has been allocated. -/
theorem posixLockFile_atomic_of_run [DecidableEq Owner] {start system : Locking Owner}
    {value : FileLock Owner} (hstart : LockStart start) (hrun : ReflTransGen LockStep start system)
    (hrequest : Unused system.locks request) (hvalue : Requested value)
    (hresult : posixLockFile (setLock system.locks request value) inode request alloc alloc2 =
      result) (hdone : result.outcome ≠ .done) (hdeferred : result.outcome ≠ .deferred) :
    result.state.iFlock = system.locks.iFlock ∧
      ∀ fl, fl ≠ request → result.state.lock fl = system.locks.lock fl := by
  have hok := ((hstart.ok_of_run hrun).fillIn hrequest value).2 inode
  obtain ⟨hlists, hlocks⟩ := ListOk.unchanged hok (by rwa [setLock_lock_self])
    (hrequest.listed inode) hresult hdone hdeferred
  exact ⟨hlists, fun fl hne => (hlocks fl hne).trans (setLock_lock_of_ne _ hne _)⟩

/-- Unlocking ten bytes in the middle of the hundred needs a second lock. -/
def refusedUnlock : LockResult ℕ :=
  posixLockFile (setLock lockedLocking.locks 1 (askFor 1 .unlck false 40 49)) 0 1 (some 12) none

theorem lockedLocking_atomic : refusedUnlock.outcome = .enolck ∧
    refusedUnlock.state.iFlock = lockedLocking.locks.iFlock := by
  have houtcome : refusedUnlock.outcome = .enolck := by decide
  refine ⟨houtcome, (posixLockFile_atomic_of_run emptyLocking_start (.single lockedLocking_step)
    (lockedLocking_unused (by decide)) (askFor_requested (by decide) (by decide) (by decide))
    (@rfl _ refusedUnlock) ?_ ?_).1⟩
  · rw [houtcome]
    decide
  · rw [houtcome]
    decide

end KernelM5040.Locks
