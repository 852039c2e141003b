import KernelM5040.Core.WaitGraph
import KernelM5040.Fs.LockRuns

/-!
# Deadlock detection

`posix_locks_deadlock` walks from owner to owner along the blocked requests.
While every owner has at most one of them, and there are not more than the walk
has steps, it finds every cycle that a new request would close, so that no
cycle ever arises.
-/

namespace KernelM5040.Locks

open List Relation WaitGraph

variable {Owner : Type*} [DecidableEq Owner]

/-- Each owner has at most one blocked request, and not more than
`MAX_DEADLK_ITERATIONS + 1` requests are blocked. -/
structure Limits (state : LockState Owner) : Prop where
  one : ∀ first ∈ state.blockedList, ∀ second ∈ state.blockedList,
    (state.lock first).flOwner = (state.lock second).flOwner → first = second
  few : state.blockedList.length ≤ maxDeadlkIterations + 1

/-- A step after which the limits are met. -/
def LimitedStep (system system' : Locking Owner) : Prop :=
  LockStep system system' ∧ Limits system'.locks

/-- The owner whom the given owner waits for. -/
def nextOwner (state : LockState Owner) (owner : Owner) : Option Owner :=
  match state.blockedList.find? fun fl => decide ((state.lock fl).flOwner = owner) with
  | some fl => (state.flNext fl).map fun blocker => (state.lock blocker).flOwner
  | none => none

variable {state : LockState Owner} {request block : ℕ}

theorem nextOwner_eq (state : LockState Owner) (block : ℕ) :
    nextOwner state (state.lock block).flOwner =
      (whatOwnerIsWaitingFor state block).map fun blocker => (state.lock blocker).flOwner := by
  unfold nextOwner whatOwnerIsWaitingFor posixSameOwner
  cases state.blockedList.find? fun fl =>
      decide ((state.lock fl).flOwner = (state.lock block).flOwner) with
  | none | some fl => rfl

theorem posixLocksDeadlockFrom_eq (state : LockState Owner) (caller rounds block : ℕ) :
    posixLocksDeadlockFrom state caller rounds block =
      meetsWithin (nextOwner state) (state.lock caller).flOwner rounds
        (state.lock block).flOwner := by
  induction rounds generalizing block with
  | zero => rfl
  | succ rounds ih =>
    rw [posixLocksDeadlockFrom, meetsWithin, nextOwner_eq]
    cases whatOwnerIsWaitingFor state block with
    | none => rfl
    | some blocker =>
      simp [posixSameOwner, ih]

theorem Limits.follows_iff (hlimits : Limits state) {first second : Owner} :
    Follows (nextOwner state) first second ↔ WaitsFor state first second := by
  unfold Follows nextOwner
  cases hfind : state.blockedList.find? fun fl =>
      decide ((state.lock fl).flOwner = first) with
  | none =>
    simp only [reduceCtorEq, false_iff]
    rintro ⟨waiter, hwaiter, _, _, hfirst, _⟩
    exact find?_eq_none.mp hfind waiter hwaiter (decide_eq_true hfirst)
  | some fl =>
    have hmem := mem_of_find?_eq_some hfind
    have hfound := find?_some hfind
    have howner : (state.lock fl).flOwner = first := of_decide_eq_true hfound
    simp only [Option.map_eq_some_iff]
    constructor
    · rintro ⟨blocker, hnext, hsecond⟩
      exact ⟨fl, hmem, blocker, hnext, howner, hsecond⟩
    · rintro ⟨waiter, hwaiter, blocker, hnext, hfirst, hsecond⟩
      rw [hlimits.one waiter hwaiter fl hmem (hfirst.trans howner.symm)] at hnext
      exact ⟨blocker, hnext, hsecond⟩

/-- The walk finds out whether the blocker's owner waits for the caller, directly
or along a chain. -/
theorem Limits.deadlock_iff (hlimits : Limits state)
    (hacyclic : Acyclic (WaitsFor state)) (caller block : ℕ) :
    posixLocksDeadlock state caller block = true ↔
      TransGen (WaitsFor state) (state.lock block).flOwner (state.lock caller).flOwner := by
  have hfollows : Follows (nextOwner state) = WaitsFor state := by
    funext first second
    exact propext hlimits.follows_iff
  rw [posixLocksDeadlock, posixLocksDeadlockFrom_eq, ← hfollows]
  rw [← hfollows] at hacyclic
  constructor
  · exact transGen_of_meetsWithin
  intro hpath
  let sources := (state.blockedList.map fun fl => (state.lock fl).flOwner).toFinset
  refine EndsWithin.meetsWithin (@endsWithin_of_not_cycle _ _ _ _ _ sources ?_ ?_
    fun owner _ => hacyclic owner) hpath
  · intro owner _ hsome
    rw [mem_toFinset, mem_map]
    obtain ⟨second, hnext⟩ := Option.ne_none_iff_exists'.mp hsome
    obtain ⟨waiter, hwaiter, _, _, hfirst, _⟩ := hlimits.follows_iff.mp hnext
    exact ⟨waiter, hwaiter, hfirst⟩
  · refine (toFinset_card_le _).trans ?_
    rw [length_map]
    exact hlimits.few

omit [DecidableEq Owner] in
theorem waitsFor_insertBlock (hrequest : Unused state request)
    (hposix : (state.lock block).isPosix = true) :
    WaitsFor (locksInsertBlock state block request) =
      addEdge (WaitsFor state) (state.lock request).flOwner (state.lock block).flOwner := by
  have hlist : (locksInsertBlock state block request).blockedList =
      request :: state.blockedList := if_pos hposix
  have hnext : ∀ waiter ∈ state.blockedList,
      (locksInsertBlock state block request).flNext waiter = state.flNext waiter := by
    intro waiter hwaiter
    apply Function.update_of_ne
    rintro rfl
    exact hrequest.blocked hwaiter
  have hself : (locksInsertBlock state block request).flNext request = some block :=
    Function.update_self _ _ _
  funext first second
  apply propext
  constructor
  · rintro ⟨waiter, hwaiter, blocker, hblocker, hfirst, hsecond⟩
    rw [hlist] at hwaiter
    rcases mem_cons.mp hwaiter with rfl | hwaiter
    · rw [hself, Option.some_inj] at hblocker
      subst hblocker
      exact Or.inr ⟨hfirst.symm, hsecond.symm⟩
    · rw [hnext waiter hwaiter] at hblocker
      exact Or.inl ⟨waiter, hwaiter, blocker, hblocker, hfirst, hsecond⟩
  · rintro (⟨waiter, hwaiter, blocker, hblocker, howners⟩ | ⟨rfl, rfl⟩)
    · exact ⟨waiter, hlist ▸ mem_cons_of_mem _ hwaiter, blocker,
        (hnext waiter hwaiter).trans hblocker, howners⟩
    · exact ⟨request, hlist ▸ mem_cons_self, block, hself, rfl, rfl⟩

/-- The check says yes exactly when blocking the request would close a cycle. -/
theorem Limits.deadlock_iff_cycle (hlimits : Limits state)
    (hacyclic : Acyclic (WaitsFor state)) (hrequest : Unused state request)
    (hconflict : posixLocksConflict (state.lock request) (state.lock block) = true) :
    posixLocksDeadlock state request block = true ↔
      ∃ owner, TransGen (WaitsFor (locksInsertBlock state block request)) owner owner := by
  obtain ⟨hposix, howner, _⟩ := posixLocksConflict_iff.mp hconflict
  rw [hlimits.deadlock_iff hacyclic, waitsFor_insertBlock hrequest hposix,
    hacyclic.exists_cycle_addEdge]
  exact ⟨TransGen.to_reflTransGen, fun hpath =>
    (reflTransGen_iff_eq_or_transGen.mp hpath).resolve_left howner⟩

variable {start system system' : Locking Owner} {value : FileLock Owner}

omit [DecidableEq Owner] in
theorem Limits.fillIn (hlimits : Limits state) (hrequest : Unused state request)
    (value : FileLock Owner) : Limits (setLock state request value) := by
  refine ⟨?_, hlimits.few⟩
  intro first hfirst second hsecond howner
  have hlock : ∀ fl ∈ state.blockedList, (setLock state request value).lock fl = state.lock fl := by
    intro fl hfl
    apply setLock_lock_of_ne
    rintro rfl
    exact hrequest.blocked hfl
  rw [hlock first hfirst, hlock second hsecond] at howner
  exact hlimits.one first hfirst second hsecond howner

/-- The invariant of a run within the limits. -/
structure DeadlockFree (system : Locking Owner) : Prop where
  ok : LockingOk system
  limits : Limits system.locks
  acyclic : Acyclic (WaitsFor system.locks)

theorem LockStart.deadlockFree (hstart : LockStart start) : DeadlockFree start := by
  refine ⟨hstart.ok, ⟨?_, ?_⟩, ?_⟩
  · simp [hstart.blocked]
  · simp [hstart.blocked]
  intro owner hcycle
  obtain ⟨_, ⟨waiter, hwaiter, _⟩, _⟩ := TransGen.head'_iff.mp hcycle
  rw [hstart.blocked] at hwaiter
  exact absurd hwaiter not_mem_nil

theorem DeadlockFree.deadlock_iff_cycle (hfree : DeadlockFree system)
    (hrequest : Unused system.locks request) (hblock : block ≠ request)
    (hconflict : posixLocksConflict value (system.locks.lock block) = true) :
    posixLocksDeadlock (setLock system.locks request value) request block = true ↔
      ∃ owner, TransGen (WaitsFor (locksInsertBlock (setLock system.locks request value) block
        request)) owner owner := by
  have hfill := (hfree.ok.fillIn hrequest value).1
  apply (hfree.limits.fillIn hrequest value).deadlock_iff_cycle (hfree.acyclic.mono hfill.waits)
    (hrequest.setLock request value)
  rw [setLock_lock_self, setLock_lock_of_ne _ hblock]
  exact hconflict

theorem LimitedStep.deadlockFree (hstep : LimitedStep system system')
    (hfree : DeadlockFree system) : DeadlockFree system' := by
  obtain ⟨hstep, hlimits⟩ := hstep
  refine ⟨hstep.ok hfree.ok, hlimits, ?_⟩
  cases hstep with
  | call hrequest hvalue halloc =>
    rename_i inode request value alloc alloc2
    rcases hfree.ok.queueStep hrequest halloc value inode with
      hcalmed | ⟨fl, hfl, hstate, hconflict, hdeadlock⟩
    · exact hfree.acyclic.mono hcalmed.waits
    have hne := hrequest.ne_of_mem hfl
    intro owner hcycle
    rw [hstate] at hcycle
    rw [(hfree.deadlock_iff_cycle hrequest hne hconflict).mpr ⟨owner, hcycle⟩] at hdeadlock
    exact absurd hdeadlock (by simp)
  | cancel hwaiter =>
    exact hfree.acyclic.mono (calmed_deleteBlock hfree.ok.queue _).waits

theorem LockStart.deadlockFree_of_run (hstart : LockStart start)
    (hrun : ReflTransGen LimitedStep start system) : DeadlockFree system := by
  induction hrun with
  | refl => exact hstart.deadlockFree
  | tail _ hstep ih => exact hstep.deadlockFree ih

theorem waitingLocking_limitedRun : ReflTransGen LimitedStep emptyLocking waitingLocking := by
  have hlocked : Limits lockedLocking.locks :=
    ⟨fun _ hfirst => absurd hfirst not_mem_nil, by decide⟩
  have hwaiting : Limits waitingLocking.locks := by
    refine ⟨?_, by decide⟩
    intro first hfirst second hsecond _
    exact (mem_singleton.mp hfirst).trans (mem_singleton.mp hsecond).symm
  exact (ReflTransGen.single ⟨lockedLocking_step, hlocked⟩).tail ⟨waitingLocking_step, hwaiting⟩

/-- Within the limits no owner ever waits for itself along the blocked requests,
and `posix_locks_deadlock` says yes exactly when blocking the request on that
lock would make one do so. -/
theorem waitGraph_acyclic_of_run (hstart : LockStart start)
    (hrun : ReflTransGen LimitedStep start system) :
    (∀ owner, ¬ TransGen (WaitsFor system.locks) owner owner) ∧
      ∀ request value inode block, Unused system.locks request →
        block ∈ system.locks.iFlock inode →
        posixLocksConflict value (system.locks.lock block) = true →
        (posixLocksDeadlock (setLock system.locks request value) request block = true ↔
          ∃ owner, TransGen (WaitsFor (locksInsertBlock (setLock system.locks request value)
            block request)) owner owner) := by
  have hfree := hstart.deadlockFree_of_run hrun
  refine ⟨hfree.acyclic, fun request value inode block hrequest hblock hconflict => ?_⟩
  exact hfree.deadlock_iff_cycle hrequest (hrequest.ne_of_mem hblock) hconflict

/-- A third owner asks for bytes of the owner who is waited for. -/
theorem waitingLocking_acyclic :
    (∀ owner, ¬ TransGen (WaitsFor waitingLocking.locks) owner owner) ∧
      (posixLocksDeadlock (setLock waitingLocking.locks 2 (askFor 3 .rdlck true 0 9)) 2 10 = true ↔
        ∃ owner, TransGen (WaitsFor (locksInsertBlock
          (setLock waitingLocking.locks 2 (askFor 3 .rdlck true 0 9)) 10 2)) owner owner) := by
  obtain ⟨hacyclic, hcheck⟩ :=
    waitGraph_acyclic_of_run emptyLocking_start waitingLocking_limitedRun
  refine ⟨hacyclic, hcheck 2 _ 0 10 ⟨by decide, fun inode => ?_⟩ (by decide) (by decide)⟩
  exact (lockedLocking_unused (by decide)).listed inode

end KernelM5040.Locks
