import KernelM5040.Fs.LockList

/-!
# Runs of lock calls

Any owners lock, unlock, block and cancel, in any order and on any inodes, and
any allocation may fail.  The lists keep their invariant, a call that succeeds
paints its range over the bytes of its owner, and nobody waits for a lock that
does not stand in the way.
-/

namespace KernelM5040.Locks

open Option List Function Segments Relation

variable {Owner : Type*} {list : List ℕ}

/-- The locks, and for each request the inode that its last call was for. -/
structure Locking (Owner : Type*) where
  locks : LockState Owner
  place : ℕ → ℕ

/-- Who holds which byte of an inode, and how. -/
def LockState.byteMap (state : LockState Owner) (inode : ℕ) : Owner → ℤ → LockType → Prop :=
  HeldBy state.lock (state.iFlock inode)

/-- The system after a call. -/
def Locking.call [DecidableEq Owner] (system : Locking Owner) (inode request : ℕ)
    (value : FileLock Owner) (alloc alloc2 : Option ℕ) : Locking Owner :=
  ⟨(posixLockFile (setLock system.locks request value) inode request alloc alloc2).state,
    update system.place request inode⟩

/-- A call with a request that is not in use, or the end of a wait.  The link of
a lock on a list is no business of `locks_delete_block`. -/
inductive LockStep [DecidableEq Owner] : Locking Owner → Locking Owner → Prop
  | call {system : Locking Owner} {inode request : ℕ} {value : FileLock Owner}
      {alloc alloc2 : Option ℕ} (hrequest : Unused system.locks request)
      (hvalue : Requested value) (halloc : FreshAlloc system.locks request alloc alloc2) :
      LockStep system (system.call inode request value alloc alloc2)
  | cancel {system : Locking Owner} {waiter : ℕ}
      (hwaiter : ∀ inode, waiter ∉ system.locks.iFlock inode) :
      LockStep system ⟨locksDeleteBlock system.locks waiter, system.place⟩

/-- Nobody waits, and nobody holds a POSIX lock. -/
structure LockStart (system : Locking Owner) : Prop where
  blocked : system.locks.blockedList = []
  waiters : ∀ fl, system.locks.flBlock fl = []
  nodup : ∀ inode, (system.locks.iFlock inode).Nodup
  kinds : ∀ inode, ∀ fl ∈ system.locks.iFlock inode, (system.locks.lock fl).isPosix = false
  disjoint : ∀ first second fl, fl ∈ system.locks.iFlock first →
    fl ∈ system.locks.iFlock second → first = second

/-- The invariant of a run. -/
structure LockingOk [DecidableEq Owner] (system : Locking Owner) : Prop where
  queue : QueueOk system.locks
  lists : ∀ inode, ListOk system.locks.lock (system.locks.iFlock inode)
  disjoint : ∀ first second fl, fl ∈ system.locks.iFlock first →
    fl ∈ system.locks.iFlock second → first = second
  placed : ∀ waiter ∈ system.locks.blockedList, ∀ blocker,
    system.locks.flNext waiter = some blocker → blocker ∈ system.locks.iFlock (system.place waiter)

theorem listOk_of_kinds {lock : ℕ → FileLock Owner} (hnodup : list.Nodup)
    (hkinds : ∀ fl ∈ list, (lock fl).isPosix = false) : ListOk lock list := by
  have hnone : ∀ fl ∈ list, ¬ (lock fl).isPosix = true := by
    intro fl hfl
    rw [hkinds fl hfl]
    simp
  have howner : ∀ fl ∈ list, posixOwner (lock fl) = none := by
    intro fl hfl
    rw [posixOwner, if_neg (hnone fl hfl)]
  refine ⟨hnodup, ?_, ?_, ?_, fun fl hfl hposix => absurd hposix (hnone fl hfl), ?_,
    fun first hfirst _ _ hposix => absurd hposix (hnone first hfirst)⟩
  · exact pairwise_of_forall_mem_list fun first hfirst _ _ hposix =>
      absurd hposix (hnone first hfirst)
  · intro first middle last hsublist _
    exact (howner middle (hsublist.subset (by simp))).trans
      (howner first (hsublist.subset (by simp))).symm
  · intro fl hfl owner hsome
    rw [howner fl hfl] at hsome
    exact absurd hsome (by simp)
  · refine pairwise_of_forall_mem_list fun first hfirst _ _ owner hsome => ?_
    rw [howner first hfirst] at hsome
    exact absurd hsome (by simp)

variable [DecidableEq Owner] {system system' : Locking Owner} {inode request : ℕ}
  {value : FileLock Owner} {alloc alloc2 : Option ℕ}

theorem LockStart.ok (hstart : LockStart system) : LockingOk system := by
  refine ⟨⟨?_, ?_, ?_⟩, fun inode => listOk_of_kinds (hstart.nodup inode) (hstart.kinds inode),
    hstart.disjoint, ?_⟩
  · intro waiter blocker
    simp [hstart.waiters, hstart.blocked]
  · simp [hstart.blocked]
  · simp [hstart.blocked]
  · simp [hstart.blocked]

/-! ## One step -/

theorem LockingOk.fillIn (hok : LockingOk system) (hrequest : Unused system.locks request)
    (value : FileLock Owner) :
    Calmed system.locks (setLock system.locks request value) ∧
      ∀ inode, ListOk (setLock system.locks request value).lock (system.locks.iFlock inode) := by
  refine ⟨calmed_setLock_of_noWaiter hok.queue hrequest.blocked
    (noWaiter_of_unlisted hok.queue hrequest.listed), fun inode => ?_⟩
  apply (hok.lists inode).congr
  intro fl hfl
  exact setLock_lock_of_ne _ (hrequest.ne_of_mem hfl) _

/-- Which locks a call touches. -/
structure CallFrame (system : Locking Owner) (state' : LockState Owner) (inode request : ℕ)
    (news : List ℕ) : Prop where
  lists : ∀ other, other ≠ inode → state'.iFlock other = system.locks.iFlock other
  subset : state'.iFlock inode ⊆ system.locks.iFlock inode ++ news
  locks : ∀ fl, fl ∉ system.locks.iFlock inode ++ news → fl ≠ request →
    state'.lock fl = system.locks.lock fl
  fresh : ∀ fl ∈ news, Unused system.locks fl

section

variable (hok : LockingOk system) (hrequest : Unused system.locks request)
  (hvalue : Requested value) (halloc : FreshAlloc system.locks request alloc alloc2)
include hok hrequest hvalue halloc

theorem LockingOk.listStep (inode : ℕ) :
    ListStep (setLock system.locks request value) (system.call inode request value alloc alloc2).locks
      inode request (alloc.toList ++ alloc2.toList)
      (mapAfter (setLock system.locks request value) inode request
        (posixLockFile (setLock system.locks request value) inode request alloc
          alloc2).outcome) := by
  apply posixLockFile_list
  · exact (hok.fillIn hrequest value).2 inode
  · rw [setLock_lock_self]
    exact hvalue
  · exact hrequest.setLock request value
  · exact halloc.setLock value

theorem LockingOk.callFrame (inode : ℕ) :
    CallFrame system (system.call inode request value alloc alloc2).locks inode request
      (alloc.toList ++ alloc2.toList) := by
  have hstep := hok.listStep hrequest hvalue halloc inode
  refine ⟨hstep.lists, hstep.subset, ?_, ?_⟩
  · intro fl hfl hne
    rw [hstep.locks fl hfl hne, setLock_lock_of_ne _ hne]
  intro fl hfl
  rw [mem_append, mem_toList, mem_toList] at hfl
  rcases hfl with hfl | hfl
  · exact (halloc.first fl hfl).1
  · exact (halloc.second fl hfl).1

end

variable {state' state : LockState Owner} {news : List ℕ}

section

variable (hframe : CallFrame system state' inode request news) {place : ℕ}
include hframe

omit [DecidableEq Owner] in
/-- A lock on a list after the call was on this list before, or it is new. -/
theorem CallFrame.mem_or_new {fl : ℕ} (hfl : fl ∈ state'.iFlock place) :
    fl ∈ system.locks.iFlock place ∨ place = inode ∧ fl ∈ news := by
  by_cases hplace : place = inode
  · subst hplace
    exact (mem_append.mp (hframe.subset hfl)).imp_right fun hnew => ⟨rfl, hnew⟩
  · rw [hframe.lists place hplace] at hfl
    exact Or.inl hfl

theorem CallFrame.disjoint (hok : LockingOk system) :
    ∀ first second fl, fl ∈ state'.iFlock first → fl ∈ state'.iFlock second →
      first = second := by
  intro first second fl hfirst hsecond
  rcases hframe.mem_or_new hfirst with hfirst | ⟨hfirst, hnew⟩
  · rcases hframe.mem_or_new hsecond with hsecond | ⟨_, hnew⟩
    · exact hok.disjoint first second fl hfirst hsecond
    · exact absurd hfirst ((hframe.fresh fl hnew).listed first)
  · rcases hframe.mem_or_new hsecond with hsecond | ⟨hsecond, _⟩
    · exact absurd hsecond ((hframe.fresh fl hnew).listed second)
    · rw [hfirst, hsecond]

theorem CallFrame.locks_of_ne (hok : LockingOk system) (hrequest : Unused system.locks request)
    (hplace : place ≠ inode) :
    ∀ fl ∈ system.locks.iFlock place, state'.lock fl = system.locks.lock fl := by
  intro fl hfl
  apply hframe.locks
  · intro hmem
    rcases mem_append.mp hmem with hmem | hmem
    · exact hplace (hok.disjoint place inode fl hfl hmem)
    · exact (hframe.fresh fl hmem).listed place hfl
  · exact hrequest.ne_of_mem hfl

/-- A blocker that was on a list and still is on some list is on the same. -/
theorem CallFrame.mem_of_mem (hok : LockingOk system) {place' fl : ℕ}
    (hfl : fl ∈ system.locks.iFlock place) (hfl' : fl ∈ state'.iFlock place') :
    fl ∈ state'.iFlock place := by
  rcases hframe.mem_or_new hfl' with hold | ⟨_, hnew⟩
  · rw [hok.disjoint place place' fl hfl hold]
    exact hfl'
  · exact absurd hfl ((hframe.fresh fl hnew).listed place)

end

/-- What a call does to the queues: it blocks its request, or nobody. -/
theorem LockingOk.queueStep (hok : LockingOk system) (hrequest : Unused system.locks request)
    (halloc : FreshAlloc system.locks request alloc alloc2) (value : FileLock Owner) (inode : ℕ) :
    Calmed system.locks (system.call inode request value alloc alloc2).locks ∨
      ∃ fl ∈ system.locks.iFlock inode, (system.call inode request value alloc alloc2).locks =
          locksInsertBlock (setLock system.locks request value) fl request ∧
        posixLocksConflict value (system.locks.lock fl) = true ∧
        posixLocksDeadlock (setLock system.locks request value) request fl = false := by
  obtain ⟨hfill, hlists⟩ := hok.fillIn hrequest value
  rcases posixLockFile_queue hfill.ok (hlists inode).nodup (hrequest.setLock request value)
    (halloc.setLock value) with hcalmed | ⟨fl, hfl, hstate, hconflict, hdeadlock⟩
  · exact Or.inl (hfill.trans hcalmed)
  · rw [setLock_lock_self, setLock_lock_of_ne _ (hrequest.ne_of_mem hfl)] at hconflict
    exact Or.inr ⟨fl, hfl, hstate, hconflict, hdeadlock⟩

theorem LockingOk.call (hok : LockingOk system) (hrequest : Unused system.locks request)
    (hvalue : Requested value) (halloc : FreshAlloc system.locks request alloc alloc2) (inode : ℕ) :
    LockingOk (system.call inode request value alloc alloc2) := by
  have hstep := hok.listStep hrequest hvalue halloc inode
  have hframe := hok.callFrame hrequest hvalue halloc inode
  have hqueue := hok.queueStep hrequest halloc value inode
  have hfill := (hok.fillIn hrequest value).1
  change LockingOk ⟨(system.call inode request value alloc alloc2).locks, _⟩
  generalize (system.call inode request value alloc alloc2).locks = state' at hstep hframe hqueue ⊢
  have hplace : ∀ waiter ∈ system.locks.blockedList,
      update system.place request inode waiter = system.place waiter := by
    intro waiter hwaiter
    apply update_of_ne
    rintro rfl
    exact hrequest.blocked hwaiter
  refine ⟨?_, ?_, hframe.disjoint hok, ?_⟩
  · rcases hqueue with hcalmed | ⟨fl, hfl, rfl, hconflict, _⟩
    · exact hcalmed.ok
    · refine hfill.ok.insertBlock (hrequest.setLock request value) hfl ?_
      rw [setLock_lock_self, setLock_lock_of_ne _ (hrequest.ne_of_mem hfl)]
      exact hconflict
  · intro place
    by_cases hne : place = inode
    · rw [hne]
      exact hstep.ok
    · change ListOk state'.lock (state'.iFlock place)
      rw [hframe.lists place hne]
      exact (hok.lists place).congr (hframe.locks_of_ne hok hrequest hne)
  · intro waiter hwaiter blocker hnext
    change blocker ∈ state'.iFlock (update system.place request inode waiter)
    rcases hqueue with hcalmed | ⟨fl, hfl, rfl, hconflict, _⟩
    · have hblocked := hcalmed.blocked hwaiter
      obtain ⟨other, hother, ⟨listed, hlisted⟩, _⟩ := hcalmed.ok.waits waiter hwaiter
      rw [hother, some_inj] at hnext
      rw [hcalmed.next waiter hwaiter] at hother
      rw [hplace waiter hblocked, ← hnext]
      exact hframe.mem_of_mem hok (hok.placed waiter hblocked other hother) hlisted
    · by_cases heq : waiter = request
      · subst heq
        rw [update_self]
        simp only [locksInsertBlock, update_self, some_inj] at hnext
        rw [← hnext]
        exact hfl
      · have hblocked : waiter ∈ system.locks.blockedList := by
          simp only [locksInsertBlock] at hwaiter
          split at hwaiter
          · exact (mem_cons.mp hwaiter).resolve_left heq
          · exact hwaiter
        rw [hplace waiter hblocked]
        simp only [locksInsertBlock, update_of_ne heq] at hnext
        exact hok.placed waiter hblocked blocker hnext

theorem calmed_deleteBlock (hok : QueueOk state) (waiter : ℕ) :
    Calmed state (locksDeleteBlock state waiter) := by
  have hwake : locksDeleteBlock state waiter = Locks.wake state [waiter] :=
    foldl_locksDeleteBlock state [waiter]
  rw [hwake]
  exact calmed_wake hok [waiter]

theorem LockingOk.cancel (hok : LockingOk system) (waiter : ℕ) :
    LockingOk ⟨locksDeleteBlock system.locks waiter, system.place⟩ := by
  have hcalmed := calmed_deleteBlock hok.queue waiter
  refine ⟨hcalmed.ok, hok.lists, hok.disjoint, ?_⟩
  intro other hother blocker hnext
  rw [hcalmed.next other hother] at hnext
  exact hok.placed other (hcalmed.blocked hother) blocker hnext

theorem LockStep.ok (hstep : LockStep system system') (hok : LockingOk system) :
    LockingOk system' := by
  cases hstep with
  | call hrequest hvalue halloc => exact hok.call hrequest hvalue halloc _
  | cancel _ => exact hok.cancel _

/-! ## Byte maps -/

omit [DecidableEq Owner] in
theorem byteMap_setLock (hrequest : Unused state request) (value : FileLock Owner) (inode : ℕ) :
    (setLock state request value).byteMap inode = state.byteMap inode := by
  funext owner point type
  apply propext
  apply HeldBy.congr
  intro fl hfl
  exact setLock_lock_of_ne _ (hrequest.ne_of_mem hfl) _

omit [DecidableEq Owner] in
theorem mapAfter_done (hrequest : Unused system.locks request) (haccess : value.flAccess = false)
    {outcome : Outcome} (hdone : outcome = .done) (inode : ℕ) :
    mapAfter (setLock system.locks request value) inode request outcome =
      overlay value.segment (system.locks.byteMap inode value.flOwner) := by
  have hsame := byteMap_setLock hrequest value inode
  rw [mapAfter, setLock_lock_self, if_pos ⟨hdone, haccess⟩]
  exact congrArg (fun map => overlay value.segment (map value.flOwner)) hsame

/-! ## Whole runs -/

variable {start : Locking Owner}

theorem LockStart.ok_of_run (hstart : LockStart start)
    (hrun : ReflTransGen LockStep start system) : LockingOk system := by
  induction hrun with
  | refl => exact hstart.ok
  | tail _ hstep ih => exact hstep.ok ih

/-! ## A small system -/

/-- The request of an owner for a range of bytes. -/
def askFor (owner : ℕ) (type : LockType) (sleep : Bool) (first last : ℤ) : FileLock ℕ :=
  ⟨owner, true, false, sleep, false, type, first, last⟩

def emptyLocking : Locking ℕ :=
  ⟨⟨fun _ => askFor 0 .unlck false 0 0, fun _ => [], fun _ => [], fun _ => none, []⟩, fun _ => 0⟩

theorem emptyLocking_start : LockStart emptyLocking := by
  refine ⟨rfl, fun _ => rfl, fun _ => nodup_nil, ?_, ?_⟩
  · intro inode fl hfl
    simp [emptyLocking] at hfl
  · intro first second fl hfl
    simp [emptyLocking] at hfl

/-- Owner 1 has locked the first hundred bytes of inode 0 for writing. -/
def lockedLocking : Locking ℕ :=
  emptyLocking.call 0 0 (askFor 1 .wrlck false 0 99) (some 10) (some 11)

theorem lockedLocking_iFlock : lockedLocking.locks.iFlock = update (fun _ => []) 0 [10] := rfl

theorem lockedLocking_unused {fl : ℕ} (hne : fl ≠ 10) : Unused lockedLocking.locks fl := by
  refine ⟨not_mem_nil, fun inode => ?_⟩
  rw [lockedLocking_iFlock, update_apply]
  split_ifs
  · simpa using hne
  · simp

theorem emptyLocking_unused (fl : ℕ) : Unused emptyLocking.locks fl :=
  ⟨not_mem_nil, fun _ => not_mem_nil⟩

theorem askFor_requested {owner : ℕ} {type : LockType} {sleep : Bool} {first last : ℤ}
    (hfirst : 0 ≤ first) (hproper : first ≤ last) (hlast : last ≤ offsetMax) :
    Requested (askFor owner type sleep first last) :=
  ⟨rfl, hfirst, hproper, hlast⟩

theorem freshAlloc_of_unused {state : LockState ℕ} {request new new2 : ℕ}
    (hnew : Unused state new) (hnew2 : Unused state new2) (hne : new ≠ request)
    (hne2 : new2 ≠ request) (hdistinct : new ≠ new2) :
    FreshAlloc state request (some new) (some new2) := by
  refine ⟨?_, ?_, ?_⟩
  · rintro _ ⟨rfl⟩
    exact ⟨hnew, hne⟩
  · rintro _ ⟨rfl⟩
    exact ⟨hnew2, hne2⟩
  · rintro _ ⟨rfl⟩ heq
    exact hdistinct (some.inj heq).symm

theorem lockedLocking_step : LockStep emptyLocking lockedLocking :=
  .call (emptyLocking_unused 0) (askFor_requested (by decide) (by decide) (by decide))
    (freshAlloc_of_unused (emptyLocking_unused 10) (emptyLocking_unused 11) (by decide)
      (by decide) (by decide))

/-- Owner 2 waits for ten of these bytes. -/
def waitingLocking : Locking ℕ :=
  lockedLocking.call 0 1 (askFor 2 .wrlck true 40 49) (some 12) (some 13)

theorem lockedLocking_alloc : FreshAlloc lockedLocking.locks 1 (some 12) (some 13) :=
  freshAlloc_of_unused (lockedLocking_unused (by decide)) (lockedLocking_unused (by decide))
    (by decide) (by decide) (by decide)

theorem waitingLocking_step : LockStep lockedLocking waitingLocking :=
  .call (lockedLocking_unused (by decide)) (askFor_requested (by decide) (by decide) (by decide))
    lockedLocking_alloc

theorem waitingLocking_run : ReflTransGen LockStep emptyLocking waitingLocking :=
  (ReflTransGen.single lockedLocking_step).tail waitingLocking_step

/-- Or owner 1 unlocks them, in the middle of its hundred. -/
def splitLocking : Locking ℕ :=
  lockedLocking.call 0 1 (askFor 1 .unlck false 40 49) (some 12) (some 13)

theorem splitLocking_run : ReflTransGen LockStep emptyLocking splitLocking :=
  (ReflTransGen.single lockedLocking_step).tail
    (.call (lockedLocking_unused (by decide)) (askFor_requested (by decide) (by decide) (by decide))
      lockedLocking_alloc)

/-! ## Lists, bytes and waiters -/

/-- The POSIX locks on every inode's list are grouped by owner, sorted, disjoint
and merged, and different owners share bytes for reading only. -/
theorem posixLocks_ordered_of_run (hstart : LockStart start)
    (hrun : ReflTransGen LockStep start system) (inode : ℕ) :
    ListOk system.locks.lock (system.locks.iFlock inode) :=
  (hstart.ok_of_run hrun).lists inode

theorem splitLocking_ordered : splitLocking.locks.iFlock 0 = [13, 10] ∧
    ListOk splitLocking.locks.lock (splitLocking.locks.iFlock 0) :=
  ⟨rfl, posixLocks_ordered_of_run emptyLocking_start splitLocking_run 0⟩

/-- A call that returns zero locks exactly the bytes of its range, in the way it
asks for, and leaves all other bytes and all other owners alone. -/
theorem posixLockFile_paints_of_run (hstart : LockStart start)
    (hrun : ReflTransGen LockStep start system)
    (hrequest : Unused system.locks request) (hvalue : Requested value)
    (haccess : value.flAccess = false)
    (halloc : FreshAlloc system.locks request alloc alloc2) {result : LockResult Owner}
    (hresult : posixLockFile (setLock system.locks request value) inode request alloc alloc2 =
      result) (hdone : result.outcome = .done) :
    (∀ point type, value.flStart ≤ point → point ≤ value.flEnd →
      (result.state.byteMap inode value.flOwner point type ↔
        type = value.flType ∧ value.flType ≠ .unlck)) ∧
    (∀ point type, ¬ (value.flStart ≤ point ∧ point ≤ value.flEnd) →
      (result.state.byteMap inode value.flOwner point type ↔
        system.locks.byteMap inode value.flOwner point type)) ∧
    (∀ owner, owner ≠ value.flOwner → ∀ point type, (result.state.byteMap inode owner point type ↔
        system.locks.byteMap inode owner point type)) ∧
    ∀ place, place ≠ inode → ∀ owner point type,
      (result.state.byteMap place owner point type ↔
        system.locks.byteMap place owner point type) := by
  have hok := hstart.ok_of_run hrun
  have hstep := hok.listStep hrequest hvalue halloc inode
  have hframe := hok.callFrame hrequest hvalue halloc inode
  have hmap := mapAfter_done hrequest haccess hdone inode
  simp only [Locking.call, hresult] at hstep hframe
  rw [hmap] at hstep
  obtain ⟨_, _, _, _, hown, hforeign⟩ := hstep
  rw [setLock_lock_self] at hown hforeign
  refine ⟨?_, ?_, ?_, ?_⟩
  · intro point type hfrom hto
    have hcovers : value.segment.Covers point := ⟨hfrom, hto⟩
    refine (hown point type).trans ?_
    simp only [overlay, hcovers, true_and, not_true, false_and, or_false]
    constructor
    · rintro ⟨hne, rfl⟩
      exact ⟨rfl, hne⟩
    · rintro ⟨rfl, hne⟩
      exact ⟨hne, rfl⟩
  · intro point type hout
    have hcovers : ¬ value.segment.Covers point := hout
    refine (hown point type).trans ?_
    simp only [overlay, hcovers, false_and, not_false_eq_true, true_and, false_or]
    exact ⟨fun hheld => hheld.2, fun hheld => ⟨(hok.lists inode).heldBy_type hheld, hheld⟩⟩
  · intro owner howner point type
    rw [← byteMap_setLock hrequest value inode]
    exact hforeign owner howner point type
  · intro place hplace owner point type
    rw [LockState.byteMap, hframe.lists place hplace]
    exact HeldBy.congr (hframe.locks_of_ne hok hrequest hplace)

/-- The bytes in the middle are unlocked. -/
theorem lockedLocking_paints : ¬ splitLocking.locks.byteMap 0 1 45 .wrlck := by
  obtain ⟨hinside, _⟩ := posixLockFile_paints_of_run emptyLocking_start
    (.single lockedLocking_step) (lockedLocking_unused (by decide))
    (@askFor_requested 1 .unlck false 40 49 (by decide) (by decide) (by decide)) rfl
    lockedLocking_alloc (@rfl _ (posixLockFile _ 0 1 _ _)) (by decide)
  intro hheld
  exact ((hinside 45 .wrlck (by decide) (by decide)).mp hheld).2 rfl

/-- Who is queued on a lock waits for this lock, which is still on the list of
the inode and still in the way. -/
theorem waiters_blocked_of_run (hstart : LockStart start)
    (hrun : ReflTransGen LockStep start system) {waiter blocker : ℕ}
    (hqueued : waiter ∈ system.locks.flBlock blocker) :
    system.locks.flNext waiter = some blocker ∧
      blocker ∈ system.locks.iFlock (system.place waiter) ∧
      posixLocksConflict (system.locks.lock waiter) (system.locks.lock blocker) = true := by
  have hok := hstart.ok_of_run hrun
  obtain ⟨hblocked, hnext⟩ := (hok.queue.queued waiter blocker).mp hqueued
  obtain ⟨other, hother, _, hconflict⟩ := hok.queue.waits waiter hblocked
  rw [hnext, some_inj] at hother
  subst hother
  exact ⟨hnext, hok.placed waiter hblocked blocker hnext, hconflict⟩

theorem waitingLocking_blocked :
    waitingLocking.locks.flNext 1 = some 10 ∧ 10 ∈ waitingLocking.locks.iFlock 0 ∧
      posixLocksConflict (waitingLocking.locks.lock 1) (waitingLocking.locks.lock 10) = true :=
  waiters_blocked_of_run emptyLocking_start waitingLocking_run (by decide)

end KernelM5040.Locks
