import KernelM5040.Fs.LockScan

/-!
# Waiters

The queues of waiters stay consistent: a waiter is on the list of exactly one
blocker, which is a lock on an inode's list, and it conflicts with it.  Every
path of `__posix_lock_file` that shrinks, retypes or deletes a lock wakes its
waiters; a lock that grows keeps them.
-/

namespace KernelM5040.Locks

open List Function Segments Option

variable {Owner : Type*} [DecidableEq Owner] {state state' : LockState Owner} {fl request inode : ℕ}
  {list : List ℕ}

structure QueueOk (state : LockState Owner) : Prop where
  queued : ∀ waiter blocker, waiter ∈ state.flBlock blocker ↔
    waiter ∈ state.blockedList ∧ state.flNext waiter = some blocker
  waits : ∀ waiter ∈ state.blockedList, ∃ blocker, state.flNext waiter = some blocker ∧
    (∃ inode, blocker ∈ state.iFlock inode) ∧
    posixLocksConflict (state.lock waiter) (state.lock blocker) = true
  apart : ∀ waiter ∈ state.blockedList, ∀ inode, waiter ∉ state.iFlock inode

/-- Some request of the first owner waits for a lock of the second. -/
def WaitsFor (state : LockState Owner) (first second : Owner) : Prop :=
  ∃ waiter ∈ state.blockedList, ∃ blocker, state.flNext waiter = some blocker ∧
    (state.lock waiter).flOwner = first ∧ (state.lock blocker).flOwner = second

/-- The queues after a step that blocks nobody. -/
structure Calmed (state state' : LockState Owner) : Prop where
  ok : QueueOk state'
  waits : ∀ first second, WaitsFor state' first second → WaitsFor state first second
  blocked : state'.blockedList ⊆ state.blockedList
  next : ∀ waiter ∈ state'.blockedList, state'.flNext waiter = state.flNext waiter

theorem Calmed.refl (hok : QueueOk state) : Calmed state state :=
  ⟨hok, fun _ _ => id, Subset.refl _, fun _ _ => rfl⟩

theorem Calmed.trans {state'' : LockState Owner} (hfirst : Calmed state state')
    (hsecond : Calmed state' state'') : Calmed state state'' where
  ok := hsecond.ok
  waits := fun first second hwaits =>
    hfirst.waits first second (hsecond.waits first second hwaits)
  blocked := Subset.trans hsecond.blocked hfirst.blocked
  next := fun waiter hwaiter =>
    (hsecond.next waiter hwaiter).trans (hfirst.next waiter (hsecond.blocked hwaiter))

/-! ## Single updates -/

/-- A lock that nobody waits for any more. -/
def NoWaiter (state : LockState Owner) (fl : ℕ) : Prop :=
  ∀ waiter ∈ state.blockedList, state.flNext waiter ≠ some fl

omit [DecidableEq Owner] in
theorem noWaiter_wakeUp (hqueued : ∀ waiter blocker, waiter ∈ state.flBlock blocker ↔
      waiter ∈ state.blockedList ∧ state.flNext waiter = some blocker) (fl : ℕ) :
    NoWaiter (locksWakeUpBlocks state fl) fl := by
  rw [locksWakeUpBlocks_eq]
  intro waiter hwaiter hnext
  simp only [wake, mem_filter, decide_eq_true_eq] at hwaiter hnext
  rw [if_neg hwaiter.2] at hnext
  exact hwaiter.2 ((hqueued waiter fl).mpr ⟨hwaiter.1, hnext⟩)

theorem posixLocksConflict_extend {caller lock other : FileLock Owner}
    (hconflict : posixLocksConflict caller lock = true) :
    posixLocksConflict caller (lock.extend other) = true := by
  rw [posixLocksConflict_iff] at hconflict ⊢
  obtain ⟨hposix, howner, hstart, hend, htype⟩ := hconflict
  exact ⟨hposix, howner, (min_le_left _ _).trans hstart, hend.trans (le_max_left _ _), htype⟩

section

variable (hok : QueueOk state)
include hok

theorem calmed_wake (waiters : List ℕ) : Calmed state (wake state waiters) := by
  have hnext : ∀ waiter, waiter ∉ waiters →
      (wake state waiters).flNext waiter = state.flNext waiter :=
    fun waiter hnot => if_neg hnot
  have hmem : ∀ waiter, waiter ∈ (wake state waiters).blockedList ↔
      waiter ∈ state.blockedList ∧ waiter ∉ waiters := by
    simp [wake]
  refine ⟨⟨?_, ?_, ?_⟩, ?_, fun waiter hwaiter => ((hmem waiter).mp hwaiter).1,
    fun waiter hwaiter => hnext waiter ((hmem waiter).mp hwaiter).2⟩
  · intro waiter blocker
    rw [hmem]
    by_cases hwoken : waiter ∈ waiters
    · simp [wake, hwoken]
    · rw [hnext waiter hwoken]
      simp [wake, hwoken, hok.queued]
  · intro waiter hwaiter
    obtain ⟨hblocked, hnot⟩ := (hmem waiter).mp hwaiter
    rw [hnext waiter hnot]
    exact hok.waits waiter hblocked
  · intro waiter hwaiter
    exact hok.apart waiter ((hmem waiter).mp hwaiter).1
  · rintro first second ⟨waiter, hwaiter, blocker, hblocker, howners⟩
    obtain ⟨hblocked, hnot⟩ := (hmem waiter).mp hwaiter
    rw [hnext waiter hnot] at hblocker
    exact ⟨waiter, hblocked, blocker, hblocker, howners⟩

theorem noWaiter_of_unlisted (hunlisted : ∀ inode, fl ∉ state.iFlock inode) :
    NoWaiter state fl := by
  intro waiter hwaiter hnext
  obtain ⟨blocker, hblocker, ⟨inode, hlisted⟩, _⟩ := hok.waits waiter hwaiter
  rw [hnext] at hblocker
  exact hunlisted inode (some.inj hblocker ▸ hlisted)

theorem calmed_wakeUp (fl : ℕ) : Calmed state (locksWakeUpBlocks state fl) := by
  rw [locksWakeUpBlocks_eq]
  exact calmed_wake hok _

/-- Changing a lock that is no waiter, when its own waiters still conflict with
it. -/
theorem calmed_setLock {value : FileLock Owner} (hblocked : fl ∉ state.blockedList)
    (hkeeps : ∀ waiter ∈ state.blockedList, state.flNext waiter = some fl →
      value.flOwner = (state.lock fl).flOwner ∧
        (posixLocksConflict (state.lock waiter) (state.lock fl) = true →
          posixLocksConflict (state.lock waiter) value = true)) :
    Calmed state (setLock state fl value) := by
  have hwaiter : ∀ waiter ∈ state.blockedList,
      (setLock state fl value).lock waiter = state.lock waiter := fun waiter hmem =>
    setLock_lock_of_ne state (ne_of_mem_of_not_mem hmem hblocked) value
  refine ⟨⟨hok.queued, ?_, hok.apart⟩, ?_, Subset.refl _, fun _ _ => rfl⟩
  · intro waiter hmem
    obtain ⟨blocker, hnext, hlisted, hconflict⟩ := hok.waits waiter hmem
    refine ⟨blocker, hnext, hlisted, ?_⟩
    rw [hwaiter waiter hmem]
    by_cases heq : blocker = fl
    · subst heq
      rw [setLock_lock_self]
      exact (hkeeps waiter hmem hnext).2 hconflict
    · rw [setLock_lock_of_ne state heq]
      exact hconflict
  · rintro first second ⟨waiter, hmem, blocker, hnext, hfirst, hsecond⟩
    refine ⟨waiter, hmem, blocker, hnext, ?_, ?_⟩
    · rw [← hwaiter waiter hmem]
      exact hfirst
    by_cases heq : blocker = fl
    · subst heq
      rw [setLock_lock_self] at hsecond
      rw [← (hkeeps waiter hmem hnext).1]
      exact hsecond
    · rw [setLock_lock_of_ne state heq] at hsecond
      exact hsecond

theorem calmed_setLock_extend (other : FileLock Owner) (hblocked : fl ∉ state.blockedList) :
    Calmed state (setLock state fl ((state.lock fl).extend other)) :=
  calmed_setLock hok hblocked fun _ _ _ => ⟨rfl, posixLocksConflict_extend⟩

/-- A lock leaves its list once nobody waits for it; new locks may come. -/
theorem calmed_setList (hgone : ∀ fl ∈ state.iFlock inode, fl ∉ list → NoWaiter state fl)
    (hcome : ∀ fl ∈ list, fl ∉ state.blockedList) : Calmed state (setList state inode list) := by
  refine ⟨⟨hok.queued, ?_, ?_⟩, fun _ _ => id, Subset.refl _, fun _ _ => rfl⟩
  · intro waiter hmem
    obtain ⟨blocker, hnext, ⟨place, hlisted⟩, hconflict⟩ := hok.waits waiter hmem
    refine ⟨blocker, hnext, ⟨place, ?_⟩, hconflict⟩
    by_cases hplace : place = inode
    · subst hplace
      by_contra hnot
      simp only [setList, update_self] at hnot
      exact hgone blocker hlisted hnot waiter hmem hnext
    · simpa [setList, hplace] using hlisted
  · intro waiter hmem place
    by_cases hplace : place = inode
    · subst hplace
      simp only [setList, update_self]
      exact fun hlisted => hcome waiter hlisted hmem
    · simpa [setList, hplace] using hok.apart waiter hmem place

end

theorem calmed_setLock_of_noWaiter (hok : QueueOk state) {fl : ℕ} {value : FileLock Owner}
    (hblocked : fl ∉ state.blockedList) (hnone : NoWaiter state fl) :
    Calmed state (setLock state fl value) :=
  calmed_setLock hok hblocked fun waiter hmem hnext => absurd hnext (hnone waiter hmem)

/-! ## The loop -/

omit [DecidableEq Owner] in
theorem setList_wakeUp (fl inode : ℕ) (list : List ℕ) :
    setList (locksWakeUpBlocks state fl) inode list =
      locksWakeUpBlocks (setList state inode list) fl := by
  rw [locksWakeUpBlocks_eq, locksWakeUpBlocks_eq]
  rfl

omit [DecidableEq Owner] in
theorem setList_setList (inode : ℕ) (list list' : List ℕ) :
    setList (setList state inode list) inode list' = setList state inode list' := by
  simp [setList]

omit [DecidableEq Owner] in
theorem wakeUp_setLock (fl : ℕ) (value : FileLock Owner) :
    locksWakeUpBlocks (setLock state fl value) fl =
      setLock (locksWakeUpBlocks state fl) fl value := by
  rw [locksWakeUpBlocks_eq, locksWakeUpBlocks_eq]
  rfl

theorem QueueOk.not_blocked (hok : QueueOk (setList state inode list)) (hfl : fl ∈ list) :
    fl ∉ state.blockedList := by
  intro hmem
  apply hok.apart fl hmem inode
  simpa [setList] using hfl

/-- Changing a lock and waking its waiters, in whichever order. -/
theorem calmed_setLock_wakeUp (hok : QueueOk state) (value : FileLock Owner)
    (hblocked : fl ∉ state.blockedList) :
    Calmed state (locksWakeUpBlocks (setLock state fl value) fl) := by
  have hwake := calmed_wakeUp hok fl
  rw [wakeUp_setLock]
  exact hwake.trans (calmed_setLock_of_noWaiter hwake.ok (fun h => hblocked (hwake.blocked h))
    (noWaiter_wakeUp hok.queued fl))

theorem calmed_mergeRange (hok : QueueOk state) (hne : request ≠ fl)
    (hrequest : request ∉ state.blockedList) (hfl : fl ∉ state.blockedList) :
    Calmed state (mergeRange state request fl) := by
  rw [mergeRange_eq _ hne]
  have hfirst := calmed_setLock_extend hok (state.lock fl) hrequest
  have hsecond := calmed_setLock_extend hfirst.ok (state.lock request) hfl
  rw [setLock_lock_of_ne _ hne.symm] at hsecond
  exact hfirst.trans hsecond

/-- Deleting the lock at `before` after its waiters have been woken. -/
theorem calmed_delete {passed rest : List ℕ}
    (hok : QueueOk (setList state inode (passed ++ fl :: rest))) :
    Calmed (setList state inode (passed ++ fl :: rest))
      (setList (locksWakeUpBlocks state fl) inode (passed ++ rest)) := by
  have hwake := calmed_wakeUp hok fl
  have hnone := noWaiter_wakeUp hok.queued fl
  have hstate : setList (locksWakeUpBlocks state fl) inode (passed ++ rest) =
      setList (locksWakeUpBlocks
        (setList state inode (passed ++ fl :: rest)) fl) inode (passed ++ rest) := by
    rw [← setList_wakeUp, setList_setList]
  rw [hstate]
  refine hwake.trans (calmed_setList hwake.ok ?_ ?_)
  · intro other hother hnot
    rw [locksWakeUpBlocks_iFlock] at hother
    simp only [setList, update_self, mem_append, mem_cons] at hother
    simp only [mem_append, not_or] at hnot
    have heq : other = fl := by tauto
    rw [heq]
    exact hnone
  · intro other hother hblocked
    refine hok.not_blocked ?_ (hwake.blocked hblocked)
    simp only [mem_append, mem_cons] at hother ⊢
    tauto

/-- What holds of the queues before each round. -/
structure ScanQueue (inode : ℕ) (scan : Scan Owner) (passed rest : List ℕ) : Prop where
  ok : QueueOk (setList scan.state inode (passed ++ rest))
  nodup : rest.Nodup
  request_rest : scan.request ∉ rest
  request_blocked : scan.request ∉ scan.state.blockedList
  left : ∀ left, scan.left = some left → left ∈ passed
  right : scan.right = none

/-- What holds of them after the loop. -/
structure ScanCalmed (inode : ℕ) (start : LockState Owner) (list : List ℕ)
    (scan : Scan Owner) (passed rest : List ℕ) : Prop where
  calmed : Calmed (setList start inode list) (setList scan.state inode (passed ++ rest))
  left : ∀ left, scan.left = some left → left ∈ passed ++ rest
  right : ∀ right, scan.right = some right → right ∈ passed ++ rest
  subset : passed ++ rest ⊆ list

variable {inode fl : ℕ} {scan : Scan Owner} {passed rest : List ℕ}

section

variable (hscan : ScanQueue inode scan passed (fl :: rest)) {scan' : Scan Owner}
include hscan

/-- The next lock is looked at with the request in the same place or at `fl`. -/
theorem ScanQueue.next (hcalmed : Calmed (setList scan.state inode (passed ++ fl :: rest))
      (setList scan'.state inode (passed ++ fl :: rest)))
    (hrequest : scan'.request = scan.request ∨ scan'.request = fl)
    (hleft : scan'.left = scan.left ∨ scan'.left = some fl) (hright : scan'.right = scan.right) :
    ScanQueue inode scan' (passed ++ [fl]) rest := by
  obtain ⟨hfl, hnodup⟩ := nodup_cons.mp hscan.nodup
  have hassoc : passed ++ [fl] ++ rest = passed ++ fl :: rest := by simp
  refine ⟨hassoc ▸ hcalmed.ok, hnodup, ?_, ?_, ?_, hright.trans hscan.right⟩
  · rcases hrequest with heq | heq
    · rw [heq]
      exact fun h => hscan.request_rest (mem_cons_of_mem fl h)
    · rw [heq]
      exact hfl
  · intro hblocked
    have hold : scan'.request ∈ scan.state.blockedList := hcalmed.blocked hblocked
    rcases hrequest with heq | heq
    · exact hscan.request_blocked (heq ▸ hold)
    · rw [heq] at hold
      exact hscan.ok.not_blocked (by simp) hold
  · intro left hsome
    rcases hleft with heq | heq
    · exact mem_append_left _ (hscan.left left (heq ▸ hsome))
    · rw [heq] at hsome
      rw [← some.inj hsome]
      simp

theorem ScanQueue.delete (hcalmed : Calmed (setList scan.state inode (passed ++ fl :: rest))
      (setList scan'.state inode (passed ++ rest)))
    (hrequest : scan'.request = scan.request) (hleft : scan'.left = scan.left)
    (hright : scan'.right = scan.right) : ScanQueue inode scan' passed rest := by
  refine ⟨hcalmed.ok, (nodup_cons.mp hscan.nodup).2, ?_, ?_, ?_, hright.trans hscan.right⟩
  · rw [hrequest]
    exact fun h => hscan.request_rest (mem_cons_of_mem fl h)
  · rw [hrequest]
    exact fun h => hscan.request_blocked (hcalmed.blocked h)
  · rw [hleft]
    exact hscan.left

theorem ScanQueue.round :
    match scanLock scan fl with
    | .next scan' => ScanQueue inode scan' (passed ++ [fl]) rest ∧
        Calmed (setList scan.state inode (passed ++ fl :: rest))
          (setList scan'.state inode (passed ++ fl :: rest))
    | .delete scan' => ScanQueue inode scan' passed rest ∧
        Calmed (setList scan.state inode (passed ++ fl :: rest))
          (setList scan'.state inode (passed ++ rest))
    | .leave scan' => ScanCalmed inode scan.state (passed ++ fl :: rest) scan' passed
        (fl :: rest) := by
  have hok := hscan.ok
  have hflBlocked : fl ∉ scan.state.blockedList := hok.not_blocked (by simp)
  have hne : scan.request ≠ fl := (ne_and_not_mem_of_not_mem_cons hscan.request_rest).1
  have hleft : ∀ left, scan.left = some left → left ∈ passed ++ fl :: rest :=
    fun left h => mem_append_left _ (hscan.left left h)
  have hself : ∀ right, some fl = some right → right ∈ passed ++ fl :: rest := by
    intro right heq
    rw [← some.inj heq]
    simp
  have hmerge : Calmed (setList scan.state inode (passed ++ fl :: rest))
      (setList (mergeRange scan.state scan.request fl) inode (passed ++ fl :: rest)) := by
    have hcalmed := calmed_mergeRange hok hne hscan.request_blocked hflBlocked
    rw [mergeRange_eq _ hne] at hcalmed ⊢
    exact hcalmed
  have hcase := roundCase_scanLock scan fl
  generalize scanLock scan fl = round at hcase ⊢
  cases hcase with
  | before _ =>
    exact ⟨hscan.next (Calmed.refl hok) (.inl rfl) (.inl rfl) rfl, Calmed.refl hok⟩
  | after _ =>
    exact ⟨Calmed.refl hok, hleft, by simp [hscan.right], Subset.refl _⟩
  | extend _ _ _ _ => exact ⟨hscan.next hmerge (.inr rfl) (.inl rfl) rfl, hmerge⟩
  | absorb _ _ _ _ =>
    have hdelete := hmerge.trans (calmed_delete hmerge.ok)
    exact ⟨hscan.delete hdelete rfl rfl rfl, hdelete⟩
  | right _ => exact ⟨Calmed.refl hok, hleft, hself, Subset.refl _⟩
  | split _ => exact ⟨Calmed.refl hok, hself, hself, Subset.refl _⟩
  | left _ _ _ _ =>
    exact ⟨hscan.next (Calmed.refl hok) (.inl rfl) (.inr rfl) rfl, Calmed.refl hok⟩
  | cover _ _ _ =>
    have hdelete := calmed_delete hok
    exact ⟨hscan.delete hdelete rfl rfl rfl, hdelete⟩
  | replace _ _ _ =>
    have hset : Calmed (setList scan.state inode (passed ++ fl :: rest))
        (setList (replaceLock scan.state scan.request fl) inode (passed ++ fl :: rest)) := by
      change Calmed _ (setLock (setList (locksWakeUpBlocks scan.state fl) inode _) fl _)
      rw [setList_wakeUp, ← wakeUp_setLock]
      exact calmed_setLock_wakeUp hok _ hflBlocked
    exact ⟨hscan.next hset (.inr rfl) (.inl rfl) rfl, hset⟩

end

theorem ScanQueue.process (hscan : ScanQueue inode scan passed rest) :
    ScanCalmed inode scan.state (passed ++ rest) (processLocks scan passed rest).1
      (processLocks scan passed rest).2.1 (processLocks scan passed rest).2.2 := by
  induction rest generalizing scan passed with
  | nil =>
    exact ⟨Calmed.refl hscan.ok, fun left h => mem_append_left _ (hscan.left left h),
      by simp [processLocks, hscan.right], Subset.refl _⟩
  | cons fl rest ih =>
    have hround := hscan.round
    rw [processLocks]
    split
    · exact ⟨Calmed.refl hscan.ok,
        fun left h => mem_append_left _ (hscan.left left h), by simp [hscan.right], Subset.refl _⟩
    generalize scanLock scan fl = round at hround ⊢
    cases round with
    | next scan' =>
      obtain ⟨hnext, hcalmed⟩ := hround
      obtain ⟨hcalmed', hleft, hright, hsubset⟩ := ih hnext
      have hassoc : passed ++ [fl] ++ rest = passed ++ fl :: rest := by simp
      rw [hassoc] at hcalmed' hsubset
      exact ⟨hcalmed.trans hcalmed', hleft, hright, hsubset⟩
    | delete scan' =>
      obtain ⟨hnext, hcalmed⟩ := hround
      obtain ⟨hcalmed', hleft, hright, hsubset⟩ := ih hnext
      refine ⟨hcalmed.trans hcalmed', hleft, hright, Subset.trans hsubset ?_⟩
      exact ((sublist_cons_self fl rest).append_left passed).subset
    | leave scan' => exact hround

/-! ## After the loop -/

/-- A structure that is on no list: a fresh one, or a request that does not
wait. -/
structure Unused (state : LockState Owner) (fl : ℕ) : Prop where
  blocked : fl ∉ state.blockedList
  listed : ∀ inode, fl ∉ state.iFlock inode

theorem calmed_insert {new : ℕ} (value : FileLock Owner)
    (hok : QueueOk (setList state inode (passed ++ rest)))
    (hnew : Unused (setList state inode (passed ++ rest)) new) :
    Calmed (setList state inode (passed ++ rest))
      (setList (setLock state new value) inode (passed ++ new :: rest)) := by
  have hset := @calmed_setLock_of_noWaiter Owner _ _ hok new value hnew.blocked
    (noWaiter_of_unlisted hok hnew.listed)
  have hstate : setList (setLock state new value) inode (passed ++ new :: rest) =
      setList (setLock (setList state inode (passed ++ rest)) new value)
        inode (passed ++ new :: rest) := by
    simp [setList, setLock]
  rw [hstate]
  refine hset.trans (calmed_setList hset.ok ?_ ?_)
  · intro other hother hnot
    simp only [setList, setLock, update_self, mem_append] at hother
    simp only [mem_append, mem_cons, not_or] at hnot
    exact absurd hother (by tauto)
  · rw [forall_mem_append, forall_mem_cons]
    exact ⟨fun other hother => hok.not_blocked (mem_append_left _ hother), hnew.blocked,
      fun other hother => hok.not_blocked (mem_append_right _ hother)⟩

theorem calmed_cutRight (hok : QueueOk state) (request : ℕ) {right : Option ℕ}
    (hright : ∀ fl, right = some fl → fl ∉ state.blockedList) :
    Calmed state (cutRight state request right) := by
  cases right with
  | none => exact Calmed.refl hok
  | some fl => exact calmed_setLock_wakeUp hok _ (hright fl rfl)

theorem calmed_cutLeft (hok : QueueOk state) (request : ℕ) {left : Option ℕ}
    (hleft : ∀ fl, left = some fl → fl ∉ state.blockedList) :
    Calmed state (cutLeft state request left) := by
  cases left with
  | none => exact Calmed.refl hok
  | some fl => exact calmed_setLock_wakeUp hok _ (hleft fl rfl)

/-- A copy for the left part is inserted, then both parts are cut and their
waiters woken. -/
theorem calmed_cutNeighbours {newFl2 : Option ℕ}
    (hok : QueueOk (setList scan.state inode (passed ++ rest)))
    (hleft : ∀ left, scan.left = some left → left ∈ passed ++ rest)
    (hright : ∀ right, scan.right = some right → right ∈ passed ++ rest)
    (hnew2 : ∀ new, newFl2 = some new → Unused (setList scan.state inode (passed ++ rest)) new) :
    Calmed (setList scan.state inode (passed ++ rest))
      (cutNeighbours scan inode newFl2 passed rest) := by
  have hcopied : Calmed (setList scan.state inode (passed ++ rest))
      (copySplit scan inode newFl2 passed rest) := by
    unfold copySplit
    cases newFl2 with
    | none =>
      cases splitLock scan with
      | none | some right => exact Calmed.refl hok
    | some copy =>
      cases splitLock scan with
      | none => exact Calmed.refl hok
      | some right => exact calmed_insert _ hok (hnew2 copy rfl)
  have hcutRight := hcopied.trans (calmed_cutRight hcopied.ok scan.request
    fun right hsome h => hok.not_blocked (hright right hsome) (hcopied.blocked h))
  refine hcutRight.trans (calmed_cutLeft hcutRight.ok scan.request fun left hsome h => ?_)
  have hold : left ∈ scan.state.blockedList := hcutRight.blocked h
  split at hsome
  · exact (hnew2 left hsome).blocked hold
  · exact hok.not_blocked (hleft left hsome) hold

theorem calmed_finishLock {newFl newFl2 : Option ℕ}
    (hok : QueueOk (setList scan.state inode (passed ++ rest)))
    (hleft : ∀ left, scan.left = some left → left ∈ passed ++ rest)
    (hright : ∀ right, scan.right = some right → right ∈ passed ++ rest)
    (hnew : ∀ new, newFl = some new → Unused (setList scan.state inode (passed ++ rest)) new)
    (hnew2 : ∀ new, newFl2 = some new → Unused (setList scan.state inode (passed ++ rest)) new)
    (hdistinct : ∀ new, newFl = some new → newFl2 ≠ some new) :
    Calmed (setList scan.state inode (passed ++ rest))
      (finishLock scan inode newFl newFl2 passed rest).2 := by
  unfold finishLock
  dsimp only
  split
  · exact Calmed.refl hok
  split
  · exact calmed_cutNeighbours hok hleft hright hnew2
  split
  · exact Calmed.refl hok
  cases newFl with
  | none => exact Calmed.refl hok
  | some new =>
    have hinsert := calmed_insert scan.wanted hok (hnew new rfl)
    have hmore : passed ++ rest ⊆ passed ++ new :: rest :=
      ((sublist_cons_self new rest).append_left passed).subset
    refine hinsert.trans (@calmed_cutNeighbours _ _ inode
      { scan with state := setLock scan.state new scan.wanted }
      passed (new :: rest) newFl2 hinsert.ok (fun left h => hmore (hleft left h))
      (fun right h => hmore (hright right h)) ?_)
    intro new2 hsome
    obtain ⟨hblocked, hlisted⟩ := hnew2 new2 hsome
    refine ⟨hblocked, fun place hmem => ?_⟩
    have hold := hlisted place
    simp only [setList, setLock] at hmem hold
    by_cases hplace : place = inode
    · subst hplace
      simp only [update_self, mem_append, mem_cons, not_or] at hmem hold
      have heq : new2 = new := by tauto
      exact hdistinct new rfl (heq ▸ hsome)
    · rw [update_of_ne hplace] at hmem hold
      exact hold hmem

/-! ## The whole call -/

omit [DecidableEq Owner] in
theorem setList_self (inode : ℕ) : setList state inode (state.iFlock inode) = state := by
  simp [setList]

/-- What the allocator of lock structures may return. -/
structure FreshAlloc (state : LockState Owner) (request : ℕ) (alloc alloc2 : Option ℕ) :
    Prop where
  first : ∀ new, alloc = some new → Unused state new ∧ new ≠ request
  second : ∀ new, alloc2 = some new → Unused state new ∧ new ≠ request
  distinct : ∀ new, alloc = some new → alloc2 ≠ some new

omit [DecidableEq Owner] in
theorem Unused.ne_of_mem {other : ℕ} (hunused : Unused state fl)
    (hother : other ∈ state.iFlock inode) : other ≠ fl := by
  rintro rfl
  exact hunused.listed inode hother

omit [DecidableEq Owner] in
theorem Unused.setLock (hunused : Unused state fl) (request : ℕ) (value : FileLock Owner) :
    Unused (Locks.setLock state request value) fl :=
  ⟨hunused.blocked, hunused.listed⟩

omit [DecidableEq Owner] in
theorem FreshAlloc.setLock {alloc alloc2 : Option ℕ}
    (halloc : FreshAlloc state request alloc alloc2) (value : FileLock Owner) :
    FreshAlloc (Locks.setLock state request value) request alloc alloc2 where
  first := fun new hnew => (halloc.first new hnew).imp_left fun h => h.setLock request value
  second := fun new hnew => (halloc.second new hnew).imp_left fun h => h.setLock request value
  distinct := halloc.distinct

theorem Unused.of_calmed (hunused : Unused state fl)
    (hcalmed : Calmed state (setList state' inode list)) (hlists : state'.iFlock = state.iFlock)
    (hsubset : list ⊆ state.iFlock inode) : Unused (setList state' inode list) fl where
  blocked := fun h => hunused.blocked (hcalmed.blocked h)
  listed := by
    intro place hmem
    by_cases hplace : place = inode
    · subst hplace
      simp only [setList, update_self] at hmem
      exact hunused.listed place (hsubset hmem)
    · simp only [setList, update_of_ne hplace, hlists] at hmem
      exact hunused.listed place hmem

theorem QueueOk.insertBlock (hok : QueueOk state) (hrequest : Unused state request)
    (hfl : fl ∈ state.iFlock inode)
    (hconflict : posixLocksConflict (state.lock request) (state.lock fl) = true) :
    QueueOk (locksInsertBlock state fl request) := by
  have hposix := (posixLocksConflict_iff.mp hconflict).1
  have hnext : ∀ waiter, waiter ≠ request →
      (locksInsertBlock state fl request).flNext waiter = state.flNext waiter :=
    fun waiter hne => update_of_ne hne _ _
  have hself : (locksInsertBlock state fl request).flNext request = some fl :=
    update_self _ _ _
  have hlist : (locksInsertBlock state fl request).blockedList =
      request :: state.blockedList := if_pos hposix
  have hnotQueued : ∀ blocker, request ∉ state.flBlock blocker := fun blocker hmem =>
    hrequest.blocked ((hok.queued request blocker).mp hmem).1
  refine ⟨?_, ?_, ?_⟩
  · intro waiter blocker
    rw [hlist, mem_cons]
    by_cases hwaiter : waiter = request
    · subst hwaiter
      rw [hself]
      simp only [locksInsertBlock, true_or, true_and, some.injEq]
      by_cases hblocker : blocker = fl
      · subst hblocker
        simp
      · rw [update_of_ne hblocker]
        simp [hnotQueued blocker, Ne.symm hblocker]
    · rw [hnext waiter hwaiter]
      simp only [hwaiter, false_or, ← hok.queued, locksInsertBlock]
      by_cases hblocker : blocker = fl
      · subst hblocker
        simp [hwaiter]
      · rw [update_of_ne hblocker]
  · intro waiter hmem
    rw [hlist] at hmem
    by_cases hwaiter : waiter = request
    · subst hwaiter
      exact ⟨fl, hself, ⟨inode, hfl⟩, hconflict⟩
    · rw [hnext waiter hwaiter]
      exact hok.waits waiter ((mem_cons.mp hmem).resolve_left hwaiter)
  · rw [hlist, forall_mem_cons]
    exact ⟨hrequest.listed, hok.apart⟩

theorem processLocks_iFlock (scan : Scan Owner) (passed rest : List ℕ) :
    (processLocks scan passed rest).1.state.iFlock = scan.state.iFlock := by
  induction rest generalizing scan passed with
  | nil => rfl
  | cons fl rest ih =>
    have hcase := roundCase_scanLock scan fl
    rw [processLocks]
    split
    · rfl
    generalize scanLock scan fl = round at hcase ⊢
    cases hcase with
    | before _ => exact ih _ _
    | after _ => rfl
    | extend _ _ _ _ =>
      rw [ih]
      unfold mergeRange mergeEnd mergeStart
      split <;> split <;> rfl
    | absorb _ _ _ _ =>
      rw [ih, locksWakeUpBlocks_iFlock]
      unfold mergeRange mergeEnd mergeStart
      split <;> split <;> rfl
    | right _ | split _ => rfl
    | left _ _ _ _ => exact ih _ _
    | cover _ _ _ | replace _ _ _ =>
      rw [ih]
      exact locksWakeUpBlocks_iFlock _ _

theorem processOwn_iFlock (state : LockState Owner) (inode request : ℕ) :
    (processOwn state inode request).1.state.iFlock = state.iFlock := processLocks_iFlock _ _ _

/-- `__posix_lock_file` either queues the request behind a lock that it
conflicts with, after the deadlock check, or blocks nobody. -/
theorem posixLockFile_queue {alloc alloc2 : Option ℕ} (hok : QueueOk state)
    (hnodup : (state.iFlock inode).Nodup) (hrequest : Unused state request)
    (halloc : FreshAlloc state request alloc alloc2) :
    (Calmed state (posixLockFile state inode request alloc alloc2).state) ∨
      ∃ fl ∈ state.iFlock inode,
        (posixLockFile state inode request alloc alloc2).state =
          locksInsertBlock state fl request ∧
        posixLocksConflict (state.lock request) (state.lock fl) = true ∧
        posixLocksDeadlock state request fl = false := by
  have hcase := callCase_posixLockFile state inode request alloc alloc2
  generalize posixLockFile state inode request alloc alloc2 = result at hcase ⊢
  cases hcase with
  | refused _ => exact Or.inl (Calmed.refl hok)
  | deferred hmem hconflict hdeadlock => exact Or.inr ⟨_, hmem, rfl, hconflict, hdeadlock⟩
  | tested _ => exact Or.inl (Calmed.refl hok)
  | changed _ _ hnew hnew2 =>
    left
    have hsplit : (state.iFlock inode).takeWhile (isOther state request) ++
        (state.iFlock inode).dropWhile (isOther state request) = state.iFlock inode :=
      takeWhile_append_dropWhile
    have hscan : ScanQueue inode ⟨state, request, none, none, false⟩
        ((state.iFlock inode).takeWhile (isOther state request))
        ((state.iFlock inode).dropWhile (isOther state request)) := by
      refine ⟨?_, hnodup.sublist (dropWhile_sublist _), ?_, hrequest.blocked, by simp, rfl⟩
      · rw [hsplit, setList_self]
        exact hok
      · exact fun h => hrequest.listed inode ((dropWhile_sublist _).subset h)
    obtain ⟨hcalmed, hleft, hright, hsubset⟩ := hscan.process
    rw [hsplit] at hcalmed hsubset
    rw [setList_self] at hcalmed
    have hunused := fun (new : ℕ) (hunused : Unused state new) =>
      hunused.of_calmed hcalmed (processLocks_iFlock _ _ _) hsubset
    refine hcalmed.trans (calmed_finishLock hcalmed.ok hleft hright ?_ ?_ ?_)
    · exact fun new hsome => hunused new (halloc.first new (hnew new hsome)).1
    · exact fun new hsome => hunused new (halloc.second new (hnew2 new hsome)).1
    · exact fun new hsome hsome2 => halloc.distinct new (hnew new hsome) (hnew2 new hsome2)

end KernelM5040.Locks
