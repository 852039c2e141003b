import KernelM5040.Kernel.RtMutexExact
import KernelM5040.Kernel.RtMutexRuns

/-!
# Priority inheritance in every run

Each operation keeps the priorities exact, as long as three things do not happen:
a waiter that comes on top when the one before it leaves must not have changed its
priority while it was behind, a task that loses a waiter must not leave a blocked
owner on the chain that has other waiters of a lower priority, and neither may a
task whose own priority is lowered.
-/

namespace KernelM5040.RtMutex

open State Option List Function PriorityList WaitGraph Relation

variable {Task Lock : Type}

/-- Each task has the highest of its own priority and those of the tasks that are blocked on its
mutexes; the waiters are queued by the priorities of their tasks; and the list of a task holds the
top waiters of its mutexes, each once. -/
structure Inherits (s : State Task Lock) : Prop where
  prio : ∀ task, IsLeast {prio | prio = s.normalPrio task ∨ ∃ lock waiter,
    s.owner lock = some task ∧ s.blockedOn waiter = some lock ∧ prio = s.prio waiter} (s.prio task)
  queued : ∀ lock, ∀ waiter ∈ s.waitList lock, s.listPrio waiter = s.prio waiter
  top : ∀ task waiter, waiter ∈ s.piWaiters task ↔
    ∃ lock, s.owner lock = some task ∧ s.topWaiter lock = some waiter
  nodup : ∀ task, (s.piWaiters task).Nodup

section Inherits

variable {s : State Task Lock}

theorem Exact.inherits (hexact : Exact s) (hlinked : Linked s) : Inherits s := by
  have hqueued : ∀ {waiter lock}, s.blockedOn waiter = some lock →
      s.listPrio waiter = s.prio waiter := by
    intro waiter lock hblocked
    refine hexact.queued waiter ?_
    rw [hblocked]
    exact some_ne_none lock
  refine ⟨fun task => ⟨?_, ?_⟩, ?_, ?_, hlinked.piNodup⟩
  · -- the first waiter in the list, if its priority is higher than the task's own
    have hranked := hexact.ranked task
    rw [Set.mem_ofPred_eq, hranked.prio, getprio]
    cases hhead : s.topPiWaiter task with
    | none => exact Or.inl rfl
    | some first =>
      have hmem := mem_of_head? hhead
      obtain ⟨lock, howner, htop⟩ := hlinked.piTop task first hmem
      have hblocked := hlinked.blockedOn_of_top htop
      rcases le_total (s.piPrio first) (s.normalPrio task) with hle | hle
      · refine Or.inr ⟨lock, first, howner, hblocked, ?_⟩
        simp only
        rw [min_eq_left hle, hranked.fresh first hmem, hqueued hblocked]
      · exact Or.inl (min_eq_right hle)
  · have hranked := hexact.ranked task
    obtain ⟨hnormal, hall⟩ := hranked.le_prio_iff.mp le_rfl
    rintro prio (rfl | ⟨lock, waiter, howner, hblocked, rfl⟩)
    · exact hnormal
    obtain ⟨first, htop⟩ := hlinked.exists_top hblocked
    have hmem := hranked.complete lock first howner htop
    calc s.prio task ≤ s.piPrio first := hall first hmem
      _ = s.listPrio first := hranked.fresh first hmem
      _ ≤ s.listPrio waiter :=
        (hexact.sorted lock).le_of_head? htop ((hlinked.blocked lock waiter).mpr hblocked)
      _ = s.prio waiter := hqueued hblocked
  · intro lock waiter hmem
    exact hqueued ((hlinked.blocked lock waiter).mp hmem)
  · intro task waiter
    constructor
    · exact hlinked.piTop task waiter
    · rintro ⟨lock, howner, htop⟩
      exact (hexact.ranked task).complete lock waiter howner htop

end Inherits

section Changes

variable {s s' : State Task Lock} {task : Task}

theorem Ranked.added (hranked : Ranked s task) (next : Task)
    (hpi : s'.piWaiters task = insert s.piPrio next (s.piWaiters task))
    (hkeys : s'.piPrio = s.piPrio ∧ s'.listPrio = s.listPrio)
    (hfresh : s.piPrio next = s.listPrio next) (hprio : s'.prio task = s'.getprio task)
    (htop : ∀ lock waiter, s'.owner lock = some task → s'.topWaiter lock = some waiter →
      waiter = next ∨ s.owner lock = some task ∧ s.topWaiter lock = some waiter) :
    Ranked s' task := by
  constructor
  · intro lock waiter howner hfirst
    rw [hpi, mem_insert]
    exact (htop lock waiter howner hfirst).imp_right fun hold =>
      hranked.complete lock waiter hold.1 hold.2
  · rw [hpi, hkeys.1]
    exact hranked.sorted.insert next
  · intro waiter hwaiter
    rw [hpi, mem_insert] at hwaiter
    rw [hkeys.1, hkeys.2]
    rcases hwaiter with rfl | hold
    · exact hfresh
    · exact hranked.fresh waiter hold
  · exact hprio

variable [DecidableEq Task]

theorem Ranked.erased (hranked : Ranked s task) (old : Task)
    (hpi : s'.piWaiters task = (s.piWaiters task).erase old) (hkeys : ∀ waiter ∈ s.piWaiters task,
      s'.piPrio waiter = s.piPrio waiter ∧ s'.listPrio waiter = s.listPrio waiter)
    (hprio : s'.prio task = s'.getprio task)
    (htop : ∀ lock waiter, s'.owner lock = some task → s'.topWaiter lock = some waiter →
      s.owner lock = some task ∧ s.topWaiter lock = some waiter ∧ waiter ≠ old) :
    Ranked s' task := by
  constructor
  · intro lock waiter howner hfirst
    obtain ⟨howner', hfirst', hne⟩ := htop lock waiter howner hfirst
    rw [hpi]
    exact (mem_erase_of_ne hne).mpr (hranked.complete lock waiter howner' hfirst')
  · rw [hpi]
    exact (hranked.sorted.erase old).congr fun waiter hwaiter =>
      (hkeys waiter (mem_of_mem_erase hwaiter)).1
  · intro waiter hwaiter
    rw [hpi] at hwaiter
    have hold := mem_of_mem_erase hwaiter
    rw [(hkeys waiter hold).1, (hkeys waiter hold).2, hranked.fresh waiter hold]
  · exact hprio

theorem listPrio_le_next {mutex : Lock} (hsorted : Sorted s.listPrio (s.waitList mutex))
    {first next : Task} (htop : s.topWaiter mutex = some first)
    (hnext : ((s.waitList mutex).erase first).head? = some next) :
    s.listPrio first ≤ s.listPrio next :=
  hsorted.le_of_head? htop (mem_of_mem_erase (mem_of_head? hnext))

theorem adjustPrio_eq_self (hprio : s.prio task = s.getprio task) : s.adjustPrio task = s := by
  rw [adjustPrio, ← hprio, update_eq_self]

end Changes

attribute [local simp] setOwner adjustPrio piAdd piDel removed
  setBlockedOn waitDel getprio topPiWaiter

section Take

variable {s taken : State Task Lock} {mutex : Lock} {current pendowner next : Task}
  [DecidableEq Lock]

/-- A mutex without waiters changes its owner, or nothing changes. -/
theorem Exact.update_owner (hexact : Exact s) (new : Option Task)
    (hquiet : s.topWaiter mutex = none ∨ s.owner mutex = new) (pending : Lock → Bool) :
    Exact { s with owner := update s.owner mutex new, pending := pending } := by
  refine ⟨hexact.sorted, fun task => ?_, hexact.queued⟩
  refine (hexact.ranked task).congr rfl rfl rfl (fun _ _ => ⟨rfl, rfl⟩) ?_
  intro lock waiter howner hfirst
  refine ⟨?_, hfirst⟩
  by_cases hlock : lock = mutex
  · subst hlock
    rcases hquiet with hnone | hown
    · exact absurd (hnone.symm.trans hfirst) (some_ne_none waiter).symm
    · rw [hown]
      simpa using howner
  · simpa [hlock] using howner

variable [DecidableEq Task]

theorem Exact.steal (hexact : Exact s) (hlinked : Linked s) (hcurrent : s.blockedOn current = none)
    (hpendowner : s.blockedOn pendowner = none) (hne : pendowner ≠ current)
    (howner : s.owner mutex = some pendowner) (htop : s.topWaiter mutex = some next) :
    Exact (((((s.piDel pendowner next).adjustPrio pendowner).piAdd current next).adjustPrio
      current).setOwner mutex current false) := by
  have hold : ∀ lock task, lock ≠ mutex →
      update s.owner mutex (some current) lock = some task → s.owner lock = some task := by
    intro lock task hlock howned
    rwa [update_of_ne hlock] at howned
  have hnew : ∀ task, update s.owner mutex (some current) mutex = some task →
      task = current := by
    intro task howned
    rw [update_self] at howned
    exact (some.inj howned).symm
  refine ⟨hexact.sorted, fun task => ?_, fun task hblocked => ?_⟩
  · by_cases htask : task = current
    · subst htask
      refine (hexact.ranked task).added next ?_ ⟨rfl, rfl⟩ ?_ ?_ ?_
      · simp [Ne.symm hne]
      · exact (hexact.ranked pendowner).fresh next
          ((hexact.ranked pendowner).complete mutex next howner htop)
      · simp
      intro lock waiter hlock hfirst
      by_cases heq : lock = mutex
      · subst heq
        exact Or.inl (some.inj (hfirst.symm.trans htop))
      · exact Or.inr ⟨hold lock task heq hlock, hfirst⟩
    · by_cases htask' : task = pendowner
      · subst htask'
        refine (hexact.ranked task).erased next ?_ (fun _ _ => ⟨rfl, rfl⟩) ?_ ?_
        · simp [htask]
        · simp [htask]
        intro lock waiter hlock hfirst
        have heq : lock ≠ mutex := by
          rintro rfl
          exact htask (hnew task hlock)
        refine ⟨hold lock task heq hlock, hfirst, ?_⟩
        rintro rfl
        exact heq (hlinked.top_unique hfirst htop)
      · refine (hexact.ranked task).congr ?_ rfl ?_ (fun _ _ => ⟨rfl, rfl⟩) ?_
        · simp [htask, htask']
        · simp [htask, htask']
        intro lock waiter hlock hfirst
        refine ⟨?_, hfirst⟩
        by_cases heq : lock = mutex
        · subst heq
          exact absurd (hnew task hlock) htask
        · exact hold lock task heq hlock
  · have hblocked' : s.blockedOn task ≠ none := hblocked
    have htask : task ≠ current := by
      rintro rfl
      exact hblocked' hcurrent
    have htask' : task ≠ pendowner := by
      rintro rfl
      exact hblocked' hpendowner
    have hsame := hexact.queued task hblocked'
    simpa [htask, htask'] using hsame

section

variable (hexact : Exact s) (hcoherent : Coherent s) (htaken : Taken s mutex current taken)
include hexact hcoherent htaken

theorem Exact.take (hcurrent : s.blockedOn current = none) : Exact taken := by
  cases htaken with
  | free howner =>
    refine hexact.update_owner _ (Or.inl ?_) _
    cases htop : s.topWaiter mutex with
    | none => rfl
    | some first =>
      obtain ⟨owner, howner', -⟩ := (hcoherent.placed first).foreign mutex
        (hcoherent.blockedOn_of_top htop)
      rw [howner] at howner'
      cases howner'
  | own howner hpending => exact hexact.update_owner _ (Or.inr howner) _
  | stolen pendowner howner hpending hother hprio =>
    rw [stealLock]
    cases htop : s.topWaiter mutex with
    | none => exact hexact.update_owner _ (Or.inl htop) _
    | some next =>
      have hnext : next ≠ current := by
        rintro rfl
        rw [hcoherent.blockedOn_of_top htop] at hcurrent
        cases hcurrent
      simp only [if_neg hnext]
      exact hexact.steal hcoherent.toLinked hcurrent
        ((hcoherent.placed pendowner).pendowner mutex howner hpending).1 hother howner htop

/-- A waiter does not have a higher priority than the pending owner, so it does not steal. -/
theorem Exact.not_blocked_of_taken
    (hcurrent : ∀ lock, s.blockedOn current = some lock → lock = mutex) :
    s.blockedOn current = none := by
  cases hblocked : s.blockedOn current with
  | none => rfl
  | some lock =>
    obtain rfl := hcurrent lock hblocked
    obtain ⟨owner, howner, hne⟩ := (hcoherent.placed current).foreign lock hblocked
    exfalso
    cases htaken with
    | free howner' => exact absurd (howner.symm.trans howner') (some_ne_none owner)
    | own howner' _ => exact hne (some.inj (howner.symm.trans howner'))
    | stolen pendowner howner' _ _ hprio =>
      have hinherits := (hexact.inherits hcoherent.toLinked).prio pendowner
      exact absurd (hinherits.2 (Or.inr ⟨lock, current, howner', hblocked, rfl⟩)) (not_le.mpr hprio)

end

end Take

variable [DecidableEq Task] [DecidableEq Lock] {task : Task}

section Removed

variable {s : State Task Lock} {mutex : Lock} {current owner pendowner : Task}

/-- The waiter that comes on top when the top waiter leaves is queued everywhere by the same
priority. -/
def FreshNext (s : State Task Lock) (mutex : Lock) (first : Task) : Prop :=
  ∀ next ∈ ((s.waitList mutex).erase first).head?, s.piPrio next = s.listPrio next

theorem topWaiter_removed (s : State Task Lock) (mutex : Lock) (waiter : Task) :
    (s.removed mutex waiter).topWaiter mutex = ((s.waitList mutex).erase waiter).head? := by
  simp [topWaiter]

theorem topWaiter_removed_of_ne {lock : Lock} (hlock : lock ≠ mutex) (waiter : Task) :
    (s.removed mutex waiter).topWaiter lock = s.topWaiter lock := by
  simp [topWaiter, hlock]

theorem sorted_removed (hsorted : ∀ lock, Sorted s.listPrio (s.waitList lock)) (mutex : Lock)
    (waiter : Task) (lock : Lock) : Sorted s.listPrio ((s.removed mutex waiter).waitList lock) := by
  simp only [removed, setBlockedOn, waitDel]
  rw [update_apply]
  split_ifs
  · exact (hsorted mutex).erase waiter
  · exact hsorted lock

theorem wakeupNextWaiter_piWaiters_of_ne (htask : task ≠ pendowner) :
    (s.wakeupNextWaiter mutex current pendowner).piWaiters task =
      (s.piDel current pendowner).piWaiters task := by
  rw [wakeupNextWaiter_eq]
  cases (s.removed mutex pendowner).topWaiter mutex with
  | none => rfl
  | some next => simp [htask, handedOver]

/-- The pending owner takes over the next waiter, and keeps its priority since it was queued
before it. -/
theorem Exact.ranked_pendowner (hexact : Exact s) (hlinked : Linked s) (hne : pendowner ≠ current)
    (htop : s.topWaiter mutex = some pendowner) (hfresh : FreshNext s mutex pendowner) :
    Ranked (s.wakeupNextWaiter mutex current pendowner) pendowner := by
  have hranked := hexact.ranked pendowner
  have hsame : (s.piDel current pendowner).piWaiters pendowner = s.piWaiters pendowner := by
    simp [hne]
  have hqueued : s.listPrio pendowner = s.prio pendowner := by
    apply hexact.queued
    rw [hlinked.blockedOn_of_top htop]
    exact some_ne_none mutex
  have hold : ∀ lock waiter, (handedOver s mutex current pendowner).owner lock = some pendowner →
      (handedOver s mutex current pendowner).topWaiter lock = some waiter →
      ((s.waitList mutex).erase pendowner).head? = some waiter ∨
        s.owner lock = some pendowner ∧ s.topWaiter lock = some waiter := by
    intro lock waiter howned hfirst
    by_cases hlock : lock = mutex
    · subst hlock
      exact Or.inl ((topWaiter_removed s lock pendowner).symm.trans hfirst)
    · refine Or.inr ⟨?_, (topWaiter_removed_of_ne hlock pendowner).symm.trans hfirst⟩
      have howned' : update s.owner mutex (some pendowner) lock = some pendowner := howned
      rwa [update_of_ne hlock] at howned'
  rw [wakeupNextWaiter_eq, topWaiter_removed]
  cases hnext : ((s.waitList mutex).erase pendowner).head? with
  | none =>
    refine hranked.congr hsame rfl rfl (fun _ _ => ⟨rfl, rfl⟩) fun lock waiter howned hfirst => ?_
    exact (hold lock waiter howned hfirst).resolve_left fun heq =>
      some_ne_none waiter (heq.symm.trans hnext)
  | some next =>
    have hlists : ((handedOver s mutex current pendowner).piAdd pendowner next).piWaiters
        pendowner = insert s.piPrio next (s.piWaiters pendowner) := by
      rw [← hsame]
      exact update_self _ _ _
    refine hranked.added next hlists ⟨rfl, rfl⟩ (hfresh next hnext) ?_ ?_
    · have hsorted : Sorted ((handedOver s mutex current pendowner).piAdd pendowner next).piPrio
          (((handedOver s mutex current pendowner).piAdd pendowner next).piWaiters pendowner) := by
        rw [hlists]
        exact hranked.sorted.insert next
      apply le_antisymm
      · obtain ⟨hnormal, hall⟩ := hranked.le_prio_iff.mp le_rfl
        refine (le_getprio_iff hsorted).mpr ⟨hnormal, fun waiter hwaiter => ?_⟩
        rw [hlists, mem_insert] at hwaiter
        rcases hwaiter with rfl | hwaiter
        · calc s.prio pendowner = s.listPrio pendowner := hqueued.symm
            _ ≤ s.listPrio waiter := listPrio_le_next (hexact.sorted mutex) htop hnext
            _ = s.piPrio waiter := (hfresh waiter hnext).symm
        · exact hall waiter hwaiter
      · obtain ⟨hnormal, hall⟩ := (le_getprio_iff hsorted).mp le_rfl
        refine hranked.le_prio_iff.mpr ⟨hnormal, fun waiter hwaiter => hall waiter ?_⟩
        rw [hlists, mem_insert]
        exact Or.inr hwaiter
    · intro lock waiter howned hfirst
      exact (hold lock waiter howned hfirst).imp_left fun heq =>
        some.inj (heq.symm.trans hnext)

theorem Exact.wakeupNextWaiter (hexact : Exact s) (hlinked : Linked s)
    (hcurrent : s.blockedOn current = none) (howner : s.owner mutex = some current)
    (htop : s.topWaiter mutex = some pendowner) (hfresh : FreshNext s mutex pendowner) :
    Exact ((s.wakeupNextWaiter mutex current pendowner).adjustPrio current) := by
  have hblocked := hlinked.blockedOn_of_top htop
  have hne : pendowner ≠ current := by
    rintro rfl
    rw [hblocked] at hcurrent
    cases hcurrent
  obtain ⟨howner', -, hblockedOn, -, hwait, hlist, hpi, hnormal, hprio⟩ :=
    wakeupNextWaiter_graph s mutex current pendowner
  -- the mutexes of the other tasks keep their owners and top waiters
  have hothers : ∀ task ≠ pendowner, ∀ lock waiter,
      (s.wakeupNextWaiter mutex current pendowner).owner lock = some task →
      (s.wakeupNextWaiter mutex current pendowner).topWaiter lock = some waiter →
      s.owner lock = some task ∧ s.topWaiter lock = some waiter ∧ waiter ≠ pendowner := by
    intro task htask lock waiter howned hfirst
    have hlock : lock ≠ mutex := by
      rintro rfl
      rw [howner', update_self] at howned
      exact htask (some.inj howned).symm
    rw [howner', update_of_ne hlock] at howned
    rw [topWaiter, hwait] at hfirst
    have hfirst' : s.topWaiter lock = some waiter :=
      (topWaiter_removed_of_ne hlock pendowner).symm.trans hfirst
    refine ⟨howned, hfirst', ?_⟩
    rintro rfl
    exact hlock (hlinked.top_unique hfirst' htop)
  refine ⟨?_, fun task => ?_, ?_⟩
  · intro lock
    have := sorted_removed hexact.sorted mutex pendowner lock
    rw [← hwait, ← hlist] at this
    exact this
  · by_cases htask : task = pendowner
    · subst htask
      refine (hexact.ranked_pendowner hlinked hne htop hfresh).congr rfl rfl ?_
        (fun _ _ => ⟨rfl, rfl⟩) (fun _ _ howned hfirst => ⟨howned, hfirst⟩)
      simp [hne]
    by_cases htask' : task = current
    · subst htask'
      refine (hexact.ranked task).erased pendowner ?_ ?_ ?_ (hothers task htask)
      · refine (wakeupNextWaiter_piWaiters_of_ne htask).trans ?_
        simp
      · intro waiter _
        exact ⟨congrFun hpi waiter, congrFun hlist waiter⟩
      · simp
    · refine (hexact.ranked task).congr ?_ (congrFun hnormal task) ?_ ?_ ?_
      · refine (wakeupNextWaiter_piWaiters_of_ne htask).trans ?_
        simp [htask']
      · simp [htask', hprio]
      · intro waiter _
        exact ⟨congrFun hpi waiter, congrFun hlist waiter⟩
      · intro lock waiter howned hfirst
        obtain ⟨howned', hfirst', -⟩ := hothers task htask lock waiter howned hfirst
        exact ⟨howned', hfirst'⟩
  · intro task htask
    have htask' : update s.blockedOn pendowner none task ≠ none := by
      rw [← hblockedOn]
      exact htask
    have hne' : task ≠ pendowner := by
      rintro rfl
      exact htask' (update_self _ _ _)
    rw [update_of_ne hne'] at htask'
    have hcur : task ≠ current := by
      rintro rfl
      exact htask' hcurrent
    have := hexact.queued task htask'
    simpa [hcur, hlist, hprio] using this

theorem Exact.removed (hexact : Exact s) (htop : s.topWaiter mutex ≠ some current) :
    Exact (s.removed mutex current) := by
  refine ⟨sorted_removed hexact.sorted mutex current, fun task => ?_, fun task hblocked => ?_⟩
  · refine (hexact.ranked task).congr rfl rfl rfl (fun _ _ => ⟨rfl, rfl⟩) ?_
    intro lock waiter howned hfirst
    refine ⟨howned, ?_⟩
    by_cases hlock : lock = mutex
    · subst hlock
      rw [topWaiter_removed, head?_erase_of_ne htop] at hfirst
      exact hfirst
    · rwa [topWaiter_removed_of_ne hlock] at hfirst
  · rw [removed_blockedOn] at hblocked
    have htask : task ≠ current := by
      rintro rfl
      exact hblocked (update_self _ _ _)
    rw [update_of_ne htask] at hblocked
    exact hexact.queued task hblocked

theorem relinked_prio (s : State Task Lock) (mutex : Lock) (owner current : Task) :
    (s.relinked mutex owner current).waitList = (s.removed mutex current).waitList ∧
      (s.relinked mutex owner current).listPrio = s.listPrio ∧
      (s.relinked mutex owner current).piPrio = s.piPrio ∧
      (s.relinked mutex owner current).prio = s.prio := by
  rw [relinked]
  cases (s.removed mutex current).topWaiter mutex with
  | none | some next => exact ⟨rfl, rfl, rfl, rfl⟩

theorem relinked_piWaiters_of_ne (htask : task ≠ owner) :
    (s.relinked mutex owner current).piWaiters task = s.piWaiters task := by
  rw [relinked]
  cases (s.removed mutex current).topWaiter mutex with
  | none => simp [htask]
  | some next =>
    simp [htask]

theorem relinked_eq (hfresh : FreshNext s mutex current) (owner : Task) :
    (s.relinked mutex owner current).adjustPrio owner =
      match ((s.waitList mutex).erase current).head? with
      | none => ((s.removed mutex current).piDel owner current).adjustPrio owner
      | some next => withTop (s.removed mutex current) owner current next := by
  rw [relinked, topWaiter_removed]
  cases hnext : ((s.waitList mutex).erase current).head? with
  | none => rfl
  | some next =>
    have hsame : update s.piPrio next (s.listPrio next) = s.piPrio := by
      rw [← hfresh next hnext, update_eq_self]
    have hset : ((s.removed mutex current).piDel owner current).setPiPrio next =
        (s.removed mutex current).piDel owner current := by
      rw [setPiPrio]
      exact congrArg (fun prio => { (s.removed mutex current).piDel owner current with
        piPrio := prio }) hsame
    simp only
    rw [withTop, hset]

section

variable (hexact : Exact s) (hlinked : Linked s) (howner : s.owner mutex = some owner)
  (htop : s.topWaiter mutex = some current) (hfresh : FreshNext s mutex current)
include hexact hlinked howner htop hfresh

theorem Exact.ranked_relinked :
    Ranked ((s.relinked mutex owner current).adjustPrio owner) owner ∧
      s.prio owner ≤ ((s.relinked mutex owner current).adjustPrio owner).prio owner := by
  have hranked := hexact.ranked owner
  have hmem := hranked.complete mutex current howner htop
  have hold : ∀ lock waiter, lock ≠ mutex → (s.removed mutex current).topWaiter lock = some waiter →
      s.topWaiter lock = some waiter ∧ waiter ≠ current := by
    intro lock waiter hlock hfirst
    rw [topWaiter_removed_of_ne hlock] at hfirst
    refine ⟨hfirst, ?_⟩
    rintro rfl
    exact hlock (hlinked.top_unique hfirst htop)
  obtain ⟨hnormal, hall⟩ := hranked.le_prio_iff.mp le_rfl
  rw [relinked_eq hfresh]
  cases hnext : ((s.waitList mutex).erase current).head? with
  | none =>
    have hranked' : Ranked (((s.removed mutex current).piDel owner current).adjustPrio owner)
        owner := by
      refine hranked.erased current ?_ (fun _ _ => ⟨rfl, rfl⟩) ?_ ?_
      · simp
      · simp
      intro lock waiter howned hfirst
      by_cases hlock : lock = mutex
      · subst hlock
        have := (topWaiter_removed s lock current).symm.trans hfirst
        rw [hnext] at this
        cases this
      · exact ⟨howned, hold lock waiter hlock hfirst⟩
    refine ⟨hranked', hranked'.le_prio_iff.mpr ⟨hnormal, fun waiter hwaiter => ?_⟩⟩
    simp only [adjustPrio, piDel, update_self] at hwaiter
    exact hall waiter (mem_of_mem_erase hwaiter)
  | some next =>
    have hnextMem := (hlinked.nodup mutex).mem_erase_iff.mp (mem_of_head? hnext)
    have hrest : KeepsRest s (s.removed mutex current) owner current next := by
      intro waiter hwaiter
      refine ⟨?_, rfl, rfl⟩
      rintro rfl
      exact hlinked.fresh ((hlinked.blocked mutex waiter).mp hnextMem.2) htop owner hwaiter
    constructor
    · refine hranked.withTop rfl hrest fun lock waiter howned hfirst => ?_
      by_cases hlock : lock = mutex
      · subst hlock
        rw [topWaiter_removed, hnext] at hfirst
        exact Or.inl (some.inj hfirst).symm
      · obtain ⟨hfirst', hne⟩ := hold lock waiter hlock hfirst
        exact Or.inr ((mem_erase_of_ne hne).mpr (hranked.complete lock waiter howned hfirst'))
    · refine le_prio_withTop hranked hrest rfl rfl ?_
      calc s.prio owner ≤ s.piPrio current := hall current hmem
        _ = s.listPrio current := hranked.fresh current hmem
        _ ≤ s.listPrio next := listPrio_le_next (hexact.sorted mutex) htop hnext

theorem Exact.relinked : ExactBut ((s.relinked mutex owner current).adjustPrio owner) owner := by
  obtain ⟨hwait, hlist, hpi, hprio⟩ := relinked_prio s mutex owner current
  have hgraph := relinked_sameGraph s mutex owner current
  refine ⟨fun lock => ?_, fun task => ?_, fun task htask hblocked => ?_⟩
  · have := sorted_removed hexact.sorted mutex current lock
    rw [← hwait, ← hlist] at this
    exact this
  · by_cases htask : task = owner
    · subst htask
      exact (hexact.ranked_relinked hlinked howner htop hfresh).1
    refine (hexact.ranked task).congr (relinked_piWaiters_of_ne htask)
      (congrFun hgraph.normalPrio task) ?_ ?_ ?_
    · simp [htask, hprio]
    · intro waiter _
      exact ⟨congrFun hpi waiter, congrFun hlist waiter⟩
    intro lock waiter howned hfirst
    have howned' : s.owner lock = some task := (congrFun hgraph.owner lock).symm.trans howned
    have hlock : lock ≠ mutex := by
      rintro rfl
      exact htask (some.inj (howned'.symm.trans howner))
    have hfirst' : (s.relinked mutex owner current).topWaiter lock = some waiter := hfirst
    rw [topWaiter, hwait] at hfirst'
    exact ⟨howned', (topWaiter_removed_of_ne hlock current).symm.trans hfirst'⟩
  · have hblocked' : update s.blockedOn current none task ≠ none := by
      rw [← removed_blockedOn s mutex, ← hgraph.blockedOn]
      exact hblocked
    have hne : task ≠ current := by
      rintro rfl
      exact hblocked' (update_self _ _ _)
    rw [update_of_ne hne] at hblocked'
    have := hexact.queued task hblocked'
    simpa [htask, hlist, hprio] using this

end

theorem frame_relinked (howner : s.owner mutex = some owner) :
    Frame s ((s.relinked mutex owner current).adjustPrio owner) current {owner} := by
  obtain ⟨hwait, hlist, hpi, hprio⟩ := relinked_prio s mutex owner current
  have hgraph := relinked_sameGraph s mutex owner current
  refine ⟨hgraph.owner, hgraph.normalPrio, fun task htask => ?_, fun lock hlock => ?_,
    fun waiter _ _ _ => congrFun hlist waiter, fun waiter _ _ _ => congrFun hpi waiter,
    fun task htask => relinked_piWaiters_of_ne htask, fun task htask _ => ?_⟩
  · refine (congrFun hgraph.blockedOn task).trans ?_
    rw [removed_blockedOn, update_of_ne htask]
  · refine (congrFun hwait lock).trans ?_
    have hne : lock ≠ mutex := by
      rintro rfl
      exact hlock owner rfl howner
    simp [hne]
  · have hne : task ≠ owner := htask
    simp [hne, hprio]

theorem Exact.removeWaiter (hexact : Exact s) (hcoherent : Coherent s)
    (hacyclic : Acyclic (Follows s.nextOwner)) (hblocked : s.blockedOn current = some mutex)
    (howner : s.owner mutex = some owner) {maxLockDepth : ℕ}
    (hshort : s.ChainWithin maxLockDepth owner)
    (hfresh : s.topWaiter mutex = some current → FreshNext s mutex current)
    (hcarried : s.topWaiter mutex = some current →
      Carried s owner ((s.relinked mutex owner current).getprio owner)) :
    Exact (s.removeWaiter maxLockDepth mutex current) := by
  have hlinked := hcoherent.toLinked
  have hedge : s.nextOwner current = some owner := nextOwner_eq hblocked howner
  have hne : owner ≠ current := by
    rintro rfl
    exact hacyclic owner (.single hedge)
  rw [State.removeWaiter, howner]
  simp only
  by_cases htop : s.topWaiter mutex = some current
  · rw [if_pos ⟨htop, hne⟩]
    have hbut := hexact.relinked hlinked howner htop (hfresh htop)
    split_ifs with hfree
    · exact hbut.toExact fun hblockedOwner => absurd hfree hblockedOwner
    have hframe : Frame s ((s.relinked mutex owner current).adjustPrio owner) current {owner} :=
      frame_relinked howner
    have hgraph := (relinked_sameGraph s mutex owner current).trans
      (adjustPrio_sameGraph (s.relinked mutex owner current) owner)
    have hlower := (hexact.ranked_relinked hlinked howner htop (hfresh htop)).2
    have hlist : ((s.relinked mutex owner current).adjustPrio owner).listPrio = s.listPrio :=
      (relinked_prio s mutex owner current).2.1
    have hlinked' : Linked ((s.relinked mutex owner current).adjustPrio owner) :=
      (hlinked.relinked htop howner).adjustPrio owner
    have hprio : ((s.relinked mutex owner current).adjustPrio owner).prio owner =
        (s.relinked mutex owner current).getprio owner := update_self _ _ _
    generalize (s.relinked mutex owner current).adjustPrio owner = relinked
      at hbut hfree hframe hgraph hlower hlist hlinked' hprio ⊢
    have hcurrent : relinked.blockedOn current = none := by
      rw [hgraph.blockedOn, removed_blockedOn, update_self]
    have hkeep : ∀ task lock, relinked.blockedOn task = some lock →
        s.blockedOn task = some lock := by
      intro task lock htask
      rwa [hframe.blockedOn task] at htask
      rintro rfl
      rw [hcurrent] at htask
      cases htask
    have hless : ∀ task next, relinked.nextOwner task = some next →
        s.nextOwner task = some next := by
      intro task next hnext
      obtain ⟨lock, htask, hlock⟩ := bind_eq_some_iff.mp hnext
      exact nextOwner_eq (hkeep task lock htask) (hframe.owner ▸ hlock)
    have hreach : ∀ task, ReflTransGen (Follows relinked.nextOwner) owner task →
        ReflTransGen (Follows s.nextOwner) owner task := fun task =>
      ReflTransGen.mono hless owner task
    refine (hbut.adjustPrioChain hlinked' (hacyclic.mono hless) (chainWithin_mono hless hshort)
      ?_ ?_ ?_ ?_ ?_).1
    · intro waiter lock hwaiter
      obtain ⟨other, hother, -⟩ := (hcoherent.placed waiter).foreign lock (hkeep waiter lock hwaiter)
      rw [hframe.owner, hother]
      exact some_ne_none other
    · simp
    · intro other lock hother hlock
      have hlock' := hkeep other lock hlock
      rw [hframe.owner]
      constructor
      · intro heq
        obtain rfl := some.inj heq
        exact hacyclic owner (TransGen.tail' (hreach other hother) (nextOwner_eq hlock' howner))
      · intro heq
        exact hacyclic current (TransGen.head' hedge ((hreach other hother).tail
          (nextOwner_eq hlock' heq)))
    · intro hblockedOwner
      have hqueued : relinked.listPrio owner = s.prio owner := by
        rw [hframe.blockedOn owner hne] at hblockedOwner
        rw [hlist, hexact.queued owner hblockedOwner]
      refine Or.inr ⟨hqueued ▸ hlower, ?_⟩
      rw [hprio]
      exact (hcarried htop).frame hlinked hacyclic hframe (fun _ hvisited => hvisited) hedge
    · intro _ hnone
      exact absurd rfl hnone
  · rw [if_neg fun hboth => htop hboth.1]
    exact hexact.removed htop

end Removed

section Block

variable {s : State Task Lock} {mutex : Lock} {current owner : Task}

theorem sorted_enqueue (hlinked : Linked s) (hsorted : ∀ lock, Sorted s.listPrio (s.waitList lock))
    (hcurrent : s.blockedOn current = none) (mutex lock : Lock) :
    Sorted (s.enqueue mutex current).listPrio ((s.enqueue mutex current).waitList lock) := by
  have hsame : ∀ lock, ∀ waiter ∈ s.waitList lock,
      update s.listPrio current (s.getprio current) waiter = s.listPrio waiter := by
    intro lock waiter hwaiter
    rw [update_of_ne]
    rintro rfl
    rw [hlinked.blocked, hcurrent] at hwaiter
    cases hwaiter
  rw [enqueue_listPrio]
  by_cases hlock : lock = mutex
  · rw [hlock, enqueue_waitList]
    exact ((hsorted mutex).congr (hsame mutex)).insert current
  · rw [enqueue_waitList_of_ne hlock]
    exact (hsorted lock).congr (hsame lock)

theorem Exact.enqueue_prio_eq (hexact : Exact s) (mutex : Lock) (current : Task) :
    (s.enqueue mutex current).prio = s.prio := by
  rw [enqueue_prio, ← (hexact.ranked current).prio, update_eq_self]

theorem Exact.enqueue_queued (hexact : Exact s)
    (hblocked : (s.enqueue mutex current).blockedOn task ≠ none) :
    (s.enqueue mutex current).listPrio task = s.prio task := by
  rw [enqueue_listPrio]
  by_cases htask : task = current
  · rw [htask, update_self, (hexact.ranked current).prio]
  · rw [enqueue_blockedOn, update_of_ne htask] at hblocked
    rw [update_of_ne htask]
    exact hexact.queued task hblocked

theorem enqueue_keys (hlinked : Linked s) (hcurrent : s.blockedOn current = none) (mutex : Lock)
    {waiter : Task} (hwaiter : waiter ∈ s.piWaiters task) :
    waiter ≠ current ∧ (s.enqueue mutex current).piPrio waiter = s.piPrio waiter ∧
      (s.enqueue mutex current).listPrio waiter = s.listPrio waiter := by
  have hne : waiter ≠ current := by
    rintro rfl
    exact hlinked.not_mem_piWaiters hcurrent task hwaiter
  rw [enqueue_piPrio, enqueue_listPrio, update_of_ne hne, update_of_ne hne]
  exact ⟨hne, rfl, rfl⟩

section

variable (hexact : Exact s) (hlinked : Linked s) (hcurrent : s.blockedOn current = none)
include hexact hlinked hcurrent

theorem Exact.enqueue (hlead : ¬WouldLead s mutex current (s.getprio current)) :
    Exact (s.enqueue mutex current) := by
  refine ⟨sorted_enqueue hlinked hexact.sorted hcurrent mutex, fun task => ?_,
    fun task hblocked => ?_⟩
  · refine (hexact.ranked task).congr rfl rfl (congrFun (hexact.enqueue_prio_eq mutex current) task)
      (fun waiter hwaiter => (enqueue_keys hlinked hcurrent mutex hwaiter).2) ?_
    intro lock waiter howned hfirst
    refine ⟨howned, ?_⟩
    by_cases hlock : lock = mutex
    · subst hlock
      rwa [topWaiter_enqueue_of_not_lead hlinked hcurrent hlead] at hfirst
    · rwa [topWaiter, enqueue_waitList_of_ne hlock] at hfirst
  · rw [hexact.enqueue_queued hblocked, hexact.enqueue_prio_eq]

/-- The owner gets the new top waiter in place of the one before. -/
theorem Exact.enqueue_lead (howner : s.owner mutex = some owner)
    (hlead : WouldLead s mutex current (s.getprio current)) :
    ExactBut (withTop (s.enqueue mutex current) owner ((s.topWaiter mutex).getD current) current)
      owner := by
  have htop : (s.enqueue mutex current).topWaiter mutex = some current :=
    (topWaiter_enqueue_iff hlinked hcurrent).mpr hlead
  have hothers : ∀ lock waiter, lock ≠ mutex →
      (s.enqueue mutex current).topWaiter lock = some waiter → s.topWaiter lock = some waiter := by
    intro lock waiter hlock hfirst
    rwa [topWaiter, enqueue_waitList_of_ne hlock] at hfirst
  refine ⟨sorted_enqueue hlinked hexact.sorted hcurrent mutex, fun task => ?_,
    fun task htask hblocked => ?_⟩
  · by_cases htask : task = owner
    · subst htask
      refine (hexact.ranked task).withTop rfl ?_ ?_
      · intro waiter hwaiter
        exact enqueue_keys hlinked hcurrent mutex (mem_of_mem_erase hwaiter)
      intro lock waiter howned hfirst
      by_cases hlock : lock = mutex
      · subst hlock
        exact Or.inl (some.inj (hfirst.symm.trans htop))
      have hfirst' := hothers lock waiter hlock hfirst
      have hmem := (hexact.ranked task).complete lock waiter howned hfirst'
      refine Or.inr ((mem_erase_of_ne ?_).mpr hmem)
      rintro rfl
      cases hold : s.topWaiter mutex with
      | none =>
        rw [hold] at hmem
        exact (enqueue_keys hlinked hcurrent mutex hmem).1 rfl
      | some old =>
        rw [hold] at hfirst'
        exact hlock (hlinked.top_unique hfirst' hold)
    · refine (hexact.ranked task).congr (withTop_piWaiters_of_ne htask) rfl ?_ ?_ ?_
      · rw [withTop_prio_of_ne htask, hexact.enqueue_prio_eq]
      · intro waiter hwaiter
        obtain ⟨hne, hkey, hlist⟩ := enqueue_keys hlinked hcurrent mutex hwaiter
        rw [withTop_piPrio, withTop_listPrio, update_of_ne hne]
        exact ⟨hkey, hlist⟩
      · intro lock waiter howned hfirst
        refine ⟨howned, hothers lock waiter ?_ hfirst⟩
        rintro rfl
        exact htask (some.inj (howned.symm.trans howner))
  · rw [withTop_listPrio, withTop_prio_of_ne htask, hexact.enqueue_queued hblocked,
      hexact.enqueue_prio_eq]

/-- The new waiter raises the priority of the owner, or it is not the first in its list. -/
theorem Exact.enqueue_boost (hlead : WouldLead s mutex current (s.getprio current)) (owner : Task) :
    (withTop (s.enqueue mutex current) owner ((s.topWaiter mutex).getD current) current).prio owner ≤
        s.prio owner ∧
      ((withTop (s.enqueue mutex current) owner ((s.topWaiter mutex).getD current)
          current).topPiWaiter owner ≠ some current →
        s.prio owner ≤ (withTop (s.enqueue mutex current) owner ((s.topWaiter mutex).getD current)
          current).prio owner) := by
  have hranked := hexact.ranked owner
  have hrest : KeepsRest s (s.enqueue mutex current) owner ((s.topWaiter mutex).getD current)
      current := fun waiter hwaiter =>
    enqueue_keys hlinked hcurrent mutex (mem_of_mem_erase hwaiter)
  constructor
  · refine prio_withTop_le hranked hrest rfl rfl fun hmem => ?_
    rw [enqueue_listPrio, update_self]
    cases hold : s.topWaiter mutex with
    | none =>
      rw [hold] at hmem
      exact absurd rfl (enqueue_keys hlinked hcurrent mutex hmem).1
    | some old =>
      rw [hold] at hmem
      rw [getD_some, hranked.fresh old hmem]
      apply le_of_lt
      apply hlead
      rw [hlinked.erase_of_free hcurrent]
      exact hold
  · intro hother
    obtain ⟨first, hfirst, hahead⟩ := exists_ahead hrest rfl hother
    refine le_prio_withTop hranked hrest rfl rfl (le_trans ?_ hahead)
    exact (hranked.le_prio_iff.mp le_rfl).2 first (mem_of_mem_erase hfirst)

end

end Block

end KernelM5040.RtMutex
