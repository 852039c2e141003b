import KernelM5040.Kernel.RtMutexFrame
import KernelM5040.Kernel.RtMutexRuns

/-!
# Deadlock detection

With `detect_deadlock` the chain is followed to the end, but it still stops at a
task where the waiter that it came along is not the first of `pi_waiters`.  The
deadlock is found exactly if no other waiter is in the way.
-/

namespace KernelM5040.RtMutex

open State Option Function PriorityList WaitGraph Relation

variable {Task Lock : Type}

variable [DecidableEq Task]

section WithTop

variable {s : State Task Lock} {owner old waiter : Task}

theorem topPiWaiter_withTop (hnew : waiter ∉ (s.piWaiters owner).erase old) :
    (withTop s owner old waiter).topPiWaiter owner = some waiter ↔
      WouldHead s owner old (s.listPrio waiter) := by
  rw [topPiWaiter, withTop_piWaiters, head?_insert, WouldHead]
  cases hhead : ((s.piWaiters owner).erase old).head? with
  | none => simp
  | some first =>
    have hne : first ≠ waiter := by
      rintro rfl
      exact hnew (List.mem_of_head? hhead)
    by_cases hless : s.listPrio waiter < s.piPrio first
    · simp [update_of_ne hne, hless]
    · simp [hless, hne]

theorem prio_withTop_of_top (htop : (withTop s owner old waiter).topPiWaiter owner = some waiter) :
    (withTop s owner old waiter).prio owner = min (s.listPrio waiter) (s.normalPrio owner) := by
  rw [withTop_prio, getprio, htop]
  simp

end WithTop

section

variable (s : State Task Lock) (caller : Task)

/-- From a task whose priority has become this one, the chain leads to the caller, and at each
task on the way the top waiter of the chain's mutex is the first of all its waiters. -/
inductive Unhindered : Task → ℕ → Prop
  | found {lock : Lock} {task : Task} {prio : ℕ} (hblocked : s.blockedOn task = some lock)
      (howner : s.owner lock = some caller) : Unhindered task prio
  | boost {lock : Lock} {task owner : Task} {prio : ℕ} (hblocked : s.blockedOn task = some lock)
      (howner : s.owner lock = some owner) (hlead : WouldLead s lock task prio)
      (hhead : WouldHead s owner ((s.topWaiter lock).getD task) prio)
      (hnext : Unhindered owner (min prio (s.normalPrio owner))) :
      Unhindered task prio
  | deboost {lock : Lock} {task owner next : Task} {prio : ℕ}
      (hblocked : s.blockedOn task = some lock) (howner : s.owner lock = some owner)
      (hlead : ¬WouldLead s lock task prio) (htop : s.topWaiter lock = some task)
      (hother : ((s.waitList lock).erase task).head? = some next)
      (hhead : WouldHead s owner task (s.listPrio next))
      (hnext : Unhindered owner (min (s.listPrio next) (s.normalPrio owner))) :
      Unhindered task prio
  | same {lock : Lock} {task owner : Task} {prio : ℕ} (hblocked : s.blockedOn task = some lock)
      (howner : s.owner lock = some owner) (hlead : ¬WouldLead s lock task prio)
      (htop : s.topWaiter lock ≠ some task) (hhead : s.topPiWaiter owner = s.topWaiter lock)
      (hnext : Unhindered owner (s.prio owner)) : Unhindered task prio

end

section Frame

variable {s s' : State Task Lock} {caller owner task : Task} {lock : Lock} {visited : Set Task}
  {prio : ℕ}

section

variable (hunhindered : Unhindered s caller task prio)
include hunhindered

theorem Unhindered.blockedOn : ∃ lock, s.blockedOn task = some lock := by
  cases hunhindered with
  | found hblocked _ | boost hblocked _ _ _ _ | deboost hblocked _ _ _ _ _ _ => exact ⟨_, hblocked⟩
  | same hblocked _ _ _ _ _ => exact ⟨_, hblocked⟩

theorem Unhindered.reaches : TransGen (Follows s.nextOwner) task caller := by
  induction hunhindered with
  | found hblocked howner => exact .single (nextOwner_eq hblocked howner)
  | boost hblocked howner _ _ _ ih | deboost hblocked howner _ _ _ _ _ ih =>
    exact .head (nextOwner_eq hblocked howner) ih
  | same hblocked howner _ _ _ _ ih => exact .head (nextOwner_eq hblocked howner) ih

end

theorem unhindered_iff_of_owner (hblocked : s.blockedOn task = some lock)
    (howner : s.owner lock = some owner) (hcaller : owner ≠ caller) :
    Unhindered s caller task prio ↔
    (WouldLead s lock task prio ∧ WouldHead s owner ((s.topWaiter lock).getD task) prio ∧
        Unhindered s caller owner (min prio (s.normalPrio owner))) ∨
      (¬WouldLead s lock task prio ∧ s.topWaiter lock = some task ∧
        ∃ next, ((s.waitList lock).erase task).head? = some next ∧
          WouldHead s owner task (s.listPrio next) ∧
          Unhindered s caller owner (min (s.listPrio next) (s.normalPrio owner))) ∨
      (¬WouldLead s lock task prio ∧ s.topWaiter lock ≠ some task ∧
        s.topPiWaiter owner = s.topWaiter lock ∧ Unhindered s caller owner (s.prio owner)) := by
  have hsame : ∀ {lock' owner'}, s.blockedOn task = some lock' → s.owner lock' = some owner' →
      lock = lock' ∧ owner = owner' := by
    intro lock' owner' hblocked' howner'
    obtain rfl := some.inj (hblocked.symm.trans hblocked')
    exact ⟨rfl, some.inj (howner.symm.trans howner')⟩
  constructor
  · intro hunhindered
    cases hunhindered with
    | found hblocked' howner' => exact absurd (hsame hblocked' howner').2 hcaller
    | boost hblocked' howner' hlead hhead hnext =>
      obtain ⟨rfl, rfl⟩ := hsame hblocked' howner'
      exact Or.inl ⟨hlead, hhead, hnext⟩
    | deboost hblocked' howner' hlead htop hother hhead hnext =>
      obtain ⟨rfl, rfl⟩ := hsame hblocked' howner'
      exact Or.inr (Or.inl ⟨hlead, htop, _, hother, hhead, hnext⟩)
    | same hblocked' howner' hlead htop hhead hnext =>
      obtain ⟨rfl, rfl⟩ := hsame hblocked' howner'
      exact Or.inr (Or.inr ⟨hlead, htop, hhead, hnext⟩)
  · rintro (⟨hlead, hhead, hnext⟩ | ⟨hlead, htop, next, hother, hhead, hnext⟩ |
      ⟨hlead, htop, hhead, hnext⟩)
    · exact .boost hblocked howner hlead hhead hnext
    · exact .deboost hblocked howner hlead htop hother hhead hnext
    · exact .same hblocked howner hlead htop hhead hnext

/-- Nobody is in the way of a task that blocks: it is the top waiter of the mutex and the first of
all waiters of the owner, and so on along the chain. -/
structure Detectable (s : State Task Lock) (lock : Lock) (caller owner : Task) : Prop where
  lead : WouldLead s lock caller (s.getprio caller)
  head : WouldHead s owner ((s.topWaiter lock).getD caller) (s.getprio caller)
  chain : owner = caller ∨
    Unhindered s caller owner (min (s.getprio caller) (s.normalPrio owner))

theorem Detectable.reaches (hdetect : Detectable s lock caller owner) :
    ReflTransGen (Follows s.nextOwner) owner caller := by
  rcases hdetect.chain with rfl | hchain
  · exact .refl
  · exact hchain.reaches.to_reflTransGen

end Frame

variable [DecidableEq Lock] {maxLockDepth : ℕ}

section Detection

variable {s s' : State Task Lock} {caller owner task : Task} {lock origLock : Lock}
  {visited : Set Task} {topWaiter : Option Task}

/-- The chain goes on behind a step exactly if nobody is in the way. -/
theorem Frame.unhindered_iff (hframe : Frame s s' caller visited) (hlinked : Linked s)
    (hblocked : s.blockedOn task = some lock) (howner : s.owner lock = some owner)
    (hnew : owner ∉ visited) (hcaller : owner ≠ caller) {result : State Task Lock × Task}
    (hstep : Step s' lock owner task result) :
    (result.1.topPiWaiter owner = result.1.topWaiter lock ∧
      Unhindered s caller owner (result.1.prio owner)) ↔ Unhindered s caller task (s'.prio task) := by
  have hlist := hframe.waitList lock (not_visited howner hnew)
  have hnodup : (s'.waitList lock).Nodup := by
    rw [hlist]
    exact hlinked.nodup lock
  have htopWaiter := hframe.topWaiter howner hnew
  have hpi := hframe.piWaiters owner hnew
  have hlead' := hframe.wouldLead_iff hlinked howner hnew task (s'.prio task)
  obtain ⟨top, htop⟩ := hlinked.exists_top hblocked
  rw [unhindered_iff_of_owner hblocked howner hcaller]
  cases hstep with
  | boost hlead =>
    have hlead'' := hlead'.mp hlead
    have hfresh : task ∉ ((s'.requeue lock task).piWaiters owner).erase
        ((s'.topWaiter lock).getD task) := by
      rw [requeue_piWaiters, hpi, htopWaiter, htop]
      exact hlinked.fresh hblocked htop owner
    have hhead : (withTop (s'.requeue lock task) owner ((s'.topWaiter lock).getD task)
        task).topPiWaiter owner = some task ↔
          WouldHead s owner ((s.topWaiter lock).getD task) (s'.prio task) := by
      rw [topPiWaiter_withTop hfresh, ← hframe.wouldHead_iff hlinked hnew, htopWaiter,
        requeue_listPrio, update_self]
      rfl
    rw [withTop_topWaiter, topWaiter_requeue_of_lead hnodup hlead]
    simp only [hlead'', not_true_eq_false, true_and, false_and, or_false]
    rw [← hhead]
    refine and_congr_right fun hfirst => ?_
    rw [prio_withTop_of_top hfirst, requeue_listPrio, update_self, requeue_normalPrio,
      hframe.normalPrio]
  | deboost next hlead htask hnext =>
    have hlead'' := hlead'.not.mp hlead
    obtain ⟨next', hnext', hne, -, hnewTop⟩ := topWaiter_requeue_of_not_lead hnodup hlead
    obtain rfl : next = next' := some.inj (hnext.symm.trans hnext')
    rw [htopWaiter] at htask
    rw [hlist] at hnext
    have hnextBlocked : s.blockedOn next = some lock :=
      (hlinked.blocked lock next).mp (List.mem_of_mem_erase (List.mem_of_head? hnext))
    have hprio : (s'.requeue lock task).listPrio next = s.listPrio next := by
      rw [requeue_listPrio, update_of_ne hne,
        hframe.listPrio next lock hnextBlocked (not_visited howner hnew)]
    have hfresh : next ∉ ((s'.requeue lock task).piWaiters owner).erase task := by
      rw [requeue_piWaiters, hpi]
      exact hlinked.fresh hnextBlocked htask owner
    have hhead : (withTop (s'.requeue lock task) owner task next).topPiWaiter owner =
        some next ↔ WouldHead s owner task (s.listPrio next) := by
      rw [topPiWaiter_withTop hfresh, ← hframe.wouldHead_iff hlinked hnew, hprio]
      rfl
    rw [withTop_topWaiter, hnewTop]
    simp only [hlead'', htask, hnext, not_false_eq_true, true_and, false_and, false_or, ne_eq,
      not_true_eq_false, or_false, some.injEq, exists_eq_left']
    rw [← hhead]
    refine and_congr_right fun hfirst => ?_
    rw [prio_withTop_of_top hfirst, hprio, requeue_normalPrio, hframe.normalPrio]
  | same hlead htask =>
    have hlead'' := hlead'.not.mp hlead
    have hsame := topWaiter_requeue_same hnodup hlead htask
    have hpiTop : (s'.requeue lock task).topPiWaiter owner = s.topPiWaiter owner := by
      rw [topPiWaiter, requeue_piWaiters, hpi]
      rfl
    rw [hsame, htopWaiter, hpiTop, requeue_prio, hframe.prio owner hnew hcaller]
    rw [htopWaiter] at htask
    simp only [hlead'', htask, not_false_eq_true, true_and, false_and, false_or, ne_eq, and_false]

/-- With deadlock detection the chain ends with `-EDEADLK` exactly if it leads to the caller and
nobody is in the way. -/
theorem adjustPrioChain_edeadlk (hlinked : Linked s) (hacyclic : Acyclic (Follows s.nextOwner))
    {depth : ℕ} (hframe : Frame s s' caller visited) (hcaller : s'.blockedOn caller = some origLock)
    (htask : task ≠ caller)
    (hvisited : ∀ earlier ∈ visited, ReflTransGen (Follows s.nextOwner) earlier task)
    (horig : ∃ first ∈ visited, s.owner origLock = some first) (hshort : s.ChainWithin depth task)
    (htop : topWaiter ≠ none) :
    (adjustPrioChain true (some origLock) (some caller) caller depth s' task topWaiter).2 =
        .edeadlk ↔ s'.topPiWaiter task = topWaiter ∧ Unhindered s caller task (s'.prio task) := by
  induction depth generalizing s' task topWaiter visited with
  | zero => exact hshort.elim
  | succ depth ih =>
    rw [adjustPrioChain, hframe.blockedOn task htask]
    cases hblocked : s.blockedOn task with
    | none =>
      refine iff_of_false (by simp) ?_
      rintro ⟨-, hunhindered⟩
      cases hunhindered <;> simp_all
    | some lock =>
      have horigWaiter : ¬Option.map s'.blockedOn (some caller) = some none := by
        simp [hcaller]
      simp only [if_neg horigWaiter]
      by_cases hpi : s'.topPiWaiter task = topWaiter
      · have horigLock : lock ≠ origLock := by
          rintro rfl
          obtain ⟨first, hfirst, howner⟩ := horig
          exact hacyclic task (TransGen.head' (nextOwner_eq hblocked howner)
            (hvisited first hfirst))
        rw [if_neg (by simp [hpi]), if_neg (by simp), hframe.owner]
        cases howner : s.owner lock with
        | none =>
          rw [if_neg (by simpa using Ne.symm horigLock)]
          refine iff_of_false (by simp) ?_
          rintro ⟨-, hunhindered⟩
          cases hunhindered <;> simp_all
        | some owner =>
          by_cases hfound : owner = caller
          · subst hfound
            rw [if_pos (Or.inr rfl)]
            exact iff_of_true rfl ⟨hpi, .found hblocked howner⟩
          have hnew : owner ∉ visited := by
            intro hold
            exact hacyclic task (TransGen.head' (nextOwner_eq hblocked howner)
              (hvisited owner hold))
          have hnodup : (s'.waitList lock).Nodup := by
            rw [hframe.waitList lock (not_visited howner hnew)]
            exact hlinked.nodup lock
          have hstep := @step_adjustOwner _ _ _ _ s' lock task hnodup owner
          rw [if_neg (by simp [Ne.symm horigLock, hfound])]
          simp only
          rw [if_neg (by simp), and_iff_right hpi,
            ← hframe.unhindered_iff hlinked hblocked howner hnew hfound hstep]
          apply ih (hframe.step hlinked hblocked howner hnew hstep) _ hfound
          · intro earlier hearlier
            rcases Set.mem_insert_iff.mp hearlier with rfl | hold
            · exact .refl
            · exact (hvisited earlier hold).tail (nextOwner_eq hblocked howner)
          · obtain ⟨first, hfirst, hfirstOwner⟩ := horig
            exact ⟨first, Set.mem_insert_of_mem _ hfirst, hfirstOwner⟩
          · exact hshort owner (nextOwner_eq hblocked howner)
          · refine hstep.topWaiter_ne_none hnodup ?_
            obtain ⟨top, htop⟩ := hlinked.exists_top hblocked
            rw [hframe.topWaiter howner hnew, htop]
            exact some_ne_none _
          · rw [hstep.sameGraph.blockedOn]
            exact hcaller
      · rw [if_pos ⟨htop, hpi⟩]
        exact iff_of_false (by simp) fun hboth => hpi hboth.1

theorem frame_withTop (hcaller : s.blockedOn caller = none) (howner : s.owner lock = some owner)
    (old : Task) : Frame s (withTop (s.enqueue lock caller) owner old caller) caller {owner} := by
  have hne : ∀ waiter other, s.blockedOn waiter = some other → waiter ≠ caller := by
    rintro waiter other hwaiter rfl
    rw [hcaller] at hwaiter
    cases hwaiter
  have hqueued : Frame s (s.enqueue lock caller) caller {owner} := by
    refine ⟨rfl, rfl, fun task htask => ?_, fun other hother => ?_, fun waiter other hwaiter _ => ?_,
      fun waiter other hwaiter _ => ?_, fun _ _ => rfl, fun task _ htask => ?_⟩
    · rw [enqueue_blockedOn, update_of_ne htask]
    · apply enqueue_waitList_of_ne
      rintro rfl
      exact hother owner rfl howner
    · rw [enqueue_listPrio, update_of_ne (hne waiter other hwaiter)]
    · rw [enqueue_piPrio, update_of_ne (hne waiter other hwaiter)]
    · rw [enqueue_prio, update_of_ne htask]
  exact hqueued.retop rfl (fun waiter other hwaiter _ => hne waiter other hwaiter) old

theorem adjustPrioChain_of_topPiWaiter_ne (htop : topWaiter ≠ none)
    (hother : s.topPiWaiter task ≠ topWaiter) (detect : Bool) (origLock : Option Lock)
    (origWaiter : Option Task) (depth : ℕ) :
    (adjustPrioChain detect origLock origWaiter caller (depth + 1) s task topWaiter).2 = .ok := by
  rw [adjustPrioChain]
  cases s.blockedOn task with
  | none => rfl
  | some lock =>
    simp only
    rw [if_pos (c := topWaiter ≠ none ∧ s.topPiWaiter task ≠ topWaiter) ⟨htop, hother⟩, ite_self]

theorem adjustPrioChain_at_orig (hblocked : s.blockedOn task = some lock)
    (htop : s.topPiWaiter task = some caller) (depth : ℕ) :
    (adjustPrioChain true (some lock) (some task) caller (depth + 1) s task
      (some caller)).2 = .edeadlk := by
  simp [adjustPrioChain, hblocked, htop, verdict]

theorem topPiWaiter_boosted (hlinked : Linked s) (hcaller : s.blockedOn caller = none)
    (owner old : Task) :
    (withTop (s.enqueue lock caller) owner old caller).topPiWaiter owner = some caller ↔
      WouldHead s owner old (s.getprio caller) := by
  have hnew : caller ∉ ((s.enqueue lock caller).piWaiters owner).erase old := fun hmem =>
    hlinked.not_mem_piWaiters hcaller owner (List.mem_of_mem_erase hmem)
  rw [topPiWaiter_withTop hnew, WouldHead, WouldHead, enqueue_piWaiters]
  refine forall₂_congr fun other hother => ?_
  have hne : other ≠ caller := by
    rintro rfl
    exact hnew (List.mem_of_head? hother)
  rw [enqueue_listPrio, enqueue_piPrio, update_self, update_of_ne hne]

/-- `task_blocks_on_rt_mutex` returns `-EDEADLK` exactly if nobody is in the way of the chain to
the caller. -/
theorem taskBlocks_edeadlk (hlinked : Linked s) (hacyclic : Acyclic (Follows s.nextOwner))
    (hcaller : s.blockedOn caller = none) (howner : s.owner lock = some owner)
    (hshort : s.ChainWithin maxLockDepth owner) :
    (s.taskBlocks maxLockDepth lock caller true).2 = .edeadlk ↔ Detectable s lock caller owner := by
  obtain ⟨depth, rfl⟩ : ∃ depth, maxLockDepth = depth + 1 := by
    cases maxLockDepth with
    | zero => exact hshort.elim
    | succ depth => exact ⟨depth, rfl⟩
  have hlead : (s.enqueue lock caller).topWaiter lock = some caller ↔
      WouldLead s lock caller (s.getprio caller) := topWaiter_enqueue_iff hlinked hcaller
  have hnotPi : caller ∉ s.piWaiters owner := hlinked.not_mem_piWaiters hcaller owner
  rw [taskBlocks, howner]
  simp only [if_true]
  split_ifs with htop hfree
  · -- the owner runs
    rw [boosted_eq_withTop, withTop_blockedOn, enqueue_blockedOn] at hfree
    refine iff_of_false (by simp) fun hdetect => ?_
    have hne : owner ≠ caller := by
      rintro rfl
      simp at hfree
    rw [update_of_ne hne] at hfree
    obtain ⟨other, hblocked⟩ := (hdetect.chain.resolve_left hne).blockedOn
    rw [hfree] at hblocked
    cases hblocked
  · rw [boosted_eq_withTop]
    have hhead : (withTop (s.enqueue lock caller) owner ((s.topWaiter lock).getD caller)
        caller).topPiWaiter owner = some caller ↔
          WouldHead s owner ((s.topWaiter lock).getD caller) (s.getprio caller) :=
      topPiWaiter_boosted hlinked hcaller owner _
    have hblocked : (withTop (s.enqueue lock caller) owner ((s.topWaiter lock).getD caller)
        caller).blockedOn caller = some lock := by simp
    by_cases hself : owner = caller
    · subst hself
      by_cases hfirst : WouldHead s owner ((s.topWaiter lock).getD owner) (s.getprio owner)
      · rw [adjustPrioChain_at_orig hblocked (hhead.mpr hfirst)]
        exact iff_of_true rfl ⟨hlead.mp htop, hfirst, Or.inl rfl⟩
      · rw [adjustPrioChain_of_topPiWaiter_ne (some_ne_none owner) (hhead.not.mpr hfirst)]
        exact iff_of_false (by simp) fun hdetect => hfirst hdetect.head
    · rw [adjustPrioChain_edeadlk hlinked hacyclic (frame_withTop hcaller howner _) hblocked hself
        (by rintro earlier rfl; exact .refl) ⟨owner, rfl, howner⟩ hshort (some_ne_none _)]
      constructor
      · rintro ⟨hfirst, hnext⟩
        rw [prio_withTop_of_top hfirst] at hnext
        simp only [enqueue_listPrio, update_self, enqueue_normalPrio] at hnext
        exact ⟨hlead.mp htop, hhead.mp hfirst, Or.inr hnext⟩
      · intro hdetect
        have hfirst := hhead.mpr hdetect.head
        refine ⟨hfirst, ?_⟩
        rw [prio_withTop_of_top hfirst]
        simpa using hdetect.chain.resolve_left hself
  · -- the caller is not in the list of the owner
    have hother : (s.enqueue lock caller).topPiWaiter owner ≠ some caller :=
      fun heq => hnotPi (List.mem_of_head? heq)
    rw [adjustPrioChain_of_topPiWaiter_ne (some_ne_none caller) hother]
    exact iff_of_false (by simp) fun hdetect => htop (hlead.mpr hdetect.lead)

/-- With the task asleep there is a cycle in the wait graph. -/
def ClosesCycle (s : State Task Lock) (lock : Lock) (caller : Task) : Prop :=
  ∃ task, TransGen (Follows (s.enqueue lock caller).nextOwner) task task

theorem follows_enqueue (hcaller : s.blockedOn caller = none) (howner : s.owner lock = some owner) :
    Follows (s.enqueue lock caller).nextOwner = addEdge (Follows s.nextOwner) caller owner := by
  ext first second
  rw [addEdge, Follows, Follows, nextOwner, nextOwner, enqueue_blockedOn, enqueue_owner]
  by_cases hfirst : first = caller
  · subst hfirst
    rw [update_self, hcaller, bind_some, howner]
    simp [eq_comm]
  · simp [hfirst]

theorem closesCycle_iff (hacyclic : Acyclic (Follows s.nextOwner))
    (hcaller : s.blockedOn caller = none) (howner : s.owner lock = some owner) :
    ClosesCycle s lock caller ↔ ReflTransGen (Follows s.nextOwner) owner caller := by
  rw [ClosesCycle, follows_enqueue hcaller howner]
  exact hacyclic.exists_cycle_addEdge

end Detection

/-- A task that blocks closes a cycle exactly if owners and their mutexes lead back to it.  Deadlock
detection is right about that exactly if nobody is in the way when they do. -/
theorem deadlock_detection_exact {s : State Task Lock}
    (hreachable : s.Reachable maxLockDepth OthersMutex) (hacyclic : Acyclic (Follows s.nextOwner))
    {lock : Lock} {caller owner : Task} (hcaller : s.blockedOn caller = none)
    (howner : s.owner lock = some owner) (hshort : s.ChainWithin maxLockDepth owner) :
    (ClosesCycle s lock caller ↔ ReflTransGen (Follows s.nextOwner) owner caller) ∧
      (((s.taskBlocks maxLockDepth lock caller true).2 = .edeadlk ↔ ClosesCycle s lock caller) ↔
        (ClosesCycle s lock caller → Detectable s lock caller owner)) := by
  have hlinked := (coherent_of_reachable (fun _ _ hallowed => hallowed) hreachable).toLinked
  have hcycle : ClosesCycle s lock caller ↔ ReflTransGen (Follows s.nextOwner) owner caller :=
    closesCycle_iff hacyclic hcaller howner
  refine ⟨hcycle, ?_⟩
  rw [taskBlocks_edeadlk hlinked hacyclic hcaller howner hshort]
  constructor
  · exact fun hexact => hexact.mpr
  · exact fun hfound => ⟨fun hdetect => hcycle.mpr hdetect.reaches, hfound⟩

/-- The first task owns a mutex, and the second one owns another and waits for it. -/
def pair : State (Fin 2) (Fin 2) :=
  (((State.initial fun _ => 10).perform 1024 (.lock 0 0 true false)).perform 1024
    (.lock 1 1 true false)).perform 1024 (.lock 1 0 true false)

theorem pair_descends : ∀ first second, pair.nextOwner first = some second →
    second.val < first.val := by
  decide +kernel

theorem deadlock_detection_exact_pair :
    (pair.taskBlocks 1024 1 0 true).2 = .edeadlk ∧
      (((pair.taskBlocks 1024 1 0 true).2 = .edeadlk ↔ ClosesCycle pair 1 0) ↔
        (ClosesCycle pair 1 0 → Detectable pair 1 0 1)) := by
  have hreachable : pair.Reachable 1024 OthersMutex :=
    .perform _ (.perform _ (.perform _ (.initial _) (by decide +kernel) (by decide +kernel))
      (by decide +kernel) (by decide +kernel)) (by decide +kernel) (by decide +kernel)
  have hshort : pair.ChainWithin 1024 1 := chainWithin_of_descends _ pair_descends (by decide)
  exact ⟨by decide +kernel, (deadlock_detection_exact hreachable
    (acyclic_of_descends _ pair_descends) (by decide +kernel) (by decide +kernel) hshort).2⟩

/-- The same with a third task of higher priority, which waits for the second mutex already. -/
def triple : State (Fin 6) (Fin 2) :=
  ((((State.initial fun task => if task = 2 then 5 else 10).perform 1024
    (.lock 0 0 true false)).perform 1024 (.lock 1 1 true false)).perform 1024
    (.lock 2 1 true false)).perform 1024 (.lock 1 0 true false)

theorem triple_descends : ∀ first second, triple.nextOwner first = some second →
    second.val < first.val := by
  decide +kernel

/-- The first task may go to sleep for the second mutex although the second task waits for it. -/
theorem deadlock_detection_misses_cycle :
    triple.Reachable 1024 OthersMutex ∧ Acyclic (Follows triple.nextOwner) ∧
      triple.blockedOn 0 = none ∧ triple.owner 1 = some 1 ∧ triple.ChainWithin 1024 1 ∧
      ReflTransGen (Follows triple.nextOwner) 1 0 ∧ ClosesCycle triple 1 0 ∧
      (triple.taskBlocks 1024 1 0 true).2 = .ok := by
  have hacyclic : Acyclic (Follows triple.nextOwner) := acyclic_of_descends _ triple_descends
  have hback : ReflTransGen (Follows triple.nextOwner) 1 0 :=
    .single (show triple.nextOwner 1 = some 0 by decide +kernel)
  have hcaller : triple.blockedOn 0 = none := by decide +kernel
  have howner : triple.owner 1 = some 1 := by decide +kernel
  refine ⟨?_, hacyclic, hcaller, howner, chainWithin_of_descends _ triple_descends (by decide),
    hback, (closesCycle_iff hacyclic hcaller howner).mpr hback, by decide +kernel⟩
  exact .perform _ (.perform _ (.perform _ (.perform _ (.initial _) (by decide +kernel)
    (by decide +kernel)) (by decide +kernel) (by decide +kernel)) (by decide +kernel)
    (by decide +kernel)) (by decide +kernel) (by decide +kernel)

end KernelM5040.RtMutex
