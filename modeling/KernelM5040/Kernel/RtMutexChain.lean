import KernelM5040.Core.WaitGraph
import KernelM5040.Kernel.RtMutex

/-!
# One step of the priority chain

What requeueing a waiter and adjusting the owner of its mutex does to the lists:
either the waiter is the top waiter afterwards, or it was it before and another
one is now, or the top waiter stays.  The lists stay linked to each other.
-/

namespace KernelM5040.RtMutex

open Function State Option PriorityList WaitGraph Relation

variable {Task Lock : Type} {s : State Task Lock}

/-! ## Linked lists -/

/-- A waiter is in the list of the mutex that it is blocked on, and only top waiters of a task's
mutexes are in its list. -/
structure Linked (s : State Task Lock) : Prop where
  blocked : ∀ lock waiter, waiter ∈ s.waitList lock ↔ s.blockedOn waiter = some lock
  nodup : ∀ lock, (s.waitList lock).Nodup
  piTop : ∀ task waiter, waiter ∈ s.piWaiters task →
    ∃ lock, s.owner lock = some task ∧ s.topWaiter lock = some waiter
  piNodup : ∀ task, (s.piWaiters task).Nodup

section Linked

variable {s s' : State Task Lock} {lock : Lock} {owner waiter task : Task}

section

variable (hlinked : Linked s)
include hlinked

theorem Linked.blockedOn_of_top (htop : s.topWaiter lock = some waiter) :
    s.blockedOn waiter = some lock :=
  (hlinked.blocked lock waiter).mp (List.mem_of_head? htop)

theorem Linked.top_unique {lock' : Lock} (htop : s.topWaiter lock = some waiter)
    (htop' : s.topWaiter lock' = some waiter) : lock = lock' := by
  have hblocked := hlinked.blockedOn_of_top htop
  rw [hlinked.blockedOn_of_top htop'] at hblocked
  exact (some.inj hblocked).symm

theorem Linked.not_mem_piWaiters (hfree : s.blockedOn waiter = none) (task : Task) :
    waiter ∉ s.piWaiters task := by
  intro hmem
  obtain ⟨lock, -, htop⟩ := hlinked.piTop task waiter hmem
  rw [hlinked.blockedOn_of_top htop] at hfree
  cases hfree

theorem Linked.mem_piWaiters (hmem : waiter ∈ s.piWaiters task)
    (hblocked : s.blockedOn waiter = some lock) :
    s.owner lock = some task ∧ s.topWaiter lock = some waiter := by
  obtain ⟨other, howner, htop⟩ := hlinked.piTop task waiter hmem
  have hother := hlinked.blockedOn_of_top htop
  rw [hblocked] at hother
  obtain rfl := some.inj hother
  exact ⟨howner, htop⟩

theorem Linked.not_mem_piWaiters_of_not_top (hblocked : s.blockedOn waiter = some lock)
    (htop : s.topWaiter lock ≠ some waiter) (task : Task) : waiter ∉ s.piWaiters task :=
  fun hmem => htop (hlinked.mem_piWaiters hmem hblocked).2

theorem Linked.exists_top (hblocked : s.blockedOn waiter = some lock) :
    ∃ top, s.topWaiter lock = some top := by
  have hmem := (hlinked.blocked lock waiter).mpr hblocked
  cases hlist : s.waitList lock with
  | nil => simp [hlist] at hmem
  | cons top rest => exact ⟨top, by simp [topWaiter, hlist]⟩

theorem Linked.relink (howner : s.owner lock = some owner) (hsameOwner : s'.owner = s.owner)
    (hblocked : ∀ waiter, waiter ∈ s'.waitList lock ↔ s'.blockedOn waiter = some lock)
    (hblocked' : ∀ other ≠ lock, ∀ waiter, s'.blockedOn waiter = some other ↔
      s.blockedOn waiter = some other) (hnodup : (s'.waitList lock).Nodup)
    (hwait : ∀ other ≠ lock, s'.waitList other = s.waitList other)
    (hpi : ∀ task ≠ owner, s'.piWaiters task = s.piWaiters task)
    (hpiOwner : ∀ waiter ∈ s'.piWaiters owner,
      (waiter ∈ s.piWaiters owner ∧ s.topWaiter lock ≠ some waiter) ∨
      s'.topWaiter lock = some waiter) (hpiNodup : (s'.piWaiters owner).Nodup) : Linked s' := by
  have htop : ∀ other ≠ lock, s'.topWaiter other = s.topWaiter other := by
    intro other hother
    rw [topWaiter, hwait other hother]
    rfl
  refine ⟨?_, ?_, ?_, ?_⟩
  · intro other waiter
    by_cases hother : other = lock
    · rw [hother]
      exact hblocked waiter
    · rw [hwait other hother, hlinked.blocked other waiter, hblocked' other hother]
  · intro other
    by_cases hother : other = lock
    · rw [hother]
      exact hnodup
    · rw [hwait other hother]
      exact hlinked.nodup other
  · intro task waiter hmem
    rw [hsameOwner]
    by_cases htask : task = owner
    · subst htask
      rcases hpiOwner waiter hmem with ⟨hold, hne⟩ | hnew
      · obtain ⟨other, hother, htop'⟩ := hlinked.piTop task waiter hold
        refine ⟨other, hother, ?_⟩
        rw [htop other]
        · exact htop'
        · rintro rfl
          exact hne htop'
      · exact ⟨lock, howner, hnew⟩
    · rw [hpi task htask] at hmem
      obtain ⟨other, hother, htop'⟩ := hlinked.piTop task waiter hmem
      refine ⟨other, hother, ?_⟩
      rw [htop other]
      · exact htop'
      · rintro rfl
        rw [howner] at hother
        exact htask (some.inj hother).symm
  · intro task
    by_cases htask : task = owner
    · rw [htask]
      exact hpiNodup
    · rw [hpi task htask]
      exact hlinked.piNodup task

end

end Linked

/-! ## The wait graph -/

/-- What the chain does not change. -/
structure SameGraph (s s' : State Task Lock) : Prop where
  owner : s'.owner = s.owner
  pending : s'.pending = s.pending
  blockedOn : s'.blockedOn = s.blockedOn
  normalPrio : s'.normalPrio = s.normalPrio
  waiting : s'.waiting = s.waiting

theorem SameGraph.refl (s : State Task Lock) : SameGraph s s := ⟨rfl, rfl, rfl, rfl, rfl⟩

theorem SameGraph.trans {s' s'' : State Task Lock} (hfirst : SameGraph s s')
    (hsecond : SameGraph s' s'') : SameGraph s s'' where
  owner := hsecond.owner.trans hfirst.owner
  pending := hsecond.pending.trans hfirst.pending
  blockedOn := hsecond.blockedOn.trans hfirst.blockedOn
  normalPrio := hsecond.normalPrio.trans hfirst.normalPrio
  waiting := hsecond.waiting.trans hfirst.waiting

variable [DecidableEq Task]

theorem adjustPrio_sameGraph (s : State Task Lock) (task : Task) :
    SameGraph s (s.adjustPrio task) := ⟨rfl, rfl, rfl, rfl, rfl⟩

theorem Linked.adjustPrio (hlinked : Linked s) (task : Task) : Linked (s.adjustPrio task) :=
  ⟨hlinked.blocked, hlinked.nodup, hlinked.piTop, hlinked.piNodup⟩

/-! ## A new top waiter for an owner -/

/-- The owner of a mutex with a new top waiter. -/
def withTop (s : State Task Lock) (owner old waiter : Task) : State Task Lock :=
  (((s.piDel owner old).setPiPrio waiter).piAdd owner waiter).adjustPrio owner

section WithTop

variable {s : State Task Lock} {owner old waiter task : Task}

@[simp] theorem withTop_owner : (withTop s owner old waiter).owner = s.owner := rfl
@[simp] theorem withTop_waitList : (withTop s owner old waiter).waitList = s.waitList := rfl
@[simp] theorem withTop_blockedOn : (withTop s owner old waiter).blockedOn = s.blockedOn := rfl
@[simp] theorem withTop_listPrio : (withTop s owner old waiter).listPrio = s.listPrio := rfl
@[simp] theorem withTop_normalPrio : (withTop s owner old waiter).normalPrio = s.normalPrio := rfl
@[simp] theorem withTop_topWaiter (lock : Lock) :
    (withTop s owner old waiter).topWaiter lock = s.topWaiter lock := rfl
@[simp] theorem withTop_piPrio : (withTop s owner old waiter).piPrio =
    update s.piPrio waiter (s.listPrio waiter) := rfl

theorem withTop_sameGraph : SameGraph s (withTop s owner old waiter) := ⟨rfl, rfl, rfl, rfl, rfl⟩

@[simp] theorem withTop_piWaiters : (withTop s owner old waiter).piWaiters owner =
    insert (update s.piPrio waiter (s.listPrio waiter)) waiter ((s.piWaiters owner).erase old) := by
  simp [withTop, adjustPrio, piAdd, setPiPrio, piDel]

theorem withTop_piWaiters_of_ne (htask : task ≠ owner) :
    (withTop s owner old waiter).piWaiters task = s.piWaiters task := by
  simp [withTop, adjustPrio, piAdd, setPiPrio, piDel, htask]

theorem withTop_prio_of_ne (htask : task ≠ owner) :
    (withTop s owner old waiter).prio task = s.prio task := by
  simp [withTop, adjustPrio, piAdd, setPiPrio, piDel, htask]

theorem withTop_prio :
    (withTop s owner old waiter).prio owner = (withTop s owner old waiter).getprio owner := by
  simp [withTop, adjustPrio, getprio, topPiWaiter]

end WithTop

/-! ## A step -/

/-- The waiters of a mutex after one of them was requeued. -/
def requeued (s : State Task Lock) (lock : Lock) (waiter : Task) : List Task :=
  insert (Function.update s.listPrio waiter (s.prio waiter)) waiter ((s.waitList lock).erase waiter)

section Requeued

variable {s : State Task Lock} {lock : Lock} {waiter : Task}

theorem Linked.erase_of_free (hlinked : Linked s) (hfree : s.blockedOn waiter = none)
    (lock : Lock) : (s.waitList lock).erase waiter = s.waitList lock := by
  apply List.erase_of_not_mem
  rw [hlinked.blocked, hfree]
  exact nofun

/-- A waiter that becomes the top waiter is not in the list of the owner yet, or in its own
place. -/
theorem Linked.fresh (hlinked : Linked s) (hblocked : s.blockedOn waiter = some lock)
    {top : Task} (htop : s.topWaiter lock = some top) (owner : Task) :
    waiter ∉ (s.piWaiters owner).erase top := by
  intro hold
  by_cases heq : waiter = top
  · rw [heq] at hold
    exact (hlinked.piNodup owner).not_mem_erase hold
  · refine hlinked.not_mem_piWaiters_of_not_top hblocked ?_ owner (List.mem_of_mem_erase hold)
    rw [htop]
    simpa using Ne.symm heq

theorem mem_requeued (hmem : waiter ∈ s.waitList lock) {task : Task} :
    task ∈ requeued s lock waiter ↔ task ∈ s.waitList lock := by
  rw [requeued, mem_insert]
  by_cases heq : task = waiter
  · simp [heq, hmem]
  · rw [or_iff_right heq, List.mem_erase_of_ne heq]

theorem nodup_requeued (hnodup : (s.waitList lock).Nodup) : (requeued s lock waiter).Nodup :=
  nodup_insert hnodup.not_mem_erase (hnodup.erase waiter)

end Requeued

variable [DecidableEq Lock] {result : State Task Lock × Task} {other : Lock}

/-- A task with this priority would be the top waiter. -/
def WouldLead (s : State Task Lock) (lock : Lock) (waiter : Task) (prio : ℕ) : Prop :=
  ∀ other ∈ ((s.waitList lock).erase waiter).head?, prio < s.listPrio other

/-- A waiter with this priority would come first in the list of a task, in place of another. -/
def WouldHead (s : State Task Lock) (task old : Task) (prio : ℕ) : Prop :=
  ∀ other ∈ ((s.piWaiters task).erase old).head?, prio < s.piPrio other

/-- The three outcomes of a step. -/
inductive Step (s : State Task Lock) (lock : Lock) (owner waiter : Task) :
    State Task Lock × Task → Prop
  | boost (hlead : WouldLead s lock waiter (s.prio waiter)) :
      Step s lock owner waiter
        (withTop (s.requeue lock waiter) owner ((s.topWaiter lock).getD waiter) waiter, waiter)
  | deboost (next : Task) (hlead : ¬WouldLead s lock waiter (s.prio waiter))
      (htop : s.topWaiter lock = some waiter)
      (hnext : ((s.waitList lock).erase waiter).head? = some next) :
      Step s lock owner waiter (withTop (s.requeue lock waiter) owner waiter next, next)
  | same (hlead : ¬WouldLead s lock waiter (s.prio waiter))
      (htop : s.topWaiter lock ≠ some waiter) :
      Step s lock owner waiter (s.requeue lock waiter, waiter)

section Step

variable {s : State Task Lock} {lock : Lock} {owner waiter next : Task}

@[simp] theorem requeue_waitList (s : State Task Lock) (lock : Lock) (waiter : Task) :
    (s.requeue lock waiter).waitList lock = requeued s lock waiter := by
  simp [requeue, waitAdd, setListPrio, waitDel, requeued]

theorem requeue_waitList_of_ne (hother : other ≠ lock) (waiter : Task) :
    (s.requeue lock waiter).waitList other = s.waitList other := by
  simp [requeue, waitAdd, setListPrio, waitDel, hother]

section

variable (hnodup : (s.waitList lock).Nodup)
include hnodup

theorem topWaiter_requeue_of_lead (hlead : WouldLead s lock waiter (s.prio waiter)) :
    (s.requeue lock waiter).topWaiter lock = some waiter := by
  rw [topWaiter, requeue_waitList, requeued, head?_insert]
  cases hhead : ((s.waitList lock).erase waiter).head? with
  | none => rfl
  | some first =>
    have hne : first ≠ waiter := by
      rintro rfl
      exact hnodup.not_mem_erase (List.mem_of_head? hhead)
    have hless := hlead first hhead
    simp [update_of_ne hne, hless]

theorem topWaiter_requeue_of_not_lead (hlead : ¬WouldLead s lock waiter (s.prio waiter)) :
    ∃ next, ((s.waitList lock).erase waiter).head? = some next ∧ next ≠ waiter ∧
      s.listPrio next ≤ s.prio waiter ∧ (s.requeue lock waiter).topWaiter lock = some next := by
  rw [WouldLead] at hlead
  push Not at hlead
  obtain ⟨next, hnext, hle⟩ := hlead
  have hne : next ≠ waiter := by
    rintro rfl
    exact hnodup.not_mem_erase (List.mem_of_head? hnext)
  refine ⟨next, hnext, hne, hle, ?_⟩
  rw [topWaiter, requeue_waitList, requeued, head?_insert, hnext]
  simp [update_of_ne hne, hle]

theorem step_adjustOwner (owner : Task) :
    Step s lock owner waiter
      ((s.requeue lock waiter).adjustOwner lock owner waiter (s.topWaiter lock)) := by
  rw [adjustOwner]
  by_cases hlead : WouldLead s lock waiter (s.prio waiter)
  · rw [if_pos (topWaiter_requeue_of_lead hnodup hlead)]
    exact .boost hlead
  obtain ⟨next, hnext, hne, -, htop⟩ := topWaiter_requeue_of_not_lead hnodup hlead
  rw [if_neg (by rw [htop]; simpa using hne)]
  split_ifs with hold
  · rw [htop]
    exact .deboost next hlead hold hnext
  · exact .same hlead hold

end

/-! What the steps leave alone. -/

@[simp] theorem requeue_piWaiters : (s.requeue lock waiter).piWaiters = s.piWaiters := rfl
@[simp] theorem requeue_blockedOn : (s.requeue lock waiter).blockedOn = s.blockedOn := rfl
@[simp] theorem requeue_piPrio : (s.requeue lock waiter).piPrio = s.piPrio := rfl
@[simp] theorem requeue_normalPrio : (s.requeue lock waiter).normalPrio = s.normalPrio := rfl
@[simp] theorem requeue_prio : (s.requeue lock waiter).prio = s.prio := rfl
@[simp] theorem requeue_listPrio :
    (s.requeue lock waiter).listPrio = update s.listPrio waiter (s.prio waiter) := rfl

/-- The top waiter after a step that leaves the owner alone is the one before. -/
theorem topWaiter_requeue_same (hnodup : (s.waitList lock).Nodup)
    (hlead : ¬WouldLead s lock waiter (s.prio waiter)) (htop : s.topWaiter lock ≠ some waiter) :
    (s.requeue lock waiter).topWaiter lock = s.topWaiter lock := by
  obtain ⟨next, hnext, -, -, hnew⟩ := topWaiter_requeue_of_not_lead hnodup hlead
  rw [hnew, ← hnext]
  exact head?_erase_of_ne htop

theorem Step.topWaiter_ne_none (hstep : Step s lock owner waiter result)
    (hnodup : (s.waitList lock).Nodup) (htop : s.topWaiter lock ≠ none) :
    result.1.topWaiter lock ≠ none := by
  cases hstep with
  | boost hlead =>
    rw [withTop_topWaiter, topWaiter_requeue_of_lead hnodup hlead]
    exact some_ne_none _
  | deboost next hlead _ _ =>
    obtain ⟨next, -, -, -, hnew⟩ := topWaiter_requeue_of_not_lead hnodup hlead
    rw [withTop_topWaiter, hnew]
    exact some_ne_none _
  | same hlead htask =>
    rw [topWaiter_requeue_same hnodup hlead htask]
    exact htop

theorem Linked.step (hlinked : Linked s) (hblocked : s.blockedOn waiter = some lock)
    (howner : s.owner lock = some owner) {result : State Task Lock × Task}
    (hstep : Step s lock owner waiter result) : Linked result.1 := by
  have hnodup := hlinked.nodup lock
  have hmem : waiter ∈ s.waitList lock := (hlinked.blocked lock waiter).mpr hblocked
  have hwaiters : ∀ task, task ∈ requeued s lock waiter ↔ s.blockedOn task = some lock := by
    intro task
    rw [mem_requeued hmem, hlinked.blocked]
  have hretop : ∀ {old next}, s.topWaiter lock = some old →
      (s.requeue lock waiter).topWaiter lock = some next → next ∉ (s.piWaiters owner).erase old →
      Linked (withTop (s.requeue lock waiter) owner old next) := by
    intro old next htop hnew hfresh
    refine hlinked.relink howner rfl (by simpa using hwaiters) (fun _ _ _ => Iff.rfl)
      (by simpa using nodup_requeued hnodup)
      (fun other hother => requeue_waitList_of_ne hother waiter)
      (fun task htask => by rw [withTop_piWaiters_of_ne htask]; rfl) ?_ ?_
    · intro task htask
      rw [withTop_piWaiters, mem_insert] at htask
      rcases htask with rfl | hold
      · exact Or.inr hnew
      · obtain ⟨hne, hold⟩ := (hlinked.piNodup owner).mem_erase_iff.mp hold
        rw [htop]
        exact Or.inl ⟨hold, fun heq => hne (some.inj heq).symm⟩
    · rw [withTop_piWaiters]
      exact nodup_insert hfresh ((hlinked.piNodup owner).erase old)
  cases hstep with
  | boost hlead =>
    obtain ⟨top, htop⟩ := hlinked.exists_top hblocked
    rw [htop]
    exact hretop htop (topWaiter_requeue_of_lead hnodup hlead) (hlinked.fresh hblocked htop owner)
  | deboost next hlead htop hnext =>
    obtain ⟨next', hnext', -, -, hnew⟩ := topWaiter_requeue_of_not_lead hnodup hlead
    obtain rfl : next = next' := some.inj (hnext.symm.trans hnext')
    have hnextBlocked : s.blockedOn next = some lock :=
      (hlinked.blocked lock next).mp (List.mem_of_mem_erase (List.mem_of_head? hnext))
    exact hretop htop hnew (hlinked.fresh hnextBlocked htop owner)
  | same hlead htop =>
    refine hlinked.relink howner rfl (by simpa using hwaiters) (fun _ _ _ => Iff.rfl)
      (by simpa using nodup_requeued hnodup)
      (fun other hother => requeue_waitList_of_ne hother waiter)
      (fun _ _ => rfl) ?_ (hlinked.piNodup owner)
    intro task htask
    rw [topWaiter_requeue_same hnodup hlead htop]
    by_cases heq : s.topWaiter lock = some task
    · exact Or.inr heq
    · exact Or.inl ⟨htask, heq⟩

end Step

section Chain

variable {deadlockDetect : Bool} {origLock : Option Lock} {origWaiter : Option Task} {topTask : Task}

theorem Step.sameGraph {lock : Lock} {owner waiter : Task}
    (hstep : Step s lock owner waiter result) : SameGraph s result.1 := by
  cases hstep with
  | boost | deboost | same => exact ⟨rfl, rfl, rfl, rfl, rfl⟩

/-- The chain is a sequence of steps: what the steps preserve holds in the end. -/
theorem adjustPrioChain_invariant (inv : State Task Lock → Prop)
    (hnodup : ∀ s, inv s → ∀ lock, (s.waitList lock).Nodup)
    (hstep : ∀ s lock owner waiter result, inv s → s.blockedOn waiter = some lock →
      s.owner lock = some owner → Step s lock owner waiter result → inv result.1)
    (depth : ℕ) (hinv : inv s) (task : Task) (topWaiter : Option Task) :
    inv (adjustPrioChain deadlockDetect origLock origWaiter topTask depth s task topWaiter).1 := by
  induction depth generalizing s task topWaiter with
  | zero => exact hinv
  | succ depth ih =>
    rw [adjustPrioChain]
    cases hblocked : s.blockedOn task with
    | none => exact hinv
    | some lock =>
      simp only
      split_ifs with _ _ _ _
      · exact hinv
      · exact hinv
      · exact hinv
      · exact hinv
      cases howner : s.owner lock with
      | none => exact hinv
      | some owner =>
        have hnext := hstep s lock owner task _ hinv hblocked howner
          (step_adjustOwner (hnodup s hinv lock) owner)
        simp only
        split_ifs
        · exact hnext
        · exact ih hnext owner _

theorem Linked.adjustPrioChain (hlinked : Linked s) (depth : ℕ) (task : Task)
    (topWaiter : Option Task) :
    Linked (adjustPrioChain deadlockDetect origLock origWaiter topTask depth s task topWaiter).1 ∧
      SameGraph s (adjustPrioChain deadlockDetect origLock origWaiter topTask depth s task
        topWaiter).1 := by
  refine adjustPrioChain_invariant (fun s' => Linked s' ∧ SameGraph s s')
    (fun s' hinv => hinv.1.nodup) ?_ depth ⟨hlinked, SameGraph.refl s⟩ task topWaiter
  intro s' lock owner waiter result hinv hblocked howner hstep
  exact ⟨hinv.1.step hblocked howner hstep, hinv.2.trans hstep.sameGraph⟩

end Chain

section Enqueue

variable {s : State Task Lock} {lock : Lock} {current owner : Task}

theorem enqueue_waitList (s : State Task Lock) (lock : Lock) (current : Task) :
    (s.enqueue lock current).waitList lock =
      insert (update s.listPrio current (s.getprio current)) current (s.waitList lock) := by
  simp [enqueue, setBlockedOn, waitAdd, setPiPrio, setListPrio, adjustPrio]

theorem enqueue_waitList_of_ne (hother : other ≠ lock) :
    (s.enqueue lock current).waitList other = s.waitList other := by
  simp [enqueue, setBlockedOn, waitAdd, setPiPrio, setListPrio, adjustPrio, hother]

@[simp] theorem enqueue_owner : (s.enqueue lock current).owner = s.owner := rfl
@[simp] theorem enqueue_normalPrio : (s.enqueue lock current).normalPrio = s.normalPrio := rfl
@[simp] theorem enqueue_piWaiters : (s.enqueue lock current).piWaiters = s.piWaiters := rfl

@[simp] theorem enqueue_blockedOn : (s.enqueue lock current).blockedOn =
    update s.blockedOn current (some lock) := rfl

@[simp] theorem enqueue_prio : (s.enqueue lock current).prio =
    update s.prio current (s.getprio current) := rfl

@[simp] theorem enqueue_listPrio : (s.enqueue lock current).listPrio =
    update s.listPrio current (s.getprio current) := by
  simp [enqueue, setBlockedOn, waitAdd, setPiPrio, setListPrio, adjustPrio]

@[simp] theorem enqueue_piPrio : (s.enqueue lock current).piPrio =
    update s.piPrio current (s.getprio current) := by
  simp [enqueue, setBlockedOn, waitAdd, setPiPrio, setListPrio, adjustPrio]

/-- The new waiter is the top waiter exactly if its priority is higher than that of the others. -/
theorem topWaiter_enqueue_iff (hlinked : Linked s) (hcurrent : s.blockedOn current = none) :
    (s.enqueue lock current).topWaiter lock = some current ↔
      WouldLead s lock current (s.getprio current) := by
  rw [topWaiter, enqueue_waitList, head?_insert, WouldLead, hlinked.erase_of_free hcurrent]
  cases hhead : (s.waitList lock).head? with
  | none => simp
  | some first =>
    have hne : first ≠ current := by
      rintro rfl
      have hblocked := (hlinked.blocked lock first).mp (List.mem_of_head? hhead)
      rw [hcurrent] at hblocked
      cases hblocked
    by_cases hless : s.getprio current < s.listPrio first
    · simp [update_of_ne hne, hless]
    · simp [hless, hne]

theorem topWaiter_enqueue_of_not_lead (hlinked : Linked s) (hcurrent : s.blockedOn current = none)
    (hlead : ¬WouldLead s lock current (s.getprio current)) :
    (s.enqueue lock current).topWaiter lock = s.topWaiter lock := by
  have hiff : (s.enqueue lock current).topWaiter lock = some current ↔
      WouldLead s lock current (s.getprio current) := topWaiter_enqueue_iff hlinked hcurrent
  rw [topWaiter, enqueue_waitList, head?_insert] at hiff ⊢
  rw [topWaiter]
  cases hhead : (s.waitList lock).head? with
  | none => simp [hhead, hlead] at hiff
  | some first =>
    rw [hhead] at hiff
    simp only at hiff ⊢
    split_ifs with hless
    · rw [if_pos hless] at hiff
      exact absurd (hiff.mp rfl) hlead
    · rfl

theorem boosted_eq_withTop (old : Task) :
    (((s.enqueue lock current).piDel owner old).piAdd owner current).adjustPrio owner =
      withTop (s.enqueue lock current) owner old current := by
  have hsame : (s.enqueue lock current).setPiPrio current = s.enqueue lock current := by
    have hprio : update (s.enqueue lock current).piPrio current
        ((s.enqueue lock current).listPrio current) = (s.enqueue lock current).piPrio := by
      simp
    rw [setPiPrio, hprio]
  have hcomm : ((s.enqueue lock current).piDel owner old).setPiPrio current =
      ((s.enqueue lock current).setPiPrio current).piDel owner old := rfl
  rw [withTop, hcomm, hsame]

end Enqueue

end KernelM5040.RtMutex
