import KernelM5040.Kernel.RtMutexFrame

/-!
# Exact priorities along the chain

The lists are in the order of the priorities, and each task has the priority that
its list gives it.  A walk along the chain starts at a task whose own waiter may
still be queued by its old priority, and each step moves this blemish on to the
owner of the mutex.  The walk may stop where the priority did not change.
-/

namespace KernelM5040.RtMutex

open State Option Function PriorityList WaitGraph Relation

variable {Task Lock : Type} (s : State Task Lock)

/-- The list of a task holds the top waiters of its mutexes in the order of their priorities, and
its priority is the one that follows from them. -/
structure Ranked (task : Task) : Prop where
  complete : ∀ lock waiter, s.owner lock = some task → s.topWaiter lock = some waiter →
    waiter ∈ s.piWaiters task
  sorted : Sorted s.piPrio (s.piWaiters task)
  fresh : ∀ waiter ∈ s.piWaiters task, s.piPrio waiter = s.listPrio waiter
  prio : s.prio task = s.getprio task

/-- Everything is in order, but one task may be queued by another priority than its own. -/
structure ExactBut (dirty : Task) : Prop where
  sorted : ∀ lock, Sorted s.listPrio (s.waitList lock)
  ranked : ∀ task, Ranked s task
  queued : ∀ task ≠ dirty, s.blockedOn task ≠ none → s.listPrio task = s.prio task

structure Exact : Prop where
  sorted : ∀ lock, Sorted s.listPrio (s.waitList lock)
  ranked : ∀ task, Ranked s task
  queued : ∀ task, s.blockedOn task ≠ none → s.listPrio task = s.prio task

section Ranked

variable {s s' : State Task Lock} {task dirty : Task} {bound : ℕ}

theorem ExactBut.toExact (hbut : ExactBut s dirty)
    (hdirty : s.blockedOn dirty ≠ none → s.listPrio dirty = s.prio dirty) : Exact s := by
  refine ⟨hbut.sorted, hbut.ranked, fun task hblocked => ?_⟩
  by_cases htask : task = dirty
  · rw [htask] at hblocked ⊢
    exact hdirty hblocked
  · exact hbut.queued task htask hblocked

theorem Exact.but (hexact : Exact s) (dirty : Task) : ExactBut s dirty :=
  ⟨hexact.sorted, hexact.ranked, fun task _ => hexact.queued task⟩

/-- The priority of a task is the highest among its own and those of the waiters in its list. -/
theorem le_getprio_iff (hsorted : Sorted s.piPrio (s.piWaiters task)) :
    bound ≤ s.getprio task ↔
      bound ≤ s.normalPrio task ∧ ∀ waiter ∈ s.piWaiters task, bound ≤ s.piPrio waiter := by
  rw [getprio, topPiWaiter]
  cases hhead : (s.piWaiters task).head? with
  | none => simp [List.head?_eq_none_iff.mp hhead]
  | some first =>
    simp only [le_min_iff]
    constructor
    · rintro ⟨hfirst, hnormal⟩
      exact ⟨hnormal, fun waiter hwaiter =>
        hfirst.trans (hsorted.le_of_head? hhead hwaiter)⟩
    · rintro ⟨hnormal, hall⟩
      exact ⟨hall first (List.mem_of_head? hhead), hnormal⟩

theorem Ranked.le_prio_iff (hranked : Ranked s task) :
    bound ≤ s.prio task ↔
      bound ≤ s.normalPrio task ∧ ∀ waiter ∈ s.piWaiters task, bound ≤ s.piPrio waiter := by
  rw [hranked.prio, le_getprio_iff hranked.sorted]

theorem getprio_congr (hpi : s'.piWaiters task = s.piWaiters task)
    (hnormal : s'.normalPrio task = s.normalPrio task)
    (hkeys : ∀ waiter ∈ s.piWaiters task, s'.piPrio waiter = s.piPrio waiter) :
    s'.getprio task = s.getprio task := by
  rw [getprio, getprio, topPiWaiter, topPiWaiter, hpi, hnormal]
  cases hhead : (s.piWaiters task).head? with
  | none => rfl
  | some first =>
    simp only
    rw [hkeys first (List.mem_of_head? hhead)]

theorem Ranked.congr (hranked : Ranked s task) (hpi : s'.piWaiters task = s.piWaiters task)
    (hnormal : s'.normalPrio task = s.normalPrio task) (hprio : s'.prio task = s.prio task)
    (hkeys : ∀ waiter ∈ s.piWaiters task,
      s'.piPrio waiter = s.piPrio waiter ∧ s'.listPrio waiter = s.listPrio waiter)
    (htop : ∀ lock waiter, s'.owner lock = some task → s'.topWaiter lock = some waiter →
      s.owner lock = some task ∧ s.topWaiter lock = some waiter) : Ranked s' task := by
  constructor
  · intro lock waiter howner hfirst
    obtain ⟨howner', hfirst'⟩ := htop lock waiter howner hfirst
    rw [hpi]
    exact hranked.complete lock waiter howner' hfirst'
  · rw [hpi]
    exact hranked.sorted.congr fun waiter hwaiter => (hkeys waiter hwaiter).1
  · intro waiter hwaiter
    rw [hpi] at hwaiter
    rw [(hkeys waiter hwaiter).1, (hkeys waiter hwaiter).2, hranked.fresh waiter hwaiter]
  · rw [hprio, hranked.prio, getprio_congr hpi hnormal fun waiter hwaiter =>
      (hkeys waiter hwaiter).1]

end Ranked

variable [DecidableEq Task]

/-! ## Tasks further down the chain -/

/-- The priority of the top waiter once the one that was on top has this priority. -/
def State.nextKey (lock : Lock) (waiter : Task) (prio : ℕ) : ℕ :=
  least s.listPrio prio ((s.waitList lock).erase waiter)

/-- The priority that the owner then gets. -/
def State.nextPrio (lock : Lock) (owner waiter : Task) (prio : ℕ) : ℕ :=
  least s.piPrio (min (s.normalPrio owner) (s.nextKey lock waiter prio))
    ((s.piWaiters owner).erase waiter)

/-- The owner of a mutex is blocked itself, and its priority changes when the top waiter of the
mutex has this one. -/
structure Passes (lock : Lock) (owner waiter : Task) (prio : ℕ) : Prop where
  blocked : s.blockedOn waiter = some lock
  owned : s.owner lock = some owner
  top : s.topWaiter lock = some waiter
  queued : s.blockedOn owner ≠ none
  changes : s.nextPrio lock owner waiter prio ≠ s.prio owner

/-- The walk that lowers the priority of a task to this one goes on as long as priorities change:
the top waiter of the mutex then comes first in the list of the owner. -/
inductive Carried (s : State Task Lock) : Task → ℕ → Prop
  | intro {waiter : Task} {prio : ℕ}
      (hlead : ∀ lock owner, Passes s lock owner waiter prio →
        ∀ other ∈ (s.piWaiters owner).erase waiter, s.nextKey lock waiter prio < s.piPrio other)
      (hnext : ∀ lock owner, Passes s lock owner waiter prio →
        Carried s owner (s.nextPrio lock owner waiter prio)) : Carried s waiter prio

/-- Two states agree on the mutex that a task is blocked on and on the owner of this mutex. -/
structure Agree (s s' : State Task Lock) (waiter : Task) (lock : Lock) (owner : Task) : Prop where
  blocked : s.blockedOn waiter = some lock
  owned : s.owner lock = some owner
  waitList : s'.waitList lock = s.waitList lock
  listPrio : ∀ other ∈ s.waitList lock, s'.listPrio other = s.listPrio other
  piWaiters : s'.piWaiters owner = s.piWaiters owner
  piPrio : ∀ other ∈ s.piWaiters owner, s'.piPrio other = s.piPrio other
  normalPrio : s'.normalPrio owner = s.normalPrio owner
  prio : s'.prio owner = s.prio owner
  blockedOn : s'.blockedOn owner = s.blockedOn owner

section Carried

variable {s s' : State Task Lock} {caller owner task : Task} {lock : Lock} {prio : ℕ}

section

variable (hagree : Agree s s' task lock owner)
include hagree

theorem Agree.nextKey_eq : s'.nextKey lock task prio = s.nextKey lock task prio := by
  rw [nextKey, nextKey, hagree.waitList]
  exact least_congr fun other hother => hagree.listPrio other (List.mem_of_mem_erase hother)

theorem Agree.nextPrio_eq : s'.nextPrio lock owner task prio = s.nextPrio lock owner task prio := by
  rw [nextPrio, nextPrio, hagree.nextKey_eq, hagree.normalPrio, hagree.piWaiters]
  exact least_congr fun other hother => hagree.piPrio other (List.mem_of_mem_erase hother)

theorem Agree.passes (hpasses : Passes s' lock owner task prio) :
    Passes s lock owner task prio := by
  obtain ⟨-, -, htop, hqueued, hchanges⟩ := hpasses
  rw [topWaiter, hagree.waitList] at htop
  rw [hagree.blockedOn] at hqueued
  rw [hagree.nextPrio_eq, hagree.prio] at hchanges
  exact ⟨hagree.blocked, hagree.owned, htop, hqueued, hchanges⟩

end

theorem Carried.congr (hcarried : Carried s task prio)
    (hagree : ∀ other lock owner, ReflTransGen (Follows s.nextOwner) task other →
      s'.blockedOn other = some lock → s'.owner lock = some owner → Agree s s' other lock owner) :
    Carried s' task prio := by
  induction hcarried with
  | @intro waiter prio hlead hnext ih =>
    have hhere := fun lock owner => hagree waiter lock owner .refl
    constructor
    · intro lock owner hpasses other hother
      have hsame := hhere lock owner hpasses.blocked hpasses.owned
      rw [hsame.piWaiters] at hother
      rw [hsame.nextKey_eq, hsame.piPrio other (List.mem_of_mem_erase hother)]
      exact hlead lock owner (hsame.passes hpasses) other hother
    · intro lock owner hpasses
      have hsame := hhere lock owner hpasses.blocked hpasses.owned
      rw [hsame.nextPrio_eq]
      refine ih lock owner (hsame.passes hpasses) fun other lock' owner' hother => ?_
      exact hagree other lock' owner' (.head (nextOwner_eq hsame.blocked hsame.owned) hother)

theorem Carried.frame {visited : Set Task} (hcarried : Carried s owner prio) (hlinked : Linked s)
    (hacyclic : Acyclic (Follows s.nextOwner)) (hframe : Frame s s' caller visited)
    (hvisited : ∀ other ∈ visited, other = owner) (hcaller : s.nextOwner caller = some owner) :
    Carried s' owner prio := by
  refine hcarried.congr fun task lock next hreach hblocked hnext => ?_
  have htask : task ≠ caller := by
    rintro rfl
    exact hacyclic task (TransGen.head' hcaller hreach)
  rw [hframe.blockedOn task htask] at hblocked
  rw [hframe.owner] at hnext
  have hedge : Follows s.nextOwner task next := nextOwner_eq hblocked hnext
  have hnew : next ∉ visited := by
    intro hold
    rw [hvisited next hold] at hedge
    exact hacyclic owner (TransGen.tail' hreach hedge)
  have hne : next ≠ caller := by
    rintro rfl
    exact hacyclic next (TransGen.head' hcaller (hreach.tail hedge))
  refine ⟨hblocked, hnext, hframe.waitList lock (not_visited hnext hnew), fun other hother => ?_,
    hframe.piWaiters next hnew, fun other hother => ?_, congrFun hframe.normalPrio next,
    hframe.prio next hnew hne, hframe.blockedOn next hne⟩
  · exact hframe.listPrio other lock ((hlinked.blocked lock other).mp hother)
      (not_visited hnext hnew)
  · obtain ⟨lock', howner', htop'⟩ := hlinked.piTop next other hother
    exact hframe.piPrio other lock' (hlinked.blockedOn_of_top htop') (not_visited howner' hnew)

end Carried

section WithTop

variable {s base : State Task Lock} {owner old top : Task} {bound : ℕ}

/-- The other waiters in the list of the owner keep their priorities. -/
def KeepsRest (s base : State Task Lock) (owner old top : Task) : Prop :=
  ∀ waiter ∈ (s.piWaiters owner).erase old, waiter ≠ top ∧
    base.piPrio waiter = s.piPrio waiter ∧ base.listPrio waiter = s.listPrio waiter

theorem KeepsRest.sorted (hrest : KeepsRest s base owner old top) (hranked : Ranked s owner)
    (hpi : base.piWaiters owner = s.piWaiters owner) :
    Sorted (withTop base owner old top).piPrio ((withTop base owner old top).piWaiters owner) := by
  rw [withTop_piWaiters, withTop_piPrio, hpi]
  apply Sorted.insert
  refine (hranked.sorted.erase old).congr fun waiter hwaiter => ?_
  obtain ⟨hne, hkey, -⟩ := hrest waiter hwaiter
  rw [update_of_ne hne, hkey]

theorem Ranked.withTop (hranked : Ranked s owner) (hpi : base.piWaiters owner = s.piWaiters owner)
    (hrest : KeepsRest s base owner old top)
    (htop : ∀ lock waiter, base.owner lock = some owner → base.topWaiter lock = some waiter →
      waiter = top ∨ waiter ∈ (s.piWaiters owner).erase old) :
    Ranked (withTop base owner old top) owner := by
  constructor
  · intro lock waiter howner hfirst
    rw [withTop_piWaiters, hpi, mem_insert]
    exact htop lock waiter howner hfirst
  · exact hrest.sorted hranked hpi
  · intro waiter hwaiter
    rw [withTop_piWaiters, hpi, mem_insert] at hwaiter
    rw [withTop_piPrio, withTop_listPrio]
    rcases hwaiter with rfl | hold
    · rw [update_self]
    · obtain ⟨hne, hkey, hlist⟩ := hrest waiter hold
      rw [update_of_ne hne, hkey, hlist, hranked.fresh waiter (List.mem_of_mem_erase hold)]
  · exact withTop_prio

section

variable (hranked : Ranked s owner) (hrest : KeepsRest s base owner old top)
  (hpi : base.piWaiters owner = s.piWaiters owner)
include hranked hrest hpi

theorem le_prio_withTop_iff :
    bound ≤ (withTop base owner old top).prio owner ↔
      bound ≤ base.normalPrio owner ∧ bound ≤ base.listPrio top ∧
        ∀ waiter ∈ (s.piWaiters owner).erase old, bound ≤ s.piPrio waiter := by
  rw [withTop_prio, le_getprio_iff (hrest.sorted hranked hpi), withTop_piWaiters, hpi,
    withTop_normalPrio, withTop_piPrio]
  simp only [mem_insert, or_imp, forall_and, forall_eq, update_self]
  refine and_congr_right fun _ => and_congr_right fun _ => forall₂_congr fun waiter hwaiter => ?_
  obtain ⟨hne, hkey, -⟩ := hrest waiter hwaiter
  rw [update_of_ne hne, hkey]

/-- A top waiter of a higher priority does not lower the priority of the owner. -/
theorem prio_withTop_le (hnormal : base.normalPrio owner = s.normalPrio owner)
    (hhigher : old ∈ s.piWaiters owner → base.listPrio top ≤ s.piPrio old) :
    (withTop base owner old top).prio owner ≤ s.prio owner := by
  obtain ⟨hle, htop, hall⟩ := (le_prio_withTop_iff hranked hrest hpi).mp le_rfl
  rw [hranked.le_prio_iff]
  refine ⟨hnormal ▸ hle, fun waiter hwaiter => ?_⟩
  by_cases heq : waiter = old
  · rw [heq] at hwaiter ⊢
    exact htop.trans (hhigher hwaiter)
  · exact hall waiter ((List.mem_erase_of_ne heq).mpr hwaiter)

theorem le_prio_withTop (hnormal : base.normalPrio owner = s.normalPrio owner)
    (hlower : s.prio owner ≤ base.listPrio top) :
    s.prio owner ≤ (withTop base owner old top).prio owner := by
  obtain ⟨hle, hall⟩ := hranked.le_prio_iff.mp le_rfl
  rw [le_prio_withTop_iff hranked hrest hpi, hnormal]
  exact ⟨hle, hlower, fun waiter hwaiter => hall waiter (List.mem_of_mem_erase hwaiter)⟩

end

/-- Where the new top waiter is not first, the first one has at least its priority. -/
theorem exists_ahead (hrest : KeepsRest s base owner old top)
    (hpi : base.piWaiters owner = s.piWaiters owner)
    (hother : (withTop base owner old top).topPiWaiter owner ≠ some top) :
    ∃ first ∈ (s.piWaiters owner).erase old, s.piPrio first ≤ base.listPrio top := by
  rw [topPiWaiter, withTop_piWaiters, head?_insert, hpi] at hother
  cases hhead : ((s.piWaiters owner).erase old).head? with
  | none => simp [hhead] at hother
  | some first =>
    have hmem := List.mem_of_head? hhead
    obtain ⟨hne, hkey, -⟩ := hrest first hmem
    simp only [hhead, update_self, update_of_ne hne, hkey] at hother
    refine ⟨first, hmem, ?_⟩
    by_contra hless
    rw [if_pos (not_le.mp hless)] at hother
    exact hother rfl

end WithTop

variable [DecidableEq Lock]

section Step

variable {s : State Task Lock} {lock : Lock} {owner waiter old top : Task}
  {result : State Task Lock × Task} (hlinked : Linked s) (hblocked : s.blockedOn waiter = some lock)
include hlinked hblocked

theorem sorted_requeue (hsorted : ∀ lock, Sorted s.listPrio (s.waitList lock)) (other : Lock) :
    Sorted (s.requeue lock waiter).listPrio ((s.requeue lock waiter).waitList other) := by
  rw [requeue_listPrio]
  by_cases hother : other = lock
  · rw [hother, requeue_waitList, requeued]
    apply Sorted.insert
    refine ((hsorted lock).erase waiter).congr fun task htask => ?_
    rw [update_of_ne]
    rintro rfl
    exact (hlinked.nodup lock).not_mem_erase htask
  · rw [requeue_waitList_of_ne hother]
    refine (hsorted other).congr fun task htask => ?_
    rw [update_of_ne]
    rintro rfl
    rw [hlinked.blocked, hblocked] at htask
    exact hother (some.inj htask).symm

/-- A step puts a new top waiter into the list of the owner or leaves the top waiter alone. -/
theorem Step.retop_or_same (hstep : Step s lock owner waiter result) :
    (∃ old top, s.topWaiter lock = some old ∧ (s.requeue lock waiter).topWaiter lock = some top ∧
        result = (withTop (s.requeue lock waiter) owner old top, top)) ∨
      (s.topWaiter lock ≠ some waiter ∧ (s.requeue lock waiter).topWaiter lock = s.topWaiter lock ∧
        result = (s.requeue lock waiter, waiter)) := by
  have hnodup := hlinked.nodup lock
  cases hstep with
  | boost hlead =>
    obtain ⟨old, hold⟩ := hlinked.exists_top hblocked
    refine Or.inl ⟨old, waiter, hold, topWaiter_requeue_of_lead hnodup hlead, ?_⟩
    rw [hold, getD_some]
  | deboost next hlead htop hnext =>
    obtain ⟨next', hnext', -, -, hnew⟩ := topWaiter_requeue_of_not_lead hnodup hlead
    obtain rfl : next = next' := some.inj (hnext.symm.trans hnext')
    exact Or.inl ⟨waiter, next, htop, hnew, rfl⟩
  | same hlead htop =>
    exact Or.inr ⟨htop, topWaiter_requeue_same hnodup hlead htop, rfl⟩

theorem blockedOn_of_top_requeue
    (hnew : (s.requeue lock waiter).topWaiter lock = some top) : s.blockedOn top = some lock := by
  have hmem := List.mem_of_head? hnew
  rw [requeue_waitList, mem_requeued ((hlinked.blocked lock waiter).mpr hblocked)] at hmem
  exact (hlinked.blocked lock top).mp hmem

theorem keepsRest_requeue (hold : s.topWaiter lock = some old)
    (hnew : (s.requeue lock waiter).topWaiter lock = some top) (owner : Task) :
    KeepsRest s (s.requeue lock waiter) owner old top := by
  intro other hother
  have hne : ∀ task, s.blockedOn task = some lock → other ≠ task := by
    rintro task htask rfl
    exact hlinked.fresh htask hold owner hother
  refine ⟨hne top (blockedOn_of_top_requeue hlinked hblocked hnew), rfl, ?_⟩
  rw [requeue_listPrio, update_of_ne (hne waiter hblocked)]

theorem ExactBut.retop (hbut : ExactBut s waiter) (howner : s.owner lock = some owner)
    (hold : s.topWaiter lock = some old)
    (hnew : (s.requeue lock waiter).topWaiter lock = some top) :
    ExactBut (withTop (s.requeue lock waiter) owner old top) owner := by
  have htopBlocked := blockedOn_of_top_requeue hlinked hblocked hnew
  have hothers : ∀ other found, other ≠ lock →
      (s.requeue lock waiter).topWaiter other = some found → s.topWaiter other = some found := by
    intro other found hother hfound
    rwa [topWaiter, requeue_waitList_of_ne hother] at hfound
  refine ⟨sorted_requeue hlinked hblocked hbut.sorted, fun task => ?_, ?_⟩
  · by_cases htask : task = owner
    · subst htask
      refine (hbut.ranked task).withTop rfl (keepsRest_requeue hlinked hblocked hold hnew task) ?_
      intro other found hfound hfirst
      by_cases hother : other = lock
      · subst hother
        exact Or.inl (some.inj (hfirst.symm.trans hnew))
      have hfirst' := hothers other found hother hfirst
      refine Or.inr ((List.mem_erase_of_ne ?_).mpr
        ((hbut.ranked task).complete other found hfound hfirst'))
      rintro rfl
      exact hother (hlinked.top_unique hfirst' hold)
    · -- the waiters of another task wait for other mutexes
      have hne : ∀ found ∈ s.piWaiters task, ∀ local', s.blockedOn local' = some lock →
          found ≠ local' := by
        rintro found hfound local' hlocal rfl
        have := (hlinked.mem_piWaiters hfound hlocal).1
        rw [howner] at this
        exact htask (some.inj this).symm
      refine (hbut.ranked task).congr (withTop_piWaiters_of_ne htask) rfl
        (withTop_prio_of_ne htask) ?_ ?_
      · intro found hfound
        rw [withTop_piPrio, withTop_listPrio, requeue_listPrio, requeue_piPrio,
          update_of_ne (hne found hfound top htopBlocked),
          update_of_ne (hne found hfound waiter hblocked)]
        exact ⟨rfl, rfl⟩
      · intro other found hfound hfirst
        refine ⟨hfound, hothers other found ?_ hfirst⟩
        rintro rfl
        exact htask (some.inj (hfound.symm.trans howner))
  · intro task htask htaskBlocked
    rw [withTop_listPrio, withTop_prio_of_ne htask, requeue_listPrio, requeue_prio]
    rw [update_apply]
    split_ifs with heq
    · rw [heq]
    · exact hbut.queued task heq htaskBlocked

theorem ExactBut.same (hbut : ExactBut s waiter) (htop : s.topWaiter lock ≠ some waiter)
    (hsame : (s.requeue lock waiter).topWaiter lock = s.topWaiter lock) :
    Exact (s.requeue lock waiter) := by
  refine ⟨sorted_requeue hlinked hblocked hbut.sorted, fun task => ?_, ?_⟩
  · refine (hbut.ranked task).congr rfl rfl rfl ?_ ?_
    · intro found hfound
      rw [requeue_piPrio, requeue_listPrio, update_of_ne]
      · exact ⟨rfl, rfl⟩
      · rintro rfl
        exact hlinked.not_mem_piWaiters_of_not_top hblocked htop task hfound
    · intro other found hfound hfirst
      refine ⟨hfound, ?_⟩
      by_cases hother : other = lock
      · rw [hother] at hfirst ⊢
        rwa [hsame] at hfirst
      · rwa [topWaiter, requeue_waitList_of_ne hother] at hfirst
  · intro task htaskBlocked
    rw [requeue_listPrio, requeue_prio]
    rw [update_apply]
    split_ifs with heq
    · rw [heq]
    · exact hbut.queued task heq htaskBlocked

theorem ExactBut.step (hbut : ExactBut s waiter) (howner : s.owner lock = some owner)
    (hstep : Step s lock owner waiter result) : ExactBut result.1 owner := by
  rcases hstep.retop_or_same hlinked hblocked with
    ⟨old, top, hold, hnew, rfl⟩ | ⟨htop, hsame, rfl⟩
  · exact hbut.retop hlinked hblocked howner hold hnew
  · exact (hbut.same hlinked hblocked htop hsame).but owner

/-! How the priority of the owner changes. -/

theorem top_requeue_le (hsorted : ∀ lock, Sorted s.listPrio (s.waitList lock))
    (hold : s.topWaiter lock = some old)
    (hnew : (s.requeue lock waiter).topWaiter lock = some top) :
    (s.requeue lock waiter).listPrio top ≤ (s.requeue lock waiter).listPrio old := by
  refine (sorted_requeue hlinked hblocked hsorted lock).le_of_head? hnew ?_
  rw [requeue_waitList, mem_requeued ((hlinked.blocked lock waiter).mpr hblocked)]
  exact List.mem_of_head? hold

theorem ExactBut.step_boost (hbut : ExactBut s waiter) (hhigher : s.prio waiter ≤ s.listPrio waiter)
    (hstep : Step s lock owner waiter result) :
    result.1.prio owner ≤ s.prio owner ∧
      (result.1.topPiWaiter owner ≠ result.1.topWaiter lock →
        s.prio owner ≤ result.1.prio owner) := by
  rcases hstep.retop_or_same hlinked hblocked with
    ⟨old, top, hold, hnew, rfl⟩ | ⟨htop, hsame, rfl⟩
  · have hrest := keepsRest_requeue hlinked hblocked hold hnew owner
    have hkey : (s.requeue lock waiter).listPrio top ≤ s.listPrio old := by
      refine (top_requeue_le hlinked hblocked hbut.sorted hold hnew).trans ?_
      rw [requeue_listPrio]
      by_cases heq : old = waiter
      · rw [heq, update_self]
        exact hhigher
      · rw [update_of_ne heq]
    constructor
    · refine prio_withTop_le (hbut.ranked owner) hrest rfl rfl fun hmem => ?_
      rw [(hbut.ranked owner).fresh old hmem]
      exact hkey
    · intro hother
      rw [withTop_topWaiter, hnew] at hother
      obtain ⟨first, hfirst, hahead⟩ := exists_ahead hrest rfl hother
      refine le_prio_withTop (hbut.ranked owner) hrest rfl rfl (le_trans ?_ hahead)
      exact ((hbut.ranked owner).le_prio_iff.mp le_rfl).2 first (List.mem_of_mem_erase hfirst)
  · exact ⟨le_rfl, fun _ => le_rfl⟩

/-- The top waiter is the best of the others and the one that is queued again. -/
theorem listPrio_top_requeue (hsorted : ∀ lock, Sorted s.listPrio (s.waitList lock))
    (hnew : (s.requeue lock waiter).topWaiter lock = some top) :
    (s.requeue lock waiter).listPrio top = s.nextKey lock waiter (s.prio waiter) := by
  have hsorted' := sorted_requeue hlinked hblocked hsorted lock
  have hrest : ∀ other ∈ (s.waitList lock).erase waiter,
      (s.requeue lock waiter).listPrio other = s.listPrio other := by
    intro other hother
    rw [requeue_listPrio, update_of_ne]
    rintro rfl
    exact (hlinked.nodup lock).not_mem_erase hother
  refine eq_of_forall_le_iff fun bound => ?_
  rw [nextKey, le_least_iff]
  have hmem := List.mem_of_head? hnew
  rw [requeue_waitList, requeued, mem_insert] at hmem
  constructor
  · intro hbound
    have hall : ∀ other ∈ (s.requeue lock waiter).waitList lock,
        bound ≤ (s.requeue lock waiter).listPrio other :=
      fun other hother => hbound.trans (hsorted'.le_of_head? hnew hother)
    rw [requeue_waitList, requeued] at hall
    refine ⟨?_, fun other hother => hrest other hother ▸ hall other (mem_insert.mpr (Or.inr hother))⟩
    have hwaiter := hall waiter (mem_insert.mpr (Or.inl rfl))
    rwa [requeue_listPrio, update_self] at hwaiter
  · rintro ⟨hwaiter, hall⟩
    rcases hmem with rfl | hother
    · rwa [requeue_listPrio, update_self]
    · rw [hrest top hother]
      exact hall top hother

theorem ExactBut.step_deboost (hbut : ExactBut s waiter) (howner : s.owner lock = some owner)
    (hlower : s.listPrio waiter ≤ s.prio waiter) (hstep : Step s lock owner waiter result) :
    s.prio owner ≤ result.1.prio owner ∧
      (s.topWaiter lock ≠ some waiter → result.1.prio owner ≤ s.prio owner) ∧
      (s.topWaiter lock = some waiter →
        result.1.prio owner = s.nextPrio lock owner waiter (s.prio waiter) ∧
        (result.1.topPiWaiter owner ≠ result.1.topWaiter lock →
          ∃ other ∈ (s.piWaiters owner).erase waiter,
            s.piPrio other ≤ s.nextKey lock waiter (s.prio waiter))) := by
  rcases hstep.retop_or_same hlinked hblocked with
    ⟨old, top, hold, hnew, rfl⟩ | ⟨htop, hsame, rfl⟩
  · have hrest := keepsRest_requeue hlinked hblocked hold hnew owner
    have hranked := hbut.ranked owner
    have hmem : old ∈ s.piWaiters owner := hranked.complete lock old howner hold
    have hfresh := hranked.fresh old hmem
    have hkey := listPrio_top_requeue hlinked hblocked hbut.sorted hnew
    refine ⟨?_, fun hother => ?_, fun hfirst => ?_⟩
    · apply le_prio_withTop hranked hrest rfl rfl
      have hwaiter : top ∈ s.waitList lock :=
        (hlinked.blocked lock top).mpr (blockedOn_of_top_requeue hlinked hblocked hnew)
      calc s.prio owner ≤ s.piPrio old := (hranked.le_prio_iff.mp le_rfl).2 old hmem
        _ = s.listPrio old := hfresh
        _ ≤ s.listPrio top := (hbut.sorted lock).le_of_head? hold hwaiter
        _ ≤ (s.requeue lock waiter).listPrio top := by
          rw [requeue_listPrio]
          by_cases heq : top = waiter
          · rw [heq, update_self]
            exact hlower
          · rw [update_of_ne heq]
    · have heq : old ≠ waiter := fun heq => hother (heq ▸ hold)
      refine prio_withTop_le hranked hrest rfl rfl fun _ => ?_
      have := top_requeue_le hlinked hblocked hbut.sorted hold hnew
      rwa [requeue_listPrio (s := s), update_of_ne heq, ← hfresh] at this
    · obtain rfl : old = waiter := some.inj (hold.symm.trans hfirst)
      constructor
      · refine eq_of_forall_le_iff fun bound => ?_
        rw [le_prio_withTop_iff hranked hrest rfl, hkey, nextPrio, le_least_iff, le_min_iff,
          and_assoc]
        rfl
      · intro hother
        rw [withTop_topWaiter, hnew] at hother
        rw [← hkey]
        exact exists_ahead hrest rfl hother
  · exact ⟨le_rfl, fun _ => le_rfl, fun hfirst => absurd hfirst htop⟩

end Step

section Walk

variable {s s' : State Task Lock} {lock : Lock} {caller owner task : Task}

/-- The priority of the first task has risen, or it has fallen and the walk is not cut off. -/
def Walkable (s : State Task Lock) (task : Task) : Prop :=
  s.prio task ≤ s.listPrio task ∨ s.listPrio task ≤ s.prio task ∧ Carried s task (s.prio task)

/-- A step leads to the same situation at the owner, who need not be visited if it stops being the
first reason for the owner's priority. -/
theorem ExactBut.walkable_step (hbut : ExactBut s task) (hlinked : Linked s)
    (hacyclic : Acyclic (Follows s.nextOwner)) (hblocked : s.blockedOn task = some lock)
    (howner : s.owner lock = some owner) (howned : s.blockedOn owner ≠ none)
    (hwalkable : Walkable s task) {result : State Task Lock × Task}
    (hstep : Step s lock owner task result) :
    Walkable result.1 owner ∧
      (result.1.topPiWaiter owner ≠ result.1.topWaiter lock →
        result.1.listPrio owner = result.1.prio owner) := by
  have hedge : s.nextOwner task = some owner := nextOwner_eq hblocked howner
  have hne : owner ≠ task := by
    rintro rfl
    exact hacyclic owner (.single hedge)
  have hkeep : result.1.listPrio owner = s.prio owner := by
    rw [← hbut.queued owner hne howned]
    rcases hstep.retop_or_same hlinked hblocked with ⟨old, top, -, -, rfl⟩ | ⟨-, -, rfl⟩
    · simp only
      rw [withTop_listPrio, requeue_listPrio, update_of_ne hne]
    · simp only
      rw [requeue_listPrio, update_of_ne hne]
  rw [Walkable, hkeep]
  rcases hwalkable with hhigher | ⟨hlower, hlead, hnext⟩
  · obtain ⟨hle, hexit⟩ := hbut.step_boost hlinked hblocked hhigher hstep
    exact ⟨Or.inl hle, fun hother => le_antisymm (hexit hother) hle⟩
  obtain ⟨hle, hbehind, hfirst⟩ := hbut.step_deboost hlinked hblocked howner hlower hstep
  by_cases hsame : result.1.prio owner = s.prio owner
  · exact ⟨Or.inl hsame.le, fun _ => hsame.symm⟩
  have htop : s.topWaiter lock = some task := by
    by_contra hother
    exact hsame (le_antisymm (hbehind hother) hle)
  obtain ⟨hprio, hcut⟩ := hfirst htop
  have hpasses : Passes s lock owner task (s.prio task) :=
    ⟨hblocked, howner, htop, howned, hprio ▸ hsame⟩
  refine ⟨Or.inr ⟨hle, ?_⟩, fun hother => ?_⟩
  · have hframe := (Frame.refl s task).step hlinked hblocked howner (Set.notMem_empty owner) hstep
    rw [hprio]
    refine (hnext lock owner hpasses).frame hlinked hacyclic hframe (fun visited hvisited => ?_) hedge
    exact (Set.mem_insert_iff.mp hvisited).resolve_right (Set.notMem_empty visited)
  · obtain ⟨other, hmem, hkey⟩ := hcut hother
    exact absurd hkey (not_le.mpr (hlead lock owner hpasses other hmem))

/-- A walk that is not cut off by its depth or a cycle restores the order and returns 0. -/
theorem ExactBut.adjustPrioChain {detect : Bool} {origLock : Option Lock}
    {origWaiter : Option Task} {topTask : Task} {depth : ℕ} {topWaiter : Option Task}
    (hbut : ExactBut s task) (hlinked : Linked s) (hacyclic : Acyclic (Follows s.nextOwner))
    (hshort : s.ChainWithin depth task)
    (howned : ∀ waiter lock, s.blockedOn waiter = some lock → s.owner lock ≠ none)
    (horigWaiter : ∀ waiter ∈ origWaiter, s.blockedOn waiter ≠ none)
    (hsafe : ∀ other lock, ReflTransGen (Follows s.nextOwner) task other →
      s.blockedOn other = some lock → origLock ≠ some lock ∧ s.owner lock ≠ some topTask)
    (hwalkable : s.blockedOn task ≠ none → Walkable s task)
    (hexit : s.blockedOn task ≠ none → topWaiter ≠ none → s.topPiWaiter task ≠ topWaiter →
      s.listPrio task = s.prio task) :
    Exact (adjustPrioChain detect origLock origWaiter topTask depth s task topWaiter).1 ∧
      (adjustPrioChain detect origLock origWaiter topTask depth s task topWaiter).2 = .ok := by
  induction depth generalizing s task topWaiter with
  | zero => exact hshort.elim
  | succ depth ih =>
    rw [adjustPrioChain]
    cases hblocked : s.blockedOn task with
    | none => exact ⟨hbut.toExact fun hne => absurd hblocked hne, rfl⟩
    | some lock =>
      have hne : s.blockedOn task ≠ none := by
        rw [hblocked]
        exact some_ne_none lock
      obtain ⟨owner, howner⟩ := ne_none_iff_exists'.mp (howned task lock hblocked)
      obtain ⟨horigLock, htopTask⟩ := hsafe task lock .refl hblocked
      have hedge : Follows s.nextOwner task owner := nextOwner_eq hblocked howner
      have hstep := @step_adjustOwner _ _ _ _ s lock task (hlinked.nodup lock) owner
      have hgraph := hstep.sameGraph
      have hnext := nextOwner_congr hgraph
      simp only
      split_ifs with horig hcut hsame hcycle
      · obtain ⟨waiter, hwaiter, hfree⟩ := map_eq_some_iff.mp horig
        exact absurd hfree (horigWaiter waiter hwaiter)
      · exact ⟨hbut.toExact fun _ => hexit hne hcut.1 hcut.2, rfl⟩
      · exact ⟨hbut.toExact fun _ => hsame.2, rfl⟩
      · rcases hcycle with hcycle | hcycle
        · exact absurd hcycle horigLock
        · exact absurd hcycle htopTask
      rw [howner]
      simp only
      generalize (s.requeue lock task).adjustOwner lock owner task (s.topWaiter lock) = result
        at hstep hgraph hnext ⊢
      split_ifs with hstop
      · -- the top waiter of the mutex stays, so the owner keeps its priority
        rcases hstep.retop_or_same hlinked hblocked with
          ⟨old, top, -, hnew, rfl⟩ | ⟨htop, hkept, rfl⟩
        · exact absurd hnew hstop.2
        · exact ⟨hbut.same hlinked hblocked htop hkept, rfl⟩
      have hwalk := fun hblockedOwner => hbut.walkable_step hlinked hacyclic hblocked howner
        hblockedOwner (hwalkable hne) hstep
      apply ih (hbut.step hlinked hblocked howner hstep) (hlinked.step hblocked howner hstep)
      · rw [hnext]
        exact hacyclic
      · refine chainWithin_mono (fun task owner hfollows => ?_) (hshort owner hedge)
        rwa [hnext] at hfollows
      · rw [hgraph.blockedOn, hgraph.owner]
        exact howned
      · rw [hgraph.blockedOn]
        exact horigWaiter
      · rw [hnext, hgraph.blockedOn, hgraph.owner]
        exact fun other lock' hother => hsafe other lock' (.head hedge hother)
      · rw [hgraph.blockedOn]
        exact fun hblockedOwner => (hwalk hblockedOwner).1
      · rw [hgraph.blockedOn]
        exact fun hblockedOwner _ => (hwalk hblockedOwner).2

end Walk

end KernelM5040.RtMutex
