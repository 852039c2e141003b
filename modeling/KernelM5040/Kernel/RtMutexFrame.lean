import KernelM5040.Kernel.RtMutexChain

/-!
# What a walk along the chain leaves alone

The walk visits the tasks on the chain one after another.  Nothing but the mutexes
and the lists of the visited tasks differs from the state before it.
-/

namespace KernelM5040.RtMutex

open Set PriorityList WaitGraph Relation Option

variable {Task Lock : Type} {s s' : State Task Lock} {task : Task} {depth : ℕ}

/-- The owner of the mutex that a task is blocked on. -/
def State.nextOwner (s : State Task Lock) (task : Task) : Option Task :=
  (s.blockedOn task).bind s.owner

/-- The chain of owners from a task on has at most so many tasks. -/
def State.ChainWithin (s : State Task Lock) : ℕ → Task → Prop
  | 0, _ => False
  | depth + 1, task => ∀ owner, s.nextOwner task = some owner → s.ChainWithin depth owner

theorem nextOwner_eq {lock : Lock} {owner : Task} (hblocked : s.blockedOn task = some lock)
    (howner : s.owner lock = some owner) : s.nextOwner task = some owner := by
  rw [State.nextOwner, hblocked, bind_some, howner]

theorem nextOwner_congr (hsame : SameGraph s s') : s'.nextOwner = s.nextOwner := by
  funext task
  rw [State.nextOwner, State.nextOwner, hsame.blockedOn, hsame.owner]

theorem chainWithin_mono
    (hless : ∀ task owner, s'.nextOwner task = some owner → s.nextOwner task = some owner)
    (hshort : s.ChainWithin depth task) : s'.ChainWithin depth task := by
  induction depth generalizing task with
  | zero => exact hshort
  | succ depth ih => exact fun owner hnext => ih (hshort owner (hless task owner hnext))

theorem chainWithin_of_descends (rank : Task → ℕ)
    (hless : ∀ first second, Follows s.nextOwner first second → rank second < rank first)
    (hrank : rank task < depth) : s.ChainWithin depth task := by
  induction depth generalizing task with
  | zero => omega
  | succ depth ih =>
    intro owner hnext
    have := hless task owner hnext
    exact ih (by omega)

/-- The state during the chain agrees with the state before it, but for the caller and the mutexes
of the visited tasks. -/
structure Frame (s s' : State Task Lock) (caller : Task) (visited : Set Task) : Prop where
  owner : s'.owner = s.owner
  normalPrio : s'.normalPrio = s.normalPrio
  blockedOn : ∀ task ≠ caller, s'.blockedOn task = s.blockedOn task
  waitList : ∀ lock, (∀ task ∈ visited, s.owner lock ≠ some task) →
    s'.waitList lock = s.waitList lock
  listPrio : ∀ waiter lock, s.blockedOn waiter = some lock →
    (∀ task ∈ visited, s.owner lock ≠ some task) → s'.listPrio waiter = s.listPrio waiter
  piPrio : ∀ waiter lock, s.blockedOn waiter = some lock →
    (∀ task ∈ visited, s.owner lock ≠ some task) → s'.piPrio waiter = s.piPrio waiter
  piWaiters : ∀ task ∉ visited, s'.piWaiters task = s.piWaiters task
  prio : ∀ task ∉ visited, task ≠ caller → s'.prio task = s.prio task

section Frame

variable {s s' : State Task Lock} {caller owner task : Task} {lock : Lock} {visited : Set Task}

theorem not_visited (howner : s.owner lock = some owner) (hnew : owner ∉ visited) :
    ∀ task ∈ visited, s.owner lock ≠ some task := by
  intro task htask heq
  rw [howner] at heq
  exact hnew (some.inj heq ▸ htask)

theorem Frame.refl (s : State Task Lock) (caller : Task) : Frame s s caller ∅ :=
  ⟨rfl, rfl, fun _ _ => rfl, fun _ _ => rfl, fun _ _ _ _ => rfl, fun _ _ _ _ => rfl, fun _ _ => rfl,
    fun _ _ _ => rfl⟩

theorem Frame.mono (hframe : Frame s s' caller visited) {more : Set Task} (hsub : visited ⊆ more) :
    Frame s s' caller more := by
  have hless : ∀ {lock}, (∀ task ∈ more, s.owner lock ≠ some task) →
      ∀ task ∈ visited, s.owner lock ≠ some task := fun hlock task htask => hlock task (hsub htask)
  exact ⟨hframe.owner, hframe.normalPrio, hframe.blockedOn,
    fun lock hlock => hframe.waitList lock (hless hlock),
    fun waiter lock hwaiter hlock => hframe.listPrio waiter lock hwaiter (hless hlock),
    fun waiter lock hwaiter hlock => hframe.piPrio waiter lock hwaiter (hless hlock),
    fun task htask => hframe.piWaiters task fun hold => htask (hsub hold),
    fun task htask => hframe.prio task fun hold => htask (hsub hold)⟩

theorem Frame.topWaiter (hframe : Frame s s' caller visited) (howner : s.owner lock = some owner)
    (hnew : owner ∉ visited) : s'.topWaiter lock = s.topWaiter lock := by
  rw [State.topWaiter, hframe.waitList lock (not_visited howner hnew)]
  rfl

end Frame

variable [DecidableEq Task]

section Frame

variable {s s' : State Task Lock} {caller owner task : Task} {lock : Lock} {visited : Set Task}

section

variable (hframe : Frame s s' caller visited)
include hframe

theorem Frame.wouldLead_iff (hlinked : Linked s)
    (howner : s.owner lock = some owner) (hnew : owner ∉ visited) (task : Task) (prio : ℕ) :
    WouldLead s' lock task prio ↔ WouldLead s lock task prio := by
  rw [WouldLead, WouldLead, hframe.waitList lock (not_visited howner hnew)]
  refine forall₂_congr fun other hother => ?_
  have hmem := List.mem_of_mem_erase (List.mem_of_head? hother)
  rw [hframe.listPrio other lock ((hlinked.blocked lock other).mp hmem) (not_visited howner hnew)]

theorem Frame.wouldHead_iff (hlinked : Linked s) (hnew : owner ∉ visited) (old : Task) (prio : ℕ) :
    WouldHead s' owner old prio ↔ WouldHead s owner old prio := by
  rw [WouldHead, WouldHead, hframe.piWaiters owner hnew]
  refine forall₂_congr fun other hother => ?_
  have hmem := List.mem_of_mem_erase (List.mem_of_head? hother)
  obtain ⟨lock, howner, htop⟩ := hlinked.piTop owner other hmem
  rw [hframe.piPrio other lock (hlinked.blockedOn_of_top htop) (not_visited howner hnew)]

theorem Frame.retop (hmem : owner ∈ visited) {top : Task}
    (htop : ∀ waiter other, s.blockedOn waiter = some other →
      (∀ task ∈ visited, s.owner other ≠ some task) → waiter ≠ top) (old : Task) :
    Frame s (withTop s' owner old top) caller visited :=
  { hframe with
    piPrio := by
      intro waiter other hwaiter hother
      rw [withTop_piPrio, Function.update_of_ne (htop waiter other hwaiter hother),
        hframe.piPrio waiter other hwaiter hother]
    piWaiters := by
      intro task htask
      rw [withTop_piWaiters_of_ne (ne_of_mem_of_not_mem hmem htask).symm,
        hframe.piWaiters task htask]
    prio := by
      intro task htask hcaller
      rw [withTop_prio_of_ne (ne_of_mem_of_not_mem hmem htask).symm,
        hframe.prio task htask hcaller] }

end

variable [DecidableEq Lock]

theorem Frame.requeue (hframe : Frame s s' caller visited) (howner : s.owner lock = some owner)
    (hmem : owner ∈ visited) (hblocked : s.blockedOn task = some lock) :
    Frame s (s'.requeue lock task) caller visited :=
  { hframe with
    waitList := by
      intro other hother
      rw [requeue_waitList_of_ne, hframe.waitList other hother]
      rintro rfl
      exact hother owner hmem howner
    listPrio := by
      intro waiter other hwaiter hother
      rw [requeue_listPrio, Function.update_of_ne, hframe.listPrio waiter other hwaiter hother]
      rintro rfl
      obtain rfl := some.inj (hblocked.symm.trans hwaiter)
      exact hother owner hmem howner }

theorem Frame.step (hframe : Frame s s' caller visited) (hlinked : Linked s)
    (hblocked : s.blockedOn task = some lock) (howner : s.owner lock = some owner)
    (hnew : owner ∉ visited) {result : State Task Lock × Task}
    (hstep : Step s' lock owner task result) : Frame s result.1 caller (insert owner visited) := by
  have hlist := hframe.waitList lock (not_visited howner hnew)
  have hmem := mem_insert owner visited
  have hrequeued := (hframe.mono (subset_insert owner visited)).requeue howner hmem hblocked
  have htop : ∀ {top}, s.blockedOn top = some lock → ∀ waiter other, s.blockedOn waiter = some other →
      (∀ task ∈ insert owner visited, s.owner other ≠ some task) → waiter ≠ top := by
    rintro top hlocal waiter other hwaiter hother rfl
    obtain rfl := some.inj (hwaiter.symm.trans hlocal)
    exact hother owner hmem howner
  cases hstep with
  | boost hlead => exact hrequeued.retop hmem (htop hblocked) _
  | deboost next hlead _ hnext =>
    rw [hlist] at hnext
    have hnextBlocked : s.blockedOn next = some lock :=
      (hlinked.blocked lock next).mp (List.mem_of_mem_erase (List.mem_of_head? hnext))
    exact hrequeued.retop hmem (htop hnextBlocked) _
  | same hlead _ => exact hrequeued

end Frame

end KernelM5040.RtMutex
