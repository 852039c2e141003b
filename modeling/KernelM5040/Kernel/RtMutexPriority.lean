import KernelM5040.Kernel.RtMutexInherit

/-!
# Priority inheritance over whole runs

The operations of a run keep the wait graph acyclic and its chains short.  The
conditions under which an operation does no harm are about the state before it.
-/

namespace KernelM5040.RtMutex

open State Option Function PriorityList WaitGraph Relation

variable {Task Lock : Type} {normalPrio : ℕ} {task : Task}

/-- The wait graph has no cycle, and its chains are not longer than `max_lock_depth`. -/
structure Shallow (maxLockDepth : ℕ) (s : State Task Lock) : Prop where
  acyclic : Acyclic (Follows s.nextOwner)
  within : ∀ task, s.ChainWithin maxLockDepth task

theorem exact_initial (normalPrio : Task → ℕ) : Exact (initial normalPrio : State Task Lock) := by
  refine ⟨fun _ => List.Pairwise.nil, fun task => ?_, fun task hblocked => absurd rfl hblocked⟩
  refine ⟨?_, List.Pairwise.nil, ?_, rfl⟩
  · intro lock waiter howner
    cases howner
  · intro waiter hwaiter
    cases hwaiter

section Fields

variable {s : State Task Lock} [DecidableEq Task]

theorem Exact.setWaiting (hexact : Exact s) (task : Task) (call : Option (Lock × Bool)) :
    Exact (s.setWaiting task call) :=
  ⟨hexact.sorted, fun other => (hexact.ranked other).congr rfl rfl rfl (fun _ _ => ⟨rfl, rfl⟩)
    fun _ _ howned hfirst => ⟨howned, hfirst⟩, hexact.queued⟩

/-- `__setscheduler`: only the task itself may be queued by another priority. -/
theorem Exact.newPrio (hexact : Exact s) (task : Task) (normalPrio : ℕ) :
    ExactBut (s.newPrio task normalPrio) task := by
  refine ⟨hexact.sorted, fun other => ?_, fun other hother hblocked => ?_⟩
  · by_cases hother : other = task
    · subst hother
      refine ⟨(hexact.ranked other).complete, (hexact.ranked other).sorted,
        (hexact.ranked other).fresh, ?_⟩
      simp [State.newPrio, adjustPrio, getprio, topPiWaiter]
    · refine (hexact.ranked other).congr rfl (update_of_ne hother _ _) (update_of_ne hother _ _)
        (fun _ _ => ⟨rfl, rfl⟩) fun _ _ howned hfirst => ⟨howned, hfirst⟩
  · exact (hexact.queued other hblocked).trans (update_of_ne hother _ _).symm

/-- The task's own priority changes in the same direction as its priority. -/
theorem Exact.walkable_newPrio (hexact : Exact s) (hacyclic : Acyclic (Follows s.nextOwner))
    (hblocked : s.blockedOn task ≠ none) (hcarried : s.normalPrio task < normalPrio → Carried s task
      ((s.newPrio task normalPrio).prio task)) : Walkable (s.newPrio task normalPrio) task := by
  have hqueued := hexact.queued task hblocked
  have hranked := (hexact.newPrio task normalPrio).ranked task
  have hnormal : (s.newPrio task normalPrio).normalPrio task = normalPrio := update_self _ _ _
  rcases le_or_gt normalPrio (s.normalPrio task) with hle | hlt
  · refine Or.inl ?_
    obtain ⟨hown, hall⟩ := hranked.le_prio_iff.mp le_rfl
    rw [hnormal] at hown
    calc _ ≤ s.prio task := (hexact.ranked task).le_prio_iff.mpr ⟨hown.trans hle, hall⟩
      _ = s.listPrio task := hqueued.symm
  refine Or.inr ⟨?_, ?_⟩
  · obtain ⟨hown, hall⟩ := (hexact.ranked task).le_prio_iff.mp le_rfl
    have hle : s.prio task ≤ _ := hranked.le_prio_iff.mpr ⟨?_, hall⟩
    · calc _ = s.prio task := hqueued
        _ ≤ _ := hle
    · rw [hnormal]
      exact hown.trans hlt.le
  · refine (hcarried hlt).congr fun other lock owner hother hblockedOther howner => ?_
    have hne : owner ≠ task := by
      rintro rfl
      exact hacyclic owner (TransGen.tail' hother (nextOwner_eq hblockedOther howner))
    exact ⟨hblockedOther, howner, rfl, fun _ _ => rfl, rfl, fun _ _ => rfl, update_of_ne hne _ _,
      update_of_ne hne _ _, rfl⟩

end Fields

variable [DecidableEq Task] [DecidableEq Lock]

section Operations

variable {s : State Task Lock} {mutex : Lock} {current owner : Task} {maxLockDepth : ℕ}
  {op : Op Task Lock}

theorem exact_chain_of_blocked {blocked : State Task Lock} (hcoherent : Coherent s)
    (howner : s.owner mutex = some owner)
    (hshallow : Shallow maxLockDepth (s.enqueue mutex current))
    (hgraph : SameGraph (s.enqueue mutex current) blocked) (hlinked : Linked blocked)
    (hbut : ExactBut blocked owner)
    (hwalkable : blocked.blockedOn owner ≠ none → Walkable blocked owner)
    (hexit : blocked.blockedOn owner ≠ none → blocked.topPiWaiter owner ≠ some current →
      blocked.listPrio owner = blocked.prio owner) (detectDeadlock : Bool) :
    Exact (adjustPrioChain detectDeadlock (some mutex) (some current) current maxLockDepth
        blocked owner (some current)).1 ∧
      (adjustPrioChain detectDeadlock (some mutex) (some current) current maxLockDepth
        blocked owner (some current)).2 = .ok := by
  have hnext := nextOwner_congr hgraph
  have hacyclic := hshallow.acyclic
  rw [← hnext] at hacyclic
  have hcurrent : blocked.blockedOn current = some mutex := by
    rw [hgraph.blockedOn, enqueue_blockedOn, update_self]
  have howner' : blocked.owner mutex = some owner := by
    rw [hgraph.owner]
    exact howner
  have hedge : Follows blocked.nextOwner current owner := nextOwner_eq hcurrent howner'
  refine hbut.adjustPrioChain hlinked hacyclic (chainWithin_mono ?_ (hshallow.within owner)) ?_ ?_
    ?_ hwalkable fun hblocked _ => hexit hblocked
  · intro task other hfollows
    rwa [hnext] at hfollows
  · intro waiter lock hwaiter
    rw [hgraph.blockedOn, enqueue_blockedOn] at hwaiter
    rw [update_apply] at hwaiter
    split_ifs at hwaiter
    · rw [← some.inj hwaiter, howner']
      exact some_ne_none owner
    · obtain ⟨other, hother, -⟩ := (hcoherent.placed waiter).foreign lock hwaiter
      rw [hgraph.owner, enqueue_owner, hother]
      exact some_ne_none other
  · intro waiter hwaiter
    obtain rfl := some.inj hwaiter
    rw [hcurrent]
    exact some_ne_none mutex
  · intro other lock hother hlock
    constructor
    · intro heq
      obtain rfl := some.inj heq
      exact hacyclic owner (TransGen.tail' hother (nextOwner_eq hlock howner'))
    · intro heq
      exact hacyclic current (TransGen.head' hedge (hother.tail (nextOwner_eq hlock heq)))

section

variable (hexact : Exact s) (hcoherent : Coherent s) (hcurrent : s.blockedOn current = none)
  (howner : s.owner mutex = some owner) (hshallow : Shallow maxLockDepth (s.enqueue mutex current))
  (detectDeadlock : Bool)
include hexact hcoherent hcurrent howner hshallow

theorem Exact.taskBlocks :
    Exact (s.taskBlocks maxLockDepth mutex current detectDeadlock).1 ∧
      (s.taskBlocks maxLockDepth mutex current detectDeadlock).2 = .ok := by
  have hlinked := hcoherent.toLinked
  have hlead : (s.enqueue mutex current).topWaiter mutex = some current ↔
      WouldLead s mutex current (s.getprio current) := topWaiter_enqueue_iff hlinked hcurrent
  rw [State.taskBlocks, howner]
  simp only
  split_ifs with htop hrunning hdetect
  · rw [boosted_eq_withTop] at hrunning ⊢
    exact ⟨(hexact.enqueue_lead hlinked hcurrent howner (hlead.mp htop)).toExact
      fun hblocked => absurd hrunning hblocked, rfl⟩
  · rw [boosted_eq_withTop]
    obtain ⟨hle, hexit⟩ := hexact.enqueue_boost hlinked hcurrent (hlead.mp htop) owner
    have hqueued : (s.enqueue mutex current).blockedOn owner ≠ none →
        (s.enqueue mutex current).listPrio owner = s.prio owner := hexact.enqueue_queued
    refine exact_chain_of_blocked hcoherent howner hshallow withTop_sameGraph
      (hlinked.enqueue_lead hcurrent howner (hlead.mp htop))
      (hexact.enqueue_lead hlinked hcurrent howner (hlead.mp htop)) ?_ ?_ detectDeadlock
    · intro hblocked
      refine Or.inl ?_
      rw [withTop_listPrio, hqueued hblocked]
      exact hle
    · intro hblocked hother
      rw [withTop_listPrio, hqueued hblocked]
      exact le_antisymm (hexit hother) hle
  · have hexact' := hexact.enqueue hlinked hcurrent (hlead.not.mp htop)
    refine exact_chain_of_blocked hcoherent howner hshallow (SameGraph.refl _)
      (hlinked.enqueue hcurrent (hlead.not.mp htop)) (hexact'.but owner) ?_ ?_ detectDeadlock
    · exact fun hblocked => Or.inl (hexact'.queued owner hblocked).ge
    · exact fun hblocked _ => hexact'.queued owner hblocked
  · exact ⟨hexact.enqueue hlinked hcurrent (hlead.not.mp htop), rfl⟩

theorem Exact.block : Exact (s.block maxLockDepth mutex current detectDeadlock).1 := by
  obtain ⟨hblocked, hok⟩ := hexact.taskBlocks hcoherent hcurrent howner hshallow detectDeadlock
  rw [State.block, if_pos hok]
  exact hblocked.setWaiting current _

end

/-- Nothing on the way from the owner of the mutex is harmed when its top waiter leaves. -/
structure LeavesCleanly (s : State Task Lock) (mutex : Lock) (current : Task) : Prop where
  fresh : FreshNext s mutex current
  carried : ∀ owner, s.owner mutex = some owner →
    Carried s owner ((s.relinked mutex owner current).getprio owner)

section

variable (hexact : Exact s) (hcoherent : Coherent s) (hshallow : Shallow maxLockDepth s)
include hexact hcoherent hshallow

theorem Exact.giveUp (hcurrent : ∀ lock, s.blockedOn current = some lock → lock = mutex)
    (hclean : s.topWaiter mutex = some current → LeavesCleanly s mutex current) :
    Exact (s.giveUp maxLockDepth mutex current) := by
  rw [State.giveUp]
  apply Exact.setWaiting
  by_cases hfree : s.blockedOn current = none
  · rw [if_pos hfree, adjustPrio_eq_self (hexact.ranked current).prio]
    exact hexact
  rw [if_neg hfree]
  obtain ⟨lock, hblocked⟩ := ne_none_iff_exists'.mp hfree
  obtain rfl := hcurrent lock hblocked
  obtain ⟨owner, howner, -⟩ := (hcoherent.placed current).foreign lock hblocked
  have hremoved := hexact.removeWaiter hcoherent hshallow.acyclic hblocked howner
    (hshallow.within owner) (fun htop => (hclean htop).fresh)
    (fun htop => (hclean htop).carried owner howner)
  rw [adjustPrio_eq_self (hremoved.ranked current).prio]
  exact hremoved

theorem Exact.setScheduler (hcarried : s.normalPrio task < normalPrio → Carried s task
      ((s.newPrio task normalPrio).prio task)) :
    Exact (s.setScheduler maxLockDepth task normalPrio) := by
  have hbut := hexact.newPrio task normalPrio
  rw [State.setScheduler]
  split_ifs with hdone
  · refine hbut.toExact fun hblocked => ?_
    exact hdone.resolve_left hblocked
  rw [not_or] at hdone
  have hshort : (s.newPrio task normalPrio).ChainWithin maxLockDepth task := by
    refine chainWithin_mono ?_ (hshallow.within task)
    exact fun _ _ hnext => hnext
  refine (hbut.adjustPrioChain ?_ hshallow.acyclic hshort ?_ ?_ ?_ ?_ ?_).1
  · exact ⟨hcoherent.blocked, hcoherent.nodup, hcoherent.piTop, hcoherent.piNodup⟩
  · intro waiter lock hwaiter
    obtain ⟨owner, howner, -⟩ := (hcoherent.placed waiter).foreign lock hwaiter
    exact fun hnone => some_ne_none owner (howner.symm.trans hnone)
  · simp
  · intro other lock hother hlock
    refine ⟨by simp, fun heq => ?_⟩
    exact hshallow.acyclic task (TransGen.tail' hother (nextOwner_eq hlock heq))
  · exact fun hblocked => hexact.walkable_newPrio hshallow.acyclic hblocked hcarried
  · exact fun _ hnone => absurd rfl hnone

end

/-! ## Runs -/

/-- The wait graph is shallow, and it stays so while the task of an attempt is queued. -/
structure StaysShallow (maxLockDepth : ℕ) (s : State Task Lock) (op : Op Task Lock) : Prop where
  before : Shallow maxLockDepth s
  attempt : ∀ current mutex, (∃ detect, op = .lock current mutex detect false) ∨
      (∃ detect, op = .wake current false ∧ s.waiting current = some (mutex, detect)) →
    s.blockedOn current = none → s.tryToTake mutex current = none →
    Shallow maxLockDepth (s.enqueue mutex current)

/-- No stale priority comes on top, and no walk that lowers priorities is cut off. -/
def Clean (s : State Task Lock) : Op Task Lock → Prop
  | .lock _ _ _ _ => True
  | .wake current signal =>
    signal = true → ∀ mutex, s.topWaiter mutex = some current → LeavesCleanly s mutex current
  | .unlock _ mutex => ∀ first, s.topWaiter mutex = some first → FreshNext s mutex first
  | .setScheduler task normalPrio =>
    s.normalPrio task < normalPrio → Carried s task ((s.newPrio task normalPrio).prio task)

section

variable (hexact : Exact s) (hcoherent : Coherent s)
include hexact hcoherent

theorem Exact.lock (hwaiting : s.waiting current = none) {detectDeadlock signal : Bool}
    (hshallow : StaysShallow maxLockDepth s (.lock current mutex detectDeadlock signal)) :
    Exact (s.lock maxLockDepth mutex current detectDeadlock signal).1 := by
  have hfree := hcoherent.free_of_not_waiting hwaiting
  rw [State.lock]
  cases htake : s.tryToTake mutex current with
  | some taken => exact hexact.take hcoherent (taken_of_tryToTake htake) hfree
  | none =>
    split_ifs with hsignal
    · refine hexact.giveUp hcoherent hshallow.before (by simp [hfree]) fun htop => ?_
      rw [hcoherent.blockedOn_of_top htop] at hfree
      cases hfree
    · obtain ⟨owner, howner⟩ := owner_of_not_taken htake
      have hsignal' : signal = false := by simpa using hsignal
      subst hsignal'
      exact hexact.block hcoherent hfree howner
        (hshallow.attempt current mutex (Or.inl ⟨detectDeadlock, rfl⟩) hfree htake) detectDeadlock

theorem Exact.wake {signal : Bool} (hshallow : StaysShallow maxLockDepth s (.wake current signal))
    (hclean : Clean s (.wake current signal)) : Exact (s.wake maxLockDepth current signal).1 := by
  rw [State.wake]
  cases hwaiting : s.waiting current with
  | none => exact hexact
  | some call =>
    obtain ⟨mutex, detectDeadlock⟩ := call
    have hcurrent : ∀ lock, s.blockedOn current = some lock → lock = mutex := by
      intro lock hblocked
      obtain ⟨detect, hcall⟩ := (hcoherent.placed current).called lock hblocked
      rw [hwaiting] at hcall
      cases hcall
      rfl
    simp only
    cases htake : s.tryToTake mutex current with
    | some taken =>
      have htaken := taken_of_tryToTake htake
      have hfree := hexact.not_blocked_of_taken hcoherent htaken hcurrent
      have hfree' : taken.blockedOn current = none := by
        rw [htaken.graph.2.2.1, hfree]
      simp only [if_pos hfree']
      exact (hexact.take hcoherent htaken hfree).setWaiting current none
    | none =>
      split_ifs with hsignal hfree
      · exact hexact.giveUp hcoherent hshallow.before hcurrent (hclean hsignal mutex)
      · obtain ⟨owner, howner⟩ := owner_of_not_taken htake
        have hsignal' : signal = false := by simpa using hsignal
        subst hsignal'
        exact hexact.block hcoherent hfree howner (hshallow.attempt current mutex
          (Or.inr ⟨detectDeadlock, rfl, hwaiting⟩) hfree htake) detectDeadlock
      · exact hexact

theorem Exact.unlock (hwaiting : s.waiting current = none) (howner : s.owner mutex = some current)
    (hclean : Clean s (.unlock current mutex)) : Exact (s.unlock mutex current) := by
  rw [State.unlock]
  cases htop : s.topWaiter mutex with
  | none => exact hexact.update_owner none (Or.inl htop) s.pending
  | some pendowner =>
    exact hexact.wakeupNextWaiter hcoherent.toLinked (hcoherent.free_of_not_waiting hwaiting)
      howner htop (hclean pendowner htop)

theorem Exact.perform (henabled : s.Enabled op) (hshallow : StaysShallow maxLockDepth s op)
    (hclean : Clean s op) : Exact (s.perform maxLockDepth op) := by
  cases op with
  | lock current mutex detectDeadlock signal => exact hexact.lock hcoherent henabled hshallow
  | wake current signal => exact hexact.wake hcoherent hshallow hclean
  | unlock current mutex => exact hexact.unlock hcoherent henabled.1 henabled.2.1 hclean
  | setScheduler task normalPrio => exact hexact.setScheduler hcoherent hshallow.before hclean

end

theorem StaysShallow.othersMutex (hshallow : StaysShallow maxLockDepth s op)
    (hcoherent : Coherent s) (henabled : s.Enabled op) : OthersMutex s op := by
  cases op with
  | lock current mutex detectDeadlock signal =>
    rintro rfl howner
    have hwaiting : s.waiting current = none := henabled
    have hfree := hcoherent.free_of_not_waiting hwaiting
    have hpending : s.pending mutex = false := by
      rw [Bool.eq_false_iff]
      intro htrue
      obtain ⟨-, detect, hcall⟩ := (hcoherent.placed current).pendowner mutex howner htrue
      rw [hwaiting] at hcall
      cases hcall
    have htake : s.tryToTake mutex current = none := by
      simp [tryToTake, howner, hpending]
    have hacyclic := (hshallow.attempt current mutex (Or.inl ⟨detectDeadlock, rfl⟩) hfree
      htake).acyclic
    have hblocked : (s.enqueue mutex current).blockedOn current = some mutex := by
      rw [enqueue_blockedOn, update_self]
    exact hacyclic current (.single (nextOwner_eq hblocked howner))
  | wake current signal | unlock current mutex | setScheduler task normalPrio => exact trivial

/-- Priority inheritance is exact in every state of a run whose steps are clean. -/
theorem priority_inheritance_exact
    (hreachable : s.Reachable maxLockDepth fun s op => StaysShallow maxLockDepth s op ∧ Clean s op) :
    Inherits s := by
  have hinvariant : Exact s ∧ Coherent s := by
    induction hreachable with
    | initial normalPrio => exact ⟨exact_initial normalPrio, coherent_initial normalPrio⟩
    | perform op _ henabled hallowed ih =>
      obtain ⟨hexact, hcoherent⟩ := ih
      obtain ⟨hshallow, hclean⟩ := hallowed
      exact ⟨hexact.perform hcoherent henabled hshallow hclean,
        hcoherent.perform henabled (hshallow.othersMutex hcoherent henabled) maxLockDepth⟩
  exact hinvariant.1.inherits hinvariant.2.toLinked

end Operations

section Fixed

variable {tasks locks : ℕ} {s : State (Fin tasks) (Fin locks)} {maxLockDepth : ℕ}

/-- Everybody waits for a task with a smaller number. -/
def Descends (s : State (Fin tasks) (Fin locks)) : Prop :=
  ∀ first second, s.nextOwner first = some second → second.val < first.val

instance (s : State (Fin tasks) (Fin locks)) : Decidable (Descends s) :=
  inferInstanceAs (Decidable (∀ _ _, _ → _))

theorem Descends.shallow (hdescends : Descends s) (htasks : tasks ≤ maxLockDepth) :
    Shallow maxLockDepth s :=
  ⟨acyclic_of_descends _ hdescends, fun task =>
    chainWithin_of_descends _ hdescends (task.isLt.trans_le htasks)⟩

/-- Before an operation and with its task queued. -/
def Falling (s : State (Fin tasks) (Fin locks)) : Op (Fin tasks) (Fin locks) → Prop
  | .lock current mutex _ _ => Descends s ∧ Descends (s.enqueue mutex current)
  | .wake _ signal => Descends s ∧ signal = true
  | _ => Descends s

instance (s : State (Fin tasks) (Fin locks)) : (op : Op (Fin tasks) (Fin locks)) →
    Decidable (Falling s op)
  | .lock current mutex _ _ =>
    inferInstanceAs (Decidable (Descends s ∧ Descends (s.enqueue mutex current)))
  | .wake _ signal => inferInstanceAs (Decidable (Descends s ∧ signal = true))
  | .unlock _ _ => inferInstanceAs (Decidable (Descends s))
  | .setScheduler _ _ => inferInstanceAs (Decidable (Descends s))

theorem Falling.staysShallow {op : Op (Fin tasks) (Fin locks)} (hfalling : Falling s op)
    (htasks : tasks ≤ maxLockDepth) : StaysShallow maxLockDepth s op := by
  cases op with
  | lock current mutex detect signal =>
    refine ⟨hfalling.1.shallow htasks, ?_⟩
    rintro current' mutex' (⟨detect', hop⟩ | ⟨detect', hop, -⟩) - -
    · cases hop
      exact hfalling.2.shallow htasks
    · cases hop
  | wake current signal =>
    refine ⟨hfalling.1.shallow htasks, ?_⟩
    rintro current' mutex' (⟨detect', hop⟩ | ⟨detect', hop, -⟩) - -
    · cases hop
    · cases hop
      exact absurd hfalling.2 Bool.false_ne_true
  | unlock current mutex | setScheduler task normalPrio =>
    refine ⟨Descends.shallow hfalling htasks, ?_⟩
    rintro current' mutex' (⟨detect', hop⟩ | ⟨detect', hop, -⟩) - - <;> cases hop

/-- All operations are enabled and allowed. -/
def Goes (maxLockDepth : ℕ) : State (Fin tasks) (Fin locks) → List (Op (Fin tasks) (Fin locks)) →
    Prop
  | _, [] => True
  | s, op :: ops => s.Enabled op ∧ Falling s op ∧ Goes maxLockDepth (s.perform maxLockDepth op) ops

instance decidableGoes : (s : State (Fin tasks) (Fin locks)) →
    (ops : List (Op (Fin tasks) (Fin locks))) → Decidable (Goes maxLockDepth s ops)
  | _, [] => inferInstanceAs (Decidable True)
  | s, op :: ops =>
    have := decidableGoes (s.perform maxLockDepth op) ops
    inferInstanceAs (Decidable (_ ∧ _ ∧ _))

theorem Goes.reachable {ops : List (Op (Fin tasks) (Fin locks))} (hgoes : Goes maxLockDepth s ops)
    (htasks : tasks ≤ maxLockDepth)
    (hreachable : s.Reachable maxLockDepth (StaysShallow maxLockDepth)) :
    (ops.foldl (perform maxLockDepth) s).Reachable maxLockDepth (StaysShallow maxLockDepth) := by
  induction ops generalizing s with
  | nil => exact hreachable
  | cons op ops ih =>
    obtain ⟨henabled, hfalling, hrest⟩ := hgoes
    exact ih hrest (.perform op hreachable henabled (hfalling.staysShallow htasks))

end Fixed

/-- The second task waits for the first one, which has a lower priority. -/
def boosted : State (Fin 5) (Fin 4) :=
  ((State.initial fun task => 20 - 10 * task.val).perform 1024 (.lock 0 0 false false)).perform 1024
    (.lock 1 0 false false)

theorem carried_boosted (prio : ℕ) : Carried boosted 1 prio := by
  have hrunning : ∀ lock owner, boosted.owner lock = some owner → boosted.blockedOn owner = none := by
    decide +kernel
  constructor
  · exact fun lock owner hpasses => absurd (hrunning lock owner hpasses.owned) hpasses.queued
  · exact fun lock owner hpasses => absurd (hrunning lock owner hpasses.owned) hpasses.queued

/-- The second task gets a lower priority, and so does the first one. -/
theorem priority_inheritance_exact_lowered :
    Inherits (boosted.perform 1024 (.setScheduler 1 15)) ∧
      (boosted.perform 1024 (.setScheduler 1 15)).prio 0 = 15 := by
  refine ⟨@priority_inheritance_exact _ _ _ _ _ 1024 (.perform _ (.perform _ (.perform _ (.initial _)
    (by decide +kernel) ⟨?_, trivial⟩) (by decide +kernel) ⟨?_, trivial⟩) (by decide +kernel)
      ⟨?_, fun _ => carried_boosted _⟩), by decide +kernel⟩
  · exact Falling.staysShallow (by decide +kernel) (by decide)
  · exact Falling.staysShallow (by decide +kernel) (by decide)
  · exact Falling.staysShallow (by decide +kernel) (by decide)

/-- The third task gets a higher priority while it waits behind the second one, who then gets the
mutex and a lower priority. -/
def staleRun : List (Op (Fin 5) (Fin 4)) :=
  [.lock 0 0 false false, .lock 1 0 false false, .lock 2 0 false false, .setScheduler 2 25,
    .unlock 0 0, .setScheduler 1 40]

def stale : State (Fin 5) (Fin 4) :=
  staleRun.foldl (State.perform 1024) (State.initial fun task => 10 * (task.val + 1))

/-- The first three tasks form a chain, the fourth waits for the third one and the fifth for the
second one, and then the fourth gives up. -/
def cutRun : List (Op (Fin 5) (Fin 4)) :=
  [.lock 0 0 false false, .lock 1 1 false false, .lock 1 2 false false, .lock 2 3 false false,
    .lock 1 0 false false, .lock 2 1 false false, .lock 4 2 false false, .lock 3 3 false false,
    .wake 3 true]

def cut : State (Fin 5) (Fin 4) :=
  cutRun.foldl (State.perform 1024)
    (State.initial fun task => if task = 3 then 5 else if task = 4 then 6 else 50)

/-- The second task has priority 30 although the third one with 25 waits for it; and the second of
five tasks is queued by the priority 5 that nobody has any more. -/
theorem priority_inheritance_fails :
    (stale.Reachable 1024 (StaysShallow 1024) ∧ stale.owner 0 = some 1 ∧
        stale.blockedOn 2 = some 0 ∧ stale.prio 1 = 30 ∧ stale.prio 2 = 25 ∧ ¬Inherits stale) ∧
      (cut.Reachable 1024 (StaysShallow 1024) ∧ cut.waitList 0 = [1] ∧ cut.prio 1 = 6 ∧
        cut.listPrio 1 = 5 ∧ cut.prio 0 = 5 ∧ ¬Inherits cut) := by
  have hstale : stale.owner 0 = some 1 ∧ stale.blockedOn 2 = some 0 ∧ stale.prio 1 = 30 ∧
      stale.prio 2 = 25 := by decide +kernel
  have hcut : cut.waitList 0 = [1] ∧ cut.prio 1 = 6 ∧ cut.listPrio 1 = 5 ∧ cut.prio 0 = 5 := by
    decide +kernel
  have hstaleGoes : Goes 1024 (initial fun task => 10 * (task.val + 1)) staleRun := by
    decide +kernel
  have hcutGoes : Goes 1024
      (initial fun task => if task = 3 then 5 else if task = 4 then 6 else 50) cutRun := by
    decide +kernel
  obtain ⟨howner, hblocked, hprio, hprio'⟩ := hstale
  obtain ⟨hlist, hcutPrio, hqueued, hfirst⟩ := hcut
  refine ⟨⟨hstaleGoes.reachable (by decide) (.initial _), howner, hblocked, hprio, hprio', ?_⟩,
    hcutGoes.reachable (by decide) (.initial _), hlist, hcutPrio, hqueued, hfirst, ?_⟩
  · intro hinherits
    have hle := (hinherits.prio 1).2 (Or.inr ⟨0, 2, howner, hblocked, hprio'.symm⟩)
    rw [hprio] at hle
    omega
  · intro hinherits
    have heq := hinherits.queued 0 1 (by rw [hlist]; exact List.mem_singleton_self 1)
    rw [hqueued, hcutPrio] at heq
    omega

end KernelM5040.RtMutex
