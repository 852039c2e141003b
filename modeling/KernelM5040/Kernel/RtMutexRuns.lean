import KernelM5040.Kernel.RtMutexLinked

/-!
# Runs of the operations

In every state that is reached the lists are linked, and blocked and owning tasks
are where their call of `rt_mutex_slowlock` says.  A task that blocks on a mutex of
its own leaves its waiter behind in its list, so there is no such attempt in a run.
-/

namespace KernelM5040.RtMutex

open State Option Function PriorityList

variable {Task Lock : Type} (s : State Task Lock)

/-- A blocked task is in its call of `rt_mutex_slowlock` and waits for another task; inside the
call it only owns the mutex as its pending owner, and then it is not blocked. -/
structure WellPlaced (task : Task) : Prop where
  called : ∀ lock, s.blockedOn task = some lock →
    ∃ detectDeadlock, s.waiting task = some (lock, detectDeadlock)
  foreign : ∀ lock, s.blockedOn task = some lock → ∃ owner, s.owner lock = some owner ∧ owner ≠ task
  own : ∀ lock detectDeadlock, s.waiting task = some (lock, detectDeadlock) →
    s.owner lock = some task → s.pending lock = true
  pendowner : ∀ lock, s.owner lock = some task → s.pending lock = true →
    s.blockedOn task = none ∧ ∃ detectDeadlock, s.waiting task = some (lock, detectDeadlock)

/-- The lists are linked, and all tasks but possibly one are in their place. -/
structure CoherentBut (current : Task) : Prop extends Linked s where
  placed : ∀ task ≠ current, WellPlaced s task

structure Coherent : Prop extends Linked s where
  placed : ∀ task, WellPlaced s task

section Placed

variable {s s' : State Task Lock} {current task : Task} {lock : Lock}

theorem wellPlaced_of_free (hblocked : s.blockedOn task = none) (hwaiting : s.waiting task = none)
    (hpending : ∀ lock, s.owner lock = some task → s.pending lock = false) : WellPlaced s task := by
  constructor
  · simp [hblocked]
  · simp [hblocked]
  · simp [hwaiting]
  · intro lock howner htrue
    rw [hpending lock howner] at htrue
    cases htrue

theorem WellPlaced.owner_ne (hplaced : WellPlaced s task) (hblocked : s.blockedOn task = some lock) :
    s.owner lock ≠ some task := by
  obtain ⟨owner, howner, hne⟩ := hplaced.foreign lock hblocked
  rw [howner]
  exact fun heq => hne (some.inj heq)

theorem WellPlaced.congr (hplaced : WellPlaced s task) (howner : s'.owner = s.owner)
    (hpending : s'.pending = s.pending) (hblocked : s'.blockedOn task = s.blockedOn task)
    (hwaiting : s'.waiting task = s.waiting task) : WellPlaced s' task := by
  constructor
  · rw [hblocked, hwaiting]
    exact hplaced.called
  · rw [hblocked, howner]
    exact hplaced.foreign
  · rw [hwaiting, howner, hpending]
    exact hplaced.own
  · rw [howner, hpending, hblocked, hwaiting]
    exact hplaced.pendowner

theorem Coherent.but (hcoherent : Coherent s) (current : Task) : CoherentBut s current :=
  ⟨hcoherent.toLinked, fun task _ => hcoherent.placed task⟩

theorem CoherentBut.toCoherent (hbut : CoherentBut s current) (hplaced : WellPlaced s current) :
    Coherent s := by
  refine ⟨hbut.toLinked, fun task => ?_⟩
  by_cases htask : task = current
  · rw [htask]
    exact hplaced
  · exact hbut.placed task htask

theorem coherent_initial (normalPrio : Task → ℕ) :
    Coherent (initial normalPrio : State Task Lock) := by
  refine ⟨⟨?_, fun _ => List.nodup_nil, ?_, fun _ => List.nodup_nil⟩, fun task =>
    wellPlaced_of_free rfl rfl fun _ _ => rfl⟩
  · intro lock waiter
    exact iff_of_false List.not_mem_nil nofun
  · intro task waiter hmem
    cases hmem

theorem Coherent.free_of_not_waiting (hcoherent : Coherent s) (hwaiting : s.waiting current = none) :
    s.blockedOn current = none := by
  cases hblocked : s.blockedOn current with
  | none => rfl
  | some lock =>
    obtain ⟨detectDeadlock, hcall⟩ := (hcoherent.placed current).called lock hblocked
    rw [hwaiting] at hcall
    cases hcall

variable [DecidableEq Task]

theorem CoherentBut.leave (hbut : CoherentBut s current) (hfree : s.blockedOn current = none)
    (hpending : ∀ lock, s.owner lock = some current → s.pending lock = false) :
    Coherent (s.setWaiting current none) := by
  have hlinked : Linked (s.setWaiting current none) :=
    ⟨hbut.blocked, hbut.nodup, hbut.piTop, hbut.piNodup⟩
  refine ⟨hlinked, fun task => ?_⟩
  by_cases htask : task = current
  · subst htask
    exact wellPlaced_of_free hfree (by simp [setWaiting]) hpending
  · exact (hbut.placed task htask).congr rfl rfl rfl (by simp [setWaiting, htask])

end Placed

variable [DecidableEq Task] [DecidableEq Lock]

section Operations

variable {s taken : State Task Lock} {mutex : Lock} {current owner : Task}

theorem removed_blockedOn (s : State Task Lock) (mutex : Lock) (current : Task) :
    (s.removed mutex current).blockedOn = update s.blockedOn current none := rfl

theorem CoherentBut.removeWaiter (hbut : CoherentBut s current)
    (hblocked : s.blockedOn current = some mutex)
    (hself : s.owner mutex = some current → current ∉ s.piWaiters current) (maxLockDepth : ℕ) :
    CoherentBut (s.removeWaiter maxLockDepth mutex current) current ∧
      (s.removeWaiter maxLockDepth mutex current).blockedOn current = none ∧
      (s.removeWaiter maxLockDepth mutex current).owner = s.owner ∧
      (s.removeWaiter maxLockDepth mutex current).pending = s.pending := by
  obtain ⟨hlinked, hgraph⟩ := hbut.toLinked.removeWaiter hblocked hself maxLockDepth
  refine ⟨⟨hlinked, fun task htask => (hbut.placed task htask).congr hgraph.owner hgraph.pending
    ?_ (congrFun hgraph.waiting task)⟩, ?_, hgraph.owner, hgraph.pending⟩
  · rw [hgraph.blockedOn, removed_blockedOn, update_of_ne htask]
  · rw [hgraph.blockedOn, removed_blockedOn, update_self]

theorem CoherentBut.giveUp (hbut : CoherentBut s current)
    (hcurrent : ∀ lock, s.blockedOn current = some lock →
      lock = mutex ∧ s.owner mutex ≠ some current)
    (hpending : ∀ lock, s.owner lock = some current → s.pending lock = false) (maxLockDepth : ℕ) :
    Coherent (s.giveUp maxLockDepth mutex current) := by
  have hadjust : ∀ {s' : State Task Lock}, CoherentBut s' current → s'.blockedOn current = none →
      (∀ lock, s'.owner lock = some current → s'.pending lock = false) →
      Coherent ((s'.adjustPrio current).setWaiting current none) := by
    intro s' hbut' hfree hpending'
    refine CoherentBut.leave ⟨hbut'.toLinked.adjustPrio current, fun task htask => ?_⟩ hfree
      hpending'
    exact (hbut'.placed task htask).congr rfl rfl rfl rfl
  rw [State.giveUp]
  by_cases hfree : s.blockedOn current = none
  · rw [if_pos hfree]
    exact hadjust hbut hfree hpending
  rw [if_neg hfree]
  obtain ⟨lock, hblocked⟩ := ne_none_iff_exists'.mp hfree
  obtain ⟨rfl, hforeign⟩ := hcurrent lock hblocked
  obtain ⟨hremoved, hfree', howner, hpending'⟩ := hbut.removeWaiter hblocked
    (fun howner => absurd howner hforeign) maxLockDepth
  refine hadjust hremoved hfree' ?_
  rw [howner, hpending']
  exact hpending

section

variable (s : State Task Lock) (mutex : Lock) (current pendowner : Task)

/-- The mutex goes to its top waiter. -/
def handedOver : State Task Lock :=
  ((s.piDel current pendowner).removed mutex pendowner).setOwner mutex pendowner true

theorem wakeupNextWaiter_eq :
    s.wakeupNextWaiter mutex current pendowner =
      match (s.removed mutex pendowner).topWaiter mutex with
      | none => handedOver s mutex current pendowner
      | some next => (handedOver s mutex current pendowner).piAdd pendowner next := rfl

end

theorem Linked.wakeupNextWaiter {pendowner : Task} (hlinked : Linked s)
    (howner : s.owner mutex = some current) (htop : s.topWaiter mutex = some pendowner) :
    Linked (s.wakeupNextWaiter mutex current pendowner) := by
  have hblocked := hlinked.blockedOn_of_top htop
  have hremoved : Linked ((s.piDel current pendowner).removed mutex pendowner) :=
    (hlinked.piDel current pendowner).removed hblocked (hlinked.not_mem_piDel hblocked howner)
  -- the next waiter was not the top waiter, so it is in no list
  have hnext : ∀ next, (s.removed mutex pendowner).topWaiter mutex = some next →
      ∀ task, next ∉ (s.piDel current pendowner).piWaiters task := by
    intro next hnext task hmem
    have hmem' : next ∈ (s.waitList mutex).erase pendowner := by
      simpa [State.removed, State.setBlockedOn, State.waitDel] using List.mem_of_head? hnext
    obtain ⟨hne, hwaiter⟩ := (hlinked.nodup mutex).mem_erase_iff.mp hmem'
    have hfirst := ((hlinked.piDel current pendowner).mem_piWaiters hmem
      ((hlinked.blocked mutex next).mp hwaiter)).2
    exact hne (some.inj (hfirst.symm.trans htop))
  have hset : Linked (handedOver s mutex current pendowner) :=
    hremoved.setOwner (fun next hfirst task _ => hnext next hfirst task) true
  rw [wakeupNextWaiter_eq]
  cases hfirst : (s.removed mutex pendowner).topWaiter mutex with
  | none => exact hset
  | some next =>
    have howner' : (handedOver s mutex current pendowner).owner mutex = some pendowner := by
      simp [handedOver, State.setOwner]
    exact hset.piAdd howner' hfirst (hnext next hfirst pendowner)

theorem wakeupNextWaiter_graph (s : State Task Lock) (mutex : Lock) (current pendowner : Task) :
    (s.wakeupNextWaiter mutex current pendowner).owner =
        update s.owner mutex (some pendowner) ∧
      (s.wakeupNextWaiter mutex current pendowner).pending =
        update s.pending mutex true ∧
      (s.wakeupNextWaiter mutex current pendowner).blockedOn =
        update s.blockedOn pendowner none ∧
      (s.wakeupNextWaiter mutex current pendowner).waiting = s.waiting ∧
      (s.wakeupNextWaiter mutex current pendowner).waitList = (s.removed mutex pendowner).waitList ∧
      (s.wakeupNextWaiter mutex current pendowner).listPrio = s.listPrio ∧
      (s.wakeupNextWaiter mutex current pendowner).piPrio = s.piPrio ∧
      (s.wakeupNextWaiter mutex current pendowner).normalPrio = s.normalPrio ∧
      (s.wakeupNextWaiter mutex current pendowner).prio = s.prio := by
  rw [wakeupNextWaiter_eq]
  cases (s.removed mutex pendowner).topWaiter mutex with
  | none | some next => exact ⟨rfl, rfl, rfl, rfl, rfl, rfl, rfl, rfl, rfl⟩

section

variable (hcoherent : Coherent s)
include hcoherent

theorem Coherent.take (htaken : Taken s mutex current taken) : CoherentBut taken current := by
  obtain ⟨howner, hpending, hblocked, hwaiting⟩ := htaken.graph
  refine ⟨hcoherent.toLinked.take htaken, ?_⟩
  intro task htask
  have hsame : ∀ lock, taken.owner lock = some task →
      s.owner lock = some task ∧ taken.pending lock = s.pending lock := by
    intro lock hlock
    rw [howner] at hlock
    rw [hpending]
    by_cases heq : lock = mutex
    · rw [heq, update_self] at hlock
      exact absurd (some.inj hlock).symm htask
    · rw [update_of_ne heq] at hlock ⊢
      exact ⟨hlock, rfl⟩
  constructor
  · rw [hblocked, hwaiting]
    exact (hcoherent.placed task).called
  · rw [hblocked, howner]
    intro lock hlock
    rw [update_apply]
    split_ifs
    · exact ⟨current, rfl, Ne.symm htask⟩
    · exact (hcoherent.placed task).foreign lock hlock
  · rw [hwaiting]
    intro lock detectDeadlock hcall howned
    rw [(hsame lock howned).2]
    exact (hcoherent.placed task).own lock detectDeadlock hcall (hsame lock howned).1
  · rw [hblocked, hwaiting]
    intro lock howned htrue
    rw [(hsame lock howned).2] at htrue
    exact (hcoherent.placed task).pendowner lock (hsame lock howned).1 htrue

theorem Coherent.pending_taken (htaken : Taken s mutex current taken)
    (hcall : ∀ lock detectDeadlock, s.waiting current = some (lock, detectDeadlock) → lock = mutex) :
    ∀ lock, taken.owner lock = some current → taken.pending lock = false := by
  obtain ⟨howner, hpending, -, -⟩ := htaken.graph
  intro lock howned
  rw [hpending]
  by_cases heq : lock = mutex
  · rw [heq, update_self]
  rw [howner, update_of_ne heq] at howned
  rw [update_of_ne heq, Bool.eq_false_iff]
  intro htrue
  obtain ⟨-, detectDeadlock, hwaiting⟩ :=
    (hcoherent.placed current).pendowner lock howned htrue
  exact heq (hcall lock detectDeadlock hwaiting)

theorem Coherent.pending_of_not_taken (htake : s.tryToTake mutex current = none)
    (hcall : ∀ lock detectDeadlock, s.waiting current = some (lock, detectDeadlock) → lock = mutex) :
    ∀ lock, s.owner lock = some current → s.pending lock = false := by
  intro lock howned
  rw [Bool.eq_false_iff]
  intro htrue
  obtain ⟨-, detectDeadlock, hwaiting⟩ := (hcoherent.placed current).pendowner lock howned htrue
  obtain rfl := hcall lock detectDeadlock hwaiting
  simp [tryToTake, howned, htrue] at htake

theorem Coherent.not_mem_taken (htaken : Taken s mutex current taken)
    (hblocked : s.blockedOn current = some mutex) : current ∉ taken.piWaiters current := by
  have hnotMem : current ∉ s.piWaiters current := fun hmem =>
    (hcoherent.placed current).owner_ne hblocked (hcoherent.mem_piWaiters hmem hblocked).1
  cases htaken with
  | free howner | own howner hpending => exact hnotMem
  | stolen pendowner howner hpending hother hprio =>
    rw [stealLock]
    cases s.topWaiter mutex with
    | none => exact hnotMem
    | some next =>
      have hdel : (s.piDel pendowner next).piWaiters current = s.piWaiters current := by
        simp [piDel, Ne.symm hother]
      simp only
      split_ifs with hnext
      · intro hmem
        exact hnotMem (hdel ▸ hmem)
      intro hmem
      simp only [State.setOwner, adjustPrio, piAdd, update_self, mem_insert] at hmem
      rcases hmem with heq | hmem
      · exact hnext heq.symm
      · exact hnotMem (hdel ▸ hmem)

theorem Coherent.block (hfree : s.blockedOn current = none) (howner : s.owner mutex = some owner)
    (hother : owner ≠ current)
    (hpending : ∀ lock, s.owner lock = some current → s.pending lock = false) (maxLockDepth : ℕ)
    (detectDeadlock : Bool) : Coherent (s.block maxLockDepth mutex current detectDeadlock).1 := by
  obtain ⟨hlinked, hgraph⟩ := hcoherent.toLinked.taskBlocks hfree howner maxLockDepth detectDeadlock
  rw [State.block]
  generalize s.taskBlocks maxLockDepth mutex current detectDeadlock = blocked at hlinked hgraph
  have hcurrent : blocked.1.blockedOn current = some mutex := by
    rw [hgraph.blockedOn, enqueue_blockedOn, update_self]
  have hforeign : blocked.1.owner mutex ≠ some current := by
    rw [hgraph.owner, enqueue_owner, howner]
    simpa using hother
  have hpending' : ∀ lock, blocked.1.owner lock = some current →
      blocked.1.pending lock = false := by
    rw [hgraph.owner, hgraph.pending]
    exact hpending
  have hbut : CoherentBut blocked.1 current := by
    refine ⟨hlinked, fun task htask => (hcoherent.placed task).congr hgraph.owner hgraph.pending
      ?_ (congrFun hgraph.waiting task)⟩
    rw [hgraph.blockedOn, enqueue_blockedOn, update_of_ne htask]
  have honly : ∀ lock, blocked.1.blockedOn current = some lock → lock = mutex := fun lock hlock =>
    some.inj (hlock.symm.trans hcurrent)
  split_ifs with hok
  · -- the task sleeps in its call
    have hlinked' : Linked (blocked.1.setWaiting current (some (mutex, detectDeadlock))) :=
      ⟨hlinked.blocked, hlinked.nodup, hlinked.piTop, hlinked.piNodup⟩
    refine ⟨hlinked', fun task => ?_⟩
    by_cases htask : task = current
    · subst htask
      constructor
      · intro lock hlock
        rw [honly lock hlock]
        exact ⟨detectDeadlock, by simp [setWaiting]⟩
      · intro lock hlock
        rw [honly lock hlock]
        exact ⟨owner, by rw [← howner]; exact congrFun hgraph.owner mutex, hother⟩
      · intro lock detect hcall
        simp only [setWaiting, update_self, some.injEq, Prod.mk.injEq] at hcall
        rw [← hcall.1]
        intro howned
        exact absurd howned hforeign
      · intro lock howned htrue
        exact absurd ((hpending' lock howned).symm.trans htrue) Bool.false_ne_true
    · exact (hbut.placed task htask).congr rfl rfl rfl (by simp [setWaiting, htask])
  · exact hbut.giveUp (fun lock hlock => ⟨honly lock hlock, hforeign⟩) hpending' maxLockDepth

theorem Coherent.lock (hwaiting : s.waiting current = none) {signal : Bool}
    (hother : signal = false → s.owner mutex ≠ some current) (maxLockDepth : ℕ)
    (detectDeadlock : Bool) :
    Coherent (s.lock maxLockDepth mutex current detectDeadlock signal).1 := by
  have hfree := hcoherent.free_of_not_waiting hwaiting
  have hcall : ∀ lock detectDeadlock, s.waiting current = some (lock, detectDeadlock) →
      lock = mutex := by
    simp [hwaiting]
  rw [State.lock]
  cases htake : s.tryToTake mutex current with
  | some taken =>
    have htaken := taken_of_tryToTake htake
    obtain ⟨-, -, hblocked, hcalls⟩ := htaken.graph
    exact (hcoherent.take htaken).toCoherent
      (wellPlaced_of_free (by rw [hblocked, hfree]) (by rw [hcalls, hwaiting])
        (hcoherent.pending_taken htaken hcall))
  | none =>
    have hpending := hcoherent.pending_of_not_taken htake hcall
    split_ifs with hsignal
    · refine (hcoherent.but current).giveUp ?_ hpending maxLockDepth
      simp [hfree]
    obtain ⟨owner, howner⟩ := owner_of_not_taken htake
    have hne : owner ≠ current := by
      rintro rfl
      exact hother (by simpa using hsignal) howner
    exact hcoherent.block hfree howner hne hpending maxLockDepth detectDeadlock

theorem Coherent.wake (maxLockDepth : ℕ) (current : Task) (signal : Bool) :
    Coherent (s.wake maxLockDepth current signal).1 := by
  rw [State.wake]
  cases hwaiting : s.waiting current with
  | none => exact hcoherent
  | some call =>
    obtain ⟨mutex, detectDeadlock⟩ := call
    have hcurrent : ∀ lock, s.blockedOn current = some lock →
        lock = mutex ∧ s.owner mutex ≠ some current := by
      intro lock hblocked
      obtain ⟨detect, hcall⟩ := (hcoherent.placed current).called lock hblocked
      rw [hwaiting] at hcall
      cases hcall
      exact ⟨rfl, (hcoherent.placed current).owner_ne hblocked⟩
    have hcall : ∀ lock detect, s.waiting current = some (lock, detect) → lock = mutex := by
      simp [hwaiting, eq_comm]
    simp only
    cases htake : s.tryToTake mutex current with
    | some taken =>
      have htaken := taken_of_tryToTake htake
      have hbut := hcoherent.take htaken
      have hpending := hcoherent.pending_taken htaken hcall
      obtain ⟨-, -, hblocked, -⟩ := htaken.graph
      simp only
      split_ifs with hfree
      · exact hbut.leave hfree hpending
      obtain ⟨lock, hlock⟩ := ne_none_iff_exists'.mp hfree
      have hlock' := hblocked ▸ hlock
      obtain ⟨rfl, -⟩ := hcurrent lock hlock'
      obtain ⟨hremoved, hfree', howner, hpending'⟩ := hbut.removeWaiter hlock
        (fun _ => hcoherent.not_mem_taken htaken hlock') maxLockDepth
      refine hremoved.leave hfree' ?_
      rw [howner, hpending']
      exact hpending
    | none =>
      have hpending := hcoherent.pending_of_not_taken htake hcall
      simp only
      split_ifs with hsignal hfree
      · exact (hcoherent.but current).giveUp hcurrent hpending maxLockDepth
      · obtain ⟨owner, howner⟩ := owner_of_not_taken htake
        refine hcoherent.block hfree howner ?_ hpending maxLockDepth detectDeadlock
        rintro rfl
        have hpending := (hcoherent.placed owner).own mutex detectDeadlock hwaiting howner
        simp [tryToTake, howner, hpending] at htake
      · exact hcoherent

theorem Coherent.unlock (howner : s.owner mutex = some current) :
    Coherent (s.unlock mutex current) := by
  rw [State.unlock]
  cases htop : s.topWaiter mutex with
  | none =>
    refine ⟨⟨hcoherent.blocked, hcoherent.nodup, ?_, hcoherent.piNodup⟩, fun task => ?_⟩
    · intro task waiter hmem
      obtain ⟨lock, hlock, hfirst⟩ := hcoherent.piTop task waiter hmem
      refine ⟨lock, ?_, hfirst⟩
      simp only
      rw [update_of_ne]
      · exact hlock
      · rintro rfl
        rw [htop] at hfirst
        cases hfirst
    · have hless : ∀ lock, update s.owner mutex none lock = some task →
          s.owner lock = some task := by
        intro lock hlock
        by_cases heq : lock = mutex
        · rw [heq, update_self] at hlock
          cases hlock
        · rwa [update_of_ne heq] at hlock
      refine ⟨(hcoherent.placed task).called, ?_, fun lock detect hcall hown =>
          (hcoherent.placed task).own lock detect hcall (hless lock hown),
        fun lock hown => (hcoherent.placed task).pendowner lock (hless lock hown)⟩
      intro lock hlock
      have hne : lock ≠ mutex := by
        rintro rfl
        obtain ⟨top, hfirst⟩ := hcoherent.exists_top hlock
        rw [htop] at hfirst
        cases hfirst
      simp only
      rw [update_of_ne hne]
      exact (hcoherent.placed task).foreign lock hlock
  | some pendowner =>
    obtain ⟨howner', hpending, hblocked, hwaiting, -⟩ :=
      wakeupNextWaiter_graph s mutex current pendowner
    have hlinked := hcoherent.toLinked.wakeupNextWaiter howner htop
    refine ⟨hlinked.adjustPrio current, fun task => ?_⟩
    have hold : ∀ lock, update s.blockedOn pendowner none task = some lock →
        task ≠ pendowner ∧ s.blockedOn task = some lock := by
      intro lock hlock
      by_cases heq : task = pendowner
      · rw [heq, update_self] at hlock
        cases hlock
      · rw [update_of_ne heq] at hlock
        exact ⟨heq, hlock⟩
    have hplaced : WellPlaced (s.wakeupNextWaiter mutex current pendowner) task := by
      constructor
      · rw [hblocked, hwaiting]
        exact fun lock hlock => (hcoherent.placed task).called lock (hold lock hlock).2
      · rw [hblocked, howner']
        intro lock hlock
        obtain ⟨hne, hlock⟩ := hold lock hlock
        rw [update_apply]
        split_ifs
        · exact ⟨pendowner, rfl, Ne.symm hne⟩
        · exact (hcoherent.placed task).foreign lock hlock
      · rw [hwaiting, howner', hpending]
        intro lock detect hcall hown
        by_cases heq : lock = mutex
        · rw [heq, update_self]
        · rw [update_of_ne heq] at hown ⊢
          exact (hcoherent.placed task).own lock detect hcall hown
      · rw [howner', hpending, hblocked, hwaiting]
        intro lock hown htrue
        by_cases heq : lock = mutex
        · rw [heq, update_self] at hown
          obtain rfl := some.inj hown
          rw [heq, update_self]
          exact ⟨rfl, (hcoherent.placed pendowner).called mutex (hcoherent.blockedOn_of_top htop)⟩
        · rw [update_of_ne heq] at hown htrue
          obtain ⟨hfree, hcall⟩ := (hcoherent.placed task).pendowner lock hown htrue
          refine ⟨?_, hcall⟩
          by_cases heq' : task = pendowner
          · rw [heq', update_self]
          · rw [update_of_ne heq']
            exact hfree
    exact hplaced.congr rfl rfl rfl rfl

theorem Coherent.setScheduler (maxLockDepth : ℕ) (task : Task) (normalPrio : ℕ) :
    Coherent (s.setScheduler maxLockDepth task normalPrio) := by
  have hchanged : Coherent (s.newPrio task normalPrio) :=
    ⟨⟨hcoherent.blocked, hcoherent.nodup, hcoherent.piTop, hcoherent.piNodup⟩,
      fun other => (hcoherent.placed other).congr rfl rfl rfl rfl⟩
  rw [State.setScheduler]
  split_ifs
  · exact hchanged
  · obtain ⟨hchain, hgraph⟩ := hchanged.toLinked.adjustPrioChain maxLockDepth task none
    exact ⟨hchain, fun other => (hchanged.placed other).congr hgraph.owner hgraph.pending
      (congrFun hgraph.blockedOn other) (congrFun hgraph.waiting other)⟩

end

/-- No task blocks on a mutex that it owns. -/
def OthersMutex (s : State Task Lock) : Op Task Lock → Prop
  | .lock current lock _ signal => signal = false → s.owner lock ≠ some current
  | _ => True

instance (s : State Task Lock) : (op : Op Task Lock) → Decidable (OthersMutex s op)
  | .lock current lock _ signal =>
    inferInstanceAs (Decidable (signal = false → s.owner lock ≠ some current))
  | .wake _ _ => inferInstanceAs (Decidable True)
  | .unlock _ _ => inferInstanceAs (Decidable True)
  | .setScheduler _ _ => inferInstanceAs (Decidable True)

theorem Coherent.perform (hcoherent : Coherent s) {op : Op Task Lock} (henabled : s.Enabled op)
    (hothers : OthersMutex s op) (maxLockDepth : ℕ) : Coherent (s.perform maxLockDepth op) := by
  cases op with
  | lock current lock detectDeadlock signal =>
    exact hcoherent.lock henabled hothers maxLockDepth detectDeadlock
  | wake current signal => exact hcoherent.wake maxLockDepth current signal
  | unlock current lock => exact hcoherent.unlock henabled.2.1
  | setScheduler task normalPrio => exact hcoherent.setScheduler maxLockDepth task normalPrio

theorem coherent_of_reachable {maxLockDepth : ℕ} {Allowed : State Task Lock → Op Task Lock → Prop}
    (hallowed : ∀ s op, Allowed s op → OthersMutex s op)
    (hreachable : Reachable maxLockDepth Allowed s) : Coherent s := by
  induction hreachable with
  | initial normalPrio => exact coherent_initial normalPrio
  | perform op _ henabled hstep ih => exact ih.perform henabled (hallowed _ op hstep) maxLockDepth

end Operations

end KernelM5040.RtMutex
