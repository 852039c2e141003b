import KernelM5040.Kernel.RtMutexChain

/-!
# The lists stay linked in every run

Taking a mutex, blocking, giving up and unlocking are sequences of changes of one
list.  Each of them keeps the lists linked, if the waiters that it touches are in
the right list.
-/

namespace KernelM5040.RtMutex

open State Option Function PriorityList List

variable {Task Lock : Type}

variable [DecidableEq Task]

section Changes

variable {s : State Task Lock} {lock : Lock} {owner waiter task : Task}

theorem Linked.piDel (hlinked : Linked s) (task waiter : Task) : Linked (s.piDel task waiter) := by
  have hsub : ∀ other, ((s.piDel task waiter).piWaiters other).Sublist (s.piWaiters other) := by
    intro other
    by_cases hother : other = task
    · subst hother
      simpa [State.piDel] using erase_sublist
    · simp [State.piDel, hother]
  exact ⟨hlinked.blocked, hlinked.nodup,
    fun other found hfound => hlinked.piTop other found ((hsub other).subset hfound),
    fun other => (hlinked.piNodup other).sublist (hsub other)⟩

theorem Linked.piAdd (hlinked : Linked s) (howner : s.owner lock = some task)
    (htop : s.topWaiter lock = some waiter) (hnew : waiter ∉ s.piWaiters task) :
    Linked (s.piAdd task waiter) := by
  refine ⟨hlinked.blocked, hlinked.nodup, ?_, ?_⟩
  · intro other found hfound
    by_cases hother : other = task
    · subst hother
      simp only [State.piAdd, update_self, mem_insert] at hfound
      rcases hfound with rfl | hold
      · exact ⟨lock, howner, htop⟩
      · exact hlinked.piTop other found hold
    · simp only [State.piAdd, update_of_ne hother] at hfound
      exact hlinked.piTop other found hfound
  · intro other
    by_cases hother : other = task
    · subst hother
      simpa [State.piAdd] using nodup_insert hnew (hlinked.piNodup other)
    · simpa [State.piAdd, hother] using hlinked.piNodup other

theorem Linked.not_mem_piDel (hlinked : Linked s) (hblocked : s.blockedOn waiter = some lock)
    (howner : s.owner lock = some owner) (task : Task) :
    waiter ∉ (s.piDel owner waiter).piWaiters task := by
  intro hmem
  by_cases htask : task = owner
  · subst htask
    simp only [State.piDel, update_self] at hmem
    exact (hlinked.piNodup task).not_mem_erase hmem
  · simp only [State.piDel, update_of_ne htask] at hmem
    have hother := (hlinked.mem_piWaiters hmem hblocked).1
    rw [howner] at hother
    exact htask (some.inj hother).symm

variable [DecidableEq Lock]

theorem Linked.setOwner (hlinked : Linked s)
    (htop : ∀ waiter, s.topWaiter lock = some waiter → ∀ other ≠ task, waiter ∉ s.piWaiters other)
    (pending : Bool) : Linked (s.setOwner lock task pending) := by
  refine ⟨hlinked.blocked, hlinked.nodup, ?_, hlinked.piNodup⟩
  intro other found hfound
  obtain ⟨mutex, howner, hfirst⟩ := hlinked.piTop other found hfound
  refine ⟨mutex, ?_, hfirst⟩
  simp only [State.setOwner]
  by_cases hmutex : mutex = lock
  · subst hmutex
    by_cases hother : other = task
    · rw [update_self, hother]
    · exact absurd hfound (htop found hfirst other hother)
  · rw [update_of_ne hmutex]
    exact howner

theorem Linked.removed (hlinked : Linked s) (hblocked : s.blockedOn waiter = some lock)
    (hnone : ∀ task, waiter ∉ s.piWaiters task) : Linked (s.removed lock waiter) := by
  have htop : ∀ other found, found ≠ waiter → s.topWaiter other = some found →
      (s.removed lock waiter).topWaiter other = some found := by
    intro other found hne hfirst
    simp only [topWaiter, State.removed, State.setBlockedOn, State.waitDel]
    by_cases hother : other = lock
    · subst hother
      rw [update_self, head?_erase_of_ne]
      · exact hfirst
      · rw [← topWaiter, hfirst]
        simpa using hne
    · rw [update_of_ne hother]
      exact hfirst
  refine ⟨?_, ?_, ?_, hlinked.piNodup⟩
  · intro other found
    simp only [State.removed, State.setBlockedOn, State.waitDel]
    by_cases hfound : found = waiter
    · subst hfound
      rw [update_self]
      refine iff_of_false ?_ (by simp)
      rw [update_apply]
      split_ifs with hother
      · exact (hlinked.nodup lock).not_mem_erase
      · rw [hlinked.blocked, hblocked]
        exact fun heq => hother (some.inj heq).symm
    · rw [update_of_ne hfound, ← hlinked.blocked]
      by_cases hother : other = lock
      · rw [hother, update_self]
        exact mem_erase_of_ne hfound
      · rw [update_of_ne hother]
  · intro other
    simp only [State.removed, State.setBlockedOn, State.waitDel]
    rw [update_apply]
    split_ifs
    · exact (hlinked.nodup lock).erase waiter
    · exact hlinked.nodup other
  · intro task found hfound
    obtain ⟨other, howner, hfirst⟩ := hlinked.piTop task found hfound
    refine ⟨other, howner, htop other found ?_ hfirst⟩
    rintro rfl
    exact hnone task hfound

section

variable (hlinked : Linked s) (hfree : s.blockedOn waiter = none)
include hlinked hfree

theorem Linked.enqueue_blocked (lock other : Lock) (found : Task) :
    found ∈ (s.enqueue lock waiter).waitList other ↔
      (s.enqueue lock waiter).blockedOn found = some other := by
  rw [enqueue_blockedOn]
  by_cases hfound : found = waiter
  · subst hfound
    rw [update_self]
    by_cases hother : other = lock
    · simp [hother, enqueue_waitList]
    · rw [enqueue_waitList_of_ne hother, hlinked.blocked, hfree]
      exact iff_of_false nofun fun heq => hother (some.inj heq).symm
  · rw [update_of_ne hfound, ← hlinked.blocked]
    by_cases hother : other = lock
    · rw [hother, enqueue_waitList, mem_insert, or_iff_right hfound]
    · rw [enqueue_waitList_of_ne hother]

theorem Linked.enqueue_nodup (lock other : Lock) :
    ((s.enqueue lock waiter).waitList other).Nodup := by
  by_cases hother : other = lock
  · rw [hother, enqueue_waitList]
    refine nodup_insert ?_ (hlinked.nodup lock)
    rw [hlinked.blocked, hfree]
    exact nofun
  · rw [enqueue_waitList_of_ne hother]
    exact hlinked.nodup other

theorem Linked.enqueue (hlead : ¬WouldLead s lock waiter (s.getprio waiter)) :
    Linked (s.enqueue lock waiter) := by
  refine ⟨hlinked.enqueue_blocked hfree lock, hlinked.enqueue_nodup hfree lock, ?_, hlinked.piNodup⟩
  intro task found hfound
  obtain ⟨other, howner, hfirst⟩ := hlinked.piTop task found hfound
  refine ⟨other, howner, ?_⟩
  by_cases hother : other = lock
  · subst hother
    rw [topWaiter_enqueue_of_not_lead hlinked hfree hlead]
    exact hfirst
  · rw [topWaiter, enqueue_waitList_of_ne hother]
    exact hfirst

theorem Linked.enqueue_lead (howner : s.owner lock = some owner)
    (hlead : WouldLead s lock waiter (s.getprio waiter)) :
    Linked (withTop (s.enqueue lock waiter) owner ((s.topWaiter lock).getD waiter) waiter) := by
  have hnotMem := hlinked.not_mem_piWaiters hfree owner
  apply hlinked.relink howner
  · rw [withTop_owner, enqueue_owner]
  · rw [withTop_waitList, withTop_blockedOn]
    exact hlinked.enqueue_blocked hfree lock lock
  · intro other hother found
    rw [withTop_blockedOn, enqueue_blockedOn]
    by_cases hfound : found = waiter
    · subst hfound
      rw [update_self, hfree]
      exact iff_of_false (fun heq => hother (some.inj heq).symm) nofun
    · rw [update_of_ne hfound]
  · rw [withTop_waitList]
    exact hlinked.enqueue_nodup hfree lock lock
  · intro other hother
    rw [withTop_waitList, enqueue_waitList_of_ne hother]
  · intro task htask
    rw [withTop_piWaiters_of_ne htask, enqueue_piWaiters]
  · intro found hfound
    rw [withTop_piWaiters, mem_insert] at hfound
    rcases hfound with rfl | hold
    · rw [withTop_topWaiter]
      exact Or.inr ((topWaiter_enqueue_iff hlinked hfree).mpr hlead)
    · obtain ⟨hne, hold⟩ := (hlinked.piNodup owner).mem_erase_iff.mp hold
      refine Or.inl ⟨hold, fun htop => hne ?_⟩
      rw [htop, getD_some]
  · rw [withTop_piWaiters]
    exact nodup_insert (fun hmem => hnotMem (mem_of_mem_erase hmem))
      ((hlinked.piNodup owner).erase _)

end

end Changes

variable [DecidableEq Lock]

section Take

variable (s : State Task Lock) (lock : Lock) (current : Task)

/-- The mutex is free or the caller's, or it is stolen from its pending owner. -/
inductive Taken : State Task Lock → Prop
  | free (howner : s.owner lock = none) : Taken (s.setOwner lock current false)
  | own (howner : s.owner lock = some current) (hpending : s.pending lock = true) :
      Taken (s.setOwner lock current false)
  | stolen (pendowner : Task) (howner : s.owner lock = some pendowner)
      (hpending : s.pending lock = true) (hother : pendowner ≠ current)
      (hprio : s.prio current < s.prio pendowner) :
      Taken ((s.stealLock lock pendowner current).setOwner lock current false)

variable {s lock current} {taken : State Task Lock}

theorem taken_of_tryToTake (htake : s.tryToTake lock current = some taken) :
    Taken s lock current taken := by
  rw [tryToTake] at htake
  cases howner : s.owner lock with
  | none =>
    rw [howner] at htake
    cases htake
    exact .free howner
  | some pendowner =>
    rw [howner] at htake
    simp only at htake
    split_ifs at htake with hpending hself hprio
    · cases htake
      exact .own (hself ▸ howner) (by simpa using hpending)
    · cases htake
      exact .stolen pendowner howner (by simpa using hpending) hself (not_le.mp hprio)

theorem owner_of_not_taken (htake : s.tryToTake lock current = none) :
    ∃ owner, s.owner lock = some owner := by
  rw [tryToTake] at htake
  cases howner : s.owner lock with
  | none => simp [howner] at htake
  | some owner => exact ⟨owner, rfl⟩

theorem Taken.graph (htaken : Taken s lock current taken) :
    taken.owner = Function.update s.owner lock (some current) ∧
      taken.pending = Function.update s.pending lock false ∧
      taken.blockedOn = s.blockedOn ∧ taken.waiting = s.waiting := by
  cases htaken with
  | free howner | own howner hpending => exact ⟨rfl, rfl, rfl, rfl⟩
  | stolen pendowner howner hpending hother hprio =>
    rw [stealLock]
    cases s.topWaiter lock with
    | none => exact ⟨rfl, rfl, rfl, rfl⟩
    | some next =>
      simp only
      split_ifs
      · exact ⟨rfl, rfl, rfl, rfl⟩
      · exact ⟨rfl, rfl, rfl, rfl⟩

theorem Linked.take (hlinked : Linked s) (htaken : Taken s lock current taken) : Linked taken := by
  have howned : ∀ first task, s.topWaiter lock = some first → first ∈ s.piWaiters task →
      s.owner lock = some task := fun first task hfirst hmem =>
    (hlinked.mem_piWaiters hmem (hlinked.blockedOn_of_top hfirst)).1
  cases htaken with
  | free howner =>
    refine hlinked.setOwner ?_ false
    intro first hfirst task _ hmem
    have := howned first task hfirst hmem
    rw [howner] at this
    cases this
  | own howner hpending =>
    refine hlinked.setOwner ?_ false
    intro first hfirst task htask hmem
    have := howned first task hfirst hmem
    rw [howner] at this
    exact htask (some.inj this).symm
  | stolen pendowner howner hpending hother hprio =>
    rw [stealLock]
    cases htop : s.topWaiter lock with
    | none =>
      refine hlinked.setOwner ?_ false
      intro first hfirst
      rw [htop] at hfirst
      cases hfirst
    | some next =>
      have hnone := hlinked.not_mem_piDel (hlinked.blockedOn_of_top htop) howner
      have hdel : Linked ((s.piDel pendowner next).setOwner lock current false) := by
        refine (hlinked.piDel pendowner next).setOwner ?_ false
        intro first hfirst task _
        obtain rfl : next = first := some.inj (htop.symm.trans hfirst)
        exact hnone task
      simp only
      split_ifs with hself
      · exact ⟨hdel.blocked, hdel.nodup, hdel.piTop, hdel.piNodup⟩
      have howner' : ((s.piDel pendowner next).setOwner lock current false).owner lock =
          some current := by simp [State.setOwner]
      have hadd := hdel.piAdd howner' htop (hnone current)
      exact ⟨hadd.blocked, hadd.nodup, hadd.piTop, hadd.piNodup⟩

end Take

section Block

variable {s : State Task Lock} {lock : Lock} {current owner : Task}

theorem Linked.taskBlocks (hlinked : Linked s) (hfree : s.blockedOn current = none)
    (howner : s.owner lock = some owner) (maxLockDepth : ℕ) (detectDeadlock : Bool) :
    Linked (s.taskBlocks maxLockDepth lock current detectDeadlock).1 ∧
      SameGraph (s.enqueue lock current)
        (s.taskBlocks maxLockDepth lock current detectDeadlock).1 := by
  have hlead : (s.enqueue lock current).topWaiter lock = some current ↔
      WouldLead s lock current (s.getprio current) := topWaiter_enqueue_iff hlinked hfree
  rw [State.taskBlocks, howner]
  simp only
  split_ifs with htop hrunning hdetect
  · rw [boosted_eq_withTop]
    exact ⟨hlinked.enqueue_lead hfree howner (hlead.mp htop), withTop_sameGraph⟩
  · rw [boosted_eq_withTop]
    obtain ⟨hchain, hsame⟩ := (hlinked.enqueue_lead hfree howner (hlead.mp htop)).adjustPrioChain
      maxLockDepth owner (some current)
    exact ⟨hchain, withTop_sameGraph.trans hsame⟩
  · exact (hlinked.enqueue hfree (hlead.not.mp htop)).adjustPrioChain maxLockDepth owner
      (some current)
  · exact ⟨hlinked.enqueue hfree (hlead.not.mp htop), SameGraph.refl _⟩

theorem relinked_sameGraph (s : State Task Lock) (lock : Lock) (owner current : Task) :
    SameGraph (s.removed lock current) (s.relinked lock owner current) := by
  rw [State.relinked]
  cases (s.removed lock current).topWaiter lock with
  | none | some next => exact ⟨rfl, rfl, rfl, rfl, rfl⟩

theorem Linked.relinked (hlinked : Linked s) (htop : s.topWaiter lock = some current)
    (howner : s.owner lock = some owner) : Linked (s.relinked lock owner current) := by
  have hblocked := hlinked.blockedOn_of_top htop
  have hdel : Linked ((s.removed lock current).piDel owner current) :=
    (hlinked.piDel owner current).removed hblocked (hlinked.not_mem_piDel hblocked howner)
  rw [State.relinked]
  cases hnext : (s.removed lock current).topWaiter lock with
  | none => exact hdel
  | some next =>
    refine hdel.piAdd howner hnext ?_
    have hmem : next ∈ (s.waitList lock).erase current := by
      simpa [State.removed, State.setBlockedOn, State.waitDel] using List.mem_of_head? hnext
    obtain ⟨hne, hmem⟩ := (hlinked.nodup lock).mem_erase_iff.mp hmem
    have hold : next ∉ s.piWaiters owner := by
      refine hlinked.not_mem_piWaiters_of_not_top ((hlinked.blocked lock next).mp hmem) ?_ owner
      rw [htop]
      simpa using Ne.symm hne
    intro hadded
    simp only [State.piDel, update_self] at hadded
    exact hold (mem_of_mem_erase hadded)

theorem Linked.removeWaiter (hlinked : Linked s) (hblocked : s.blockedOn current = some lock)
    (hself : s.owner lock = some current → current ∉ s.piWaiters current) (maxLockDepth : ℕ) :
    Linked (s.removeWaiter maxLockDepth lock current) ∧
      SameGraph (s.removed lock current) (s.removeWaiter maxLockDepth lock current) := by
  rw [State.removeWaiter]
  cases howner : s.owner lock with
  | none =>
    refine ⟨hlinked.removed hblocked fun task hmem => ?_, SameGraph.refl _⟩
    have := (hlinked.mem_piWaiters hmem hblocked).1
    rw [howner] at this
    cases this
  | some owner =>
    simp only
    have hgraph := (relinked_sameGraph s lock owner current).trans
      (adjustPrio_sameGraph (s.relinked lock owner current) owner)
    split_ifs with hfirst hrunning
    · exact ⟨(hlinked.relinked hfirst.1 howner).adjustPrio owner, hgraph⟩
    · obtain ⟨hchain, hsame⟩ := ((hlinked.relinked hfirst.1 howner).adjustPrio
        owner).adjustPrioChain maxLockDepth owner none
      exact ⟨hchain, hgraph.trans hsame⟩
    refine ⟨hlinked.removed hblocked fun task hmem => ?_, SameGraph.refl _⟩
    obtain ⟨htask, htop⟩ := hlinked.mem_piWaiters hmem hblocked
    obtain rfl : owner = task := some.inj (howner.symm.trans htask)
    have hsame : owner = current := by
      by_contra hne
      exact hfirst ⟨htop, hne⟩
    subst hsame
    exact hself htask hmem

end Block

end KernelM5040.RtMutex
