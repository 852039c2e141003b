import KernelM5040.Kernel.TimerWheel

/-!
# The timer wheel over whole runs

The agenda says what the wheel is for: it counts ticks and remembers, for each
timer, the tick at which it is to run.  Every run of the wheel keeps to it.
-/

namespace KernelM5040.Timer

open Buckets List Function

/-- The tick to be processed next, not wrapped around, and the effective expiry
of each timer. -/
structure Agenda where
  now : ℕ
  expiry : ℕ → ℕ

namespace Agenda

/-- The requested expiry, unless it lies before the tick to be processed next. -/
def effectiveExpiry (now : ℕ) (expires : Word) : ℕ :=
  if (expires - BitVec.ofNat 64 now).toInt < 0 then now
  else now + (expires - BitVec.ofNat 64 now).toNat

def step (agenda : Agenda) : Op → Agenda
  | .add timer expires =>
    { agenda with
      expiry := Function.update agenda.expiry timer (effectiveExpiry agenda.now expires) }
  | .tick => { agenda with now := agenda.now + 1 }
  | .advance _ | .remove _ | .execute _ => agenda

def run (agenda : Agenda) (ops : List Op) : Agenda := ops.foldl step agenda

def init (timerJiffies : Word) : Agenda := { now := timerJiffies.toNat, expiry := fun _ => 0 }

end Agenda

/-- The wheel keeps to the agenda; the work list holds what is left of the tick
before the next one. -/
structure Keeps (baseSmall : Bool) (agenda : Agenda) (state : State) : Prop where
  wheel : Wheel baseSmall agenda.now (fun _ => agenda.now) agenda.expiry state.base
  nodup : state.workList.Nodup
  apart : ∀ timer ∈ state.workList, ¬ Buckets.Holds state.base.vec timer
  due : ∀ timer ∈ state.workList, agenda.expiry timer + 1 = agenda.now
  pending : ∀ timer, state.base.timerPending timer = true ↔
    timer ∈ state.workList ∨ Buckets.Holds state.base.vec timer

section Steps

variable {baseSmall : Bool} {agenda : Agenda} {state : State}

theorem Keeps.marked (hkeeps : Keeps baseSmall agenda state) : Marked state.base :=
  fun timer hholds => (hkeeps.pending timer).mpr (Or.inr hholds)

theorem keeps_init (timerJiffies jiffies : Word) :
    Keeps baseSmall (Agenda.init timerJiffies) (State.init timerJiffies jiffies) := by
  have hfree : ∀ timer, ¬ Holds (State.init timerJiffies jiffies).base.vec timer := by
    rintro timer ⟨slot, hmem⟩
    exact absurd hmem not_mem_nil
  refine ⟨⟨?_, apart_empty, ?_, ?_⟩, nodup_nil, ?_, ?_, ?_⟩
  · exact (BitVec.ofNat_toNat 64 timerJiffies |>.trans (BitVec.setWidth_eq _)).symm
  · intro timer slot hmem
    exact absurd hmem not_mem_nil
  · intro timer slot hmem
    exact absurd hmem not_mem_nil
  · intro timer hmem
    exact absurd hmem not_mem_nil
  · intro timer hmem
    exact absurd hmem not_mem_nil
  intro timer
  constructor
  · intro hpending
    exact absurd hpending Bool.false_ne_true
  · rintro (hmem | hholds)
    · exact absurd hmem not_mem_nil
    · exact absurd hholds (hfree timer)

/-- A requested expiry that is not in the past is the effective one. -/
theorem effectiveExpiry_word {now : ℕ} {expires : Word}
    (hahead : ¬ (expires - BitVec.ofNat 64 now).toInt < 0) :
    expires = BitVec.ofNat 64 (Agenda.effectiveExpiry now expires) ∧
      Agenda.effectiveExpiry now expires < now + 2 ^ 63 := by
  rw [Agenda.effectiveExpiry, if_neg hahead]
  constructor
  · rw [BitVec.ofNat_add, BitVec.ofNat_toNat, BitVec.setWidth_eq]
    ring
  · rw [BitVec.toInt_eq_toNat_cond] at hahead
    split at hahead <;> omega

theorem now_le_effectiveExpiry (now : ℕ) (expires : Word) :
    now ≤ Agenda.effectiveExpiry now expires := by
  unfold Agenda.effectiveExpiry
  split <;> omega

/-- The list chosen for a new timer suits its effective expiry. -/
theorem placed_effectiveExpiry (now : ℕ) (expires : Word) :
    Placed baseSmall now (fun _ => now) (Agenda.effectiveExpiry now expires)
      (chooseVec baseSmall (BitVec.ofNat 64 now) expires) := by
  by_cases hpast : (expires - BitVec.ofNat 64 now).toInt < 0
  · rw [chooseVec_past hpast, Agenda.effectiveExpiry, if_pos hpast]
    exact (if_pos rfl).mpr ⟨le_rfl, Nat.lt_add_of_pos_right (by positivity), rfl⟩
  obtain ⟨hword, hlt⟩ := effectiveExpiry_word hpast
  have hplaced := @placed_chooseVec baseSmall now _ (now_le_effectiveExpiry now expires) hlt
  rw [← hword] at hplaced
  exact hplaced.mono fun _ => Nat.le_succ now

section

variable (hkeeps : Keeps baseSmall agenda state)
include hkeeps

theorem Keeps.add {timer : ℕ} (expires : Word) (hfree : ¬ state.base.timerPending timer = true) :
    Keeps baseSmall (agenda.step (.add timer expires))
      { state with
        base := internalAddTimer baseSmall
          { state.base with expires := update state.base.expires timer expires } timer } := by
  rw [hkeeps.pending, not_or] at hfree
  have hclock := hkeeps.wheel.clock
  have hother : ∀ {other}, other ≠ timer →
      update agenda.expiry timer (Agenda.effectiveExpiry agenda.now expires) other =
        agenda.expiry other := fun hne => update_of_ne hne _ _
  have hmem : ∀ {other slot}, other ∈ (internalAddTimer baseSmall
      { state.base with expires := update state.base.expires timer expires } timer).vec slot ↔
      other ∈ state.base.vec slot ∨ other = timer ∧
        slot = chooseVec baseSmall (BitVec.ofNat 64 agenda.now) expires := by
    intro other slot
    simp [internalAddTimer, mem_push, hclock]
  have hne : ∀ {other slot}, other ∈ state.base.vec slot → other ≠ timer := by
    rintro other slot hold rfl
    exact hfree.2 ⟨slot, hold⟩
  refine ⟨⟨hclock, hkeeps.wheel.apart.push hfree.2, ?_, ?_⟩, hkeeps.nodup, ?_, ?_, ?_⟩
  · intro other slot hplace
    rcases hmem.mp hplace with hold | ⟨rfl, rfl⟩
    · simp only [Agenda.step, hother (hne hold)]
      exact hkeeps.wheel.placed hold
    · simp only [Agenda.step, update_self]
      exact placed_effectiveExpiry agenda.now expires
  · intro other slot hplace htv
    rcases hmem.mp hplace with hold | ⟨rfl, rfl⟩
    · simp only [Agenda.step, internalAddTimer, hother (hne hold), update_of_ne (hne hold)]
      exact hkeeps.wheel.word hold htv
    simp only [Agenda.step, internalAddTimer, update_self]
    apply effectiveExpiry_word
    intro hpast
    rw [chooseVec_past hpast] at htv
    exact htv rfl
  · rintro other hwork ⟨slot, hplace⟩
    rcases hmem.mp hplace with hold | ⟨rfl, -⟩
    · exact hkeeps.apart other hwork ⟨slot, hold⟩
    · exact hfree.1 hwork
  · intro other hwork
    have hother' : other ≠ timer := by
      rintro rfl
      exact hfree.1 hwork
    simp only [Agenda.step, hother hother']
    exact hkeeps.due other hwork
  · intro other
    by_cases heq : other = timer
    · rw [heq]
      constructor
      · exact fun _ => Or.inr ⟨_, hmem.mpr (Or.inr ⟨rfl, rfl⟩)⟩
      · exact fun _ => update_self _ _ _
    have hholds : Holds (internalAddTimer baseSmall
        { state.base with expires := update state.base.expires timer expires }
        timer).vec other ↔ Holds state.base.vec other := by
      apply exists_congr
      intro slot
      rw [hmem]
      simp [heq]
    rw [hholds, ← hkeeps.pending other]
    simp [internalAddTimer, update_of_ne heq]

theorem Keeps.detach (timer : ℕ) : Keeps baseSmall agenda (detachTimer state timer) := by
  have hapart := hkeeps.wheel.apart
  have hwork : ∀ {other}, other ∈ state.workList.erase timer ↔
      other ∈ state.workList ∧ other ≠ timer := by
    intro other
    rw [hkeeps.nodup.mem_erase_iff, and_comm]
  have hholds : ∀ other, Holds (remove state.base.vec timer) other ↔
      Holds state.base.vec other ∧ other ≠ timer := by
    intro other
    simp [Holds, mem_remove hapart, exists_and_right]
  refine ⟨⟨hkeeps.wheel.clock, hapart.remove, ?_, ?_⟩, hkeeps.nodup.erase timer, ?_, ?_, ?_⟩
  · intro other slot hmem
    exact hkeeps.wheel.placed ((mem_remove hapart).mp hmem).1
  · intro other slot hmem
    exact hkeeps.wheel.word ((mem_remove hapart).mp hmem).1
  · intro other hmem hplace
    exact hkeeps.apart other (hwork.mp hmem).1 ((hholds other).mp hplace).1
  · intro other hmem
    exact hkeeps.due other (hwork.mp hmem).1
  intro other
  simp only [detachTimer, hwork, hholds, ← or_and_right, ← hkeeps.pending other]
  by_cases heq : other = timer
  · simp [heq]
  · simp [heq]

theorem Keeps.tick (hempty : state.workList = []) :
    Keeps baseSmall (agenda.step .tick)
      { state with
        base := (startTick baseSmall state.base).1
        workList := (startTick baseSmall state.base).2 } := by
  obtain ⟨hwheel, hmem, hnodup, hholds⟩ := hkeeps.wheel.startTick
  refine ⟨hwheel, hnodup, ?_, ?_, ?_⟩
  · intro timer hwork hplace
    exact ((hholds timer).mp hplace).2 ((hmem timer).mp hwork).2
  · intro timer hwork
    rw [Agenda.step, ((hmem timer).mp hwork).2]
  intro timer
  have hpending : (startTick baseSmall state.base).1.timerPending = state.base.timerPending :=
    cascadeTimers_timerPending hkeeps.marked
  rw [hpending, hkeeps.pending timer, hmem, hholds, hempty, ← and_or_left]
  simp [em]

end

theorem Keeps.step (hkeeps : Keeps baseSmall agenda state) {op : Op} {next : State}
    (hstep : step baseSmall state op = some next) : Keeps baseSmall (agenda.step op) next := by
  cases op with
  | advance ticks =>
    simp only [Timer.step, Option.some.injEq] at hstep
    subst hstep
    exact ⟨hkeeps.wheel, hkeeps.nodup, hkeeps.apart, hkeeps.due, hkeeps.pending⟩
  | add timer expires =>
    simp only [Timer.step] at hstep
    split at hstep
    · cases hstep
    · cases hstep
      exact hkeeps.add expires ‹_›
  | remove timer =>
    simp only [Timer.step] at hstep
    split at hstep
    · cases hstep
      exact hkeeps.detach timer
    · cases hstep
  | tick =>
    simp only [Timer.step] at hstep
    split at hstep
    · rename_i hguard
      cases hstep
      rw [Bool.and_eq_true, List.isEmpty_iff] at hguard
      exact hkeeps.tick hguard.1
    · cases hstep
  | execute timer =>
    simp only [Timer.step] at hstep
    split at hstep
    · cases hstep
      exact hkeeps.detach timer
    · cases hstep

theorem Keeps.run {ops : List Op} (hkeeps : Keeps baseSmall agenda state) {final : State}
    (hrun : run baseSmall state ops = some final) : Keeps baseSmall (agenda.run ops) final := by
  induction ops generalizing agenda state with
  | nil =>
    cases hrun
    exact hkeeps
  | cons op ops ih =>
    obtain ⟨next, hstep, hrest⟩ := Option.bind_eq_some_iff.mp hrun
    exact ih (hkeeps.step hstep) hrest

end Steps

/-- In every run the wheel runs each timer on time.  When a tick is processed,
the timers detached for it are exactly the pending ones whose effective expiry
it is; a timer is called only then, and is no longer pending; no pending timer
is overdue, and the wheel never gets stuck. -/
theorem timers_run_on_time (baseSmall : Bool) (timerJiffies jiffies : Word) (ops : List Op)
    (state : State) (hrun : run baseSmall (State.init timerJiffies jiffies) ops = some state) :
    let agenda := (Agenda.init timerJiffies).run ops
    state.base.timerJiffies = BitVec.ofNat 64 agenda.now ∧
    (∀ next, step baseSmall state .tick = some next →
      next.workList.Nodup ∧ ∀ timer, timer ∈ next.workList ↔
        state.base.timerPending timer = true ∧ agenda.expiry timer = agenda.now) ∧
    (∀ timer next, step baseSmall state (.execute timer) = some next →
      state.base.timerPending timer = true ∧ next.base.timerPending timer = false ∧
        agenda.expiry timer + 1 = agenda.now) ∧
    (∀ timer, state.base.timerPending timer = true → agenda.now ≤ agenda.expiry timer ∨
        timer ∈ state.workList ∧ agenda.expiry timer + 1 = agenda.now) ∧
    (timeAfterEq state.jiffies state.base.timerJiffies = true →
      ∃ op next, (op = .tick ∨ ∃ timer, op = .execute timer) ∧
        step baseSmall state op = some next) := by
  intro agenda
  have hkeeps : Keeps baseSmall agenda state := (keeps_init timerJiffies jiffies).run hrun
  refine ⟨hkeeps.wheel.clock, ?_, ?_, ?_, ?_⟩
  · intro next hstep
    obtain ⟨-, hmem, hnodup, -⟩ := hkeeps.wheel.startTick
    simp only [step] at hstep
    split at hstep
    · rename_i hguard
      cases hstep
      rw [Bool.and_eq_true, List.isEmpty_iff] at hguard
      refine ⟨hnodup, fun timer => ?_⟩
      rw [hmem, hkeeps.pending timer, hguard.1]
      simp
    · cases hstep
  · intro timer next hstep
    simp only [step] at hstep
    split at hstep
    · rename_i hhead
      cases hstep
      have hwork := mem_of_mem_head? hhead
      refine ⟨(hkeeps.pending timer).mpr (Or.inl hwork), ?_, hkeeps.due timer hwork⟩
      exact update_self _ _ _
    · cases hstep
  · intro timer hpending
    rcases (hkeeps.pending timer).mp hpending with hwork | ⟨slot, hmem⟩
    · exact Or.inr ⟨hwork, hkeeps.due timer hwork⟩
    left
    by_cases htv : slot.1 = .tv1
    · have hplaced := hkeeps.wheel.placed hmem
      unfold Placed at hplaced
      rw [if_pos htv] at hplaced
      exact hplaced.1
    · exact hkeeps.wheel.low_le hmem htv
  · intro hafter
    rcases hwork : state.workList with _ | ⟨timer, rest⟩
    · refine ⟨.tick, { state with
        base := (startTick baseSmall state.base).1
        workList := (startTick baseSmall state.base).2 }, Or.inl rfl, ?_⟩
      simp [step, hwork, hafter, isEmpty_nil, Bool.and_self]
    · refine ⟨.execute timer, detachTimer state timer, Or.inr ⟨timer, rfl⟩, ?_⟩
      simp [step, hwork]

/-- A timer two ticks ahead and one in the past, over the wrap-around. -/
theorem timers_run_on_time_wrap :
    ∃ state, run false (State.init (-1) 1) [.add 7 1, .add 8 (-5), .tick, .execute 8, .tick, .tick] =
        some state ∧ state.workList = [7] ∧
      (∀ next, step false state (.execute 7) = some next →
        state.base.timerPending 7 = true ∧ next.base.timerPending 7 = false ∧
          ((Agenda.init (-1)).run
            [.add 7 1, .add 8 (-5), .tick, .execute 8, .tick, .tick]).expiry 7 + 1 =
          ((Agenda.init (-1)).run
            [.add 7 1, .add 8 (-5), .tick, .execute 8, .tick, .tick]).now) := by
  refine ⟨_, rfl, rfl, ?_⟩
  exact (timers_run_on_time false (-1) 1 _ _ rfl).2.2.1 7

end KernelM5040.Timer
