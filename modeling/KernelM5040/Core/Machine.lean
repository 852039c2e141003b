import Mathlib

/-!
# Machines that step until they exit

An interpreter loop is a total step function: one step emits the events of the
statement it executes and then either carries on from a new state or leaves
the loop with a result.  The rules below are the ones needed to reason about
every run of such a loop: an invariant rule, a termination rule by a
decreasing measure, and a rule for comparing two runs step by step.
-/

namespace KernelM5040.Machine

open List

/-- Where control goes after one step. -/
inductive Control (State Exit : Type*)
  | next (state : State)
  | exit (result : Exit)

/-- One executed step: the events it emits and where control goes. -/
structure Step (State Exit Event : Type*) where
  events : List Event
  control : Control State Exit

variable {State Exit Event : Type*}

/-- Execute at most `fuel` steps. -/
def runFor (step : State → Step State Exit Event) : ℕ → State → Control State Exit
  | 0, state => .next state
  | fuel + 1, state =>
    match (step state).control with
    | .next state' => runFor step fuel state'
    | .exit result => .exit result

/-- The events of the first `fuel` steps, oldest first. -/
def trace (step : State → Step State Exit Event) : ℕ → State → List Event
  | 0, _ => []
  | fuel + 1, state =>
    (step state).events ++
      match (step state).control with
      | .next state' => trace step fuel state'
      | .exit _ => []

variable {step : State → Step State Exit Event} {state state' : State} {fuel : ℕ} {result : Exit}

theorem runFor_succ_of_next (hstep : (step state).control = .next state') :
    runFor step (fuel + 1) state = runFor step fuel state' := by
  simp [runFor, hstep]

theorem runFor_succ_of_exit (hstep : (step state).control = .exit result) :
    runFor step (fuel + 1) state = .exit result := by
  simp [runFor, hstep]

theorem trace_succ_of_next (hstep : (step state).control = .next state') :
    trace step (fuel + 1) state = (step state).events ++ trace step fuel state' := by
  simp [trace, hstep]

theorem trace_succ_of_exit (hstep : (step state).control = .exit result) :
    trace step (fuel + 1) state = (step state).events := by
  simp [trace, hstep]

/-- Invariant rule: what every step preserves holds in every state a run
passes through. -/
theorem runFor_invariant (inv : State → Prop)
    (hstep : ∀ state state', inv state → (step state).control = .next state' → inv state')
    (hinit : inv state) (hrun : runFor step fuel state = .next state') : inv state' := by
  induction fuel generalizing state with
  | zero =>
    simp only [runFor, Control.next.injEq] at hrun
    exact hrun ▸ hinit
  | succ fuel ih =>
    cases hcontrol : (step state).control with
    | next middle =>
      rw [runFor_succ_of_next hcontrol] at hrun
      exact ih (hstep state middle hinit hcontrol) hrun
    | exit result => simp [runFor_succ_of_exit hcontrol] at hrun

/-- Termination rule: when every state of an invariant has a positive measure
and every step out of it either exits with a good result or lowers the
measure, a run exits within `measure` steps and with a good result. -/
theorem exists_exit_of_measure (inv : State → Prop) (good : Exit → Prop) (measure : State → ℕ)
    (hpositive : ∀ state, inv state → 0 < measure state)
    (hnext : ∀ state state', inv state → (step state).control = .next state' →
      inv state' ∧ measure state' < measure state)
    (hexit : ∀ state result, inv state → (step state).control = .exit result → good result)
    (hinit : inv state) (hfuel : measure state ≤ fuel) :
    ∃ result, runFor step fuel state = .exit result ∧ good result := by
  induction fuel generalizing state with
  | zero =>
    have := hpositive state hinit
    omega
  | succ fuel ih =>
    cases hcontrol : (step state).control with
    | next middle =>
      obtain ⟨hmiddle, hdecrease⟩ := hnext state middle hinit hcontrol
      rw [runFor_succ_of_next hcontrol]
      exact ih hmiddle (by omega)
    | exit result =>
      exact ⟨result, runFor_succ_of_exit hcontrol, hexit state result hinit hcontrol⟩

theorem runFor_exit_mono {more : ℕ} (hrun : runFor step fuel state = .exit result)
    (hle : fuel ≤ more) : runFor step more state = .exit result := by
  induction fuel generalizing state more with
  | zero => simp [runFor] at hrun
  | succ fuel ih =>
    obtain ⟨more, rfl⟩ : ∃ rest, more = rest + 1 := ⟨more - 1, by omega⟩
    cases hcontrol : (step state).control with
    | next middle =>
      rw [runFor_succ_of_next hcontrol] at hrun ⊢
      exact ih hrun (by omega)
    | exit result' =>
      rw [runFor_succ_of_exit hcontrol] at hrun ⊢
      exact hrun

/-- Invariant rule with the events so far: what every step with allowed events
preserves gives the result of an exited run together with all of its events. -/
theorem exit_trace_invariant (inv : State → List Event → Prop) (good : Exit → List Event → Prop)
    (allowed : Event → Prop) (hnext : ∀ state state' history, inv state history →
      (∀ event ∈ (step state).events, allowed event) → (step state).control = .next state' →
      inv state' (history ++ (step state).events))
    (hexit : ∀ state result history, inv state history →
      (∀ event ∈ (step state).events, allowed event) → (step state).control = .exit result →
      good result (history ++ (step state).events))
    {history : List Event} (hinit : inv state history)
    (hrun : runFor step fuel state = .exit result)
    (hallowed : ∀ event ∈ trace step fuel state, allowed event) :
    good result (history ++ trace step fuel state) := by
  induction fuel generalizing state history with
  | zero => simp [runFor] at hrun
  | succ fuel ih =>
    cases hcontrol : (step state).control with
    | next middle =>
      rw [runFor_succ_of_next hcontrol] at hrun
      rw [trace_succ_of_next hcontrol] at hallowed ⊢
      rw [← append_assoc]
      exact ih (hnext state middle history hinit
        (fun event hevent => hallowed event (mem_append_left _ hevent)) hcontrol) hrun
        (fun event hevent => hallowed event (mem_append_right _ hevent))
    | exit final =>
      rw [runFor_succ_of_exit hcontrol] at hrun
      rw [trace_succ_of_exit hcontrol] at hallowed ⊢
      cases hrun
      exact hexit state result history hinit hallowed hcontrol

/-- The events of a shorter run are the first events of a longer one. -/
theorem exists_trace_append (fuel more : ℕ) (state : State) :
    ∃ rest, trace step (fuel + more) state = trace step fuel state ++ rest := by
  induction fuel generalizing state with
  | zero => exact ⟨trace step more state, by simp [trace]⟩
  | succ fuel ih =>
    rw [show fuel + 1 + more = fuel + more + 1 by omega]
    cases hcontrol : (step state).control with
    | next middle =>
      obtain ⟨rest, hrest⟩ := ih middle
      refine ⟨rest, ?_⟩
      rw [trace_succ_of_next hcontrol, trace_succ_of_next hcontrol, hrest, append_assoc]
    | exit result =>
      exact ⟨[], by rw [trace_succ_of_exit hcontrol, trace_succ_of_exit hcontrol, append_nil]⟩

end KernelM5040.Machine
