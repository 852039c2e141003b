import KernelM5040.Net.FilterControl

/-!
# Scratch memory and the verdict of a filter

`sk_run_filter` clears `A` and `X` but not `mem[]`, and `sk_chk_filter` only
checks that scratch indices are in range.  A filter may therefore load a word
that it never stored.  This file says when the old contents of the stack do
not matter: exactly the runs whose every scratch load follows a store of the
same word see the same registers for all initial contents.
-/

namespace KernelM5040.Filter

open Function Machine

/-! ## Loads that follow a store -/

/-- Every scratch load in a list of events reads a word that is in `written`
or was stored by an earlier event. -/
def ReadsWritten : List ℕ → List Event → Prop
  | _, [] => True
  | written, .scratchRead index :: rest =>
    index ∈ written ∧ ReadsWritten written rest
  | written, .scratchWrite index :: rest => ReadsWritten (index :: written) rest
  | written, .divide _ :: rest => ReadsWritten written rest
  | written, .packetRead _ _ :: rest => ReadsWritten written rest
  | written, .tmpRead _ :: rest => ReadsWritten written rest
  | written, .attributeSearch _ :: rest => ReadsWritten written rest

instance decidableReadsWritten :
    (written : List ℕ) → (events : List Event) → Decidable (ReadsWritten written events)
  | _, [] => isTrue trivial
  | written, .scratchRead index :: rest =>
    haveI := decidableReadsWritten written rest
    inferInstanceAs (Decidable (index ∈ written ∧ ReadsWritten written rest))
  | written, .scratchWrite index :: rest => decidableReadsWritten (index :: written) rest
  | written, .divide _ :: rest => decidableReadsWritten written rest
  | written, .packetRead _ _ :: rest => decidableReadsWritten written rest
  | written, .tmpRead _ :: rest => decidableReadsWritten written rest
  | written, .attributeSearch _ :: rest => decidableReadsWritten written rest

/-- The words stored by a list of events, on top of `written`. -/
def writtenAfter : List ℕ → List Event → List ℕ
  | written, [] => written
  | written, .scratchWrite index :: rest => writtenAfter (index :: written) rest
  | written, _ :: rest => writtenAfter written rest

theorem readsWritten_append (written : List ℕ) (left right : List Event) :
    ReadsWritten written (left ++ right) ↔
      ReadsWritten written left ∧
        ReadsWritten (writtenAfter written left) right := by
  induction left generalizing written with
  | nil => simp [ReadsWritten, writtenAfter]
  | cons event rest ih =>
    cases event <;> simp [ReadsWritten, writtenAfter, ih, and_assoc]

/-- Events that leave the scratch memory alone. -/
def Event.scratchFree : Event → Bool
  | .scratchRead _ => false
  | .scratchWrite _ => false
  | _ => true

variable {events : List Event}

section

variable (hfree : ∀ event ∈ events, event.scratchFree = true) (written : List ℕ)
include hfree

theorem readsWritten_of_scratchFree : ReadsWritten written events := by
  induction events with
  | nil => trivial
  | cons event rest ih =>
    cases event <;> simp_all [ReadsWritten, Event.scratchFree]

theorem writtenAfter_of_scratchFree : writtenAfter written events = written := by
  induction events with
  | nil => rfl
  | cons event rest ih =>
    cases event <;> simp_all [writtenAfter, Event.scratchFree]

end

/-! ## How a round depends on the scratch memory -/

/-- Put another scratch memory under the state a step leads to. -/
def replaceMem (mem : ℕ → U32) (step : FilterStep) : FilterStep where
  events := step.events
  control :=
    match step.control with
    | .next state => .next { state with mem := mem }
    | .exit exit => .exit exit

@[simp]
theorem replaceMem_advance (mem : ℕ → U32) (state : State) (events : List Event) :
    replaceMem mem (advance state events) =
      advance { state with mem := mem } events := rfl

@[simp]
theorem replaceMem_leave (mem : ℕ → U32) (exit : Exit) (events : List Event) :
    replaceMem mem (leave exit events) = leave exit events := rfl

/-- The round neither reads nor writes scratch memory. -/
structure MemBlind (round : State → FilterStep) (state : State) : Prop where
  replace : ∀ mem, round { state with mem := mem } = replaceMem mem (round state)
  free : ∀ event ∈ (round state).events, event.scratchFree = true

/-- All a round can do with the scratch memory. -/
inductive MemUse (round : State → FilterStep) (state : State) : Prop
  | blind (hblind : MemBlind round state)
  | loadA (index : ℕ) (hround : ∀ mem, round { state with mem := mem } =
      advance { state with A := mem index, mem := mem } [.scratchRead index])
  | loadX (index : ℕ) (hround : ∀ mem, round { state with mem := mem } =
      advance { state with X := mem index, mem := mem } [.scratchRead index])
  | store (index : ℕ) (value : U32) (hround : ∀ mem, round { state with mem := mem } =
      advance { state with mem := Function.update mem index value } [.scratchWrite index])

variable (filter : List SockFilter) (skb : SkBuff)

theorem MemUse.congr {round round' : State → FilterStep} {state : State}
    (huse : MemUse round' state)
    (hround : ∀ mem, round { state with mem := mem } = round' { state with mem := mem }) :
    MemUse round state := by
  have hself : round state = round' state := hround state.mem
  cases huse with
  | blind hblind =>
    refine .blind ⟨fun mem => ?_, hself ▸ hblind.free⟩
    rw [hround mem, hblind.replace mem, hself]
  | loadA index h => exact .loadA index fun mem => (hround mem).trans (h mem)
  | loadX index h => exact .loadX index fun mem => (hround mem).trans (h mem)
  | store index value h => exact .store index value fun mem => (hround mem).trans (h mem)

theorem memUse_leave (exit : Exit) (state : State) : MemUse (fun _ => leave exit) state :=
  .blind ⟨fun _ => rfl, by simp [leave]⟩

theorem memBlind_searchAttribute (state : State) : MemBlind (searchAttribute skb) state := by
  constructor
  · intro mem
    simp only [searchAttribute, apply_ite (replaceMem mem), replaceMem_leave]
    cases nlaFind skb.bytes (skb.data + state.A.toNat) (skb.len - state.A).toInt
      state.X.toInt <;> rfl
  · unfold searchAttribute
    repeat' split
    all_goals simp [advance, leave, Event.scratchFree]

theorem memBlind_ancillary (k : ℤ) (state : State) :
    MemBlind (fun state => ancillary skb state k) state := by
  have hsearch := memBlind_searchAttribute skb state
  constructor
  · intro mem
    simp only [ancillary, apply_ite (replaceMem mem), replaceMem_advance,
      replaceMem_leave, hsearch.replace mem]
    cases skb.dev <;> rfl
  · unfold ancillary
    repeat' split
    all_goals first | exact hsearch.free | simp [advance, leave]

theorem readEvent_scratchFree (size : ℕ) (ptr : DataPtr) :
    (readEvent size ptr).scratchFree = true := by
  cases ptr <;> rfl

theorem memBlind_loadA (k : ℤ) (size : Size) (state : State) :
    MemBlind (fun state => loadA skb state k size) state := by
  have hancillary := memBlind_ancillary skb k state
  constructor
  · intro mem
    unfold loadA
    split
    · rfl
    · exact hancillary.replace mem
  · unfold loadA
    split
    · simp [advance, readEvent_scratchFree]
    · exact hancillary.free

/-- The scratch memory is touched by the four `MEM` and `ST` labels only. -/
theorem memUse_execute (fentry : SockFilter) (state : State) :
    MemUse (execute skb fentry) state := by
  cases hdecode : decode fentry.code with
  | none =>
    exact (memUse_leave .illegal state).congr fun mem => by simp [execute, hdecode]
  | some op =>
    cases op with
    | ldMem => exact .loadA fentry.k.toNat fun mem => by simp [execute, hdecode]
    | ldxMem => exact .loadX fentry.k.toNat fun mem => by simp [execute, hdecode]
    | st => exact .store fentry.k.toNat state.A fun mem => by simp [execute, hdecode]
    | stx => exact .store fentry.k.toNat state.X fun mem => by simp [execute, hdecode]
    | ldAbs size =>
      have hload := memBlind_loadA skb fentry.k.toInt size state
      exact (MemUse.blind hload).congr fun mem => by simp [execute, hdecode]
    | ldInd size =>
      have hload := memBlind_loadA skb (state.X + fentry.k).toInt size state
      exact (MemUse.blind hload).congr fun mem => by simp [execute, hdecode]
    | ldxMsh =>
      refine .blind ⟨fun mem => ?_, ?_⟩
      · simp only [execute, hdecode]
        split <;> rfl
      · simp only [execute, hdecode]
        split <;> simp [advance, leave, readEvent_scratchFree]
    | alu op src =>
      cases op with
      | div =>
        cases src with
        | x =>
          refine .blind ⟨fun mem => ?_, ?_⟩
          · simp only [execute, hdecode]
            split <;> rfl
          · simp only [execute, hdecode]
            split <;> simp [advance, leave, Event.scratchFree]
        | k =>
          exact .blind ⟨fun mem => by simp [execute, hdecode],
            by simp [execute, hdecode, advance, Event.scratchFree]⟩
      | _ =>
        refine .blind ⟨fun mem => ?_, by simp [execute, hdecode, advance]⟩
        cases src <;> simp [execute, hdecode, Src.operand]
    | jmp op src =>
      refine .blind ⟨fun mem => ?_, by simp [execute, hdecode, jumpBy, advance]⟩
      simp only [execute, hdecode]
      cases src <;> rfl
    | _ =>
      exact .blind ⟨fun mem => by
          simp [execute, hdecode, jumpBy, advance, leave, replaceMem],
        by simp [execute, hdecode, jumpBy, advance, leave]⟩

theorem memUse_filterStep (state : State) : MemUse (filterStep filter skb) state := by
  by_cases hend : (filter.length : ℤ) ≤ state.pc
  · exact (memUse_leave _ state).congr fun mem => by rw [filterStep, if_pos hend]
  by_cases hneg : state.pc < 0
  · exact (memUse_leave _ state).congr fun mem => by rw [filterStep, if_neg hend, if_pos hneg]
  cases hfetch : filter[state.pc.toNat]? with
  | none =>
    refine (memUse_leave .badFetch state).congr fun mem => ?_
    simp [filterStep, hend, hneg, hfetch]
  | some fentry =>
    refine (memUse_execute skb fentry state).congr fun mem => ?_
    simp [filterStep, hend, hneg, hfetch]

/-! ## Two runs that differ in the scratch memory only -/

/-- What a run shows apart from its scratch memory. -/
def view : Control State Exit → Control (ℤ × U32 × U32) Exit
  | .next state => .next (state.pc, state.A, state.X)
  | .exit exit => .exit exit

variable {round : State → FilterStep} {state next : State}

theorem MemBlind.mem_eq (hblind : MemBlind round state)
    (hnext : (round state).control = .next next) : next.mem = state.mem := by
  have hself : replaceMem state.mem (round state) = round state :=
    (hblind.replace state.mem).symm
  rw [← hself] at hnext
  simp only [replaceMem] at hnext
  split at hnext
  · simp only [Control.next.injEq] at hnext
    simp [← hnext]
  · simp at hnext

variable {written : List ℕ} {mem : ℕ → U32} {fuel : ℕ}

/-- A round whose loads stay inside `written` does the same for two memories
that agree there, and they still agree afterwards, stores included. -/
theorem round_agree (huse : MemUse round state) (hreads : ReadsWritten written (round state).events)
    (hagree : ∀ index ∈ written, mem index = state.mem index) :
    (∀ exit, (round state).control = .exit exit →
      (round { state with mem := mem }).control = .exit exit) ∧
    ∀ next, (round state).control = .next next → ∃ mem',
      (round { state with mem := mem }).control = .next { next with mem := mem' } ∧
        ∀ index ∈ writtenAfter written (round state).events, mem' index = next.mem index := by
  cases huse with
  | blind hblind =>
    rw [hblind.replace mem, writtenAfter_of_scratchFree hblind.free]
    refine ⟨fun exit hexit => by simp [replaceMem, hexit], fun next hnext => ?_⟩
    refine ⟨mem, by simp [replaceMem, hnext], fun index hindex => ?_⟩
    rw [hblind.mem_eq hnext, hagree index hindex]
  | loadA index hround | loadX index hround =>
    rw [show round state = _ from hround state.mem, hround mem] at *
    refine ⟨by simp [advance], fun next hnext => ?_⟩
    simp only [advance, Control.next.injEq] at hnext
    have hword := hagree index hreads.1
    refine ⟨mem, by simp [advance, ← hnext, hword], fun other hother => ?_⟩
    simpa [← hnext] using hagree other hother
  | store index value hround =>
    rw [show round state = _ from hround state.mem, hround mem] at *
    refine ⟨by simp [advance], fun next hnext => ?_⟩
    simp only [advance, Control.next.injEq] at hnext
    refine ⟨update mem index value, by simp [advance, ← hnext], ?_⟩
    intro other hother
    rw [← hnext]
    by_cases hsame : other = index
    · subst hsame
      simp
    · have : other ∈ written := by
        simpa [advance, writtenAfter, hsame] using hother
      simpa [update_of_ne hsame] using hagree other this

theorem view_runFor_eq (hreads : ReadsWritten written (trace (filterStep filter skb) fuel state))
    (hagree : ∀ index ∈ written, mem index = state.mem index) :
    view (runFor (filterStep filter skb) fuel { state with mem := mem }) =
      view (runFor (filterStep filter skb) fuel state) := by
  induction fuel generalizing written state mem with
  | zero => rfl
  | succ fuel ih =>
    have huse := memUse_filterStep filter skb state
    cases hcontrol : (filterStep filter skb state).control with
    | exit exit =>
      rw [trace_succ_of_exit hcontrol] at hreads
      have hother := (round_agree huse hreads hagree).1 exit hcontrol
      rw [runFor_succ_of_exit hcontrol, runFor_succ_of_exit hother]
    | next next =>
      rw [trace_succ_of_next hcontrol, readsWritten_append] at hreads
      obtain ⟨mem', hother, hagree'⟩ :=
        (round_agree huse hreads.1 hagree).2 next hcontrol
      rw [runFor_succ_of_next hcontrol, runFor_succ_of_next hother]
      exact ih hreads.2 hagree'

/-- A word that a round neither loads nor stores goes through it unchanged,
whatever its value. -/
theorem round_keeps_word (huse : MemUse round state) {index : ℕ}
    (hreads : ReadsWritten written (round state).events)
    (hnext : (round state).control = .next next)
    (hindex : index ∉ writtenAfter written (round state).events) :
    index ∉ written ∧ next.mem index = state.mem index ∧
      ∀ value, (round { state with mem := update state.mem index value }).control =
        .next { next with mem := update next.mem index value } := by
  cases huse with
  | blind hblind =>
    rw [writtenAfter_of_scratchFree hblind.free] at hindex
    have hmem := hblind.mem_eq hnext
    refine ⟨hindex, by rw [hmem], fun value => ?_⟩
    rw [hblind.replace, hmem]
    simp [replaceMem, hnext]
  | loadA word hround | loadX word hround =>
    rw [show round state = _ from hround state.mem] at hreads hnext hindex
    simp only [advance, Control.next.injEq] at hnext
    have hfresh : index ∉ written := hindex
    have hne : word ≠ index := fun heq => hfresh (heq ▸ hreads.1)
    refine ⟨hfresh, by simp [← hnext], fun value => ?_⟩
    simp [hround, advance, ← hnext, update_of_ne hne]
  | store word stored hround =>
    rw [show round state = _ from hround state.mem] at hreads hnext hindex
    simp only [advance, Control.next.injEq] at hnext
    have hboth : index ≠ word ∧ index ∉ written := by
      simpa [advance, writtenAfter] using hindex
    refine ⟨hboth.2, by simp [← hnext, update_of_ne hboth.1], fun value => ?_⟩
    simp [hround, advance, ← hnext, update_comm hboth.1.symm]

/-- A round that loads a word outside `written` puts it in a register. -/
theorem round_shows_word (huse : MemUse round state)
    (hreads : ¬ ReadsWritten written (round state).events) :
    ∃ index, index ∉ written ∧ ∀ value, value ≠ state.mem index →
      view (runFor round 1 { state with mem := update state.mem index value }) ≠
        view (runFor round 1 state) := by
  cases huse with
  | blind hblind => exact absurd (readsWritten_of_scratchFree hblind.free written) hreads
  | loadA word hround | loadX word hround =>
    rw [show round state = _ from hround state.mem] at hreads
    refine ⟨word, by simpa [advance, ReadsWritten] using hreads, fun value hvalue => ?_⟩
    rw [runFor_succ_of_next (congrArg Step.control (hround _)),
      runFor_succ_of_next (congrArg Step.control (hround state.mem))]
    simpa [runFor, view] using hvalue
  | store word stored hround =>
    rw [show round state = _ from hround state.mem] at hreads
    exact absurd trivial hreads

/-- A run that loads a word it never stored shows another register value once
that word is changed. -/
theorem exists_view_ne (hreads : ¬ ReadsWritten written (trace (filterStep filter skb) fuel state)) :
    ∃ index, index ∉ written ∧ ∀ value, value ≠ state.mem index → ∃ rounds,
      view (runFor (filterStep filter skb) rounds
          { state with mem := update state.mem index value }) ≠
        view (runFor (filterStep filter skb) rounds state) := by
  induction fuel generalizing written state with
  | zero => exact absurd trivial hreads
  | succ fuel ih =>
    have huse := memUse_filterStep filter skb state
    by_cases hround : ReadsWritten written (filterStep filter skb state).events
    · -- the offending load comes later: this round leaves the word alone
      cases hcontrol : (filterStep filter skb state).control with
      | exit exit =>
        rw [trace_succ_of_exit hcontrol] at hreads
        exact absurd hround hreads
      | next next =>
        rw [trace_succ_of_next hcontrol, readsWritten_append, not_and] at hreads
        obtain ⟨index, hindex, hdiffer⟩ := ih (hreads hround)
        obtain ⟨hfresh, hmem, hshift⟩ :=
          round_keeps_word huse hround hcontrol hindex
        refine ⟨index, hfresh, fun value hvalue => ?_⟩
        obtain ⟨rounds, hrounds⟩ := hdiffer value (by rwa [hmem])
        refine ⟨rounds + 1, ?_⟩
        rwa [runFor_succ_of_next (hshift value), runFor_succ_of_next hcontrol]
    · obtain ⟨index, hindex, hdiffer⟩ := round_shows_word huse hround
      exact ⟨index, hindex, fun value hvalue => ⟨1, hdiffer value hvalue⟩⟩

/-! ## The verdict -/

/-- What `sk_run_filter` returns within `flen` instructions. -/
def verdict (mem : ℕ → U32) : Option U32 :=
  match skRunFilter filter skb mem filter.length with
  | .exit exit => exit.value
  | .next _ => none

/-- In the run on this packet every `BPF_MEM` load reads a word that a `BPF_ST`
or `BPF_STX` of the same run stored before.  The run is the one from cleared
scratch memory; up to the first offending load all runs are the same. -/
def LoadsFollowStores : Prop :=
  ReadsWritten [] (trace (filterStep filter skb) filter.length (initial emptyMem))

instance (filter : List SockFilter) (skb : SkBuff) : Decidable (LoadsFollowStores filter skb) :=
  inferInstanceAs (Decidable (ReadsWritten [] _))

theorem view_skRunFilter_eq {filter : List SockFilter} (haccept : Accepted filter)
    {skb : SkBuff} (hloads : LoadsFollowStores filter skb) (mem : ℕ → U32) (fuel : ℕ) :
    view (skRunFilter filter skb mem fuel) = view (skRunFilter filter skb emptyMem fuel) := by
  have hshort : ∀ rounds ≤ filter.length,
      view (skRunFilter filter skb mem rounds) = view (skRunFilter filter skb emptyMem rounds) := by
    intro rounds hrounds
    obtain ⟨rest, hrest⟩ : ∃ rest, trace (filterStep filter skb) (rounds + (filter.length - rounds))
            (initial emptyMem) =
          trace (filterStep filter skb) rounds (initial emptyMem) ++ rest :=
      exists_trace_append rounds (filter.length - rounds) (initial emptyMem)
    rw [Nat.add_sub_cancel' hrounds] at hrest
    rw [LoadsFollowStores, hrest, readsWritten_append] at hloads
    exact view_runFor_eq filter skb hloads.1 (by simp)
  by_cases hfuel : fuel ≤ filter.length
  · exact hshort fuel hfuel
  -- past `flen` rounds both runs are over
  have hover : ∀ mem,
      skRunFilter filter skb mem fuel = skRunFilter filter skb mem filter.length := by
    intro mem
    obtain ⟨exit, hexit, _⟩ := exists_exit_of_accepted haccept skb mem
    exact (runFor_exit_mono hexit (by omega)).trans hexit.symm
  rw [hover mem, hover emptyMem, hshort filter.length le_rfl]

/-- When the old scratch contents do not matter.  If every scratch load of the
run follows a store of its word, the verdict is the same for all initial
contents; and this condition is the exact one for the registers: the program
counter, `A` and `X` evolve in the same way for all initial contents if and
only if it holds. -/
theorem verdict_independent_of_scratch (haccept : skChkFilter filter = 0) (skb : SkBuff) :
    (LoadsFollowStores filter skb → ∀ mem mem', verdict filter skb mem = verdict filter skb mem') ∧
    ((∀ mem mem' fuel, view (skRunFilter filter skb mem fuel) =
        view (skRunFilter filter skb mem' fuel)) ↔ LoadsFollowStores filter skb) := by
  have haccepted := accepted_of_skChkFilter haccept
  have hview : LoadsFollowStores filter skb → ∀ mem mem' fuel,
      view (skRunFilter filter skb mem fuel) = view (skRunFilter filter skb mem' fuel) := by
    intro hloads mem mem' fuel
    rw [view_skRunFilter_eq haccepted hloads mem, view_skRunFilter_eq haccepted hloads mem']
  refine ⟨fun hloads mem mem' => ?_, fun hsame => ?_, hview⟩
  · have hsame := hview hloads mem mem' filter.length
    unfold verdict
    split <;> split <;> simp_all [view]
  · by_contra hloads
    obtain ⟨index, _, hdiffer⟩ := exists_view_ne filter skb hloads
    obtain ⟨rounds, hrounds⟩ := hdiffer 1 (by simp [initial, emptyMem])
    exact hrounds (hsame (update emptyMem index 1) emptyMem rounds)

theorem divideAndStore_independent_of_scratch :
    skChkFilter divideAndStore = 0 ∧ LoadsFollowStores divideAndStore emptyPacket ∧
      ∀ mem mem', verdict divideAndStore emptyPacket mem =
        verdict divideAndStore emptyPacket mem' :=
  ⟨by decide, by decide,
    (verdict_independent_of_scratch divideAndStore (by decide) emptyPacket).1 (by decide)⟩

-- The verdict alone may be independent without the condition: here the word
-- is loaded and then thrown away.
example : ¬ LoadsFollowStores
      [⟨Opcode.ldMem.code, 0, 0, 0⟩, ⟨Opcode.retK.code, 0, 0, 5⟩] emptyPacket ∧
    ∀ mem, verdict [⟨Opcode.ldMem.code, 0, 0, 0⟩, ⟨Opcode.retK.code, 0, 0, 5⟩]
      emptyPacket mem = some 5 :=
  ⟨by decide, fun _ => rfl⟩

/-- Return a scratch word that nothing stored. -/
def returnWord : List SockFilter :=
  [⟨Opcode.ldMem.code, 0, 0, 0⟩, ⟨Opcode.retA.code, 0, 0, 0⟩]

/-- An accepted filter whose verdict is the old contents of the stack. -/
theorem verdict_depends_on_scratch :
    ¬ ∀ (filter : List SockFilter) (skb : SkBuff) (mem mem' : ℕ → U32),
      skChkFilter filter = 0 → verdict filter skb mem = verdict filter skb mem' := by
  intro hsame
  have := hsame returnWord emptyPacket emptyMem (fun _ => 1) (by decide)
  exact absurd this (by decide)

end KernelM5040.Filter
