import KernelM5040.Net.Filter

/-!
# Control-flow safety of accepted filters

The checker and the interpreter are two separate `switch` statements.  What
`sk_chk_filter` establishes for the instruction at each position is exactly
what a round of `sk_run_filter` needs: the program counter only moves forward
and stays inside the array, so a run is over after at most `flen` rounds.
-/

namespace KernelM5040.Filter

open Machine

theorem chkInstruction_of_chkLoop {flen pc index : ℕ} {rest : List SockFilter}
    (hloop : chkLoop flen pc rest = true) (hindex : index < rest.length) :
    chkInstruction flen (pc + index) rest[index] = true := by
  induction rest generalizing pc index with
  | nil => exact absurd hindex (Nat.not_lt_zero index)
  | cons ftest rest ih =>
    simp only [chkLoop, Bool.and_eq_true] at hloop
    cases index with
    | zero => exact hloop.1
    | succ index => simpa [add_assoc, add_comm 1] using ih hloop.2 (by simpa using hindex)

/-- Everything later proofs use about an accepted filter. -/
structure Accepted (filter : List SockFilter) : Prop where
  length_le : filter.length ≤ bpfMaxinsns
  length_pos : 0 < filter.length
  instruction : ∀ pc (hpc : pc < filter.length), chkInstruction filter.length pc filter[pc] = true
  last_ret : ∀ pc (hpc : pc < filter.length), pc + 1 = filter.length →
    bpfClass filter[pc].code = bpfRet

variable {filter : List SockFilter}

theorem accepted_of_skChkFilter (haccept : skChkFilter filter = 0) : Accepted filter := by
  have heinval : -einval ≠ 0 := by decide
  simp only [skChkFilter] at haccept
  split at haccept
  · exact absurd haccept heinval
  rename_i hlength
  simp only [not_or, not_lt] at hlength
  split at haccept
  swap
  · exact absurd haccept heinval
  rename_i hloop
  split at haccept
  swap
  · exact absurd haccept heinval
  rename_i last hlast
  split at haccept
  swap
  · exact absurd haccept heinval
  rename_i hclass
  refine ⟨hlength.2, by omega, ?_, ?_⟩
  · intro pc hpc
    simpa using chkInstruction_of_chkLoop hloop hpc
  intro pc hpc hend
  have hget : filter[pc] = last := by
    rw [List.getLast?_eq_getElem?, show filter.length - 1 = pc by omega,
      List.getElem?_eq_getElem hpc, Option.some.injEq] at hlast
    exact hlast
  rw [hget]
  exact hclass

/-- A scratch index inside `mem[]`, a divisor that is not zero. -/
def Event.Bounded : Event → Prop
  | .scratchRead index => index < bpfMemwords
  | .scratchWrite index => index < bpfMemwords
  | .divide divisor => divisor ≠ 0
  | _ => True

/-- An exit that is neither the `default` label nor the end of the loop, and
that did not fetch outside the array. -/
def Exit.Regular : Exit → Prop
  | .ret _ => True
  | .drop => True
  | .nullDevice => True
  | .illegal => False
  | .endOfLoop => False
  | .badFetch => False

/-- One round is safe at `pc`: bounded events, then forward inside the array
or out through a regular exit. -/
structure RoundSafe (flen : ℕ) (pc : ℤ) (step : FilterStep) : Prop where
  events : ∀ event ∈ step.events, event.Bounded
  next : ∀ state, step.control = .next state → pc < state.pc ∧ state.pc < flen
  exit : ∀ exit, step.control = .exit exit → exit.Regular

variable {flen : ℕ} {state : State} {pc : ℤ}

theorem roundSafe_advance {events : List Event} (hpc : state.pc = pc) (hflen : pc + 1 < flen)
    (hevents : ∀ event ∈ events, event.Bounded) :
    RoundSafe flen pc (advance state events) where
  events := hevents
  next := by
    intro state' hnext
    simp only [advance, Control.next.injEq] at hnext
    subst hnext
    exact ⟨by simp [hpc], by simpa [hpc] using hflen⟩
  exit := by simp [advance]

theorem roundSafe_leave {exit : Exit} (hregular : exit.Regular) :
    RoundSafe flen pc (leave exit) where
  events := by simp [leave]
  next := by simp [leave]
  exit := by
    intro exit' hexit
    simp only [leave, Control.exit.injEq] at hexit
    exact hexit ▸ hregular

/-- A jump the checker let through neither wraps nor leaves the array. -/
theorem roundSafe_jumpBy {offset : ℕ} (hmax : flen ≤ bpfMaxinsns) (hpc : 0 ≤ state.pc)
    (htarget : state.pc + offset + 1 < flen) : RoundSafe flen state.pc (jumpBy state offset) := by
  have hsmall : state.pc + offset < 4096 := by
    simp only [bpfMaxinsns] at hmax
    omega
  have hwrap : Int.bmod (state.pc + offset) (2 ^ 32) = state.pc + offset := by
    rw [Int.bmod_eq_of_le] <;> omega
  constructor
  · simp [jumpBy, advance]
  · intro state' hnext
    simp only [jumpBy, advance, hwrap, Control.next.injEq] at hnext
    subst hnext
    constructor
    · show state.pc < state.pc + offset + 1
      omega
    · exact htarget
  · simp [jumpBy, advance]

theorem roundSafe_searchAttribute (skb : SkBuff) (state : State) (hflen : state.pc + 1 < flen) :
    RoundSafe flen state.pc (searchAttribute skb state) := by
  unfold searchAttribute
  split
  · exact roundSafe_leave trivial
  split
  · exact roundSafe_leave trivial
  split
  · exact roundSafe_advance rfl hflen (by simp [Event.Bounded])
  · exact roundSafe_advance rfl hflen (by simp [Event.Bounded])

theorem roundSafe_ancillary (skb : SkBuff) (state : State) (k : ℤ) (hflen : state.pc + 1 < flen) :
    RoundSafe flen state.pc (ancillary skb state k) := by
  have hnext : ∀ value, RoundSafe flen state.pc (advance { state with A := value }) :=
    fun value => roundSafe_advance rfl hflen (by simp)
  unfold ancillary
  split
  · exact hnext _
  split
  · exact hnext _
  split
  · split
    · exact hnext _
    · exact roundSafe_leave trivial
  split
  · exact roundSafe_searchAttribute skb state hflen
  · exact roundSafe_leave trivial

theorem readEvent_bounded (size : ℕ) (ptr : DataPtr) : (readEvent size ptr).Bounded := by
  cases ptr <;> trivial

theorem roundSafe_loadA (skb : SkBuff) (state : State) (k : ℤ) (size : Size)
    (hflen : state.pc + 1 < flen) : RoundSafe flen state.pc (loadA skb state k size) := by
  unfold loadA
  split
  · exact roundSafe_advance rfl hflen (by simp [readEvent_bounded])
  · exact roundSafe_ancillary skb state k hflen

/-- The `switch` of the checker covers the `switch` of the interpreter: an
instruction that passed the check is executed safely. -/
theorem roundSafe_execute {pc : ℕ} (skb : SkBuff) (fentry : SockFilter) (state : State)
    (hmax : flen ≤ bpfMaxinsns) (hpc : state.pc = pc) (hchk : chkInstruction flen pc fentry = true)
    (hlast : pc + 1 < flen ∨ bpfClass fentry.code = bpfRet) :
    RoundSafe flen state.pc (execute skb fentry state) := by
  unfold execute
  unfold chkInstruction at hchk
  cases hdecode : decode fentry.code with
  | none => simp [hdecode] at hchk
  | some op =>
    have hcode := code_of_decode hdecode
    -- every label but the two returns needs a following instruction
    have hmore : op ≠ .retK → op ≠ .retA → state.pc + 1 < flen := by
      intro hk ha
      have hclass : bpfClass fentry.code ≠ bpfRet := by
        rw [← hcode, Ne, bpfClass_code_eq_bpfRet_iff]
        simp [hk, ha]
      have := hlast.resolve_right hclass
      omega
    rw [hdecode] at hchk
    cases op with
    | alu op src =>
      have hflen := hmore (by simp) (by simp)
      cases op with
      | div =>
        cases src with
        | x =>
          dsimp only
          split
          · exact roundSafe_leave trivial
          · rename_i hx
            exact roundSafe_advance rfl hflen (by simpa [Event.Bounded] using hx)
        | k =>
          exact roundSafe_advance rfl hflen (by
            simpa [Event.Bounded] using hchk)
      | _ => exact roundSafe_advance rfl hflen (by simp)
    | ja =>
      simp only [decide_eq_true_eq] at hchk
      exact roundSafe_jumpBy hmax (by omega) (by omega)
    | jmp op src =>
      simp only [Bool.not_eq_true', Bool.or_eq_false_iff, decide_eq_false_iff_not, not_le] at hchk
      refine roundSafe_jumpBy hmax (by omega) ?_
      split <;> omega
    | ldAbs size | ldInd size =>
      exact roundSafe_loadA skb state _ size (hmore (by simp) (by simp))
    | ldxMsh =>
      have hflen := hmore (by simp) (by simp)
      dsimp only
      split
      · exact roundSafe_advance rfl hflen (by simp [readEvent_bounded])
      · exact roundSafe_leave trivial
    | ldMem | ldxMem | st | stx =>
      exact roundSafe_advance rfl (hmore (by simp) (by simp)) (by
        simpa [Event.Bounded] using hchk)
    | retK | retA => exact roundSafe_leave trivial
    | neg | ldLen | ldxLen | ldImm | ldxImm | tax | txa =>
      exact roundSafe_advance rfl (hmore (by simp) (by simp)) (by simp)

theorem roundSafe_filterStep (haccept : Accepted filter) (skb : SkBuff) (state : State)
    (hpos : 0 ≤ state.pc) (hlt : state.pc < filter.length) :
    RoundSafe filter.length state.pc (filterStep filter skb state) := by
  have hindex : state.pc.toNat < filter.length := by omega
  have hfetch : filterStep filter skb state = execute skb filter[state.pc.toNat] state := by
    simp [filterStep, not_le.mpr hlt, not_lt.mpr hpos, List.getElem?_eq_getElem hindex]
  rw [hfetch]
  apply roundSafe_execute skb _ state haccept.length_le (by omega) (haccept.instruction _ hindex)
  by_cases hend : state.pc.toNat + 1 = filter.length
  · exact Or.inr (haccept.last_ret _ hindex hend)
  · exact Or.inl (by omega)

/-- The program counter points into the array. -/
def PcInside (filter : List SockFilter) (state : State) : Prop :=
  0 ≤ state.pc ∧ state.pc < filter.length

section

variable (haccept : Accepted filter) (skb : SkBuff) (mem : ℕ → U32)
include haccept

theorem pcInside_of_run {fuel : ℕ}
    (hrun : skRunFilter filter skb mem fuel = .next state) : PcInside filter state := by
  refine runFor_invariant (PcInside filter) ?_ ?_ hrun
  · rintro before after ⟨hpos, hlt⟩ hnext
    have := (roundSafe_filterStep haccept skb before hpos hlt).next after hnext
    exact ⟨by omega, this.2⟩
  · exact ⟨le_refl 0, by simpa [initial] using haccept.length_pos⟩

/-- Every run of an accepted filter is over after at most `flen` rounds and
leaves through a regular exit. -/
theorem exists_exit_of_accepted :
    ∃ exit, skRunFilter filter skb mem filter.length = .exit exit ∧ exit.Regular := by
  apply exists_exit_of_measure (PcInside filter) Exit.Regular
    (fun state => filter.length - state.pc.toNat)
  · rintro state ⟨hpos, hlt⟩
    omega
  · rintro before after ⟨hpos, hlt⟩ hnext
    have := (roundSafe_filterStep haccept skb before hpos hlt).next after hnext
    exact ⟨⟨by omega, this.2⟩, by omega⟩
  · rintro state exit ⟨hpos, hlt⟩ hexit
    exact (roundSafe_filterStep haccept skb state hpos hlt).exit exit hexit
  · exact ⟨le_refl 0, by simpa [initial] using haccept.length_pos⟩
  · simp [initial]

end

/-- Control-flow safety: a filter that `sk_chk_filter` accepts finishes on
every packet within `flen` instructions, never at the `default` label or
behind the loop, and in every round the program counter is inside the array,
the scratch indices are below `BPF_MEMWORDS` and no divisor is zero. -/
theorem skRunFilter_controlFlow_safe (filter : List SockFilter)
    (haccept : skChkFilter filter = 0) (skb : SkBuff) (mem : ℕ → U32) :
    (∃ exit, skRunFilter filter skb mem filter.length = .exit exit ∧
      exit ≠ .illegal ∧ exit ≠ .endOfLoop ∧ exit ≠ .badFetch) ∧
    ∀ fuel state, skRunFilter filter skb mem fuel = .next state →
      0 ≤ state.pc ∧ state.pc < filter.length ∧
        ∀ event ∈ (filterStep filter skb state).events, event.Bounded := by
  have haccepted := accepted_of_skChkFilter haccept
  constructor
  · obtain ⟨exit, hrun, hregular⟩ := exists_exit_of_accepted haccepted skb mem
    refine ⟨exit, hrun, ?_, ?_, ?_⟩ <;> rintro rfl <;> exact hregular
  · intro fuel state hrun
    obtain ⟨hpos, hlt⟩ := pcInside_of_run haccepted skb mem hrun
    exact ⟨hpos, hlt, (roundSafe_filterStep haccepted skb state hpos hlt).events⟩

/-- Divide, keep the quotient in a scratch word, load it again, return it. -/
def divideAndStore : List SockFilter :=
  [⟨Opcode.ldImm.code, 0, 0, 7⟩, ⟨(Opcode.alu .div .k).code, 0, 0, 2⟩,
    ⟨Opcode.st.code, 0, 0, 3⟩, ⟨Opcode.ldImm.code, 0, 0, 0⟩,
    ⟨Opcode.ldMem.code, 0, 0, 3⟩, ⟨Opcode.retA.code, 0, 0, 0⟩]

/-- A linear packet without a single byte of data. -/
def emptyPacket : SkBuff where
  bytes := fun _ => 0
  data := 0
  tail := 0
  networkHeader := 0
  macHeader := 0
  len := 0
  dataLen := 0
  protocol := 0
  pktType := 0
  dev := none
  copyBits := fun _ _ => none

theorem divideAndStore_controlFlow_safe :
    skChkFilter divideAndStore = 0 ∧
      ∃ exit, skRunFilter divideAndStore emptyPacket emptyMem 6 = .exit exit ∧
        exit ≠ .illegal ∧ exit ≠ .endOfLoop ∧ exit ≠ .badFetch :=
  ⟨by decide, (skRunFilter_controlFlow_safe divideAndStore (by decide) emptyPacket emptyMem).1⟩

end KernelM5040.Filter
