import KernelM5040.Ipc.SemRuns

/-!
# Undo accounting

What an owner has to give back when it exits: the operations with `SEM_UNDO` that it
has completed since its undo structure was created or the semaphore was set.  The
adjustments of a set are these sums as long as each of them fits into a `short` when
a list of operations is completed.
-/

namespace KernelM5040.Semaphore

open Option List Function Machine

variable {nsems : ℕ} {Owner : Type*} [DecidableEq Owner] {sma sma' : State nsems Owner}
  {events history : List (Event nsems Owner)} {owner : Owner} {i : Fin nsems}

/-! ## Accounts -/

section

variable (owner : Owner) (i : Fin nsems)

/-- The sum of the operations of an owner on a semaphore after one more event. -/
def Event.account (sum : ℤ) : Event nsems Owner → ℤ
  | .created other => if other = owner then 0 else sum
  | .completed undo _ sops => if undo = some owner then sum + total Sembuf.undo i sops else sum
  | .woken _ _ => sum
  | .setval semnum => if semnum = i then 0 else sum
  | .setall => 0
  | .exited other => if other = owner then 0 else sum

/-- The sum of the operations with `SEM_UNDO` that an owner has completed on a semaphore
since its undo structure was created or the semaphore was set. -/
def owed (history : List (Event nsems Owner)) : ℤ :=
  history.foldl (fun sum event => event.account owner i sum) 0

theorem owed_append (history : List (Event nsems Owner)) (event : Event nsems Owner) :
    owed owner i (history ++ [event]) = event.account owner i (owed owner i history) := by
  rw [owed, owed, foldl_append]
  rfl

end

/-- Completed operations fit if every adjustment that they lead to is in range. -/
def Fits : Event nsems Owner → Prop
  | .completed (some _) un sops => ∀ i, -semaem - 1 ≤ (un i).toInt - total Sembuf.undo i sops ∧
      (un i).toInt - total Sembuf.undo i sops ≤ semaem
  | _ => True

instance : DecidablePred (Fits : Event nsems Owner → Prop) := fun event => by
  unfold Fits
  split <;> infer_instance

/-- The adjustments are exact and the values are in range. -/
structure Accounts (base : Base nsems) (undos : Owner → Option (Semadj nsems))
    (history : List (Event nsems Owner)) : Prop where
  exact : ∀ owner un, undos owner = some un → ∀ i, (un i).toInt = -owed owner i history
  range : ∀ i, InRange (base i).semval

variable {base base' : Base nsems} {undos undos' : Owner → Option (Semadj nsems)}
  {undo : Option Owner} {sops : Sops nsems}

theorem toInt_ofInt_of_range {value : ℤ} (hge : -semaem - 1 ≤ value) (hle : value ≤ semaem) :
    (BitVec.ofInt 16 value).toInt = value := by
  change -32767 - 1 ≤ value at hge
  change value ≤ 32767 at hle
  exact BitVec.toInt_ofInt_eq_self (by decide) (by norm_num; omega) (by norm_num; omega)

section

variable (haccounts : Accounts base undos history)
include haccounts

theorem Accounts.completed (hpresent : Present undos undo)
    (hattempted : Attempted base undos undo sops (.ok, base', undos'))
    (hfits : Fits (.completed undo (adjustments undos undo) sops : Event nsems Owner)) :
    Accounts base' undos' (history ++ [.completed undo (adjustments undos undo) sops]) := by
  cases hattempted with
  | refused hresult => exact absurd rfl hresult
  | done hpasses hvalues hother hun =>
    refine ⟨fun owner un' hadj i => ?_, fun i => ?_⟩
    · rw [owed_append, Event.account]
      split
      · next hundo =>
          subst hundo
          obtain ⟨un, hold⟩ := hpresent owner rfl
          obtain ⟨un'', hnew, hvalue⟩ := hun owner un rfl hold
          rw [hadj, some_inj] at hnew
          have hsame : adjustments undos (some owner) = un := by
            rw [adjustments, bind_some, hold, getD_some]
          rw [hsame] at hfits
          rw [hnew, hvalue, toInt_ofInt_of_range (hfits i).1 (hfits i).2,
            haccounts.exact owner un hold]
          ring
      · next hundo =>
          rw [hother owner hundo] at hadj
          exact haccounts.exact owner un' hadj i
    · rw [hvalues]
      exact inRange_of_passes hpasses (append_nil sops).symm (.inl (haccounts.range i))

theorem Accounts.woken (q : Queue nsems Owner) (result : TryResult) :
    Accounts base undos (history ++ [.woken q result]) := by
  refine ⟨fun owner un hadj i => ?_, haccounts.range⟩
  rw [owed_append]
  exact haccounts.exact owner un hadj i

theorem Accounts.attempt {q : Queue nsems Owner} {result : TryResult}
    (hpresent : Present undos q.undo)
    (hattempt : attempt base undos q.undo q.sops q.pid = (result, base', undos'))
    (hfits : ∀ event ∈ completion result q.undo (adjustments undos q.undo) q.sops, Fits event) :
    Accounts base' undos'
      (history ++ .woken q result :: completion result q.undo (adjustments undos q.undo) q.sops) := by
  have hattempted := attempt_spec hpresent base q.sops q.pid
  rw [hattempt] at hattempted
  have hwoken := haccounts.woken q result
  rw [← singleton_append, ← append_assoc]
  by_cases hresult : result = .ok
  · subst hresult
    rw [completion, if_pos rfl] at hfits ⊢
    exact hwoken.completed hpresent hattempted (hfits _ (mem_singleton_self _))
  · rw [completion, if_neg hresult, append_nil]
    cases hattempted with
    | refused _ => exact hwoken
    | done _ _ _ _ => exact absurd rfl hresult

end

theorem Round.accounts {scan : Scan nsems Owner}
    {step : Step (Scan nsems Owner) (State nsems Owner) (Event nsems Owner)}
    (hround : Round scan step) (hok : ScanOk scan) (haccounts : Accounts scan.semBase scan.undos history)
    (hfits : ∀ event ∈ step.events, Fits event) :
    match step.control with
    | .next scan' => Accounts scan'.semBase scan'.undos (history ++ step.events)
    | .exit sma => Accounts sma.semBase sma.undos (history ++ step.events) := by
  cases hround with
  | finished _ => rwa [append_nil]
  | @passed q rest base undos hrest hattempt =>
    have hpresent := (hok.entries q (by simp [hrest])).present
    have hattempted := attempt_spec hpresent scan.semBase q.sops q.pid
    rw [hattempt] at hattempted
    cases hattempted with
    | refused _ => rwa [append_nil]
  | @altered q _ _ _ _ hrest _ _ hattempt | @removed q _ _ _ _ hrest _ _ hattempt =>
    exact haccounts.attempt (hok.entries q (by simp [hrest])).present hattempt
      fun event hevent => hfits event (mem_cons_of_mem _ hevent)

theorem updateQueue_accounts {rounds : ℕ} {woken : List (Event nsems Owner)}
    (hupdate : updateQueue sma rounds = some (sma', woken))
    (hentries : ∀ q ∈ sma.semPending, EntryOk sma.undos q)
    (haccounts : Accounts sma.semBase sma.undos history) (hfits : ∀ event ∈ woken, Fits event) :
    Accounts sma'.semBase sma'.undos (history ++ woken) := by
  rw [updateQueue] at hupdate
  split at hupdate
  · next final hrun =>
      rw [some_inj, Prod.mk.injEq] at hupdate
      obtain ⟨rfl, rfl⟩ := hupdate
      have hstart : ScanOk ⟨sma.semBase, sma.undos, [], sma.semPending⟩ ∧
          Accounts sma.semBase sma.undos history :=
        ⟨⟨hentries, fun q hq => absurd hq (by simp)⟩, haccounts⟩
      refine exit_trace_invariant
        (fun scan history => ScanOk scan ∧ Accounts scan.semBase scan.undos history)
        (fun sma' history => Accounts sma'.semBase sma'.undos history) Fits
        (fun scan scan' history hinv hallowed hnext => ?_)
        (fun scan sma' history hinv hallowed hexit => ?_) hstart hrun hfits
      · have hok := (updateStep_round scan).scanOk hinv.1
        have hkept := (updateStep_round scan).accounts hinv.1 hinv.2 hallowed
        rw [hnext] at hok hkept
        exact ⟨hok, hkept⟩
      · have hkept := (updateStep_round scan).accounts hinv.1 hinv.2 hallowed
        rwa [hexit] at hkept
  · cases hupdate

/-! ## Calls -/

theorem Gentle.accounts (hgentle : Gentle sma events sma')
    (haccounts : Accounts sma.semBase sma.undos history) (hfits : ∀ event ∈ events, Fits event) :
    Accounts sma'.semBase sma'.undos (history ++ events) := by
  cases hgentle with
  | @created owner hnone =>
    refine ⟨fun other un hadj i => ?_, haccounts.range⟩
    change Function.update sma.undos owner (some fun _ => 0) other = some un at hadj
    rw [owed_append, Event.account]
    split
    · next howner =>
        subst howner
        rw [update_self, some_inj] at hadj
        rw [← hadj]
        rfl
    · next howner =>
        rw [update_of_ne (Ne.symm howner)] at hadj
        exact haccounts.exact other un hadj i
  | completed hpresent _ hattempted =>
    exact haccounts.completed hpresent hattempted (hfits _ (mem_singleton_self _))
  | queued _ _ _ | dequeued _ => rwa [append_nil]

theorem adjust_semval {semaphore : Sem} (hrange : InRange semaphore.semval) (semadj : BitVec 16)
    (pid : ℤ) :
    (adjust semaphore semadj pid).semval = max 0 (min semvmx (semaphore.semval + semadj.toInt)) := by
  obtain ⟨hnonneg, hle⟩ := hrange
  rw [adjust]
  split
  · next hzero =>
      rw [hzero, show (0 : BitVec 16).toInt = 0 from rfl, add_zero, min_eq_right hle,
        max_eq_right hnonneg]
  · simp only
    split_ifs <;> omega

theorem Loud.accounts (hloud : Loud sma events sma')
    (haccounts : Accounts sma.semBase sma.undos history) (hfits : ∀ event ∈ events, Fits event) :
    Accounts sma'.semBase sma'.undos (history ++ events) := by
  cases hloud with
  | completed hpresent hattempted =>
    exact haccounts.completed hpresent hattempted (hfits _ (mem_singleton_self _))
  | @setall array hrange =>
    refine ⟨fun owner un hadj i => ?_, fun i => ⟨Int.natCast_nonneg _, hrange i⟩⟩
    obtain ⟨old, _, rfl⟩ := map_eq_some_iff.mp hadj
    rw [owed_append]
    rfl
  | @setval semnum val pid hrange =>
    refine ⟨fun owner un hadj i => ?_, fun i => ?_⟩
    · obtain ⟨old, hold, rfl⟩ := map_eq_some_iff.mp hadj
      rw [owed_append, Event.account]
      split
      · next hi =>
          subst hi
          rw [update_self]
          rfl
      · next hi =>
          rw [update_of_ne (Ne.symm hi)]
          exact haccounts.exact owner old hold i
    · simp only [setVal]
      rw [update_apply]
      split_ifs
      · exact hrange
      · exact haccounts.range i
  | @exited owner un pid hun _ =>
    refine ⟨fun other un' hadj i => ?_, fun i => ?_⟩
    · simp only [exitAdjust] at hadj
      have hne : other ≠ owner := by
        rintro rfl
        rw [update_self] at hadj
        cases hadj
      rw [update_of_ne hne] at hadj
      rw [owed_append, Event.account, if_neg hne.symm]
      exact haccounts.exact other un' hadj i
    · simp only [exitAdjust]
      rw [adjust_semval (haccounts.range i)]
      exact ⟨le_max_left _ _, max_le (by decide) (min_le_left _ _)⟩

/-- Exact accounts, together with what the update of the queue relies on. -/
structure Exact (sma : State nsems Owner) (history : List (Event nsems Owner)) : Prop where
  queue : QueueOk sma
  accounts : Accounts sma.semBase sma.undos history

theorem Call.exact (hcall : Call sma events sma') (hexact : Exact sma history)
    (hfits : ∀ event ∈ events, Fits event) : Exact sma' (history ++ events) := by
  induction hcall generalizing history with
  | unchanged => rwa [append_nil]
  | gentle hgentle _ ih =>
    rw [← append_assoc]
    refine ih ⟨hgentle.queueOk hexact.queue, hgentle.accounts hexact.accounts
      fun event hevent => hfits event (mem_append_left _ hevent)⟩
      fun event hevent => hfits event (mem_append_right _ hevent)
  | loud hloud hupdate =>
    have hentries := hloud.entryOk hexact.queue
    have haccounts := hloud.accounts hexact.accounts
      fun event hevent => hfits event (mem_append_left _ hevent)
    rw [← append_assoc]
    exact ⟨(updateQueue_spec hupdate).asleep hentries, updateQueue_accounts hupdate hentries haccounts
      fun event hevent => hfits event (mem_append_right _ hevent)⟩

theorem newary_exact : Exact (newary : State nsems Owner) [] := by
  refine ⟨fun q hq => absurd hq (by simp [newary]), fun owner un hun => ?_, fun i => ?_⟩
  · exact absurd hun (by simp [newary])
  · exact ⟨le_refl _, (by decide : (0 : ℤ) ≤ semvmx)⟩

theorem Run.exact (hrun : Run Fits sma history) : Exact sma history :=
  hrun.invariant Exact newary_exact fun hexact hcall hfits => hcall.exact hexact hfits

/-- In a run of operations that fit, every adjustment is the sum of what its owner has
completed, with the opposite sign and in range, and `exit_sem` gives back this sum, as
far as the values of semaphores go. -/
theorem semadj_exact (hrun : Run Fits sma history) (owner : Owner) (un : Semadj nsems)
    (hun : sma.undos owner = some un) (i : Fin nsems) :
    (un i).toInt = -owed owner i history ∧ -semaem - 1 ≤ (un i).toInt ∧ (un i).toInt ≤ semaem ∧
      ∀ pid, ((exitAdjust sma owner un pid).semBase i).semval =
        max 0 (min semvmx ((sma.semBase i).semval - owed owner i history)) := by
  obtain ⟨_, hexact, hrange⟩ := hrun.exact
  have hvalue := hexact owner un hun i
  refine ⟨hvalue, ?_, ?_, fun pid => ?_⟩
  · exact BitVec.le_toInt (un i)
  · exact Int.le_of_lt_add_one (BitVec.toInt_lt)
  · rw [exitAdjust, adjust_semval (hrange i), hvalue, Int.sub_eq_add_neg]

/-- One owner adds three and another takes two of them, both with `SEM_UNDO`: of the
three that the first one gives back, the value only has one. -/
theorem semadj_exact_clamped :
    ∃ (sma : State 1 Bool) (history : List (Event 1 Bool)) (un : Semadj 1),
      Run Fits sma history ∧ sma.undos true = some un ∧ owed true 0 history = 3 ∧
        (un 0).toInt = -3 ∧ ((exitAdjust sma true un 7).semBase 0).semval = 0 := by
  obtain ⟨sma₁, sma, first, second, un, hfirst, hsecond, hfits, hfits', hun, hvalue, howed⟩ :
      ∃ (sma₁ sma : State 1 Bool) (first second : List (Event 1 Bool)) (un : Semadj 1),
        sysSemtimedop newary 32 ⟨true, 7, true, true⟩ [⟨0, 3, semUndo⟩] 1 =
          some (sma₁, first, .returned) ∧
        sysSemtimedop sma₁ 32 ⟨false, 8, true, true⟩ [⟨0, -2, semUndo⟩] 1 =
          some (sma, second, .returned) ∧
        (∀ event ∈ first, Fits event) ∧ (∀ event ∈ second, Fits event) ∧
        sma.undos true = some un ∧ (sma.semBase 0).semval = 1 ∧
        owed true 0 ([] ++ first ++ second) = 3 :=
    ⟨_, _, _, _, _, rfl, rfl, by decide, by decide, rfl, rfl, by decide⟩
  have hrun : Run Fits sma ([] ++ first ++ second) :=
    .semop (.semop .newary hfirst hfits) hsecond hfits'
  obtain ⟨hexact, -, -, hexit⟩ := semadj_exact hrun true un hun 0
  rw [howed] at hexact hexit
  exact ⟨sma, _, un, hrun, hun, howed, hexact, (hexit 7).trans (by rw [hvalue]; decide)⟩

/-- Three operations of one call on a semaphore with the largest value: down with
`SEM_UNDO`, up, and down with `SEM_UNDO` again.  Both of the former pass the check of the
range, but their sum does not fit. -/
theorem semadj_truncated :
    ∃ (sma : State 1 Unit) (history : List (Event 1 Unit)) (un : Semadj 1),
      Run (fun _ => True) sma history ∧ sma.undos () = some un ∧ owed () 0 history = -65534 ∧
        (un 0).toInt = -2 := by
  obtain ⟨sma₁, sma, un, hset, hcall, hun, hvalue⟩ : ∃ (sma₁ sma : State 1 Unit) (un : Semadj 1),
        semctlMain newary ⟨(), 7, true, true⟩ 0 (.setval 32767) 1 =
          some (sma₁, [.setval 0], .value 0) ∧
        sysSemtimedop sma₁ 32 ⟨(), 7, true, true⟩
            [⟨0, -32767, semUndo⟩, ⟨0, 32767, 0⟩, ⟨0, -32767, semUndo⟩] 1 =
          some (sma, [.created (), .completed (some ()) (fun _ => 0)
            [⟨0, -32767, semUndo⟩, ⟨0, 32767, 0⟩, ⟨0, -32767, semUndo⟩]], .returned) ∧
        sma.undos () = some un ∧ (un 0).toInt = -2 := ⟨_, _, _, rfl, rfl, rfl, by decide⟩
  refine ⟨sma, _, un, .semop (.semctl .newary hset fun _ _ => trivial) hcall fun _ _ => trivial, hun,
    ?_, hvalue⟩
  decide

end KernelM5040.Semaphore
