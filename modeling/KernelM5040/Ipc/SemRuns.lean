import KernelM5040.Ipc.SemQueue

/-!
# Runs of a semaphore set

The states between the system calls on a set, for any interleaving of the calls of
any tasks, and what has happened so far.
-/

namespace KernelM5040.Semaphore

open Function Option List

variable {nsems : ℕ} {Owner : Type*} [DecidableEq Owner] {sma sma' : State nsems Owner}
  {events : List (Event nsems Owner)} {caller : Caller Owner} {undo : Option Owner}
  {sops : Sops nsems} {alter : Bool} {rounds : ℕ} {outcome : Outcome} {owner : Owner}
  {result : CtlResult nsems} {undos : Owner → Option (Semadj nsems)}
  {tsops : List (Sembuf (BitVec 16))} {cmd : Cmd nsems} (fits : Event nsems Owner → Prop)

/-- The histories of a set.  While an operation of an owner is asleep, its task holds the
undo list, so that `exit_sem` does not come to the adjustments. -/
inductive Run : State nsems Owner → List (Event nsems Owner) → Prop
  | newary : Run newary []
  | semop {sma sma' : State nsems Owner} {history events : List (Event nsems Owner)} {semopm : ℕ}
      {caller : Caller Owner} {tsops : List (Sembuf (BitVec 16))} {rounds : ℕ} {outcome : Outcome}
      (hrun : Run sma history)
      (hcall : sysSemtimedop sma semopm caller tsops rounds = some (sma', events, outcome))
      (hfits : ∀ event ∈ events, fits event) : Run sma' (history ++ events)
  | interrupted {sma : State nsems Owner} {history : List (Event nsems Owner)}
      {before after : List (Queue nsems Owner)} {q : Queue nsems Owner} (hrun : Run sma history)
      (hqueue : sma.semPending = before ++ q :: after) :
      Run (interrupt sma before after) history
  | semctl {sma sma' : State nsems Owner} {history events : List (Event nsems Owner)}
      {caller : Caller Owner} {semnum : ℤ} {cmd : Cmd nsems} {rounds : ℕ}
      {result : CtlResult nsems} (hrun : Run sma history)
      (hcall : semctlMain sma caller semnum cmd rounds = some (sma', events, result))
      (hfits : ∀ event ∈ events, fits event) : Run sma' (history ++ events)
  | exited {sma sma' : State nsems Owner} {history events : List (Event nsems Owner)} {owner : Owner}
      {pid : ℤ} {rounds : ℕ} (hrun : Run sma history)
      (hidle : ∀ q ∈ sma.semPending, q.undo ≠ some owner)
      (hcall : exitSem sma owner pid rounds = some (sma', events))
      (hfits : ∀ event ∈ events, fits event) : Run sma' (history ++ events)

/-! ## What the calls do -/

/-- Steps that do not matter to the operations that are asleep. -/
inductive Gentle : State nsems Owner → List (Event nsems Owner) → State nsems Owner → Prop
  | created {sma : State nsems Owner} {owner : Owner} (hnone : sma.undos owner = none) :
      Gentle sma [.created owner]
        { sma with undos := Function.update sma.undos owner (some fun _ => 0) }
  | completed {sma : State nsems Owner} {undo : Option Owner} {sops : Sops nsems} {base : Base nsems}
      {undos : Owner → Option (Semadj nsems)} (hpresent : Present sma.undos undo)
      (hquiet : Quiet sops)
      (hattempted : Attempted sma.semBase sma.undos undo sops (.ok, base, undos)) :
      Gentle sma [.completed undo (adjustments sma.undos undo) sops]
        { sma with semBase := base, undos := undos }
  | queued {sma : State nsems Owner} {q : Queue nsems Owner} {pending : List (Queue nsems Owner)}
      (hok : EntryOk sma.undos q) (hasleep : Asleep sma.semBase sma.undos q)
      (hpending : pending = sma.semPending ++ [q] ∨ pending = q :: sma.semPending) :
      Gentle sma [] { sma with semPending := pending }
  | dequeued {sma : State nsems Owner} {before after : List (Queue nsems Owner)}
      {q : Queue nsems Owner} (hqueue : sma.semPending = before ++ q :: after) :
      Gentle sma [] (interrupt sma before after)

/-- Steps after which the queue has to be updated. -/
inductive Loud : State nsems Owner → List (Event nsems Owner) → State nsems Owner → Prop
  | completed {sma : State nsems Owner} {undo : Option Owner} {sops : Sops nsems} {base : Base nsems}
      {undos : Owner → Option (Semadj nsems)} (hpresent : Present sma.undos undo)
      (hattempted : Attempted sma.semBase sma.undos undo sops (.ok, base, undos)) :
      Loud sma [.completed undo (adjustments sma.undos undo) sops]
        { sma with semBase := base, undos := undos }
  | setall {sma : State nsems Owner} {array : Fin nsems → BitVec 16}
      (hrange : ∀ i, ((array i).toNat : ℤ) ≤ semvmx) : Loud sma [.setall] (setAll sma array)
  | setval {sma : State nsems Owner} {semnum : Fin nsems} {val pid : ℤ} (hrange : InRange val) :
      Loud sma [.setval semnum] (setVal sma semnum val pid)
  | exited {sma : State nsems Owner} {owner : Owner} {un : Semadj nsems} {pid : ℤ}
      (hun : sma.undos owner = some un) (hidle : ∀ q ∈ sma.semPending, q.undo ≠ some owner) :
      Loud sma [.exited owner] (exitAdjust sma owner un pid)

/-- How a call goes. -/
inductive Call : State nsems Owner → List (Event nsems Owner) → State nsems Owner → Prop
  | unchanged {sma : State nsems Owner} : Call sma [] sma
  | gentle {sma middle sma' : State nsems Owner} {events later : List (Event nsems Owner)}
      (hgentle : Gentle sma events middle) (hcall : Call middle later sma') :
      Call sma (events ++ later) sma'
  | loud {sma middle sma' : State nsems Owner} {events woken : List (Event nsems Owner)} {rounds : ℕ}
      (hloud : Loud sma events middle) (hupdate : updateQueue middle rounds = some (sma', woken)) :
      Call sma (events ++ woken) sma'

theorem Gentle.call (hgentle : Gentle sma events sma') : Call sma events sma' := by
  have hcall := Call.gentle hgentle .unchanged
  rwa [append_nil] at hcall

theorem semopLocked_call (hpresent : Present sma.undos undo) (hquiet : alter = false → Quiet sops)
    (hcall : semopLocked sma caller undo sops alter rounds = some (sma', events, outcome)) :
    Call sma events sma' := by
  have hattempted := attempt_spec hpresent sma.semBase sops caller.pid
  rw [semopLocked] at hcall
  generalize hattempt : attempt sma.semBase sma.undos undo sops caller.pid = attempted
    at hattempted hcall
  obtain ⟨error, base, undos⟩ := attempted
  cases error with
  | ok =>
    simp only [completion, if_true] at hcall
    split at hcall
    · obtain ⟨⟨final, woken⟩, hupdate, hfinal⟩ := map_eq_some_iff.mp hcall
      obtain ⟨rfl, rfl, _⟩ := hfinal
      exact .loud (.completed hpresent hattempted) hupdate
    · next halter =>
        obtain ⟨rfl, rfl, _⟩ := hcall
        exact (Gentle.completed hpresent (hquiet (Bool.eq_false_of_not_eq_true halter))
          hattempted).call
  | eagain | erange =>
    cases hattempted with
    | refused _ =>
      obtain ⟨rfl, rfl, _⟩ := hcall
      exact .unchanged
  | sleep =>
    cases hattempted with
    | refused _ =>
      have hasleep : Asleep sma.semBase sma.undos ⟨undo, caller.pid, sops, alter⟩ := by
        rw [Asleep, ← attempt_fst, hattempt]
      simp only at hcall
      split at hcall
      all_goals
        obtain ⟨rfl, rfl, _⟩ := hcall
      · exact (Gentle.queued ⟨hpresent, hquiet⟩ hasleep (.inl rfl)).call
      · exact (Gentle.queued ⟨hpresent, hquiet⟩ hasleep (.inr rfl)).call

omit [DecidableEq Owner] in
theorem quiet_of_any (hcheck : tsops.mapM (checkNum nsems) = some sops)
    (hany : (tsops.any fun sop => sop.semOp != 0) = false) : Quiet sops := by
  induction tsops generalizing sops with
  | nil =>
    rw [mapM_nil] at hcheck
    cases hcheck
    exact fun sop hsop => absurd hsop (by simp)
  | cons tsop tsops ih =>
    rw [any_cons, Bool.or_eq_false_iff] at hany
    rw [mapM_cons] at hcheck
    obtain ⟨sop, hsop, hcheck⟩ := bind_eq_some_iff.mp hcheck
    obtain ⟨rest, hrest, hcheck⟩ := bind_eq_some_iff.mp hcheck
    cases hcheck
    intro other hother
    rcases mem_cons.mp hother with rfl | hother
    · rw [checkNum] at hsop
      split at hsop
      · cases hsop
        simpa using hany.1
      · cases hsop
    · exact ih hrest hany.2 other hother

theorem findAllocUndo_call {memory : Bool}
    (hfound : findAllocUndo sma owner memory = .ok (sma', events)) :
    Present sma'.undos (some owner) ∧
      ∀ {later final}, Call sma' later final → Call sma (events ++ later) final := by
  rw [findAllocUndo] at hfound
  split at hfound
  · next un hun =>
      cases hfound
      exact ⟨fun other hother => ⟨un, some.inj hother ▸ hun⟩, fun hcall => hcall⟩
  next hnone =>
    split at hfound
    · cases hfound
      refine ⟨fun other hother => ⟨fun _ => 0, ?_⟩, fun hcall => .gentle (.created hnone) hcall⟩
      rw [some.inj hother]
      exact update_self _ _ _
    · cases hfound

theorem sysSemtimedop_call {semopm : ℕ}
    (hcall : sysSemtimedop sma semopm caller tsops rounds = some (sma', events, outcome)) :
    Call sma events sma' := by
  have hstay : ∀ {outcome'}, some (sma, [], outcome') = some (sma', events, outcome) →
      Call sma events sma' := by
    intro outcome' hsame
    cases hsame
    exact .unchanged
  have hundo : ∀ {middle created},
      (if tsops.any Sembuf.undo then findAllocUndo sma caller.owner caller.memory
        else .ok (sma, [])) = .ok (middle, created) →
      Present middle.undos (if tsops.any Sembuf.undo then some caller.owner else none) ∧
        ∀ {later final}, Call middle later final → Call sma (created ++ later) final := by
    intro middle created hfound
    split_ifs at hfound ⊢
    · exact findAllocUndo_call hfound
    · cases hfound
      exact ⟨by simp [Present], fun hcall => hcall⟩
  simp only [sysSemtimedop] at hcall
  split at hcall
  · exact hstay hcall
  split at hcall
  · exact hstay hcall
  split at hcall
  · exact hstay hcall
  next middle created hfound =>
    obtain ⟨hpresent, hcreated⟩ := hundo hfound
    have hstop : ∀ {outcome'}, some (middle, created, outcome') = some (sma', events, outcome) →
        Call sma events sma' := by
      intro outcome' hsame
      cases hsame
      have hcall := hcreated .unchanged
      rwa [append_nil] at hcall
    split at hcall
    · exact hstop hcall
    next sops hcheck =>
      split at hcall
      · obtain ⟨⟨final, later, outcome'⟩, hlocked, hfinal⟩ := map_eq_some_iff.mp hcall
        cases hfinal
        exact hcreated (semopLocked_call hpresent (quiet_of_any hcheck) hlocked)
      · exact hstop hcall

theorem update_call {middle : State nsems Owner} {first : Event nsems Owner}
    {result' : CtlResult nsems} (hloud : Loud sma [first] middle)
    (hcall : ((updateQueue middle rounds).map fun (sma, woken) => (sma, first :: woken, result)) =
      some (sma', events, result')) : Call sma events sma' := by
  obtain ⟨⟨final, woken⟩, hupdate, hfinal⟩ := map_eq_some_iff.mp hcall
  cases hfinal
  exact .loud hloud hupdate

theorem semctlOne_call {semnum : Fin nsems}
    (hcall : semctlOne sma caller semnum cmd rounds = some (sma', events, result)) :
    Call sma events sma' := by
  unfold semctlOne at hcall
  split at hcall
  case h_5 val =>
    split at hcall
    · cases hcall
      exact .unchanged
    · next hrange =>
        rw [not_or] at hrange
        exact update_call (.setval ⟨Int.not_lt.mp hrange.2, Int.not_lt.mp hrange.1⟩) hcall
  all_goals
    cases hcall
    exact .unchanged

theorem semctlMain_call {semnum : ℤ}
    (hcall : semctlMain sma caller semnum cmd rounds = some (sma', events, result)) :
    Call sma events sma' := by
  unfold semctlMain at hcall
  split at hcall
  · cases hcall
    exact .unchanged
  split at hcall
  · cases hcall
    exact .unchanged
  · split at hcall
    · cases hcall
      exact .unchanged
    · next hrange =>
        refine update_call (.setall fun i => ?_) hcall
        exact Int.not_lt.mp fun hlt => hrange ⟨i, hlt⟩
  · split at hcall
    · exact semctlOne_call hcall
    · cases hcall
      exact .unchanged

theorem exitSem_call {pid : ℤ} (hidle : ∀ q ∈ sma.semPending, q.undo ≠ some owner)
    (hcall : exitSem sma owner pid rounds = some (sma', events)) : Call sma events sma' := by
  rw [exitSem] at hcall
  split at hcall
  · cases hcall
    exact .unchanged
  next un hun =>
    obtain ⟨⟨final, woken⟩, hupdate, hfinal⟩ := map_eq_some_iff.mp hcall
    cases hfinal
    exact .loud (.exited hun hidle) hupdate

theorem Run.invariant {fits : Event nsems Owner → Prop} {history : List (Event nsems Owner)}
    (inv : State nsems Owner → List (Event nsems Owner) → Prop) (hinit : inv Semaphore.newary [])
    (hcall : ∀ {sma events sma' history}, inv sma history → Call sma events sma' →
      (∀ event ∈ events, fits event) → inv sma' (history ++ events))
    (hrun : Run fits sma history) : inv sma history := by
  induction hrun with
  | newary => exact hinit
  | semop _ hsemop hfits ih => exact hcall ih (sysSemtimedop_call hsemop) hfits
  | interrupted _ hqueue ih =>
    have hnext := hcall ih (Gentle.dequeued hqueue).call fun event hevent => absurd hevent (by simp)
    rwa [append_nil] at hnext
  | semctl _ hctl hfits ih => exact hcall ih (semctlMain_call hctl) hfits
  | exited _ hidle hexit hfits ih => exact hcall ih (exitSem_call hidle hexit) hfits

/-! ## Nobody is left asleep -/

/-- All entries of the queue have to sleep. -/
def QueueOk (sma : State nsems Owner) : Prop :=
  ∀ q ∈ sma.semPending, EntryOk sma.undos q ∧ Asleep sma.semBase sma.undos q

theorem adjustments_update (hother : undo ≠ some owner) (value : Option (Semadj nsems)) :
    adjustments (update undos owner value) undo = adjustments undos undo := by
  cases undo with
  | none => rfl
  | some other =>
    have hne : other ≠ owner := fun h => hother (congrArg some h)
    rw [adjustments, adjustments, bind_some, bind_some, update_of_ne hne]

theorem Present.update {value : Option (Semadj nsems)} (hpresent : Present undos undo)
    (hother : undo ≠ some owner) : Present (update undos owner value) undo := by
  intro other hundo
  obtain ⟨un, hun⟩ := hpresent other hundo
  have hne : other ≠ owner := fun h => hother (h ▸ hundo)
  exact ⟨un, by rwa [update_of_ne hne]⟩

omit [DecidableEq Owner] in
theorem Present.map (hpresent : Present undos undo) (change : Semadj nsems → Semadj nsems) :
    Present (fun owner => (undos owner).map change) undo := by
  intro owner howner
  obtain ⟨un, hun⟩ := hpresent owner howner
  exact ⟨change un, by simp [hun]⟩

theorem Gentle.queueOk (hgentle : Gentle sma events sma') (hok : QueueOk sma) : QueueOk sma' := by
  cases hgentle with
  | @created owner hnone =>
    intro q hq
    obtain ⟨hentry, hasleep⟩ := hok q hq
    have hother : q.undo ≠ some owner := by
      intro hundo
      obtain ⟨un, hun⟩ := hentry.present owner hundo
      exact some_ne_none un (hun.symm.trans hnone)
    refine ⟨⟨hentry.present.update hother, hentry.quiet⟩, ?_⟩
    rw [Asleep, adjustments_update hother]
    exact hasleep
  | completed hpresent hquiet hattempted =>
    obtain ⟨hsame, rfl⟩ := hattempted.unchanged hpresent (.inr hquiet)
    exact fun q hq => ⟨(hok q hq).1, (hok q hq).2.congr hsame⟩
  | @queued q pending hentry hasleep hpending =>
    intro other hother
    have hcase : other ∈ sma.semPending ∨ other = q := by
      rcases hpending with rfl | rfl
      · simpa using hother
      · exact (mem_cons.mp hother).symm
    rcases hcase with hold | rfl
    · exact hok other hold
    · exact ⟨hentry, hasleep⟩
  | dequeued hqueue =>
    intro q hq
    refine hok q ?_
    rw [hqueue]
    rcases mem_append.mp hq with h | h
    · exact mem_append_left _ h
    · exact mem_append_right _ (mem_cons_of_mem _ h)

theorem Loud.entryOk (hloud : Loud sma events sma') (hok : QueueOk sma) :
    ∀ q ∈ sma'.semPending, EntryOk sma'.undos q := by
  intro q
  cases hloud with
  | completed _ hattempted =>
    intro hq
    exact ⟨hattempted.present (hok q hq).1.present, (hok q hq).1.quiet⟩
  | setall _ | setval _ =>
    intro hq
    exact ⟨(hok q hq).1.present.map _, (hok q hq).1.quiet⟩
  | exited _ hidle =>
    intro hq
    exact ⟨(hok q hq).1.present.update (hidle q hq), (hok q hq).1.quiet⟩

theorem Call.queueOk (hcall : Call sma events sma') (hok : QueueOk sma) : QueueOk sma' := by
  induction hcall with
  | unchanged => exact hok
  | gentle hgentle _ ih => exact ih (hgentle.queueOk hok)
  | loud hloud hupdate => exact (updateQueue_spec hupdate).asleep (hloud.entryOk hok)

/-- Between the calls every operation in the queue would have to sleep again, and an
update of any queue terminates and completes or fails only entries that it removes. -/
theorem no_waiter_left_asleep :
    (∀ (sma : State nsems Owner) (history : List (Event nsems Owner)),
      Run (fun _ => True) sma history → ∀ q ∈ sma.semPending,
        (tryAtomicSemop sma.semBase q.sops (adjustments sma.undos q.undo) q.pid).1 = .sleep) ∧
      ∀ (sma : State nsems Owner) (rounds : ℕ), enough sma ≤ rounds →
        ∃ sma' events, updateQueue sma rounds = some (sma', events) ∧
          sma'.semPending.Sublist sma.semPending ∧
          (sma'.semPending ++ wokenBy events).Perm sma.semPending ∧ WokenOnly events := by
  refine ⟨fun sma history hrun q hq => ?_, fun sma rounds hrounds => ?_⟩
  · have hok := hrun.invariant (fun sma _ => QueueOk sma) (fun q hq => absurd hq (by simp [newary]))
      (fun hok hcall _ => hcall.queueOk hok)
    exact (hok q hq).2
  · obtain ⟨sma', events, hupdate⟩ := updateQueue_terminates sma hrounds
    have hupdated := updateQueue_spec hupdate
    exact ⟨sma', events, hupdate, hupdated.conserved.sublist, hupdated.conserved.perm,
      hupdated.wokenOnly⟩

end KernelM5040.Semaphore
