import KernelM5040.Ipc.SemAtomic

/-!
# The queue of sleeping operations

Whether an operation has to sleep depends on the values of the semaphores and on the
adjustments of its undo structure.  `update_queue` starts again from the head of the
queue whenever these may have changed, so that all entries that it leaves have to
sleep.
-/

namespace KernelM5040.Semaphore

open Option List Function Machine

variable {nsems : ℕ} {Owner : Type*} {base base' : Base nsems} {un : Semadj nsems} {pid : ℤ}
  {sops done rest : Sops nsems} {undos : Owner → Option (Semadj nsems)} {undo : Option Owner}
  {events : List (Event nsems Owner)} {result : TryResult} {q : Queue nsems Owner}

/-! ## Values -/

/-- The semaphores have the same values. -/
def SameValues (base base' : Base nsems) : Prop := ∀ i, (base' i).semval = (base i).semval

/-- The result is a function of the values and of the adjustments. -/
theorem tryLoop_congr (hsame : SameValues base base') (pid pid' : ℤ) (done' : Sops nsems) :
    (tryLoop un pid' done' rest base').1 = (tryLoop un pid done rest base).1 := by
  induction rest generalizing base base' done done' with
  | nil => rfl
  | cons sop rest ih =>
    rw [tryLoop, tryLoop, hsame]
    simp only [apply_ite Prod.fst]
    rw [ih]
    intro i
    by_cases hi : i = sop.semNum
    · subst hi
      rw [update_self, update_self]
    · rw [update_of_ne hi, update_of_ne hi]
      exact hsame i

/-- The undo structure of an operation is there. -/
def Present (undos : Owner → Option (Semadj nsems)) (undo : Option Owner) : Prop :=
  ∀ owner, undo = some owner → ∃ un, undos owner = some un

/-- No operation changes a value. -/
def Quiet (sops : Sops nsems) : Prop := ∀ sop ∈ sops, sop.semOp = 0

theorem Quiet.total_eq_zero (hquiet : Quiet sops) (counts : Sembuf (Fin nsems) → Bool)
    (i : Fin nsems) : total counts i sops = 0 := by
  refine sum_eq_zero fun value hvalue => ?_
  obtain ⟨sop, hsop, rfl⟩ := mem_map.mp hvalue
  rw [hquiet sop hsop]
  exact ite_self 0

/-! ## Entries -/

/-- The entry would still have to sleep. -/
def Asleep (base : Base nsems) (undos : Owner → Option (Semadj nsems)) (q : Queue nsems Owner) :
    Prop :=
  (tryAtomicSemop base q.sops (adjustments undos q.undo) q.pid).1 = .sleep

theorem Asleep.congr (hasleep : Asleep base undos q) (hsame : SameValues base base') :
    Asleep base' undos q :=
  (tryLoop_congr hsame q.pid q.pid []).trans hasleep

/-- An entry has its undo structure, and it is quiet if it is not marked as altering. -/
structure EntryOk (undos : Owner → Option (Semadj nsems)) (q : Queue nsems Owner) : Prop where
  present : Present undos q.undo
  quiet : q.alter = false → Quiet q.sops

/-- The entries that the scan has passed have to sleep. -/
structure ScanOk (scan : Scan nsems Owner) : Prop where
  entries : ∀ q ∈ scan.passed ++ scan.rest, EntryOk scan.undos q
  asleep : ∀ q ∈ scan.passed, Asleep scan.semBase scan.undos q

/-- The entries that are woken by events. -/
def wokenBy (events : List (Event nsems Owner)) : List (Queue nsems Owner) :=
  events.filterMap fun
    | .woken q _ => some q
    | _ => none

@[simp]
theorem wokenBy_append (first second : List (Event nsems Owner)) :
    wokenBy (first ++ second) = wokenBy first ++ wokenBy second := filterMap_append

@[simp]
theorem wokenBy_completion (result : TryResult) (undo : Option Owner) (un : Semadj nsems)
    (sops : Sops nsems) : wokenBy (completion result undo un sops) = [] := by
  rw [completion]
  split <;> rfl

@[simp]
theorem wokenBy_woken (q : Queue nsems Owner) (result : TryResult)
    (events : List (Event nsems Owner)) :
    wokenBy (.woken q result :: events) = q :: wokenBy events := rfl

/-- The entries of the queue are left in their order or woken. -/
structure Conserved (pending left : List (Queue nsems Owner)) (events : List (Event nsems Owner)) :
    Prop where
  sublist : left.Sublist pending
  perm : (left ++ wokenBy events).Perm pending

theorem Conserved.wake {pending before after : List (Queue nsems Owner)}
    (hconserved : Conserved pending (before ++ q :: after) events) (result : TryResult)
    (undo : Option Owner) (un : Semadj nsems) (sops : Sops nsems) :
    Conserved pending (before ++ after)
      (events ++ .woken q result :: completion result undo un sops) := by
  refine ⟨(Sublist.append_left (sublist_cons_self q after) before).trans
    hconserved.sublist, .trans ?_ hconserved.perm⟩
  rw [wokenBy_append, wokenBy_woken, wokenBy_completion, ← append_assoc]
  refine perm_append_comm.trans ?_
  rw [singleton_append, ← cons_append]
  exact (perm_middle.symm).append_right _

/-- The events of a scan: entries are woken that do not have to sleep, and what is
completed are the operations of such entries. -/
def WokenOnly (events : List (Event nsems Owner)) : Prop :=
  ∀ event ∈ events, (∃ q result, event = .woken q result ∧ result ≠ .sleep) ∨
      ∃ q un, event = .completed q.undo un q.sops ∧ .woken q .ok ∈ events

theorem WokenOnly.wake (hevents : WokenOnly events) (q : Queue nsems Owner)
    (hresult : result ≠ .sleep) (un : Semadj nsems) :
    WokenOnly (events ++ .woken q result :: completion result q.undo un q.sops) := by
  intro event hevent
  rcases mem_append.mp hevent with hold | hnew
  · exact (hevents event hold).imp_right fun ⟨other, un, heq, hwoken⟩ =>
      ⟨other, un, heq, mem_append_left _ hwoken⟩
  rcases mem_cons.mp hnew with rfl | hcompleted
  · exact .inl ⟨q, result, rfl, hresult⟩
  rw [completion] at hcompleted
  split at hcompleted
  · next hok =>
      rw [mem_singleton] at hcompleted
      subst hok
      exact .inr ⟨q, un, hcompleted, by simp⟩
  · exact absurd hcompleted (by simp)

/-! ## Attempts on an undo structure -/

variable [DecidableEq Owner] {scan : Scan nsems Owner}
  {step : Step (Scan nsems Owner) (State nsems Owner) (Event nsems Owner)}
  {undos' : Owner → Option (Semadj nsems)} {history : List (Event nsems Owner)} {rounds : ℕ}

/-- What an attempt does. -/
inductive Attempted (base : Base nsems) (undos : Owner → Option (Semadj nsems))
    (undo : Option Owner) (sops : Sops nsems) :
    TryResult × Base nsems × (Owner → Option (Semadj nsems)) → Prop
  | refused {result : TryResult} (hresult : result ≠ .ok) :
      Attempted base undos undo sops (result, base, undos)
  | done {base' : Base nsems} {undos' : Owner → Option (Semadj nsems)}
      (hpasses : ∀ before sop after, sops = before ++ sop :: after →
        Passes (adjustments undos undo) (applied base before) sop)
      (hvalues : SameValues (applied base sops) base')
      (hother : ∀ owner, undo ≠ some owner → undos' owner = undos owner)
      (hun : ∀ owner un, undo = some owner → undos owner = some un → ∃ un',
        undos' owner = some un' ∧
          ∀ i, un' i = BitVec.ofInt 16 ((un i).toInt - total Sembuf.undo i sops)) :
      Attempted base undos undo sops (.ok, base', undos')

theorem attempt_spec (hpresent : Present undos undo) (base : Base nsems) (sops : Sops nsems)
    (pid : ℤ) : Attempted base undos undo sops (attempt base undos undo sops pid) := by
  have htried := tryAtomicSemop_spec base sops (adjustments undos undo) pid
  rw [attempt]
  generalize tryAtomicSemop base sops (adjustments undos undo) pid = tried at htried ⊢
  cases htried with
  | refused hresult =>
    cases undo with
    | none => exact .refused hresult
    | some owner =>
      obtain ⟨un, hun⟩ := hpresent owner rfl
      have hkept : Function.update undos owner (some (adjustments undos (some owner))) = undos := by
        rw [adjustments, bind_some, hun, getD_some, ← hun, update_eq_self]
      simp only [hkept]
      exact .refused hresult
  | @done base' un' hpasses hbase hun =>
    refine .done hpasses (fun i => ?_) (fun owner howner => ?_) (fun owner un howner hadj => ?_)
    · rw [hbase]
      split
      · rfl
      · next hnone =>
          simp only [applied]
          rw [total_eq_zero fun sop hsop hi => hnone ⟨sop, hsop, hi⟩, add_zero]
    · cases undo with
      | none => rfl
      | some other => exact update_of_ne (fun h => howner (congrArg some h.symm)) _ _
    · subst howner
      refine ⟨un', update_self _ _ _, fun i => ?_⟩
      rw [hun, adjustments, bind_some, hadj, getD_some]

theorem Attempted.present {other : Option Owner}
    (hattempted : Attempted base undos undo sops (result, base', undos'))
    (hpresent : Present undos other) : Present undos' other := by
  cases hattempted with
  | refused _ => exact hpresent
  | done _ _ hother hun =>
    intro owner howner
    obtain ⟨un, hadj⟩ := hpresent owner howner
    by_cases hundo : undo = some owner
    · obtain ⟨un', hadj', _⟩ := hun owner un hundo hadj
      exact ⟨un', hadj'⟩
    · exact ⟨un, (hother owner hundo).trans hadj⟩

/-- An attempt that is refused or that has no effect on the values leaves everything
that matters to other attempts. -/
theorem Attempted.unchanged (hattempted : Attempted base undos undo sops (result, base', undos'))
    (hpresent : Present undos undo) (hquiet : result ≠ .ok ∨ Quiet sops) :
    SameValues base base' ∧ undos' = undos := by
  cases hattempted with
  | refused _ => exact ⟨fun _ => rfl, rfl⟩
  | done _ hvalues hother hun =>
    have hquiet := hquiet.resolve_left fun h => h rfl
    refine ⟨fun i => ?_, funext fun owner => ?_⟩
    · rw [hvalues]
      simp only [applied]
      rw [hquiet.total_eq_zero, add_zero]
    by_cases howner : undo = some owner
    · obtain ⟨un, hadj⟩ := hpresent owner howner
      obtain ⟨un', hadj', hvalue⟩ := hun owner un howner hadj
      rw [hadj', hadj, some_inj]
      funext i
      rw [hvalue, hquiet.total_eq_zero, sub_zero, BitVec.ofInt_toInt]
    · exact hother owner howner

theorem attempt_fst (base : Base nsems) (undos : Owner → Option (Semadj nsems))
    (undo : Option Owner) (sops : Sops nsems) (pid : ℤ) :
    (attempt base undos undo sops pid).1 =
      (tryAtomicSemop base sops (adjustments undos undo) pid).1 := rfl

/-! ## The scan -/

/-- What a round of the scan does with the entry at its head. -/
inductive Round (scan : Scan nsems Owner) :
    Step (Scan nsems Owner) (State nsems Owner) (Event nsems Owner) → Prop
  | finished (hrest : scan.rest = []) :
      Round scan ⟨[], .exit ⟨scan.semBase, scan.passed, scan.undos⟩⟩
  | passed {q : Queue nsems Owner} {rest : List (Queue nsems Owner)} {base : Base nsems}
      {undos : Owner → Option (Semadj nsems)} (hrest : scan.rest = q :: rest)
      (hattempt : attempt scan.semBase scan.undos q.undo q.sops q.pid = (.sleep, base, undos)) :
      Round scan ⟨[], .next ⟨base, undos, scan.passed ++ [q], rest⟩⟩
  | altered {q : Queue nsems Owner} {rest : List (Queue nsems Owner)} {result : TryResult}
      {base : Base nsems} {undos : Owner → Option (Semadj nsems)} (hrest : scan.rest = q :: rest)
      (hresult : result ≠ .sleep) (halter : q.alter = true)
      (hattempt : attempt scan.semBase scan.undos q.undo q.sops q.pid = (result, base, undos)) :
      Round scan
        ⟨.woken q result :: completion result q.undo (adjustments scan.undos q.undo) q.sops,
          .next ⟨base, undos, [], scan.passed ++ rest⟩⟩
  | removed {q : Queue nsems Owner} {rest : List (Queue nsems Owner)} {result : TryResult}
      {base : Base nsems} {undos : Owner → Option (Semadj nsems)} (hrest : scan.rest = q :: rest)
      (hresult : result ≠ .sleep) (halter : q.alter = false)
      (hattempt : attempt scan.semBase scan.undos q.undo q.sops q.pid = (result, base, undos)) :
      Round scan
        ⟨.woken q result :: completion result q.undo (adjustments scan.undos q.undo) q.sops,
          .next ⟨base, undos, scan.passed, rest⟩⟩

theorem updateStep_round (scan : Scan nsems Owner) : Round scan (updateStep scan) := by
  rw [updateStep]
  split
  · next hrest => exact .finished hrest
  next q rest hrest =>
    split
    next result base undos hattempt =>
      split
      · next hsleep => exact .passed hrest (hsleep ▸ hattempt)
      next hawake =>
        cases halter : q.alter with
        | true => exact .altered hrest hawake halter hattempt
        | false => exact .removed hrest hawake halter hattempt

/-! ## Termination -/

/-- Either there are fewer entries, or fewer of them are left to be passed. -/
def Scan.measure (scan : Scan nsems Owner) : ℕ :=
  (scan.passed.length + scan.rest.length) ^ 2 + scan.rest.length + 1

variable (sma : State nsems Owner)

/-- The rounds that an update needs at most. -/
def enough : ℕ := sma.semPending.length ^ 2 + sma.semPending.length + 1

theorem measure_lt {scan' : Scan nsems Owner} (hnext : (updateStep scan).control = .next scan') :
    scan'.measure < scan.measure := by
  have hround := updateStep_round scan
  have hless : ∀ total left : ℕ, total ^ 2 + total + 1 < (total + 1) ^ 2 + left + 1 := by
    intro total left
    nlinarith
  generalize updateStep scan = step at hround hnext
  cases hround with
  | finished _ => cases hnext
  | @passed q rest _ _ hrest _ =>
    cases hnext
    have hlength : scan.passed.length + 1 + rest.length = scan.passed.length + (rest.length + 1) := by
      omega
    simp only [Scan.measure, hrest, length_append, length_cons, length_nil, zero_add, hlength]
    omega
  | @altered q rest _ _ _ hrest _ _ _ =>
    cases hnext
    simp only [Scan.measure, hrest, length_append, length_cons, length_nil, zero_add]
    exact hless (scan.passed.length + rest.length) (rest.length + 1)
  | @removed q rest _ _ _ hrest _ _ _ =>
    cases hnext
    have hsquare := hless (scan.passed.length + rest.length) (rest.length + 1)
    rw [add_assoc scan.passed.length rest.length 1] at hsquare
    simp only [Scan.measure, hrest, length_cons]
    omega

theorem updateQueue_terminates (hrounds : enough sma ≤ rounds) :
    ∃ sma' events, updateQueue sma rounds = some (sma', events) := by
  have hmeasure : (⟨sma.semBase, sma.undos, [], sma.semPending⟩ : Scan nsems Owner).measure ≤
      rounds := by
    simpa [Scan.measure, enough] using hrounds
  obtain ⟨sma', hrun, _⟩ := exists_exit_of_measure (fun _ => True) (fun _ => True) Scan.measure
    (fun _ _ => Nat.succ_pos _) (fun _ _ _ hnext => ⟨trivial, measure_lt hnext⟩)
    (fun _ _ _ _ => trivial) trivial hmeasure
  rw [updateQueue, hrun]
  exact ⟨_, _, rfl⟩

/-! ## What the scan leaves -/

theorem Round.conserved {pending : List (Queue nsems Owner)} (hround : Round scan step)
    (hconserved : Conserved pending (scan.passed ++ scan.rest) history) :
    match step.control with
    | .next scan' => Conserved pending (scan'.passed ++ scan'.rest) (history ++ step.events)
    | .exit sma => Conserved pending sma.semPending (history ++ step.events) := by
  cases hround with
  | finished hrest | passed hrest _ => simpa [hrest] using hconserved
  | altered hrest _ _ _ | removed hrest _ _ _ =>
    rw [hrest] at hconserved
    exact hconserved.wake _ _ _ _

theorem Round.wokenOnly (hround : Round scan step) (hevents : WokenOnly history) :
    WokenOnly (history ++ step.events) := by
  cases hround with
  | finished _ | passed _ _ => rwa [append_nil]
  | altered _ hresult _ _ | removed _ hresult _ _ => exact hevents.wake _ hresult _

theorem Round.scanOk (hround : Round scan step) (hok : ScanOk scan) :
    match step.control with
    | .next scan' => ScanOk scan'
    | .exit sma => ∀ q ∈ sma.semPending, EntryOk sma.undos q ∧ Asleep sma.semBase sma.undos q := by
  obtain ⟨hentries, hasleep⟩ := hok
  have hspec : ∀ {q rest}, scan.rest = q :: rest → Attempted scan.semBase scan.undos q.undo q.sops
      (attempt scan.semBase scan.undos q.undo q.sops q.pid) := by
    intro q rest hrest
    exact attempt_spec (hentries q (by simp [hrest])).present scan.semBase q.sops q.pid
  have hleft : ∀ {q rest}, scan.rest = q :: rest →
      ∀ other ∈ scan.passed ++ rest, EntryOk scan.undos other := by
    intro q rest hrest other hother
    rw [hrest] at hentries
    exact hentries other (((sublist_cons_self q rest).append_left _).subset hother)
  cases hround with
  | finished hrest =>
    rw [hrest, append_nil] at hentries
    exact fun q hq => ⟨hentries q hq, hasleep q hq⟩
  | @passed q rest base undos hrest hattempt =>
    have hattempted := hspec hrest
    rw [hrest] at hentries
    rw [hattempt] at hattempted
    cases hattempted with
    | refused _ =>
      refine ⟨fun other hother => hentries other (by simpa using hother), fun other hother => ?_⟩
      rcases mem_append.mp hother with hpassed | hnew
      · exact hasleep other hpassed
      · rw [mem_singleton.mp hnew, Asleep, ← attempt_fst, hattempt]
  | @altered q rest result base undos hrest _ _ hattempt =>
    have hattempted := hspec hrest
    rw [hattempt] at hattempted
    refine ⟨fun other hother => ?_, fun other hother => absurd hother (by simp)⟩
    have hold := hleft hrest other hother
    exact ⟨hattempted.present hold.present, hold.quiet⟩
  | @removed q rest result base undos hrest _ halter hattempt =>
    have hq := hentries q (by simp [hrest])
    have hattempted := hspec hrest
    rw [hattempt] at hattempted
    -- the entry is quiet, so that what matters to the passed ones has not changed
    obtain ⟨hsame, rfl⟩ := hattempted.unchanged hq.present (.inr (hq.quiet halter))
    exact ⟨hleft hrest, fun other hother => (hasleep other hother).congr hsame⟩

/-- What holds in the scan of a queue, given the events so far. -/
structure ScanInv (scan : Scan nsems Owner) (history : List (Event nsems Owner)) : Prop where
  conserved : Conserved sma.semPending (scan.passed ++ scan.rest) history
  wokenOnly : WokenOnly history
  ok : (∀ q ∈ sma.semPending, EntryOk sma.undos q) → ScanOk scan

/-- What a scan of a queue leaves, given the events. -/
structure Updated (sma sma' : State nsems Owner) (events : List (Event nsems Owner)) : Prop where
  conserved : Conserved sma.semPending sma'.semPending events
  wokenOnly : WokenOnly events
  asleep : (∀ q ∈ sma.semPending, EntryOk sma.undos q) →
    ∀ q ∈ sma'.semPending, EntryOk sma'.undos q ∧ Asleep sma'.semBase sma'.undos q

/-- `update_queue` leaves entries in the queue or wakes them, and those that it leaves
have to sleep. -/
theorem updateQueue_spec {sma sma' : State nsems Owner}
    (hupdate : updateQueue sma rounds = some (sma', events)) : Updated sma sma' events := by
  rw [updateQueue] at hupdate
  split at hupdate
  · next final hrun =>
      rw [some_inj, Prod.mk.injEq] at hupdate
      obtain ⟨rfl, rfl⟩ := hupdate
      have hstart : ScanInv sma ⟨sma.semBase, sma.undos, [], sma.semPending⟩ [] :=
        ⟨⟨Sublist.refl _, by simp [wokenBy]⟩, fun event hevent => absurd hevent (by simp),
          fun hentries => ⟨hentries, fun q hq => absurd hq (by simp)⟩⟩
      refine exit_trace_invariant (ScanInv sma) (Updated sma) (fun _ => True)
        (fun scan scan' history hinv _ hcontrol => ?_)
        (fun scan sma' history hinv _ hcontrol => ?_) hstart hrun (fun _ _ => trivial)
      all_goals
        have hconserved := (updateStep_round scan).conserved hinv.conserved
        have hok := fun hentries => (updateStep_round scan).scanOk (hinv.ok hentries)
        rw [hcontrol] at hconserved hok
        exact ⟨hconserved, (updateStep_round scan).wokenOnly hinv.wokenOnly, hok⟩
  · cases hupdate

end KernelM5040.Semaphore
