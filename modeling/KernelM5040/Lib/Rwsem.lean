import Mathlib

/-!
# The generic read-write semaphore

`lib/rwsem-spinlock.c` keeps one number, `activity`, and a list of sleeping
tasks.  A task that releases the semaphore hands it over to sleepers: it takes
them off the list and changes `activity` on their behalf.  A sleeper only sees
that its entry was taken off and goes on with the lock it asked for, whatever
the releasing task accounted for it.

Every operation is one section of `wait_lock`.  Over any interleaving of these
sections, what `activity` says and what the tasks hold stay the same thing.
-/

namespace KernelM5040.Rwsem

open Bool List Option

/-- What a sleeper waits for, its `flags`. -/
inductive Mode
  | read
  | write
  deriving DecidableEq, Repr

/-- An entry of the wait list. -/
structure Waiter (Task : Type*) where
  task : Task
  mode : Mode

/-- A semaphore: `activity` is -1 for a writer and otherwise counts readers.
Tasks are far fewer than 2^31, so the 32 bits of the counter do not show. -/
structure Semaphore (Task : Type*) where
  activity : ℤ
  waitList : List (Waiter Task)

/-- A sleeper taken off the list, and the lock that was accounted for it. -/
structure Grant (Task : Type*) where
  waiter : Waiter Task
  accounted : Mode

variable {Task : Type*}

/-! ## The sections of the semaphore -/

def initRwsem : Semaphore Task := ⟨0, []⟩

/-- The loop of `__rwsem_do_wake` over the readers at the front of the list. -/
def wakeReaders : List (Waiter Task) → List (Grant Task) × List (Waiter Task)
  | [] => ([], [])
  | waiter :: rest =>
    match waiter.mode with
    | .write => ([], waiter :: rest)
    | .read => (⟨waiter, .read⟩ :: (wakeReaders rest).1, (wakeReaders rest).2)

variable (sem : Semaphore Task)

/-- `__rwsem_do_wake`, called with a list that is not empty. -/
def doWake (wakewrite : Bool) : Semaphore Task × List (Grant Task) :=
  match sem.waitList with
  | [] => (sem, [])
  | waiter :: rest =>
    match waiter.mode, wakewrite with
    | .write, false => (sem, [])
    | .write, true => (⟨-1, rest⟩, [⟨waiter, .write⟩])
    | .read, _ =>
      (⟨sem.activity + (wakeReaders (waiter :: rest)).1.length,
        (wakeReaders (waiter :: rest)).2⟩, (wakeReaders (waiter :: rest)).1)

/-- `__rwsem_wake_one_writer`: the flags of the first sleeper are not looked at. -/
def wakeOneWriter : Semaphore Task × List (Grant Task) :=
  match sem.waitList with
  | [] => (⟨-1, []⟩, [])
  | waiter :: rest => (⟨-1, rest⟩, [⟨waiter, .write⟩])

/-- The test of `__down_read` and `__down_read_trylock`. -/
def readable : Bool := 0 ≤ sem.activity && sem.waitList.isEmpty

/-- The test of `__down_write_nested` and `__down_write_trylock`. -/
def writable : Bool := sem.activity == 0 && sem.waitList.isEmpty

/-- `list_add_tail` of an entry for the calling task. -/
def enqueue (waiter : Waiter Task) : Semaphore Task :=
  ⟨sem.activity, sem.waitList ++ [waiter]⟩

/-- `__down_read` up to the end of its section; whether the lock was granted. -/
def downRead (task : Task) : Semaphore Task × Bool :=
  if readable sem then (⟨sem.activity + 1, sem.waitList⟩, true)
  else (enqueue sem ⟨task, .read⟩, false)

def downReadTrylock : Semaphore Task × Bool :=
  if readable sem then (⟨sem.activity + 1, sem.waitList⟩, true) else (sem, false)

/-- `__down_write_nested` up to the end of its section; whether the lock was granted. -/
def downWrite (task : Task) : Semaphore Task × Bool :=
  if writable sem then (⟨-1, sem.waitList⟩, true)
  else (enqueue sem ⟨task, .write⟩, false)

def downWriteTrylock : Semaphore Task × Bool :=
  if writable sem then (⟨-1, sem.waitList⟩, true) else (sem, false)

def upRead : Semaphore Task × List (Grant Task) :=
  if sem.activity - 1 = 0 ∧ sem.waitList ≠ [] then
    wakeOneWriter ⟨sem.activity - 1, sem.waitList⟩
  else (⟨sem.activity - 1, sem.waitList⟩, [])

def upWrite : Semaphore Task × List (Grant Task) :=
  if sem.waitList ≠ [] then doWake ⟨0, sem.waitList⟩ true else (⟨0, sem.waitList⟩, [])

def downgradeWrite : Semaphore Task × List (Grant Task) :=
  if sem.waitList ≠ [] then doWake ⟨1, sem.waitList⟩ false else (⟨1, sem.waitList⟩, [])

/-! ## The semaphore and its tasks -/

/-- The semaphore, who holds it, and what has happened on the wait list. -/
structure System (Task : Type*) where
  sem : Semaphore Task
  /-- The tasks that hold a read lock, each as often as it does. -/
  readers : Multiset Task
  writers : Multiset Task
  /-- The entries that were queued, in the order of their arrival. -/
  arrived : List (Waiter Task)
  /-- The sleepers that were granted the lock, in the order of the grants. -/
  granted : List (Grant Task)

/-- The tasks of those woken sleepers that asked for this lock. -/
def asking (mode : Mode) (grants : List (Grant Task)) : Multiset Task :=
  ((grants.filter fun grant => grant.waiter.mode = mode).map fun grant => grant.waiter.task : List Task)

/-- A release: the holders that are left, and the sleepers that were woken, which now
hold what they asked for. -/
def System.release (system : System Task) (readers writers : Multiset Task)
    (result : Semaphore Task × List (Grant Task)) : System Task where
  sem := result.1
  readers := readers + asking .read result.2
  writers := writers + asking .write result.2
  arrived := system.arrived
  granted := system.granted ++ result.2

inductive Action (Task : Type*)
  | downRead (task : Task)
  | downReadTrylock (task : Task)
  | downWrite (task : Task)
  | downWriteTrylock (task : Task)
  | upRead (task : Task)
  | upWrite (task : Task)
  | downgradeWrite (task : Task)

variable {system : System Task} {rest : List (Waiter Task)} {waiter : Waiter Task}

/-- A task that is not asleep may try to lock; only a holder releases. -/
def Enabled (system : System Task) : Action Task → Prop
  | .downRead task | .downReadTrylock task | .downWrite task | .downWriteTrylock task =>
    ∀ waiter ∈ system.sem.waitList, waiter.task ≠ task
  | .upRead task => (∀ waiter ∈ system.sem.waitList, waiter.task ≠ task) ∧ task ∈ system.readers
  | .upWrite task | .downgradeWrite task =>
    (∀ waiter ∈ system.sem.waitList, waiter.task ≠ task) ∧ task ∈ system.writers

section

variable [DecidableEq Task]

/-- One section of `wait_lock`. -/
def perform (system : System Task) : Action Task → System Task
  | .downRead task =>
    let result := downRead system.sem task
    { system with
      sem := result.1
      readers := if result.2 then task ::ₘ system.readers else system.readers
      arrived := if result.2 then system.arrived else system.arrived ++ [⟨task, .read⟩] }
  | .downReadTrylock task =>
    let result := downReadTrylock system.sem
    { system with
      sem := result.1
      readers := if result.2 then task ::ₘ system.readers else system.readers }
  | .downWrite task =>
    let result := downWrite system.sem task
    { system with
      sem := result.1
      writers := if result.2 then task ::ₘ system.writers else system.writers
      arrived := if result.2 then system.arrived else system.arrived ++ [⟨task, .write⟩] }
  | .downWriteTrylock task =>
    let result := downWriteTrylock system.sem
    { system with
      sem := result.1
      writers := if result.2 then task ::ₘ system.writers else system.writers }
  | .upRead task =>
    system.release (system.readers.erase task) system.writers (upRead system.sem)
  | .upWrite task =>
    system.release system.readers (system.writers.erase task) (upWrite system.sem)
  | .downgradeWrite task =>
    system.release (task ::ₘ system.readers) (system.writers.erase task)
      (downgradeWrite system.sem)

/-- The states reached by any interleaving of the sections. -/
inductive Reachable : System Task → Prop
  | init : Reachable ⟨initRwsem, 0, 0, [], []⟩
  | act {system : System Task} {action : Action Task} (hreach : Reachable system)
      (henabled : Enabled system action) : Reachable (perform system action)

end

/-! ## The invariant -/

/-- What `activity` accounts for is what the tasks hold. -/
inductive Held (activity : ℤ) (readers writers : Multiset Task) : Prop
  | writer (hactivity : activity = -1) (hreaders : readers = 0) (hwriters : writers.card = 1)
  | readers (hactivity : activity = readers.card) (hwriters : writers = 0)

/-- The shape of the wait list that the releasing tasks rely on. -/
structure Shape : Prop where
  idle : sem.activity = 0 → sem.waitList = []
  front : 0 < sem.activity → ∀ waiter ∈ sem.waitList.head?, waiter.mode = .write

/-- A sleeper is given what it asked for. -/
def Honest (grants : List (Grant Task)) : Prop :=
  ∀ grant ∈ grants, grant.accounted = grant.waiter.mode

structure Invariant (system : System Task) : Prop where
  held : Held system.sem.activity system.readers system.writers
  shape : Shape system.sem
  honest : Honest system.granted
  fifo : system.arrived = system.granted.map Grant.waiter ++ system.sem.waitList

/-! ## What waking does -/

/-- The readers at the front are woken, up to the first writer. -/
theorem wakeReaders_spec (waiters : List (Waiter Task)) :
    (wakeReaders waiters).1.map Grant.waiter ++ (wakeReaders waiters).2 = waiters ∧
      (∀ grant ∈ (wakeReaders waiters).1, grant.waiter.mode = .read ∧ grant.accounted = .read) ∧
      ∀ waiter ∈ (wakeReaders waiters).2.head?, waiter.mode = .write := by
  induction waiters with
  | nil => simp [wakeReaders]
  | cons waiter rest ih =>
    cases hmode : waiter.mode with
    | read => simpa [wakeReaders, hmode] using ih
    | write => simp [wakeReaders, hmode]

theorem asking_read_of_forall {grants : List (Grant Task)}
    (hread : ∀ grant ∈ grants, grant.waiter.mode = .read) :
    (asking .read grants).card = grants.length ∧ asking .write grants = 0 := by
  have hall : (grants.filter fun grant => grant.waiter.mode = .read) = grants := by
    rw [filter_eq_self]
    intro grant hgrant
    simp [hread grant hgrant]
  have hnone : (grants.filter fun grant => grant.waiter.mode = .write) = [] := by
    rw [filter_eq_nil_iff]
    intro grant hgrant
    simp [hread grant hgrant]
  constructor
  · simp [asking, hall]
  · simp [asking, hnone]

/-- What a release leaves: the sleepers it woke, off the front of the list, and the lock
in the hands of `readers` and `writers` and of them. -/
structure Handed (readers writers : Multiset Task) (waiters : List (Waiter Task))
    (result : Semaphore Task × List (Grant Task)) : Prop where
  held : Held result.1.activity (readers + asking .read result.2) (writers + asking .write result.2)
  shape : Shape result.1
  honest : Honest result.2
  fifo : waiters = result.2.map Grant.waiter ++ result.1.waitList

theorem handed_none {readers writers : Multiset Task}
    (hheld : Held sem.activity readers writers) (hshape : Shape sem) :
    Handed readers writers sem.waitList (sem, []) where
  held := by simpa [asking] using hheld
  shape := hshape
  honest := by simp [Honest]
  fifo := by simp

theorem handed_writer (hmode : waiter.mode = .write) :
    Handed 0 0 (waiter :: rest) (⟨-1, rest⟩, [⟨waiter, .write⟩]) where
  held := by
    apply Held.writer rfl
    · simp [asking, hmode]
    · simp [asking, hmode]
  shape := ⟨fun hzero => by simp at hzero, fun hpos => by simp at hpos⟩
  honest := by simp [Honest, hmode]
  fifo := by simp

/-- The lock goes to the readers at the front, next to the readers that hold it. -/
theorem handed_readers (readers : Multiset Task) (hmode : waiter.mode = .read) :
    Handed readers 0 (waiter :: rest)
      (⟨readers.card + (wakeReaders (waiter :: rest)).1.length, (wakeReaders (waiter :: rest)).2⟩,
        (wakeReaders (waiter :: rest)).1) := by
  obtain ⟨hfifo, hread, hfront⟩ := wakeReaders_spec (waiter :: rest)
  obtain ⟨hcard, hwriters⟩ := asking_read_of_forall fun grant hgrant => (hread grant hgrant).1
  refine ⟨.readers ?_ ?_, ⟨?_, fun _ => hfront⟩, ?_, hfifo.symm⟩
  · simp [hcard]
  · simp [hwriters]
  · intro hzero
    -- at least the first sleeper is woken
    simp only [wakeReaders, hmode, length_cons, Nat.cast_add, Nat.cast_one] at hzero
    omega
  · intro grant hgrant
    obtain ⟨hasked, haccounted⟩ := hread grant hgrant
    rw [hasked, haccounted]

section Sections

variable {sem : Semaphore Task} {readers writers : Multiset Task} {task : Task} {activity : ℤ}

theorem Held.of_nonneg (hheld : Held activity readers writers) (hnonneg : 0 ≤ activity) :
    activity = readers.card ∧ writers = 0 := by
  cases hheld with
  | writer hactivity => omega
  | readers hactivity hwriters => exact ⟨hactivity, hwriters⟩

theorem Held.add_reader (hheld : Held sem.activity readers writers)
    (hnonneg : 0 ≤ sem.activity) (task : Task) :
    Held (sem.activity + 1) (task ::ₘ readers) writers := by
  obtain ⟨hactivity, hwriters⟩ := hheld.of_nonneg hnonneg
  apply Held.readers
  · rw [Multiset.card_cons, hactivity]
    push_cast
    ring
  · exact hwriters

theorem Held.add_writer (hheld : Held sem.activity readers writers) (hzero : sem.activity = 0)
    (task : Task) : Held (-1) readers (task ::ₘ writers) := by
  obtain ⟨hactivity, hwriters⟩ := hheld.of_nonneg (by omega)
  have hreaders : readers = 0 := by
    rw [← Multiset.card_eq_zero]
    omega
  exact Held.writer rfl hreaders (by simp [hwriters])

theorem Held.activity_eq_neg_one_iff (hheld : Held activity readers writers) :
    activity = -1 ↔ writers.card = 1 ∧ readers = 0 := by
  cases hheld with
  | writer hactivity hreaders hwriters => simp [hactivity, hreaders, hwriters]
  | readers hactivity hwriters =>
    constructor
    · intro hminus
      omega
    · rintro ⟨hone, -⟩
      simp [hwriters] at hone

theorem readable_iff : readable sem = true ↔ 0 ≤ sem.activity ∧ sem.waitList = [] := by
  simp [readable]

theorem writable_iff : writable sem = true ↔ sem.activity = 0 ∧ sem.waitList = [] := by
  simp [writable]

theorem shape_nil (activity : ℤ) : Shape (⟨activity, []⟩ : Semaphore Task) :=
  ⟨fun _ => rfl, fun _ => by simp⟩

theorem Shape.enqueue (hshape : Shape sem) (waiter : Waiter Task)
    (hsleep : waiter.mode = .read ∧ readable sem = false ∨
      waiter.mode = .write ∧ writable sem = false) : Shape (enqueue sem waiter) := by
  have hbusy : ¬(sem.activity = 0 ∧ sem.waitList = []) := by
    rintro ⟨hzero, hnil⟩
    simp [readable, writable, hzero, hnil] at hsleep
  constructor
  · intro hzero
    exact absurd ⟨hzero, hshape.idle hzero⟩ hbusy
  intro hpos first hfirst
  cases hlist : sem.waitList with
  | nil =>
    rw [Rwsem.enqueue, hlist] at hfirst
    rcases hsleep with ⟨-, hreadable⟩ | ⟨hwrite, -⟩
    · rw [readable, hlist] at hreadable
      have : 0 < sem.activity := hpos
      simp at hreadable
      omega
    · simp only [nil_append, head?_cons, mem_def, some.injEq] at hfirst
      rw [← hfirst, hwrite]
  | cons head rest =>
    apply hshape.front hpos
    simpa [Rwsem.enqueue, hlist] using hfirst

variable [DecidableEq Task] (hheld : Held sem.activity readers writers)
include hheld

theorem Held.of_mem_readers (htask : task ∈ readers) :
    0 < sem.activity ∧ Held (sem.activity - 1) (readers.erase task) writers := by
  cases hheld with
  | writer hactivity hreaders =>
    rw [hreaders] at htask
    exact absurd htask (Multiset.notMem_zero task)
  | readers hactivity hwriters =>
    have hcard := Multiset.card_erase_add_one htask
    refine ⟨by omega, Held.readers ?_ hwriters⟩
    omega

theorem Held.of_mem_writers (htask : task ∈ writers) :
    sem.activity = -1 ∧ readers = 0 ∧ writers.erase task = 0 := by
  cases hheld with
  | writer hactivity hreaders hwriters =>
    have hcard := Multiset.card_erase_add_one htask
    refine ⟨hactivity, hreaders, ?_⟩
    rw [← Multiset.card_eq_zero]
    omega
  | readers hactivity hwriters =>
    rw [hwriters] at htask
    exact absurd htask (Multiset.notMem_zero task)

theorem upRead_handed (hshape : Shape sem) (htask : task ∈ readers) :
    Handed (readers.erase task) writers sem.waitList (upRead sem) := by
  obtain ⟨hpos, hrest⟩ := hheld.of_mem_readers htask
  unfold upRead
  split_ifs with hlast
  · -- the last reader leaves: by the shape of the list the first sleeper is a writer
    obtain ⟨hzero, hwaiting⟩ := hlast
    obtain ⟨hcard, hwriters⟩ := hrest.of_nonneg (by omega)
    have hreaders : readers.erase task = 0 := by
      rw [← Multiset.card_eq_zero]
      omega
    cases hlist : sem.waitList with
    | nil => exact absurd hlist hwaiting
    | cons waiter rest =>
      rw [hreaders, hwriters]
      apply handed_writer
      apply hshape.front hpos
      simp [hlist]
  · refine handed_none ⟨sem.activity - 1, sem.waitList⟩ hrest ⟨?_, ?_⟩
    · intro hzero
      by_contra hwaiting
      exact hlast ⟨hzero, hwaiting⟩
    · intro _
      exact hshape.front hpos

theorem upWrite_handed (htask : task ∈ writers) :
    Handed readers (writers.erase task) sem.waitList (upWrite sem) := by
  obtain ⟨-, hreaders, hwriters⟩ := hheld.of_mem_writers htask
  rw [hreaders, hwriters]
  unfold upWrite
  cases hlist : sem.waitList with
  | nil => exact handed_none ⟨0, []⟩ (Held.readers (by simp) rfl) (shape_nil 0)
  | cons waiter rest =>
    rw [if_pos (by simp)]
    cases hmode : waiter.mode with
    | read =>
      simp only [doWake, hmode]
      exact handed_readers 0 hmode
    | write =>
      simp only [doWake, hmode]
      exact handed_writer hmode

theorem downgradeWrite_handed (htask : task ∈ writers) :
    Handed (task ::ₘ readers) (writers.erase task) sem.waitList (downgradeWrite sem) := by
  obtain ⟨-, hreaders, hwriters⟩ := hheld.of_mem_writers htask
  rw [hreaders, hwriters]
  have hone : Held 1 (task ::ₘ 0) (0 : Multiset Task) := Held.readers (by simp) rfl
  unfold downgradeWrite
  cases hlist : sem.waitList with
  | nil => exact handed_none ⟨1, []⟩ hone (shape_nil 1)
  | cons waiter rest =>
    rw [if_pos (by simp)]
    cases hmode : waiter.mode with
    | read =>
      simp only [doWake, hmode]
      exact handed_readers (task ::ₘ 0) hmode
    | write =>
      simp only [doWake, hmode]
      refine handed_none ⟨1, waiter :: rest⟩ hone ⟨fun hzero => by simp at hzero, ?_⟩
      intro _ first hfirst
      simp only [head?_cons, mem_def, some.injEq] at hfirst
      rw [← hfirst, hmode]

end Sections

/-! ## Every run -/

theorem invariant_init : Invariant (⟨initRwsem, 0, 0, [], []⟩ : System Task) where
  held := Held.readers rfl rfl
  shape := shape_nil 0
  honest := by simp [Honest]
  fifo := rfl

theorem Invariant.release (hinv : Invariant system) {readers writers : Multiset Task}
    {result : Semaphore Task × List (Grant Task)}
    (hhanded : Handed readers writers system.sem.waitList result) :
    Invariant (system.release readers writers result) where
  held := hhanded.held
  shape := hhanded.shape
  honest := forall_mem_append.mpr ⟨hinv.honest, hhanded.honest⟩
  fifo := by
    simp only [System.release]
    rw [hinv.fifo, hhanded.fifo, map_append, append_assoc]

variable [DecidableEq Task]

theorem Invariant.perform {action : Action Task} (hinv : Invariant system)
    (henabled : Enabled system action) : Invariant (perform system action) := by
  cases action with
  | downRead task =>
    by_cases hreadable : readable system.sem = true
    · obtain ⟨hnonneg, hnil⟩ := readable_iff.mp hreadable
      simp only [Rwsem.perform, downRead, hreadable, if_true]
      exact ⟨hinv.held.add_reader hnonneg task, hnil ▸ shape_nil _, hinv.honest, hinv.fifo⟩
    · rw [not_eq_true] at hreadable
      simp only [Rwsem.perform, downRead, hreadable, false_eq_true, if_false]
      refine ⟨hinv.held, hinv.shape.enqueue _ (Or.inl ⟨rfl, hreadable⟩), hinv.honest, ?_⟩
      simp only [enqueue]
      rw [hinv.fifo, append_assoc]
  | downReadTrylock task =>
    by_cases hreadable : readable system.sem = true
    · obtain ⟨hnonneg, hnil⟩ := readable_iff.mp hreadable
      simp only [Rwsem.perform, downReadTrylock, hreadable, if_true]
      exact ⟨hinv.held.add_reader hnonneg task, hnil ▸ shape_nil _, hinv.honest, hinv.fifo⟩
    · rw [not_eq_true] at hreadable
      simp only [Rwsem.perform, downReadTrylock, hreadable, false_eq_true, if_false]
      exact ⟨hinv.held, hinv.shape, hinv.honest, hinv.fifo⟩
  | downWrite task =>
    by_cases hwritable : writable system.sem = true
    · obtain ⟨hzero, hnil⟩ := writable_iff.mp hwritable
      simp only [Rwsem.perform, downWrite, hwritable, if_true]
      exact ⟨hinv.held.add_writer hzero task, hnil ▸ shape_nil _, hinv.honest, hinv.fifo⟩
    · rw [not_eq_true] at hwritable
      simp only [Rwsem.perform, downWrite, hwritable, false_eq_true, if_false]
      refine ⟨hinv.held, hinv.shape.enqueue _ (Or.inr ⟨rfl, hwritable⟩), hinv.honest, ?_⟩
      simp only [enqueue]
      rw [hinv.fifo, append_assoc]
  | downWriteTrylock task =>
    by_cases hwritable : writable system.sem = true
    · obtain ⟨hzero, hnil⟩ := writable_iff.mp hwritable
      simp only [Rwsem.perform, downWriteTrylock, hwritable, if_true]
      exact ⟨hinv.held.add_writer hzero task, hnil ▸ shape_nil _, hinv.honest, hinv.fifo⟩
    · rw [not_eq_true] at hwritable
      simp only [Rwsem.perform, downWriteTrylock, hwritable, false_eq_true, if_false]
      exact ⟨hinv.held, hinv.shape, hinv.honest, hinv.fifo⟩
  | upRead task => exact hinv.release (upRead_handed hinv.held hinv.shape henabled.2)
  | upWrite task => exact hinv.release (upWrite_handed hinv.held henabled.2)
  | downgradeWrite task => exact hinv.release (downgradeWrite_handed hinv.held henabled.2)

theorem Reachable.invariant (hreach : Reachable system) : Invariant system := by
  induction hreach with
  | init => exact invariant_init
  | act _ henabled ih => exact ih.perform henabled

/-- After any interleaving of the sections of any tasks `activity` is what the tasks hold,
the list has the shape that the releasing tasks rely on, every sleeper that was woken was
given the lock it asked for, and sleepers are served in the order of their arrival. -/
theorem rwsem_protocol {system : System Task} (hreach : Reachable system) :
    (system.sem.activity = -1 ↔ system.writers.card = 1 ∧ system.readers = 0) ∧
      (system.sem.activity ≠ -1 → system.writers = 0 ∧ system.sem.activity = system.readers.card) ∧
      (system.sem.activity = 0 → system.sem.waitList = []) ∧
      (0 < system.sem.activity → ∀ waiter ∈ system.sem.waitList.head?, waiter.mode = .write) ∧
      (∀ grant ∈ system.granted, grant.accounted = grant.waiter.mode) ∧
      system.arrived = system.granted.map Grant.waiter ++ system.sem.waitList := by
  have hinv := hreach.invariant
  refine ⟨hinv.held.activity_eq_neg_one_iff, ?_, hinv.shape.idle, hinv.shape.front, hinv.honest,
    hinv.fifo⟩
  intro hactivity
  cases hheld : hinv.held with
  | writer hminus => exact absurd hminus hactivity
  | readers hcount hwriters => exact ⟨hwriters, hcount⟩

/-- A writer, a reader and a second writer behind it: the release serves the reader. -/
def handover : System ℕ :=
  perform (perform (perform (perform ⟨initRwsem, 0, 0, [], []⟩ (.downWrite 1)) (.downRead 2))
    (.downWrite 3)) (.upWrite 1)

theorem rwsem_protocol_handover :
    Reachable handover ∧ handover.granted = [⟨⟨2, .read⟩, .read⟩] ∧
      handover.arrived = handover.granted.map Grant.waiter ++ handover.sem.waitList := by
  have hreach : Reachable handover := by
    refine .act (.act (.act (.act .init ?_) ?_) ?_) ?_
    · simp [Enabled, initRwsem]
    · simp [Enabled, perform, downWrite, writable, initRwsem]
    · simp [Enabled, perform, downWrite, downRead, writable, readable, enqueue, initRwsem]
    · simp [Enabled, perform, downWrite, downRead, writable, readable, enqueue, initRwsem]
  refine ⟨hreach, ?_, (rwsem_protocol hreach).2.2.2.2.2⟩
  rfl

end KernelM5040.Rwsem
