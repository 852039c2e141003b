import KernelM5040.Core.Machine

/-!
# Semaphore sets

Model of one semaphore set of `ipc/sem.c`: the semaphores, the operations that
sleep, and the undo structures.  The tasks that share a `sem_undo_list` are one
owner, and an owner has at most one undo structure for the set.  A system call
runs under the lock of the set, so it is a function of the state.  It also returns
what has happened, as a list of events.
-/

namespace KernelM5040.Semaphore

open Machine Function

def semvmx : ℤ := 32767

def semaem : ℤ := semvmx

def semUndo : BitVec 16 := 0x1000

def ipcNowait : BitVec 16 := 0x800

/-- `struct sem`. -/
structure Sem where
  semval : ℤ
  sempid : ℤ

/-- `struct sembuf`.  The number is the one that the caller has passed, or the index
that it has been found to be. -/
structure Sembuf (Num : Type*) where
  semNum : Num
  semOp : BitVec 16
  semFlg : BitVec 16

section Flags

variable {Num : Type*}

def Sembuf.undo (sop : Sembuf Num) : Bool := sop.semFlg &&& semUndo != 0

def Sembuf.nowait (sop : Sembuf Num) : Bool := sop.semFlg &&& ipcNowait != 0

end Flags

/-- `sem_base`. -/
abbrev Base (nsems : ℕ) := Fin nsems → Sem

/-- The array `semadj` of a `struct sem_undo`, of type `short`. -/
abbrev Semadj (nsems : ℕ) := Fin nsems → BitVec 16

abbrev Sops (nsems : ℕ) := List (Sembuf (Fin nsems))

variable {nsems : ℕ} {Owner : Type*}

/-! ## Operations -/

/-- What `try_atomic_semop` returns: `0`, `1`, `-EAGAIN` or `-ERANGE`. -/
inductive TryResult
  | ok
  | sleep
  | eagain
  | erange
  deriving DecidableEq

/-- The loop behind `undo`, over the operations that have been done, the last one
first. -/
def rollback : Sops nsems → Base nsems → Base nsems
  | [], base => base
  | sop :: done, base =>
    rollback done (update base sop.semNum
      { base sop.semNum with semval := (base sop.semNum).semval - sop.semOp.toInt })

/-- The loop that sets `sempid` and `semadj`, the last operation first. -/
def commit (pid : ℤ) : Sops nsems → Base nsems → Semadj nsems → Base nsems × Semadj nsems
  | [], base, un => (base, un)
  | sop :: done, base, un =>
    commit pid done (update base sop.semNum { base sop.semNum with sempid := pid })
      (if sop.undo then update un sop.semNum (un sop.semNum - sop.semOp) else un)

/-- The loop of `try_atomic_semop`, with the operations that have been done before. -/
def tryLoop (un : Semadj nsems) (pid : ℤ) (done : Sops nsems) :
    Sops nsems → Base nsems → TryResult × Base nsems × Semadj nsems
  | [], base => (.ok, commit pid done base un)
  | sop :: rest, base =>
    let curr := base sop.semNum
    let wouldBlock := (if sop.nowait then .eagain else .sleep, rollback done base, un)
    let outOfRange := (.erange, rollback done base, un)
    if sop.semOp = 0 ∧ curr.semval ≠ 0 then wouldBlock
    else
      let result := curr.semval + sop.semOp.toInt
      if result < 0 then wouldBlock
      else if result > semvmx then outOfRange
      else
        let undo := (un sop.semNum).toInt - sop.semOp.toInt
        if sop.undo ∧ (undo < -semaem - 1 ∨ undo > semaem) then outOfRange
        else tryLoop un pid (sop :: done) rest
          (update base sop.semNum { curr with semval := result })

def tryAtomicSemop (base : Base nsems) (sops : Sops nsems) (un : Semadj nsems) (pid : ℤ) :
    TryResult × Base nsems × Semadj nsems :=
  tryLoop un pid [] sops base

/-! ## The set -/

/-- `struct sem_queue`. -/
structure Queue (nsems : ℕ) (Owner : Type*) where
  undo : Option Owner
  pid : ℤ
  sops : Sops nsems
  alter : Bool

/-- `struct sem_array`, with the undo structures on its list. -/
structure State (nsems : ℕ) (Owner : Type*) where
  semBase : Base nsems
  semPending : List (Queue nsems Owner)
  undos : Owner → Option (Semadj nsems)

/-- What happens in a call: an undo structure is created, operations are completed
with some adjustments before them, a sleeper is woken, semaphores are set, and an
owner exits. -/
inductive Event (nsems : ℕ) (Owner : Type*)
  | created (owner : Owner)
  | completed (undo : Option Owner) (un : Semadj nsems) (sops : Sops nsems)
  | woken (q : Queue nsems Owner) (result : TryResult)
  | setval (semnum : Fin nsems)
  | setall
  | exited (owner : Owner)

def newary : State nsems Owner := ⟨fun _ => ⟨0, 0⟩, [], fun _ => none⟩

/-- The adjustments of an undo structure.  Operations without `SEM_UNDO` have none, and
do not look at it. -/
def adjustments (undos : Owner → Option (Semadj nsems)) (undo : Option Owner) : Semadj nsems :=
  (undo.bind undos).getD fun _ => 0

variable [DecidableEq Owner]

/-- `try_atomic_semop` on the undo structure of an owner. -/
def attempt (base : Base nsems) (undos : Owner → Option (Semadj nsems)) (undo : Option Owner)
    (sops : Sops nsems) (pid : ℤ) : TryResult × Base nsems × (Owner → Option (Semadj nsems)) :=
  let (result, base, un) := tryAtomicSemop base sops (adjustments undos undo) pid
  (result, base,
    match undo with
    | none => undos
    | some owner => update undos owner (some un))

def completion (result : TryResult) (undo : Option Owner) (un : Semadj nsems) (sops : Sops nsems) :
    List (Event nsems Owner) :=
  if result = .ok then [.completed undo un sops] else []

/-- The scan of `update_queue`: the entries that it has passed, and those from `q` on. -/
structure Scan (nsems : ℕ) (Owner : Type*) where
  semBase : Base nsems
  undos : Owner → Option (Semadj nsems)
  passed : List (Queue nsems Owner)
  rest : List (Queue nsems Owner)

/-- A round of `update_queue`. -/
def updateStep (scan : Scan nsems Owner) :
    Step (Scan nsems Owner) (State nsems Owner) (Event nsems Owner) :=
  match scan.rest with
  | [] => ⟨[], .exit ⟨scan.semBase, scan.passed, scan.undos⟩⟩
  | q :: rest =>
    let (error, semBase, undos) := attempt scan.semBase scan.undos q.undo q.sops q.pid
    if error = .sleep then ⟨[], .next ⟨semBase, undos, scan.passed ++ [q], rest⟩⟩
    else
      ⟨.woken q error :: completion error q.undo (adjustments scan.undos q.undo) q.sops,
        if q.alter then .next ⟨semBase, undos, [], scan.passed ++ rest⟩
        else .next ⟨semBase, undos, scan.passed, rest⟩⟩

variable (sma : State nsems Owner)

/-- `update_queue`, for so many rounds at most. -/
def updateQueue (rounds : ℕ) : Option (State nsems Owner × List (Event nsems Owner)) :=
  match runFor updateStep rounds ⟨sma.semBase, sma.undos, [], sma.semPending⟩ with
  | .exit sma' =>
    some (sma', trace updateStep rounds ⟨sma.semBase, sma.undos, [], sma.semPending⟩)
  | .next _ => none

/-! ## System calls -/

inductive Errno
  | einval
  | e2big
  | enomem
  | efbig
  | eacces
  | eagain
  | erange
  deriving DecidableEq

/-- How `sys_semtimedop` ends, or goes to sleep. -/
inductive Outcome
  | returned
  | failed (errno : Errno)
  | asleep
  deriving DecidableEq

/-- What a call takes from its task: the undo list, the process id, and whether
permission and memory are granted. -/
structure Caller (Owner : Type*) where
  owner : Owner
  pid : ℤ
  permitted : Bool
  memory : Bool

def findAllocUndo (owner : Owner) (memory : Bool) :
    Except Errno (State nsems Owner × List (Event nsems Owner)) :=
  match sma.undos owner with
  | some _ => .ok (sma, [])
  | none =>
    if memory then
      .ok ({ sma with undos := update sma.undos owner (some fun _ => 0) },
        [.created owner])
    else .error .enomem

/-- The operations with their numbers checked against the size of the set. -/
def checkNum (nsems : ℕ) (sop : Sembuf (BitVec 16)) : Option (Sembuf (Fin nsems)) :=
  if hlt : sop.semNum.toNat < nsems then some ⟨⟨sop.semNum.toNat, hlt⟩, sop.semOp, sop.semFlg⟩
  else none

/-- `sys_semtimedop` behind the lock: the operations are tried, and queued if they
have to sleep. -/
def semopLocked (caller : Caller Owner) (undo : Option Owner) (sops : Sops nsems) (alter : Bool)
    (rounds : ℕ) : Option (State nsems Owner × List (Event nsems Owner) × Outcome) :=
  let (error, semBase, undos) := attempt sma.semBase sma.undos undo sops caller.pid
  let sma' := { sma with semBase := semBase, undos := undos }
  match error with
  | .ok =>
    let events := completion .ok undo (adjustments sma.undos undo) sops
    if alter then
      (updateQueue sma' rounds).map fun (sma, woken) => (sma, events ++ woken, .returned)
    else some (sma', events, .returned)
  | .eagain => some (sma', [], .failed .eagain)
  | .erange => some (sma', [], .failed .erange)
  | .sleep =>
    let queue : Queue nsems Owner := ⟨undo, caller.pid, sops, alter⟩
    if alter then some ({ sma' with semPending := sma'.semPending ++ [queue] }, [], .asleep)
    else some ({ sma' with semPending := queue :: sma'.semPending }, [], .asleep)

/-- `sys_semtimedop` up to the point where it returns or sleeps. -/
def sysSemtimedop (semopm : ℕ) (caller : Caller Owner) (tsops : List (Sembuf (BitVec 16)))
    (rounds : ℕ) : Option (State nsems Owner × List (Event nsems Owner) × Outcome) :=
  if tsops.length < 1 then some (sma, [], .failed .einval)
  else if tsops.length > semopm then some (sma, [], .failed .e2big)
  else
    let undos := tsops.any Sembuf.undo
    let alter := tsops.any fun sop => sop.semOp != 0
    let found := if undos then findAllocUndo sma caller.owner caller.memory else .ok (sma, [])
    match found with
    | .error errno => some (sma, [], .failed errno)
    | .ok (sma, created) =>
      match tsops.mapM (checkNum nsems) with
      | none => some (sma, created, .failed .efbig)
      | some sops =>
        if caller.permitted then
          (semopLocked sma caller (if undos then some caller.owner else none) sops alter
            rounds).map fun (sma, events, outcome) => (sma, created ++ events, outcome)
        else some (sma, created, .failed .eacces)

/-- A wait is interrupted or times out: the entry leaves the queue. -/
def interrupt (before after : List (Queue nsems Owner)) : State nsems Owner :=
  { sma with semPending := before ++ after }

/-- The commands of `semctl_main`. -/
inductive Cmd (nsems : ℕ)
  | getall
  | setall (array : Fin nsems → BitVec 16)
  | getval
  | getpid
  | getncnt
  | getzcnt
  | setval (val : ℤ)

inductive CtlResult (nsems : ℕ)
  | array (values : Fin nsems → BitVec 16)
  | value (value : ℤ)
  | failed (errno : Errno)

def countSemncnt (semnum : Fin nsems) : ℤ :=
  (sma.semPending.map fun q => (q.sops.countP fun sop =>
    decide (sop.semNum = semnum) && decide (sop.semOp.toInt < 0) && !sop.nowait : ℤ)).sum

def countSemzcnt (semnum : Fin nsems) : ℤ :=
  (sma.semPending.map fun q => (q.sops.countP fun sop =>
    decide (sop.semNum = semnum) && decide (sop.semOp = 0) && !sop.nowait : ℤ)).sum

/-- What is set by `SETALL`, before the queue is updated. -/
def setAll (array : Fin nsems → BitVec 16) : State nsems Owner :=
  { sma with
    semBase := fun i => { sma.semBase i with semval := (array i).toNat }
    undos := fun owner => (sma.undos owner).map fun _ _ => 0 }

/-- What is set by `SETVAL`, before the queue is updated. -/
def setVal (semnum : Fin nsems) (val pid : ℤ) : State nsems Owner :=
  { sma with
    semBase := update sma.semBase semnum ⟨val, pid⟩
    undos := fun owner => (sma.undos owner).map fun un => update un semnum 0 }

/-- The commands of `semctl_main` for one semaphore. -/
def semctlOne (caller : Caller Owner) (semnum : Fin nsems) (cmd : Cmd nsems) (rounds : ℕ) :
    Option (State nsems Owner × List (Event nsems Owner) × CtlResult nsems) :=
  match cmd with
  | .getval => some (sma, [], .value (sma.semBase semnum).semval)
  | .getpid => some (sma, [], .value (sma.semBase semnum).sempid)
  | .getncnt => some (sma, [], .value (countSemncnt sma semnum))
  | .getzcnt => some (sma, [], .value (countSemzcnt sma semnum))
  | .setval val =>
    if val > semvmx ∨ val < 0 then some (sma, [], .failed .erange)
    else (updateQueue (setVal sma semnum val caller.pid) rounds).map fun (sma, woken) =>
      (sma, .setval semnum :: woken, .value 0)
  | _ => some (sma, [], .failed .einval)

def semctlMain (caller : Caller Owner) (semnum : ℤ) (cmd : Cmd nsems) (rounds : ℕ) :
    Option (State nsems Owner × List (Event nsems Owner) × CtlResult nsems) :=
  if caller.permitted = false then some (sma, [], .failed .eacces)
  else
    match cmd with
    | .getall => some (sma, [], .array fun i => BitVec.ofInt 16 (sma.semBase i).semval)
    | .setall array =>
      if ∃ i, ((array i).toNat : ℤ) > semvmx then some (sma, [], .failed .erange)
      else (updateQueue (setAll sma array) rounds).map fun (sma, woken) =>
        (sma, .setall :: woken, .value 0)
    | cmd =>
      if hnum : 0 ≤ semnum ∧ semnum.toNat < nsems then
        semctlOne sma caller ⟨semnum.toNat, hnum.2⟩ cmd rounds
      else some (sma, [], .failed .einval)

/-- The adjustment of a semaphore in `exit_sem`. -/
def adjust (semaphore : Sem) (semadj : BitVec 16) (pid : ℤ) : Sem :=
  if semadj = 0 then semaphore
  else
    let semval := semaphore.semval + semadj.toInt
    let semval := if semval < 0 then 0 else semval
    ⟨if semval > semvmx then semvmx else semval, pid⟩

/-- The undo structure of an owner is removed and its adjustments are made. -/
def exitAdjust (owner : Owner) (un : Semadj nsems) (pid : ℤ) : State nsems Owner :=
  { sma with
    semBase := fun i => adjust (sma.semBase i) (un i) pid
    undos := update sma.undos owner none }

/-- `exit_sem` of the last task of an owner. -/
def exitSem (owner : Owner) (pid : ℤ) (rounds : ℕ) :
    Option (State nsems Owner × List (Event nsems Owner)) :=
  match sma.undos owner with
  | none => some (sma, [])
  | some un =>
    (updateQueue (exitAdjust sma owner un pid) rounds).map fun (sma, woken) =>
      (sma, .exited owner :: woken)

end KernelM5040.Semaphore
