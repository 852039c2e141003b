import Mathlib

/-!
# The receive queues of TCP: net/ipv4/tcp_input.c

`tcp_data_queue` sorts incoming segments into the receive queue and the
out-of-order queue, and keeps the SACK blocks that describe the latter.  The
code only ever compares sequence numbers, so its functions are written over
any type of numbers with a test `before`; the code's own are 32-bit words, and
positions in the stream serve to reason about them.
-/

namespace KernelM5040.TcpInput

/-- The control block of a segment: `seq` and `end_seq`. -/
structure Segment (Seq : Type*) where
  seq : Seq
  endSeq : Seq
  deriving DecidableEq, Repr

/-- `struct tcp_sack_block`. -/
structure SackBlock (Seq : Type*) where
  startSeq : Seq
  endSeq : Seq
  deriving DecidableEq, Repr

/-- The fields of the socket that take part.  `selectiveAcks` holds the first
`num_sacks` entries of the array; `warned` records the WARN_ON of
`tcp_sack_remove`. -/
structure TcpSock (Seq : Type*) where
  rcvNxt : Seq
  receiveQueue : List (Segment Seq)
  outOfOrderQueue : List (Segment Seq)
  sackOk : Bool
  selectiveAcks : List (SackBlock Seq)
  warned : Bool

/-- The answers of the memory accounting during one call, collapsing left out. -/
structure Memory where
  -- more is allocated than the buffer allows, or the first sk_rmem_schedule fails
  tight : Bool
  -- below the limit once tcp_prune_queue has collapsed the queues
  collapsed : Bool
  -- below the limit once it has purged the out-of-order queue
  pruned : Bool
  -- the second and the third sk_rmem_schedule succeed
  scheduled : Bool
  rescheduled : Bool
  deriving DecidableEq, Repr

/-- What became of a segment. -/
inductive Outcome
  | dropped
  | inSequence
  | outOfOrder
  deriving DecidableEq, Repr

def tcpNumSacks : ℕ := 4

variable {Seq : Type*} [DecidableEq Seq] (before : Seq → Seq → Bool)

/-- `tcp_sack_extend`: `none` when the block is left alone. -/
def tcpSackExtend (sp : SackBlock Seq) (seq endSeq : Seq) : Option (SackBlock Seq) :=
  if !before sp.endSeq seq && !before endSeq sp.startSeq then
    some
      { startSeq := if before seq sp.startSeq then seq else sp.startSeq
        endSeq := if before sp.endSeq endSeq then endSeq else sp.endSeq }
  else none

/-- `tcp_sack_maybe_coalesce`: the first block takes in those it now meets. -/
def tcpSackMaybeCoalesce (sp : SackBlock Seq) :
    List (SackBlock Seq) → SackBlock Seq × List (SackBlock Seq)
  | [] => (sp, [])
  | swalk :: others =>
    match tcpSackExtend before sp swalk.startSeq swalk.endSeq with
    | some sp => tcpSackMaybeCoalesce sp others
    | none =>
      let (first, rest) := tcpSackMaybeCoalesce sp others
      (first, swalk :: rest)

/-- The loop over the blocks in `tcp_sack_new_ofo_skb`: the first one that can
be extended, rotated to the front. -/
def rotateExtended (seq endSeq : Seq) :
    List (SackBlock Seq) → Option (SackBlock Seq × List (SackBlock Seq))
  | [] => none
  | sp :: others =>
    match tcpSackExtend before sp seq endSeq with
    | some sp => some (sp, others)
    | none => (rotateExtended seq endSeq others).map fun (first, rest) => (first, sp :: rest)

def tcpSackNewOfoSkb (seq endSeq : Seq) (acks : List (SackBlock Seq)) : List (SackBlock Seq) :=
  match rotateExtended before seq endSeq acks with
  | some (first, rest) =>
    let (first, rest) := tcpSackMaybeCoalesce before first rest
    first :: rest
  | none =>
    -- a full array forgets its last block
    ⟨seq, endSeq⟩ :: if tcpNumSacks ≤ acks.length then acks.dropLast else acks

variable (tp : TcpSock Seq)

def tcpSackRemove : TcpSock Seq :=
  if tp.outOfOrderQueue.isEmpty then { tp with selectiveAcks := [] }
  else
    { tp with
      selectiveAcks := tp.selectiveAcks.filter fun sp => before tp.rcvNxt sp.startSeq
      warned := tp.warned || tp.selectiveAcks.any fun sp =>
        !before tp.rcvNxt sp.startSeq && before tp.rcvNxt sp.endSeq }

/-- `tcp_prune_ofo_queue`, and whether there was something to purge. -/
def tcpPruneOfoQueue : TcpSock Seq × Bool :=
  if tp.outOfOrderQueue.isEmpty then (tp, false)
  else
    ({ tp with
        outOfOrderQueue := []
        selectiveAcks := if tp.sackOk then [] else tp.selectiveAcks }, true)

/-- `tcp_prune_queue`; `false` stands for a negative result. -/
def tcpPruneQueue (memory : Memory) (tp : TcpSock Seq) : TcpSock Seq × Bool :=
  if memory.collapsed then (tp, true) else ((tcpPruneOfoQueue tp).1, memory.pruned)

/-- `tcp_try_rmem_schedule`; `false` stands for -1. -/
def tcpTryRmemSchedule (memory : Memory) (tp : TcpSock Seq) : TcpSock Seq × Bool :=
  if !memory.tight then (tp, true)
  else
    match tcpPruneQueue memory tp with
    | (tp, false) => (tp, false)
    | (tp, true) =>
      if memory.scheduled then (tp, true)
      else
        match tcpPruneOfoQueue tp with
        | (tp, false) => (tp, false)
        | (tp, true) => (tp, memory.rescheduled)

/-- The loop of `tcp_ofo_queue` over the out-of-order queue. -/
def ofoLoop (tp : TcpSock Seq) : List (Segment Seq) → TcpSock Seq
  | [] => { tp with outOfOrderQueue := [] }
  | skb :: queue =>
    if before tp.rcvNxt skb.seq then { tp with outOfOrderQueue := skb :: queue }
    else if !before tp.rcvNxt skb.endSeq then ofoLoop tp queue
    else
      ofoLoop { tp with receiveQueue := tp.receiveQueue ++ [skb], rcvNxt := skb.endSeq } queue

def tcpOfoQueue : TcpSock Seq := ofoLoop before tp tp.outOfOrderQueue

/-- From the label `queue_and_out` on. -/
def queueAndOut (memory : Memory) (tp : TcpSock Seq) (skb : Segment Seq) : TcpSock Seq × Outcome :=
  match tcpTryRmemSchedule memory tp with
  | (tp, false) => (tp, .dropped)
  | (tp, true) =>
    let tp := { tp with receiveQueue := tp.receiveQueue ++ [skb], rcvNxt := skb.endSeq }
    let tp := if tp.outOfOrderQueue.isEmpty then tp else tcpOfoQueue before tp
    let tp := if tp.selectiveAcks.isEmpty then tp else tcpSackRemove before tp
    (tp, .inSequence)

/-- Segments behind a new one that it covers as a whole are unlinked. -/
def cleanCovered (endSeq : Seq) : List (Segment Seq) → List (Segment Seq)
  | [] => []
  | skb1 :: queue =>
    if before skb1.seq endSeq then
      if before endSeq skb1.endSeq then skb1 :: queue else cleanCovered endSeq queue
    else skb1 :: queue

/-- The place of a segment, looked for from the tail, and its insertion. -/
def insertOfo (queue : List (Segment Seq)) (skb : Segment Seq) : List (Segment Seq) :=
  let passed := queue.reverse.takeWhile fun skb1 => before skb.seq skb1.seq
  let kept := queue.reverse.dropWhile fun skb1 => before skb.seq skb1.seq
  match kept with
  | [] => skb :: cleanCovered before skb.endSeq passed.reverse
  | skb1 :: earlier =>
    if before skb.seq skb1.endSeq then
      if !before skb1.endSeq skb.endSeq then queue
      else if before skb1.seq skb.seq then
        earlier.reverse ++ skb1 :: skb :: cleanCovered before skb.endSeq passed.reverse
      else earlier.reverse ++ skb :: cleanCovered before skb.endSeq (skb1 :: passed.reverse)
    else earlier.reverse ++ skb1 :: skb :: cleanCovered before skb.endSeq passed.reverse

/-- The label `add_sack`. -/
def addSack (skb : Segment Seq) : TcpSock Seq :=
  if tp.sackOk then
    { tp with selectiveAcks := tcpSackNewOfoSkb before skb.seq skb.endSeq tp.selectiveAcks }
  else tp

/-- An out-of-order segment, once there is memory for it. -/
def queueOfo (skb : Segment Seq) : TcpSock Seq :=
  match tp.outOfOrderQueue.getLast? with
  | none =>
    { tp with
      outOfOrderQueue := [skb]
      selectiveAcks := if tp.sackOk then [⟨skb.seq, skb.endSeq⟩] else tp.selectiveAcks }
  | some last =>
    if skb.seq = last.endSeq then
      let tp := { tp with outOfOrderQueue := tp.outOfOrderQueue ++ [skb] }
      match tp.selectiveAcks with
      | [] => addSack before tp skb
      | first :: others =>
        if first.endSeq = skb.seq then
          -- data arrive in order after a hole
          { tp with selectiveAcks := { first with endSeq := skb.endSeq } :: others }
        else addSack before tp skb
    else
      addSack before { tp with outOfOrderQueue := insertOfo before tp.outOfOrderQueue skb } skb

/-- `tcp_data_queue` for plain data; `closed` and `inside` are its two
questions about the receive window. -/
def dataQueue (closed inside : Bool) (memory : Memory) (tp : TcpSock Seq) (skb : Segment Seq) :
    TcpSock Seq × Outcome :=
  if skb.seq = skb.endSeq then (tp, .dropped)
  else if skb.seq = tp.rcvNxt then
    if closed then (tp, .dropped) else queueAndOut before memory tp skb
  else if !before tp.rcvNxt skb.endSeq then (tp, .dropped)
  else if !inside then (tp, .dropped)
  else if before skb.seq tp.rcvNxt then
    if closed then (tp, .dropped) else queueAndOut before memory tp skb
  else
    match tcpTryRmemSchedule memory tp with
    | (tp, false) => (tp, .dropped)
    | (tp, true) => (queueOfo before tp skb, .outOfOrder)

/-- `before(seq1, seq2)`. -/
def seqBefore (seq1 seq2 : BitVec 32) : Bool := decide ((seq1 - seq2).toInt < 0)

def tcpReceiveWindow (rcvWup rcvWnd rcvNxt : BitVec 32) : BitVec 32 :=
  if (rcvWup + rcvWnd - rcvNxt).toInt < 0 then 0 else rcvWup + rcvWnd - rcvNxt

/-- One call of `tcp_data_queue`: the segment, the window the socket offers at
the time and the answers about memory. -/
structure Call where
  skb : Segment (BitVec 32)
  rcvWup : BitVec 32
  rcvWnd : BitVec 32
  memory : Memory

def tcpDataQueue (tp : TcpSock (BitVec 32)) (call : Call) : TcpSock (BitVec 32) × Outcome :=
  let window := tcpReceiveWindow call.rcvWup call.rcvWnd tp.rcvNxt
  dataQueue seqBefore (window == 0) (seqBefore call.skb.seq (tp.rcvNxt + window)) call.memory tp
    call.skb

def TcpSock.init (sackOk : Bool) (rcvNxt : BitVec 32) : TcpSock (BitVec 32) :=
  { rcvNxt := rcvNxt
    receiveQueue := []
    outOfOrderQueue := []
    sackOk := sackOk
    selectiveAcks := []
    warned := false }

end KernelM5040.TcpInput
