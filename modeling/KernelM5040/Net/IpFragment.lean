import KernelM5040.Core.Tiling

/-!
# Reassembly of IPv4 datagrams: net/ipv4/ip_fragment.c

`ip_frag_queue` puts a fragment into the queue of its datagram, cutting off
what overlaps with the fragments that are there, and calls `ip_frag_reasm` when
the counters say that the datagram is complete.
-/

namespace KernelM5040.IpFragment

abbrev Byte := BitVec 8

/-- A socket buffer on its way through the queue. -/
structure SkBuff where
  -- which buffer it is
  id : ℕ
  -- ip_hdrlen(skb)
  hdrlen : ℕ
  -- what has been pulled: the bytes between the network header and skb->data
  pulled : List Byte
  -- the linear and paged bytes from skb->data on
  bytes : List Byte
  -- the bytes of the buffers on its frag_list
  fragList : List Byte
  -- FRAG_CB(skb)->offset
  offset : ℕ
  deriving DecidableEq, Repr

namespace SkBuff

def payload (skb : SkBuff) : List Byte := skb.bytes ++ skb.fragList

def len (skb : SkBuff) : ℕ := skb.bytes.length + skb.fragList.length

end SkBuff

/-- `pskb_pull`; a buffer whose tail has to be copied may lack memory. -/
def pskbPull (memory : Bool) (skb : SkBuff) (length : ℕ) : Option SkBuff :=
  if skb.len < length || !memory then none
  else
    some { skb with
      pulled := skb.pulled ++ skb.payload.take length
      bytes := skb.bytes.drop length
      fragList := skb.fragList.drop (length - skb.bytes.length) }

def pskbTrimRcsum (memory : Bool) (skb : SkBuff) (length : ℕ) : Option SkBuff :=
  if skb.len ≤ length then some skb
  else if !memory then none
  else
    some { skb with
      bytes := skb.bytes.take length
      fragList := skb.fragList.take (length - skb.bytes.length) }

/-- `skb_clone`, into a new buffer. -/
def skbClone (id : ℕ) (skb : SkBuff) : SkBuff := { skb with id := id }

def skbMorph (target source : SkBuff) : SkBuff := { source with id := target.id }

/-- `struct ipq` with its `inet_frag_queue`; the three flags are `last_in`. -/
structure Ipq where
  firstIn : Bool
  lastIn : Bool
  complete : Bool
  len : ℕ
  meat : ℤ
  fragments : List SkBuff
  rid : BitVec 32

/-- A fragment as it comes in: its header and `frag_off`, and what is behind. -/
structure Fragment where
  id : ℕ
  header : List Byte
  fragOff : BitVec 16
  bytes : List Byte
  fragList : List Byte

variable (fragment : Fragment)

namespace Fragment

def skb : SkBuff :=
  { id := fragment.id
    hdrlen := fragment.header.length
    pulled := []
    bytes := fragment.header ++ fragment.bytes
    fragList := fragment.fragList
    offset := 0 }

/-- The offset in the datagram, from the field in 8-byte chunks. -/
def offset : ℕ := (fragment.fragOff &&& 0x1fff).toNat <<< 3

/-- The flag IP_MF. -/
def more : Bool := fragment.fragOff &&& 0x2000 != 0

def payload : List Byte := fragment.bytes ++ fragment.fragList

end Fragment

/-- A call of `ip_frag_queue`: the fragment and what the rest of the kernel
answers. -/
structure Call where
  fragment : Fragment
  -- IPSKB_FRAG_COMPLETE is set
  fragComplete : Bool
  -- the new value of peer->rid, and sysctl_ipfrag_max_dist
  peer : Option (BitVec 32)
  maxDist : BitVec 32
  -- mod_timer found the timer pending
  timerPending : Bool
  -- memory to pull the header, to trim, to pull at the front and to pull the next one
  pullHeader : Bool
  trim : Bool
  pullFront : Bool
  pullNext : Bool
  -- memory in ip_frag_reasm: for the clone (and its buffer), to expand the head, to split it
  clone : Option ℕ
  expand : Bool
  split : Option ℕ

inductive Errno
  | enoent
  | etimedout
  | einval
  | enomem
  | e2big
  deriving DecidableEq, Repr

/-- How `ip_frag_queue` goes on: it returns, or calls `ip_frag_reasm` with the
fragment that many places behind the first one as the newest. -/
inductive Queued
  | error (err : Errno)
  | inProgress
  | reassemble (position : ℕ)
  deriving DecidableEq, Repr

variable (q : Ipq) (call : Call)

def ipFragTooFar : Ipq × Bool :=
  match call.peer with
  | none => (q, false)
  | some rid =>
    if call.maxDist = 0 then (q, false)
    else ({ q with rid := rid }, !q.fragments.isEmpty && decide (call.maxDist < rid - q.rid))

/-- `ip_frag_reinit`, once the timer has been moved. -/
def ipFragReinit : Ipq :=
  { q with
    firstIn := false
    lastIn := false
    complete := false
    len := 0
    meat := 0
    fragments := [] }

/-- What the end of the fragment says about the length of the datagram; the end
of all but the last one is rounded down. -/
def recordEnd (more : Bool) (stop : ℕ) : Option (Ipq × ℕ) :=
  if !more then
    if stop < q.len || (q.lastIn && stop != q.len) then none
    else some ({ q with lastIn := true, len := stop }, stop)
  else
    let stop := stop - stop % 8
    if q.len < stop then
      if q.lastIn then none else some ({ q with len := stop }, stop)
    else some (q, stop)

/-- The part of a fragment that overlaps with the one before it is cut off. -/
def pullOverlap (memory : Bool) (prev : Option SkBuff) (skb : SkBuff) (offset stop : ℕ) :
    Except Errno (SkBuff × ℕ) :=
  match prev with
  | none => .ok (skb, offset)
  | some prev =>
    let overlap := prev.offset + prev.len - offset
    if overlap = 0 then .ok (skb, offset)
    else if stop ≤ offset + overlap then .error .einval
    else
      match pskbPull memory skb overlap with
      | none => .error .enomem
      | some skb => .ok (skb, offset + overlap)

/-- The loop over the fragments behind: those that are overridden are dropped,
and the head of the first one that is not is eaten.  `false` if there is no
memory for that. -/
def eatOverlaps (memory : Bool) (stop : ℕ) : List SkBuff → ℤ → List SkBuff × ℤ × Bool
  | [], meat => ([], meat, true)
  | next :: rest, meat =>
    if next.offset < stop then
      let overlap := stop - next.offset
      if overlap < next.len then
        match pskbPull memory next overlap with
        | none => (next :: rest, meat, false)
        | some pulled =>
          ({ pulled with offset := next.offset + overlap } :: rest, meat - overlap, true)
      else eatOverlaps memory stop rest (meat - next.len)
    else (next :: rest, meat, true)

/-- The place of a fragment in the queue, and its insertion. -/
def insertFragment (skb : SkBuff) (offset stop : ℕ) : Ipq × Queued :=
  let front := q.fragments.takeWhile fun next => next.offset < offset
  let behind := q.fragments.dropWhile fun next => next.offset < offset
  match pullOverlap call.pullFront front.getLast? skb offset stop with
  | .error err => (q, .error err)
  | .ok (skb, offset) =>
    match eatOverlaps call.pullNext stop behind q.meat with
    | (behind, meat, false) =>
      ({ q with fragments := front ++ behind, meat := meat }, .error .enomem)
    | (behind, meat, true) =>
      let q :=
        { q with
          fragments := front ++ { skb with offset := offset } :: behind
          meat := meat + skb.len
          firstIn := q.firstIn || offset == 0 }
      if q.firstIn && q.lastIn && q.meat == q.len then (q, .reassemble front.length)
      else (q, .inProgress)

/-- A queue that still takes fragments. -/
def queueOpen : Ipq × Queued :=
  let skb := call.fragment.skb
  let offset := call.fragment.offset
  match recordEnd q call.fragment.more (offset + skb.len - skb.hdrlen) with
  | none => (q, .error .einval)
  | some (q, stop) =>
    if stop = offset then (q, .error .einval)
    else
      match pskbPull call.pullHeader skb skb.hdrlen with
      | none => (q, .error .enomem)
      | some skb =>
        match pskbTrimRcsum call.trim skb (stop - offset) with
        | none => (q, .error .enomem)
        | some skb => insertFragment q call skb offset stop

/-- `ip_frag_queue` up to its return, or to its call of `ip_frag_reasm`. -/
def ipFragQueue : Ipq × Queued :=
  if q.complete then (q, .error .enoent)
  else
    match if call.fragComplete then (q, false) else ipFragTooFar q call with
    | (q, false) => queueOpen q call
    | (q, true) =>
      if call.timerPending then queueOpen (ipFragReinit q) call
      else ({ q with complete := true }, .error .etimedout)

/-- The datagram that is handed on. -/
structure Datagram where
  id : ℕ
  len : ℕ
  totLen : BitVec 16
  -- what skb_push brings back
  header : List Byte
  -- the bytes of the head, and those on its frag_list
  payload : List Byte

inductive Verdict
  | error (err : Errno)
  | inProgress
  | datagram (datagram : Datagram)
  -- the queue is empty, and its head is followed
  | crashed

/-- The newest fragment takes over the place of the first one, and a clone
takes its own. -/
def rehead (clone : ℕ) (fragments : List SkBuff) (position : ℕ) : List SkBuff :=
  match fragments[position]?, fragments with
  | some head, first :: _ =>
    skbMorph head first :: (fragments.set position (skbClone clone head)).tail
  | _, _ => fragments

/-- `ip_frag_reasm` from the new head on. -/
def glue : Ipq × Verdict :=
  match q.fragments with
  | [] => (q, .crashed)
  | head :: rest =>
    if 65535 < head.hdrlen + q.len then (q, .error .e2big)
    else if !call.expand then (q, .error .enomem)
    else
      -- the frag_list of the head moves to a buffer of its own
      let parts :=
        if head.fragList.isEmpty then some (head, rest)
        else
          call.split.map fun id =>
            ({ head with fragList := [] },
              { head with id := id, pulled := [], bytes := [] } :: rest)
      match parts with
      | none => (q, .error .enomem)
      | some (head, rest) =>
        ({ q with fragments := [] },
          .datagram
            { id := head.id
              len := head.pulled.length + head.bytes.length + (rest.map SkBuff.len).sum
              totLen := BitVec.ofNat 16 (head.hdrlen + q.len)
              header := head.pulled
              payload := head.bytes ++ rest.flatMap SkBuff.payload })

def ipFragReasm (position : ℕ) : Ipq × Verdict :=
  let q := { q with complete := true }
  if position = 0 then glue q call
  else
    match call.clone with
    | none => (q, .error .enomem)
    | some id => glue { q with fragments := rehead id q.fragments position } call

/-- `ip_frag_queue` as a whole. -/
def defrag : Ipq × Verdict :=
  match ipFragQueue q call with
  | (q, .error err) => (q, .error err)
  | (q, .inProgress) => (q, .inProgress)
  | (q, .reassemble position) => ipFragReasm q call position

def Ipq.init : Ipq :=
  { firstIn := false
    lastIn := false
    complete := false
    len := 0
    meat := 0
    fragments := []
    rid := 0 }

end KernelM5040.IpFragment
