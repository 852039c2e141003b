import KernelM5040.Net.TcpWords

/-!
# Streams of segments

Every sequence of segments of one stream leaves both receive queues in order
and the SACK blocks truthful.
-/

namespace KernelM5040.TcpInput

open Segment List

/-! ### Runs -/

variable (tp : TcpSock (BitVec 32))

/-- A segment of the stream: it does not end before it starts, and both its
numbers are less than 2^30 away from `rcv_nxt`. -/
def InStream (skb : Segment (BitVec 32)) : Prop :=
  |(skb.seq - tp.rcvNxt).toInt| < 2 ^ 30 ∧ |(skb.endSeq - tp.rcvNxt).toInt| < 2 ^ 30 ∧
    seqBefore skb.endSeq skb.seq = false

instance  (skb : Segment (BitVec 32)) : Decidable (InStream tp skb) :=
  inferInstanceAs (Decidable (_ ∧ _ ∧ _))

def run (tp : TcpSock (BitVec 32)) : List Call → TcpSock (BitVec 32)
  | [] => tp
  | call :: calls => run (tcpDataQueue tp call).1 calls

/-- Each call of a run brings a segment of the stream. -/
def Stream (tp : TcpSock (BitVec 32)) : List Call → Prop
  | [] => True
  | call :: calls => InStream tp call.skb ∧ Stream (tcpDataQueue tp call).1 calls

instance decidableStream (tp : TcpSock (BitVec 32)) (calls : List Call) :
    Decidable (Stream tp calls) :=
  match calls with
  | [] => inferInstanceAs (Decidable True)
  | call :: calls =>
    @instDecidableAnd _ _ inferInstance (decidableStream (tcpDataQueue tp call).1 calls)

theorem stream_append (calls more : List Call) :
    Stream tp (calls ++ more) ↔ Stream tp calls ∧ Stream (run tp calls) more := by
  induction calls generalizing tp with
  | nil => exact (and_iff_right trivial).symm
  | cons call calls ih =>
    simp only [cons_append, Stream, run, ih, and_assoc]

/-! ### The positions behind the words -/

/-- The socket as the words of one that holds positions in the stream. -/
structure Unwrapped (start : ℤ) (stream : TcpSock ℤ) (tp : TcpSock (BitVec 32)) : Prop where
  words : tp = stream.map word
  reassembly : Reassembly start stream
  -- what is held ahead is less than 2^30 away
  window : ∀ skb ∈ stream.outOfOrderQueue, skb.endSeq < stream.rcvNxt + 2 ^ 30
  short : ∀ skb ∈ stream.receiveQueue ++ stream.outOfOrderQueue, skb.endSeq - skb.seq < 2 ^ 31

variable {queue : List (Segment ℤ)} {tp : TcpSock (BitVec 32)} {stream : TcpSock ℤ} {start next : ℤ}
  {skb : Segment (BitVec 32)}

theorem Delivered.endSeq_le (hdelivered : Delivered start queue next) {skb : Segment ℤ}
    (hmem : skb ∈ queue) : skb.endSeq ≤ next := by
  induction hdelivered with
  | nil => cases hmem
  | snoc hqueue hseq hend ih =>
    rcases mem_append.mp hmem with hmem | hmem
    · exact (ih hmem).trans hend.le
    · rw [mem_singleton.mp hmem]

section Unwrap

variable {start : ℤ} {stream : TcpSock ℤ} {tp : TcpSock (BitVec 32)}

theorem Unwrapped.near (hunwrapped : Unwrapped start stream tp) :
    stream.Near (NearTo stream.rcvNxt) := by
  have hreassembly := hunwrapped.reassembly
  constructor
  · exact ⟨by omega, by omega⟩
  · intro skb hmem
    have hahead := hreassembly.ahead skb hmem
    have hnonempty := hreassembly.nonempty skb hmem
    have hwindow := hunwrapped.window skb hmem
    exact ⟨⟨by omega, by omega⟩, ⟨by omega, by omega⟩⟩
  · intro sp hmem
    have hahead := hreassembly.acks_ahead hmem
    have hnonempty := hreassembly.blocks.nonempty sp hmem
    -- the block's last byte is held
    obtain ⟨skb, hskb, -, hhigh⟩ := hreassembly.held (sp.endSeq - 1) ⟨sp, hmem, by omega, by omega⟩
    have hwindow := hunwrapped.window skb hskb
    exact ⟨⟨by omega, by omega⟩, ⟨by omega, by omega⟩⟩

/-- The position of a segment's numbers, seen from `rcv_nxt`. -/
def unwrap (stream : TcpSock ℤ) (skb : Segment (BitVec 32)) : Segment ℤ :=
  { seq := stream.rcvNxt + (skb.seq - word stream.rcvNxt).toInt
    endSeq := stream.rcvNxt + (skb.endSeq - word stream.rcvNxt).toInt }

theorem unwrap_map (stream : TcpSock ℤ) (skb : Segment (BitVec 32)) :
    (unwrap stream skb).map word = skb := by
  simp only [unwrap, Segment.map, word_add_toInt]

theorem Unwrapped.near_unwrap (hunwrapped : Unwrapped start stream tp) (hskb : InStream tp skb) :
    (unwrap stream skb).Near (NearTo stream.rcvNxt) ∧
      (unwrap stream skb).seq ≤ (unwrap stream skb).endSeq := by
  obtain ⟨hseq, hend, horder⟩ := hskb
  have hrcvNxt : tp.rcvNxt = word stream.rcvNxt := by
    rw [hunwrapped.words]
    rfl
  rw [hrcvNxt, abs_lt] at hseq hend
  have hnear : (unwrap stream skb).Near (NearTo stream.rcvNxt) := by
    simp only [Near, NearTo, unwrap]
    omega
  refine ⟨hnear, ?_⟩
  have hbefore := (agrees_word stream.rcvNxt).before hnear.2 hnear.1
  rw [← streamBefore_eq_false, ← hbefore]
  have hmap := unwrap_map stream skb
  have hseqWord : word (unwrap stream skb).seq = skb.seq := congrArg seq hmap
  have hendWord : word (unwrap stream skb).endSeq = skb.endSeq := congrArg endSeq hmap
  rw [hseqWord, hendWord]
  exact horder

/-- A call over words is the call over the positions behind them. -/
theorem Unwrapped.tcpDataQueue (hunwrapped : Unwrapped start stream tp) {call : Call}
    (hskb : InStream tp call.skb) :
    ∃ result, Processed start stream (unwrap stream call.skb) result ∧
      TcpInput.tcpDataQueue tp call = Prod.map (TcpSock.map word) id result ∧
      Unwrapped start result.1 (TcpInput.tcpDataQueue tp call).1 := by
  obtain ⟨hnear, hle⟩ := hunwrapped.near_unwrap hskb
  have hmap := dataQueue_map (agrees_word stream.rcvNxt)
    (tcpReceiveWindow call.rcvWup call.rcvWnd tp.rcvNxt == 0)
    (seqBefore call.skb.seq (tp.rcvNxt + tcpReceiveWindow call.rcvWup call.rcvWnd tp.rcvNxt))
    call.memory hunwrapped.near hnear
  rw [unwrap_map, ← hunwrapped.words] at hmap
  have hprocessed := hunwrapped.reassembly.processed
    (tcpReceiveWindow call.rcvWup call.rcvWnd tp.rcvNxt == 0)
    (seqBefore call.skb.seq (tp.rcvNxt + tcpReceiveWindow call.rcvWup call.rcvWnd tp.rcvNxt))
    call.memory hle
  refine ⟨_, hprocessed, hmap, ?_⟩
  change Unwrapped start _ (dataQueue seqBefore _ _ call.memory tp call.skb).1
  rw [hmap]
  have hnew : (unwrap stream call.skb).endSeq - (unwrap stream call.skb).seq < 2 ^ 31 := by
    simp only [Near, NearTo] at hnear
    omega
  refine ⟨rfl, hprocessed.reassembly, ?_, ?_⟩
  · intro skb hmem
    have hadvance := hprocessed.advance
    rcases mem_cons.mp (hprocessed.subset (mem_append_right _ hmem)) with rfl | hmem
    · have := hnear.2.2
      omega
    rcases mem_append.mp hmem with hmem | hmem
    · have := hunwrapped.reassembly.delivered.endSeq_le hmem
      omega
    · have := hunwrapped.window skb hmem
      omega
  · intro skb hmem
    rcases mem_cons.mp (hprocessed.subset hmem) with rfl | hmem
    · exact hnew
    · exact hunwrapped.short skb hmem

end Unwrap

theorem unwrapped_init (sackOk : Bool) (rcvNxt : BitVec 32) :
    ∃ stream, Unwrapped rcvNxt.toNat stream (TcpSock.init sackOk rcvNxt) ∧
      stream.sackOk = sackOk := by
  refine ⟨⟨rcvNxt.toNat, [], [], sackOk, [], false⟩, ⟨?_, ?_, by simp, by simp⟩, rfl⟩
  · simp [TcpSock.map, TcpSock.init, word_toNat]
  exact
    { increasing := Pairwise.nil
      nonempty := by simp
      ahead := by simp
      delivered := Delivered.nil
      blocks := ⟨by simp, Pairwise.nil⟩
      count := by simp
      held := by simp [CoveredBy]
      plain := Or.inr rfl
      unwarned := rfl }

theorem Unwrapped.run (hunwrapped : Unwrapped start stream tp) {calls : List Call}
    (hstream : Stream tp calls) :
    ∃ final, Unwrapped start final (TcpInput.run tp calls) ∧ final.sackOk = stream.sackOk := by
  induction calls generalizing stream tp with
  | nil => exact ⟨stream, hunwrapped, rfl⟩
  | cons call calls ih =>
    obtain ⟨result, hprocessed, -, hresult⟩ := hunwrapped.tcpDataQueue hstream.1
    obtain ⟨final, hfinal, hsackOk⟩ := ih hresult hstream.2
    exact ⟨final, hfinal, hsackOk.trans hprocessed.sackOk⟩

/-! ### The receive queues -/

/-- Each segment starts at or before the end of its predecessor and ends after it. -/
def Chained (previous : BitVec 32) : List (Segment (BitVec 32)) → Prop
  | [] => True
  | skb :: queue =>
    seqBefore previous skb.seq = false ∧ seqBefore previous skb.endSeq = true ∧
      Chained skb.endSeq queue

/-- The end of the last segment. -/
def lastEnd (initial : BitVec 32) (queue : List (Segment (BitVec 32))) : BitVec 32 :=
  (queue.getLast?.map Segment.endSeq).getD initial

/-- A receive queue that holds the stream from one position to another: these
are the positions of its segments, less than half of the space long. -/
structure Covering (positions : List (Segment ℤ)) (start next : ℤ)
    (queue : List (Segment (BitVec 32))) : Prop where
  words : queue = positions.map (Segment.map word)
  length : ∀ skb ∈ positions, skb.seq < skb.endSeq ∧ skb.endSeq - skb.seq < 2 ^ 31
  le : start ≤ next
  held : ∀ position, start ≤ position → (Held positions position ↔ position < next)

/-- Both queues are in order, and the receive queue has no gaps. -/
structure Ordered (initial : BitVec 32) (tp : TcpSock (BitVec 32)) : Prop where
  increasing : tp.outOfOrderQueue.Pairwise fun skb skb1 =>
    seqBefore skb.seq skb1.seq = true ∧ seqBefore skb.endSeq skb1.endSeq = true
  ahead : ∀ skb ∈ tp.outOfOrderQueue, seqBefore tp.rcvNxt skb.seq = true
  chained : Chained initial tp.receiveQueue
  last : tp.rcvNxt = lastEnd initial tp.receiveQueue
  covering : ∃ positions next, tp.rcvNxt = word next ∧
    Covering positions initial.toNat next tp.receiveQueue

theorem chained_snoc {previous : BitVec 32} {queue : List (Segment (BitVec 32))} :
    Chained previous (queue ++ [skb]) ↔ Chained previous queue ∧
      seqBefore (lastEnd previous queue) skb.seq = false ∧
      seqBefore (lastEnd previous queue) skb.endSeq = true := by
  induction queue generalizing previous with
  | nil => simp [Chained, lastEnd]
  | cons first queue ih =>
    have hlast : lastEnd previous (first :: queue) = lastEnd first.endSeq queue := by
      simp only [lastEnd, getLast?_cons]
      cases queue.getLast? <;> rfl
    rw [hlast, cons_append, Chained, Chained, ih]
    tauto

section

variable (hdelivered : Delivered start queue next)
  (hshort : ∀ skb ∈ queue, skb.endSeq - skb.seq < 2 ^ 31)
include hdelivered hshort

theorem Delivered.chained :
    Chained (word start) (queue.map (Segment.map word)) ∧
      word next = lastEnd (word start) (queue.map (Segment.map word)) := by
  induction hdelivered with
  | nil => exact ⟨trivial, rfl⟩
  | @snoc queue next skb hqueue hseq hend ih =>
    obtain ⟨hchained, hlast⟩ := ih fun skb1 hmem => hshort skb1 (mem_append_left _ hmem)
    have hskb := hshort skb (by simp)
    rw [map_append, map_singleton, chained_snoc, ← hlast]
    refine ⟨⟨hchained, ?_, ?_⟩, ?_⟩
    · change seqBefore (word next) (word skb.seq) = false
      rw [seqBefore_word (by omega) (by omega), streamBefore_eq_false]
      exact hseq
    · change seqBefore (word next) (word skb.endSeq) = true
      rw [seqBefore_word (by omega) (by omega), streamBefore_eq_true]
      exact hend
    · simp [lastEnd, Segment.map]

theorem Delivered.covering : Covering queue start next (queue.map (Segment.map word)) := by
  refine ⟨rfl, ?_, ?_, fun position => hdelivered.held_iff⟩
  · intro skb hmem
    refine ⟨?_, hshort skb hmem⟩
    clear hshort
    induction hdelivered with
    | nil => cases hmem
    | snoc hqueue hseq hend ih =>
      rcases mem_append.mp hmem with hmem | hmem
      · exact ih hmem
      · rw [mem_singleton.mp hmem]
        omega
  · clear hshort
    induction hdelivered with
    | nil => exact le_rfl
    | snoc hqueue hseq hend ih => exact ih.trans hend.le

end

theorem Unwrapped.ordered {initial : BitVec 32} (hunwrapped : Unwrapped initial.toNat stream tp) :
    Ordered initial tp := by
  have hnear := hunwrapped.near
  have hagrees := agrees_word stream.rcvNxt
  have hreassembly := hunwrapped.reassembly
  have hshort : ∀ skb ∈ stream.receiveQueue, skb.endSeq - skb.seq < 2 ^ 31 :=
    fun skb hmem => hunwrapped.short skb (mem_append_left _ hmem)
  obtain ⟨hchained, hlast⟩ := hreassembly.delivered.chained hshort
  rw [word_toNat] at hchained hlast
  rw [hunwrapped.words]
  constructor
  · refine pairwise_map.mpr (hreassembly.increasing.imp_of_mem ?_)
    intro skb skb1 hmem hmem1 hlt
    have hskb := hnear.outOfOrderQueue skb hmem
    have hskb1 := hnear.outOfOrderQueue skb1 hmem1
    simp only [Segment.map, hagrees.before hskb.1 hskb1.1, hagrees.before hskb.2 hskb1.2,
      streamBefore_eq_true]
    exact hlt
  · intro skb hmapped
    obtain ⟨skb, hmem, rfl⟩ := mem_map.mp hmapped
    change seqBefore (word stream.rcvNxt) (word skb.seq) = true
    rw [hagrees.before hnear.rcvNxt (hnear.outOfOrderQueue skb hmem).1, streamBefore_eq_true]
    exact hreassembly.ahead skb hmem
  · exact hchained
  · exact hlast
  · exact ⟨stream.receiveQueue, stream.rcvNxt, rfl, hreassembly.delivered.covering hshort⟩

/-- Whatever order the segments of a stream arrive in, and whichever of them
memory scheduling drops, the out-of-order queue stays sorted and ahead of
`rcv_nxt`, and the receive queue holds the stream up to it. -/
theorem receive_queues_ordered (sackOk : Bool) (rcvNxt : BitVec 32) (calls : List Call)
    (hstream : Stream (TcpSock.init sackOk rcvNxt) calls) :
    Ordered rcvNxt (run (TcpSock.init sackOk rcvNxt) calls) := by
  obtain ⟨stream, hunwrapped, -⟩ := unwrapped_init sackOk rcvNxt
  obtain ⟨final, hfinal, -⟩ := hunwrapped.run hstream
  exact hfinal.ordered

/-- A segment across the wrap of the numbers arrives before the one it follows,
then one that leaves a hole. -/
def wrappedCalls : List Call :=
  let window (seq endSeq : BitVec 32) : Call :=
    ⟨⟨seq, endSeq⟩, 0xfffffff0, 0x10000, ⟨false, false, false, false, false⟩⟩
  [window 0xfffffffc 0x10, window 0xfffffff0 0x2, window 0x20 0x30]

theorem receive_queues_ordered_wrap :
    Stream (TcpSock.init true 0xfffffff0) wrappedCalls ∧
      Ordered 0xfffffff0 (run (TcpSock.init true 0xfffffff0) wrappedCalls) :=
  ⟨by decide +kernel, receive_queues_ordered true 0xfffffff0 wrappedCalls (by decide +kernel)⟩

/-! ### The SACK blocks -/

/-- A number lies in the range from one number to another. -/
def InRange (value first last : BitVec 32) : Prop := value - first < last - first

structure Truthful (tp : TcpSock (BitVec 32)) : Prop where
  count : tp.selectiveAcks.length ≤ tcpNumSacks
  nonempty : ∀ sp ∈ tp.selectiveAcks, seqBefore sp.startSeq sp.endSeq = true
  held : ∀ sp ∈ tp.selectiveAcks, ∀ value, InRange value sp.startSeq sp.endSeq →
    ∃ skb ∈ tp.outOfOrderQueue, InRange value skb.seq skb.endSeq
  ahead : ∀ sp ∈ tp.selectiveAcks, seqBefore tp.rcvNxt sp.startSeq = true
  apart : tp.selectiveAcks.Pairwise fun sp swalk =>
    seqBefore sp.endSeq swalk.startSeq = true ∨ seqBefore swalk.endSeq sp.startSeq = true

theorem inRange_word {value : BitVec 32} {first last : ℤ} (hlow : first ≤ last)
    (hhigh : last - first < 2 ^ 32) :
    InRange value (word first) (word last) ↔
      ∃ position, value = word position ∧ first ≤ position ∧ position < last := by
  unfold InRange
  rw [word_sub, BitVec.lt_def]
  have hlength := toNat_word (sub_nonneg.mpr hlow) hhigh
  constructor
  · intro hlt
    refine ⟨first + (value - word first).toNat, ?_, by omega, by omega⟩
    have hoffset : word (first + (value - word first).toNat) - word first = value - word first := by
      rw [word_sub, add_sub_cancel_left, word_toNat]
    exact (sub_left_injective hoffset).symm
  · rintro ⟨position, rfl, hle, hlt⟩
    rw [word_sub]
    have hoffset := @toNat_word (position - first) (by omega) (by omega)
    omega

theorem Unwrapped.truthful (hunwrapped : Unwrapped start stream tp) :
    Truthful tp ∧ tp.warned = false := by
  have hnear := hunwrapped.near
  have hagrees := agrees_word stream.rcvNxt
  have hreassembly := hunwrapped.reassembly
  rw [hunwrapped.words]
  refine ⟨?_, hreassembly.unwarned⟩
  constructor
  · simp only [TcpSock.map, length_map]
    exact hreassembly.count
  · intro sp hmapped
    obtain ⟨sp, hmem, rfl⟩ := mem_map.mp hmapped
    have hsp := hnear.selectiveAcks sp hmem
    change seqBefore (word sp.startSeq) (word sp.endSeq) = true
    rw [hagrees.before hsp.1 hsp.2, streamBefore_eq_true]
    exact hreassembly.blocks.nonempty sp hmem
  · intro sp hmapped value hvalue
    obtain ⟨sp, hmem, rfl⟩ := mem_map.mp hmapped
    have hnonempty := hreassembly.blocks.nonempty sp hmem
    have hsp := hnear.selectiveAcks sp hmem
    simp only [SackBlock.Near, NearTo] at hsp
    obtain ⟨position, rfl, hlow, hhigh⟩ := (inRange_word hnonempty.le (by omega)).mp hvalue
    obtain ⟨skb, hskb, hheld⟩ := hreassembly.held position ⟨sp, hmem, hlow, hhigh⟩
    have hskbNear := hnear.outOfOrderQueue skb hskb
    simp only [Near, NearTo] at hskbNear
    exact ⟨skb.map word, mem_map_of_mem hskb,
      (inRange_word (by omega) (by omega)).mpr ⟨position, rfl, hheld⟩⟩
  · intro sp hmapped
    obtain ⟨sp, hmem, rfl⟩ := mem_map.mp hmapped
    change seqBefore (word stream.rcvNxt) (word sp.startSeq) = true
    rw [hagrees.before hnear.rcvNxt (hnear.selectiveAcks sp hmem).1, streamBefore_eq_true]
    exact hreassembly.acks_ahead hmem
  · refine pairwise_map.mpr (hreassembly.blocks.apart.imp_of_mem ?_)
    intro sp swalk hmem hmem1 hapart
    have hsp := hnear.selectiveAcks sp hmem
    have hswalk := hnear.selectiveAcks swalk hmem1
    simp only [SackBlock.map, hagrees.before hsp.2 hswalk.1, hagrees.before hswalk.2 hsp.1,
      streamBefore_eq_true]
    exact hapart

/-- After every call on a SACK connection the blocks tell the truth about the
out-of-order queue, the first one contains an out-of-order segment that has
just been processed, and the WARN_ON of `tcp_sack_remove` has not triggered. -/
theorem sack_blocks_truthful (rcvNxt : BitVec 32) (calls : List Call) (call : Call)
    (hstream : Stream (TcpSock.init true rcvNxt) (calls ++ [call])) :
    let result := tcpDataQueue (run (TcpSock.init true rcvNxt) calls) call
    Truthful result.1 ∧
      (result.2 = .outOfOrder → ∃ sp rest, result.1.selectiveAcks = sp :: rest ∧
        seqBefore call.skb.seq sp.startSeq = false ∧ seqBefore sp.endSeq call.skb.endSeq = false) ∧
      result.1.warned = false := by
  rw [stream_append] at hstream
  obtain ⟨stream, hunwrapped, hsackOk⟩ := unwrapped_init true rcvNxt
  obtain ⟨final, hfinal, hkept⟩ := hunwrapped.run hstream.1
  obtain ⟨processed, hprocessed, heq, hresult⟩ := hfinal.tcpDataQueue hstream.2.1
  obtain ⟨htruthful, hwarned⟩ := hresult.truthful
  refine ⟨htruthful, ?_, hwarned⟩
  rw [heq]
  intro houtcome
  obtain ⟨sp, rest, hacks, hwithin⟩ :=
    hprocessed.first houtcome ((hprocessed.sackOk.trans hkept).trans hsackOk)
  have hsp := hresult.near.selectiveAcks sp (by rw [hacks]; exact mem_cons_self)
  have hle := (hfinal.near_unwrap hstream.2.1).2
  have hmap := unwrap_map final call.skb
  have hseq : word (unwrap final call.skb).seq = call.skb.seq := congrArg seq hmap
  have hend : word (unwrap final call.skb).endSeq = call.skb.endSeq :=
    congrArg endSeq hmap
  simp only [SackBlock.Near, NearTo] at hsp
  simp only [SackBlock.Within] at hwithin
  refine ⟨sp.map word, rest.map (SackBlock.map word), ?_, ?_, ?_⟩
  · simp [TcpSock.map, hacks]
  · rw [← hseq]
    change seqBefore (word (unwrap final call.skb).seq) (word sp.startSeq) = false
    rw [seqBefore_word (by omega) (by omega), streamBefore_eq_false]
    exact hwithin.1
  · rw [← hend]
    change seqBefore (word sp.endSeq) (word (unwrap final call.skb).endSeq) = false
    rw [seqBefore_word (by omega) (by omega), streamBefore_eq_false]
    exact hwithin.2

theorem sack_blocks_truthful_wrap :
    let call : Call :=
      ⟨⟨0x30, 0x38⟩, 0xfffffff0, 0x10000, ⟨false, false, false, false, false⟩⟩
    let result := tcpDataQueue (run (TcpSock.init true 0xfffffff0) wrappedCalls) call
    Stream (TcpSock.init true 0xfffffff0) (wrappedCalls ++ [call]) ∧
      result.2 = .outOfOrder ∧ result.1.selectiveAcks = [⟨0x20, 0x38⟩] ∧ Truthful result.1 :=
  ⟨by decide +kernel, by decide +kernel, by decide +kernel,
    (sack_blocks_truthful 0xfffffff0 wrappedCalls _ (by decide +kernel)).1⟩

end KernelM5040.TcpInput
