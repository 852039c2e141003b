import KernelM5040.Net.TcpSack

/-!
# One call over positions in the stream

What a call of `tcp_data_queue` keeps: the order of both queues, that the
receive queue has no gaps, and that the SACK blocks are truthful.
-/

namespace KernelM5040.TcpInput

open List

/-- The receive queue from a position on: each segment starts at or before the
end of its predecessor and ends after it. -/
inductive Delivered (start : ℤ) : List (Segment ℤ) → ℤ → Prop
  | nil : Delivered start [] start
  | snoc {queue : List (Segment ℤ)} {next : ℤ} {skb : Segment ℤ}
      (hqueue : Delivered start queue next) (hseq : skb.seq ≤ next) (hend : next < skb.endSeq) :
      Delivered start (queue ++ [skb]) skb.endSeq

variable {queue : List (Segment ℤ)}

/-- The receive queue covers the stream up to the next expected position, and
nothing behind it. -/
theorem Delivered.held_iff {start next : ℤ} (hdelivered : Delivered start queue next) {position : ℤ}
    (hstart : start ≤ position) : Held queue position ↔ position < next := by
  induction hdelivered with
  | nil =>
    constructor
    · intro hheld
      exact absurd hheld not_held_nil
    · intro hlt
      omega
  | snoc hqueue hseq hend ih =>
    rw [held_append, ih, held_cons]
    simp only [not_held_nil, or_false]
    omega

/-- What holds of the socket between calls. -/
structure Reassembly (start : ℤ) (tp : TcpSock ℤ) : Prop where
  increasing : Increasing tp.outOfOrderQueue
  nonempty : ∀ skb ∈ tp.outOfOrderQueue, skb.seq < skb.endSeq
  ahead : ∀ skb ∈ tp.outOfOrderQueue, tp.rcvNxt < skb.seq
  delivered : Delivered start tp.receiveQueue tp.rcvNxt
  blocks : Blocks tp.selectiveAcks
  count : tp.selectiveAcks.length ≤ tcpNumSacks
  held : ∀ position, CoveredBy tp.selectiveAcks position → Held tp.outOfOrderQueue position
  -- without SACK there are no blocks
  plain : tp.sackOk = true ∨ tp.selectiveAcks = []
  unwarned : tp.warned = false

variable (memory : Memory)

section Steps

variable {start : ℤ} {tp : TcpSock ℤ} {skb : Segment ℤ} {Seq : Type*}

section

variable (hreassembly : Reassembly start tp)
include hreassembly

theorem Reassembly.acks_eq_nil (hempty : tp.outOfOrderQueue = []) : tp.selectiveAcks = [] := by
  rw [eq_nil_iff_forall_not_mem]
  intro sp hmem
  have hheld := hreassembly.held sp.startSeq ⟨sp, hmem, le_rfl, hreassembly.blocks.nonempty sp hmem⟩
  rw [hempty] at hheld
  exact not_held_nil hheld

theorem Reassembly.acks_ahead {sp : SackBlock ℤ}
    (hmem : sp ∈ tp.selectiveAcks) : tp.rcvNxt < sp.startSeq := by
  obtain ⟨skb, hskb, hlow, -⟩ := hreassembly.held sp.startSeq
    ⟨sp, hmem, le_rfl, hreassembly.blocks.nonempty sp hmem⟩
  exact (hreassembly.ahead skb hskb).trans_le hlow

/-! ### Memory -/

theorem Reassembly.prune : Reassembly start (tcpPruneOfoQueue tp).1 := by
  unfold tcpPruneOfoQueue
  split
  · exact hreassembly
  have hnil : (if tp.sackOk then [] else tp.selectiveAcks) = [] := by
    rcases hreassembly.plain with hsack | hsack
    · rw [hsack]
      rfl
    · rw [hsack]
      exact ite_self []
  rw [hnil]
  exact
    { increasing := Pairwise.nil
      nonempty := by simp
      ahead := by simp
      delivered := hreassembly.delivered
      blocks := ⟨by simp, Pairwise.nil⟩
      count := by simp
      held := by simp [CoveredBy]
      plain := Or.inr rfl
      unwarned := hreassembly.unwarned }

end

theorem tcpPruneOfoQueue_twice (tp : TcpSock Seq) :
    (tcpPruneOfoQueue (tcpPruneOfoQueue tp).1).1 = (tcpPruneOfoQueue tp).1 := by
  cases hempty : tp.outOfOrderQueue.isEmpty <;> simp [tcpPruneOfoQueue, hempty]

theorem tcpPruneQueue_cases (tp : TcpSock Seq) : (tcpPruneQueue memory tp).1 = tp ∨
      (tcpPruneQueue memory tp).1 = (tcpPruneOfoQueue tp).1 := by
  unfold tcpPruneQueue
  split
  · exact Or.inl rfl
  · exact Or.inr rfl

/-- Memory scheduling leaves the socket alone or purges the out-of-order queue. -/
theorem tcpTryRmemSchedule_cases (tp : TcpSock Seq) : (tcpTryRmemSchedule memory tp).1 = tp ∨
      (tcpTryRmemSchedule memory tp).1 = (tcpPruneOfoQueue tp).1 := by
  have hprune := tcpPruneQueue_cases memory tp
  have htwice := tcpPruneOfoQueue_twice tp
  unfold tcpTryRmemSchedule
  generalize tcpPruneQueue memory tp = first at hprune
  obtain ⟨tp1, granted⟩ := first
  have hagain : (tcpPruneOfoQueue tp1).1 = (tcpPruneOfoQueue tp).1 := by
    rcases hprune with rfl | rfl
    · rfl
    · exact htwice
  cases memory.tight with
  | false => exact Or.inl rfl
  | true =>
    cases granted with
    | false => exact hprune
    | true =>
      cases memory.scheduled with
      | true => exact hprune
      | false =>
        right
        rw [← hagain]
        rcases hsecond : tcpPruneOfoQueue tp1 with ⟨tp2, _ | _⟩ <;> simp [hsecond]

theorem Reassembly.tryRmemSchedule (hreassembly : Reassembly start tp) (memory : Memory) :
    Reassembly start (tcpTryRmemSchedule memory tp).1 := by
  rcases tcpTryRmemSchedule_cases memory tp with heq | heq
  · rw [heq]
    exact hreassembly
  · rw [heq]
    exact hreassembly.prune

theorem tcpTryRmemSchedule_kept (tp : TcpSock Seq) :
    (tcpTryRmemSchedule memory tp).1.rcvNxt = tp.rcvNxt ∧
      (tcpTryRmemSchedule memory tp).1.sackOk = tp.sackOk := by
  rcases tcpTryRmemSchedule_cases memory tp with heq | heq
  · rw [heq]
    exact ⟨rfl, rfl⟩
  · rw [heq, tcpPruneOfoQueue]
    split <;> exact ⟨rfl, rfl⟩

theorem tcpTryRmemSchedule_subset (tp : TcpSock Seq) :
    (tcpTryRmemSchedule memory tp).1.receiveQueue ++
        (tcpTryRmemSchedule memory tp).1.outOfOrderQueue ⊆
      tp.receiveQueue ++ tp.outOfOrderQueue := by
  rcases tcpTryRmemSchedule_cases memory tp with heq | heq
  · rw [heq]
    exact Subset.refl _
  rw [heq, tcpPruneOfoQueue]
  split
  · exact Subset.refl _
  · exact append_subset.mpr ⟨subset_append_left _ _, nil_subset _⟩

/-! ### In-sequence data -/

/-- What the drain loop makes of a queue: a first part is delivered or already
there, the rest lies ahead. -/
structure Drained (start : ℤ) (tp : TcpSock ℤ) (queue : List (Segment ℤ)) (result : TcpSock ℤ) :
    Prop where
  split : ∃ popped, queue = popped ++ result.outOfOrderQueue ∧
    ∀ skb ∈ popped, skb.endSeq ≤ result.rcvNxt
  ahead : ∀ skb ∈ result.outOfOrderQueue, result.rcvNxt < skb.seq
  delivered : Delivered start result.receiveQueue result.rcvNxt
  advance : tp.rcvNxt ≤ result.rcvNxt
  subset : result.receiveQueue ⊆ tp.receiveQueue ++ queue
  kept : result.sackOk = tp.sackOk ∧ result.selectiveAcks = tp.selectiveAcks ∧
    result.warned = tp.warned

theorem drained_ofoLoop {queue : List (Segment ℤ)} (hincreasing : Increasing queue)
    (hdelivered : Delivered start tp.receiveQueue tp.rcvNxt) :
    Drained start tp queue (ofoLoop streamBefore tp queue) := by
  induction queue generalizing tp with
  | nil =>
    exact ⟨⟨[], rfl, by simp⟩, by simp [ofoLoop], hdelivered, le_rfl, by simp [ofoLoop],
      rfl, rfl, rfl⟩
  | cons skb queue ih =>
    obtain ⟨hfirst, hrest⟩ := pairwise_cons.mp hincreasing
    rw [ofoLoop]
    simp only [streamBefore_eq_true, Bool.not_eq_true', streamBefore_eq_false]
    split_ifs with hahead hcovered
    · refine ⟨⟨[], rfl, by simp⟩, ?_, hdelivered, le_rfl, subset_append_left _ _, rfl, rfl, rfl⟩
      rw [forall_mem_cons]
      exact ⟨hahead, fun skb1 hmem => hahead.trans (hfirst skb1 hmem).1⟩
    · obtain ⟨⟨popped, hsplit, hpopped⟩, hbehind, hresult, hadvance, hsubset, hkept⟩ :=
        ih hrest hdelivered
      refine ⟨⟨skb :: popped, ?_, ?_⟩, hbehind, hresult, hadvance, ?_, hkept⟩
      · rw [cons_append, ← hsplit]
      · rw [forall_mem_cons]
        exact ⟨hcovered.trans hadvance, hpopped⟩
      · refine Subset.trans hsubset ?_
        exact ((sublist_cons_self skb queue).append_left _).subset
    · -- the segment extends the receive queue
      obtain ⟨⟨popped, hsplit, hpopped⟩, hbehind, hresult, hadvance, hsubset, hkept⟩ :=
        @ih { tp with receiveQueue := tp.receiveQueue ++ [skb], rcvNxt := skb.endSeq } hrest
          (hdelivered.snoc (not_lt.mp hahead) (not_le.mp hcovered))
      refine ⟨⟨skb :: popped, ?_, ?_⟩, hbehind, hresult,
        (not_le.mp hcovered).le.trans hadvance, ?_, hkept⟩
      · rw [cons_append, ← hsplit]
      · rw [forall_mem_cons]
        exact ⟨hadvance, hpopped⟩
      · rwa [append_assoc] at hsubset

/-- After the drain the blocks that `rcv_nxt` has reached are removed, and it
has passed each of them as a whole. -/
theorem Drained.sackRemove {advanced result : TcpSock ℤ}
    (hdrained : Drained start advanced tp.outOfOrderQueue result)
    (hreassembly : Reassembly start tp)
    (hkept : (advanced.sackOk, advanced.selectiveAcks, advanced.warned) =
      (tp.sackOk, tp.selectiveAcks, tp.warned)) :
    Reassembly start (tcpSackRemove streamBefore result) := by
  obtain ⟨⟨popped, hsplit, hpopped⟩, hahead, hdelivered, -, -, hsackOk, hacks, hwarned⟩ := hdrained
  simp only [Prod.mk.injEq] at hkept
  rw [hkept.1] at hsackOk
  rw [hkept.2.1] at hacks
  rw [hkept.2.2] at hwarned
  have hincreasing := hreassembly.increasing
  have hnonempty := hreassembly.nonempty
  have hheld := hreassembly.held
  rw [hsplit] at hincreasing hnonempty hheld
  have hplain := hreassembly.plain
  rw [← hacks, ← hsackOk] at hplain
  -- a covered position after rcv_nxt is held by what is left
  have hleft : ∀ position, CoveredBy result.selectiveAcks position → result.rcvNxt ≤ position →
      Held result.outOfOrderQueue position := by
    intro position hcovered hposition
    rw [hacks] at hcovered
    rcases held_append.mp (hheld position hcovered) with ⟨skb, hmem, -, hhigh⟩ | hheld
    · have := hpopped skb hmem
      omega
    · exact hheld
  -- some of the blocks are left, all of them behind rcv_nxt
  have hfewer : ∀ {acks warned}, acks.Sublist result.selectiveAcks →
      (∀ sp ∈ acks, result.rcvNxt ≤ sp.startSeq) → warned = false →
      Reassembly start { result with selectiveAcks := acks, warned := warned } := by
    intro acks warned hsublist hstart hunwarned
    have hold := hsublist
    rw [hacks] at hold
    exact
      { increasing := (pairwise_append.mp hincreasing).2.1
        nonempty := fun skb hmem => hnonempty skb (mem_append_right _ hmem)
        ahead := hahead
        delivered := hdelivered
        blocks := hreassembly.blocks.sublist hold
        count := hold.length_le.trans hreassembly.count
        held := by
          rintro position ⟨sp, hmem, hlow, hhigh⟩
          exact hleft position ⟨sp, hsublist.subset hmem, hlow, hhigh⟩ ((hstart sp hmem).trans hlow)
        plain := by
          refine hplain.imp_right fun hnil => ?_
          rw [hnil] at hsublist
          exact sublist_nil.mp hsublist
        unwarned := hunwarned }
  unfold tcpSackRemove
  split
  · exact hfewer (nil_sublist _) (by simp) (hwarned.trans hreassembly.unwarned)
  refine hfewer filter_sublist (fun sp hmem => ?_) ?_
  · exact (streamBefore_eq_true.mp (mem_filter.mp hmem).2).le
  rw [hwarned, hreassembly.unwarned, Bool.false_or, any_eq_false]
  intro sp hmem
  simp only [Bool.and_eq_true, Bool.not_eq_true', streamBefore_eq_false, streamBefore_eq_true,
    not_and, not_lt]
  intro hstart
  by_contra hend
  obtain ⟨skb, hskb, hlow, -⟩ :=
    hleft result.rcvNxt ⟨sp, hmem, hstart, not_le.mp hend⟩ le_rfl
  have := hahead skb hskb
  omega

section

variable (before : Seq → Seq → Bool)

theorem tcpSackRemove_kept (tp : TcpSock Seq) :
    (tcpSackRemove before tp).rcvNxt = tp.rcvNxt ∧
      (tcpSackRemove before tp).receiveQueue = tp.receiveQueue ∧
      (tcpSackRemove before tp).outOfOrderQueue = tp.outOfOrderQueue ∧
      (tcpSackRemove before tp).sackOk = tp.sackOk := by
  unfold tcpSackRemove
  split <;> exact ⟨rfl, rfl, rfl, rfl⟩

theorem tcpSackRemove_of_nil {tp : TcpSock Seq} (hnil : tp.selectiveAcks = []) :
    tcpSackRemove before tp = tp := by
  obtain ⟨rcvNxt, receiveQueue, outOfOrderQueue, sackOk, selectiveAcks, warned⟩ := tp
  subst hnil
  simp [tcpSackRemove]

/-- The two tests that save work do not change what is computed. -/
theorem queueAndOut_eq (tp : TcpSock Seq) (skb : Segment Seq) : queueAndOut before memory tp skb =
      match tcpTryRmemSchedule memory tp with
      | (tp, false) => (tp, .dropped)
      | (tp, true) => (tcpSackRemove before (tcpOfoQueue before
          { tp with receiveQueue := tp.receiveQueue ++ [skb], rcvNxt := skb.endSeq }),
            .inSequence) := by
  have hofo : ∀ tp : TcpSock Seq,
      (if tp.outOfOrderQueue.isEmpty then tp else tcpOfoQueue before tp) =
        tcpOfoQueue before tp := by
    rintro ⟨rcvNxt, receiveQueue, outOfOrderQueue, sackOk, selectiveAcks, warned⟩
    cases outOfOrderQueue <;> rfl
  have hsack : ∀ tp : TcpSock Seq,
      (if tp.selectiveAcks.isEmpty then tp else tcpSackRemove before tp) =
        tcpSackRemove before tp := by
    intro tp
    split
    · next hnil => exact (tcpSackRemove_of_nil before (isEmpty_iff.mp hnil)).symm
    · rfl
  unfold queueAndOut
  rcases tcpTryRmemSchedule memory tp with ⟨tp, _ | _⟩
  · rfl
  · exact congrArg (·, Outcome.inSequence) ((hsack _).trans (congrArg _ (hofo _)))

end

/-! ### Out-of-order data -/

section

variable (hreassembly : Reassembly start tp) (hskb : skb.seq < skb.endSeq)
include hreassembly hskb

/-- A segment ahead of `rcv_nxt` enters the queue and the blocks. -/
theorem Reassembly.inserted {acks : List (SackBlock ℤ)} (hahead : tp.rcvNxt < skb.seq)
    (hqueue : Inserted tp.outOfOrderQueue skb queue)
    (hacks : if tp.sackOk then Acknowledged tp.selectiveAcks skb.seq skb.endSeq acks
      else acks = tp.selectiveAcks) :
    Reassembly start { tp with outOfOrderQueue := queue, selectiveAcks := acks } := by
  have hmem : ∀ skb1 ∈ queue, skb1.seq < skb1.endSeq ∧ tp.rcvNxt < skb1.seq := by
    intro skb1 hskb1
    rcases hqueue.mem skb1 hskb1 with rfl | hold
    · exact ⟨hskb, hahead⟩
    · exact ⟨hreassembly.nonempty skb1 hold, hreassembly.ahead skb1 hold⟩
  have hsame : acks = tp.selectiveAcks → Blocks acks ∧ acks.length ≤ tcpNumSacks ∧
      ∀ position, CoveredBy acks position → Held queue position := by
    rintro rfl
    exact ⟨hreassembly.blocks, hreassembly.count,
      fun position hcovered => (hqueue.held position).mpr (Or.inl (hreassembly.held _ hcovered))⟩
  have htruthful : Blocks acks ∧ acks.length ≤ tcpNumSacks ∧
      ∀ position, CoveredBy acks position → Held queue position := by
    split at hacks
    · refine ⟨hacks.blocks, hacks.count, ?_⟩
      intro position hcovered
      rw [hqueue.held]
      exact (hacks.covered position hcovered).imp (hreassembly.held position) id
    · exact hsame hacks
  exact
    { increasing := hqueue.increasing
      nonempty := fun skb1 hskb1 => (hmem skb1 hskb1).1
      ahead := fun skb1 hskb1 => (hmem skb1 hskb1).2
      delivered := hreassembly.delivered
      blocks := htruthful.1
      count := htruthful.2.1
      held := htruthful.2.2
      plain := by
        rcases hreassembly.plain with hsack | hnil
        · exact Or.inl hsack
        cases hsack : tp.sackOk with
        | true => exact Or.inl rfl
        | false =>
          rw [hsack] at hacks
          exact Or.inr (hacks.trans hnil)
      unwarned := hreassembly.unwarned }

/-- The fast path extends the first block in place: it ends where the queue
ends, so it meets no other one. -/
theorem acknowledged_fast {last : Segment ℤ} {first : SackBlock ℤ} {others : List (SackBlock ℤ)}
    (hlast : tp.outOfOrderQueue.getLast? = some last) (hseq : skb.seq = last.endSeq)
    (hacks : tp.selectiveAcks = first :: others) (hfirst : first.endSeq = skb.seq) :
    Acknowledged tp.selectiveAcks skb.seq skb.endSeq
      ({ first with endSeq := skb.endSeq } :: others) := by
  have hblocks := hreassembly.blocks
  have hcount := hreassembly.count
  have hheld := hreassembly.held
  rw [hacks] at hblocks hcount hheld ⊢
  obtain ⟨hfirstNonempty, hapart, hothers⟩ := blocks_cons.mp hblocks
  -- nothing that is held lies behind the last segment
  have hbound : ∀ sp ∈ others, sp.endSeq ≤ last.endSeq := by
    intro sp hmem
    have hsp := hothers.nonempty sp hmem
    obtain ⟨skb1, hskb1, hlow, hhigh⟩ := hheld (sp.endSeq - 1)
      ⟨sp, mem_cons_of_mem _ hmem, by omega, by omega⟩
    obtain ⟨init, hinit⟩ := getLast?_eq_some_iff.mp hlast
    have hincreasing := hreassembly.increasing
    rw [hinit] at hskb1 hincreasing
    rcases mem_append.mp hskb1 with hskb1 | hskb1
    · have := (pairwise_append.mp hincreasing).2.2 skb1 hskb1 last (by simp)
      omega
    · rw [mem_singleton] at hskb1
      subst hskb1
      omega
  constructor
  · refine blocks_cons.mpr ⟨by simp only; omega, ?_, hothers⟩
    intro sp hmem
    have hsp := hothers.nonempty sp hmem
    have hle := hbound sp hmem
    rcases hapart sp hmem with hbefore | hafter
    · omega
    · exact Or.inr hafter
  · exact hcount
  · exact ⟨_, _, rfl, by simp only; omega, le_rfl⟩
  · intro position hcovered
    rcases coveredBy_cons.mp hcovered with ⟨hlow, hhigh⟩ | hrest
    · by_cases hold : position < first.endSeq
      · exact Or.inl (coveredBy_cons.mpr (Or.inl ⟨hlow, hold⟩))
      · right
        simp only at hhigh
        omega
    · exact Or.inl (coveredBy_cons.mpr (Or.inr hrest))

theorem queueOfo_cases :
    ∃ queue acks, queueOfo streamBefore tp skb =
        { tp with outOfOrderQueue := queue, selectiveAcks := acks } ∧
      Inserted tp.outOfOrderQueue skb queue ∧
      if tp.sackOk then Acknowledged tp.selectiveAcks skb.seq skb.endSeq acks
        else acks = tp.selectiveAcks := by
  have hadd : ∀ queue, ∃ acks,
      addSack streamBefore { tp with outOfOrderQueue := queue } skb =
        { tp with outOfOrderQueue := queue, selectiveAcks := acks } ∧
      if tp.sackOk then Acknowledged tp.selectiveAcks skb.seq skb.endSeq acks
        else acks = tp.selectiveAcks := by
    intro queue
    cases hsack : tp.sackOk with
    | true =>
      refine ⟨_, ?_, acknowledged_new hreassembly.blocks hreassembly.count hskb⟩
      simp [addSack]
    | false =>
      refine ⟨_, ?_, rfl⟩
      simp [addSack]
  unfold queueOfo
  cases hlast : tp.outOfOrderQueue.getLast? with
  | none =>
    have hempty := getLast?_eq_none_iff.mp hlast
    have hnil := hreassembly.acks_eq_nil hempty
    refine ⟨_, _, rfl, ?_, ?_⟩
    · rw [hempty]
      exact @inserted_between [] [] skb Pairwise.nil (by simp) (by simp) (by simp)
    cases tp.sackOk with
    | true =>
      rw [hnil]
      exact @acknowledged_new [] skb.seq skb.endSeq ⟨by simp, Pairwise.nil⟩ (by simp) hskb
    | false => rfl
  | some last =>
    by_cases hseq : skb.seq = last.endSeq
    · have hinserted := inserted_tail hreassembly.increasing hreassembly.nonempty hskb hlast hseq
      obtain ⟨acks, hacks, hacknowledged⟩ := hadd (tp.outOfOrderQueue ++ [skb])
      simp only [if_pos hseq]
      split
      · exact ⟨_, acks, hacks, hinserted, hacknowledged⟩
      next first others hcons =>
      by_cases hfirst : first.endSeq = skb.seq
      · have hsack : tp.sackOk = true := by
          refine hreassembly.plain.resolve_right ?_
          rw [hcons]
          exact cons_ne_nil first others
        refine ⟨_, _, if_pos hfirst, hinserted, ?_⟩
        rw [if_pos hsack]
        exact acknowledged_fast hreassembly hskb hlast hseq hcons hfirst
      · exact ⟨_, acks, (if_neg hfirst).trans hacks, hinserted, hacknowledged⟩
    · obtain ⟨acks, hacks, hacknowledged⟩ := hadd (insertOfo streamBefore tp.outOfOrderQueue skb)
      refine ⟨_, acks, ?_,
        inserted_insertOfo hreassembly.increasing hreassembly.nonempty hskb, hacknowledged⟩
      rw [← hacks]
      exact if_neg hseq

end

/-- What a call promises about its result: the socket is in order, the first
block holds an out-of-order segment, and only the new segment joins the queues. -/
structure Processed (start : ℤ) (tp : TcpSock ℤ) (skb : Segment ℤ) (result : TcpSock ℤ × Outcome) :
    Prop where
  reassembly : Reassembly start result.1
  first : result.2 = .outOfOrder → result.1.sackOk = true →
    ∃ sp rest, result.1.selectiveAcks = sp :: rest ∧ (SackBlock.mk skb.seq skb.endSeq).Within sp
  sackOk : result.1.sackOk = tp.sackOk
  advance : tp.rcvNxt ≤ result.1.rcvNxt
  subset : result.1.receiveQueue ++ result.1.outOfOrderQueue ⊆
    skb :: (tp.receiveQueue ++ tp.outOfOrderQueue)

/-- It is enough to look at the rest of the call once memory has been scheduled. -/
theorem Processed.scheduled {memory : Memory} {result : TcpSock ℤ × Outcome}
    (hprocessed : Processed start (tcpTryRmemSchedule memory tp).1 skb result) :
    Processed start tp skb result := by
  refine ⟨hprocessed.reassembly, hprocessed.first, ?_, ?_, ?_⟩
  · exact hprocessed.sackOk.trans (tcpTryRmemSchedule_kept memory tp).2
  · rw [← (tcpTryRmemSchedule_kept memory tp).1]
    exact hprocessed.advance
  · refine Subset.trans hprocessed.subset ?_
    exact cons_subset_cons skb (tcpTryRmemSchedule_subset memory tp)

section

variable (hreassembly : Reassembly start tp)
include hreassembly

theorem Reassembly.processed_dropped : Processed start tp skb (tp, .dropped) :=
  ⟨hreassembly, nofun, rfl, le_rfl, subset_cons_self _ _⟩

theorem Reassembly.processed_queueAndOut (hseq : skb.seq ≤ tp.rcvNxt)
    (hend : tp.rcvNxt < skb.endSeq) :
    Processed start tp skb (queueAndOut streamBefore memory tp skb) := by
  apply @Processed.scheduled start tp skb memory
  have hscheduled := hreassembly.tryRmemSchedule memory
  rw [← (tcpTryRmemSchedule_kept memory tp).1] at hseq hend
  rw [queueAndOut_eq]
  generalize tcpTryRmemSchedule memory tp = scheduled at hscheduled hseq hend
  obtain ⟨tp, granted⟩ := scheduled
  cases granted with
  | false => exact hscheduled.processed_dropped
  | true =>
    have hdrained := @drained_ofoLoop start
      { tp with receiveQueue := tp.receiveQueue ++ [skb], rcvNxt := skb.endSeq }
      tp.outOfOrderQueue hscheduled.increasing (hscheduled.delivered.snoc hseq hend)
    have hsubset := hdrained.subset
    obtain ⟨popped, hsplit, -⟩ := hdrained.split
    have hkept := tcpSackRemove_kept streamBefore (tcpOfoQueue streamBefore
      { tp with receiveQueue := tp.receiveQueue ++ [skb], rcvNxt := skb.endSeq })
    refine ⟨hdrained.sackRemove hscheduled rfl, nofun, ?_, ?_, ?_⟩
    · exact hkept.2.2.2.trans hdrained.kept.1
    · rw [hkept.1]
      exact hend.le.trans hdrained.advance
    rw [hkept.2.1, hkept.2.2.1]
    refine append_subset.mpr ⟨?_, ?_⟩
    · refine Subset.trans hsubset ?_
      rw [append_assoc, singleton_append]
      exact perm_middle.subset
    · intro skb1 hmem
      refine mem_cons_of_mem _ (mem_append_right _ ?_)
      rw [hsplit]
      exact mem_append_right _ hmem

theorem Reassembly.processed_queueOfo (hskb : skb.seq < skb.endSeq) (hahead : tp.rcvNxt < skb.seq) :
    Processed start tp skb (queueOfo streamBefore tp skb, .outOfOrder) := by
  obtain ⟨queue, acks, heq, hinserted, hacks⟩ := queueOfo_cases hreassembly hskb
  rw [heq]
  refine ⟨hreassembly.inserted hskb hahead hinserted hacks, ?_, rfl, le_rfl, ?_⟩
  · intro _ hsack
    rw [if_pos hsack] at hacks
    exact hacks.first
  refine append_subset.mpr ⟨?_, ?_⟩
  · exact fun skb1 hmem => mem_cons_of_mem _ (mem_append_left _ hmem)
  intro skb1 hmem
  rcases hinserted.mem skb1 hmem with rfl | hold
  · exact mem_cons_self
  · exact mem_cons_of_mem _ (mem_append_right _ hold)

theorem Reassembly.processed (closed inside : Bool) (memory : Memory) (hskb : skb.seq ≤ skb.endSeq) :
    Processed start tp skb (dataQueue streamBefore closed inside memory tp skb) := by
  unfold dataQueue
  simp only [streamBefore_eq_true, Bool.not_eq_true', streamBefore_eq_false]
  split_ifs with hempty hnext hclosed hold hinside hpartial hclosed
  · exact hreassembly.processed_dropped
  · exact hreassembly.processed_dropped
  · exact hreassembly.processed_queueAndOut memory hnext.le (by omega)
  · exact hreassembly.processed_dropped
  · exact hreassembly.processed_dropped
  · exact hreassembly.processed_dropped
  · exact hreassembly.processed_queueAndOut memory hpartial.le (by omega)
  apply @Processed.scheduled start tp skb memory
  have hscheduled := hreassembly.tryRmemSchedule memory
  have hrcvNxt := (tcpTryRmemSchedule_kept memory tp).1
  generalize tcpTryRmemSchedule memory tp = scheduled at hscheduled hrcvNxt
  rcases scheduled with ⟨tp1, _ | _⟩
  · exact hscheduled.processed_dropped
  · simp only at hrcvNxt hscheduled ⊢
    exact hscheduled.processed_queueOfo (by omega) (by omega)

end

end Steps

end KernelM5040.TcpInput
