import KernelM5040.Net.TcpReassembly

/-!
# Sequence numbers as words

A run over positions in the stream and the run over 32-bit words take the same
branches as long as the numbers they compare lie within half of the space of
each other.
-/

namespace KernelM5040.TcpInput

open BitVec List SackBlock

section Map

variable {Seq Word : Type*}

@[simps]
def Segment.map (word : Seq → Word) (skb : Segment Seq) : Segment Word :=
  ⟨word skb.seq, word skb.endSeq⟩

@[simps]
def SackBlock.map (word : Seq → Word) (sp : SackBlock Seq) : SackBlock Word :=
  ⟨word sp.startSeq, word sp.endSeq⟩

@[simps]
def TcpSock.map (word : Seq → Word) (tp : TcpSock Seq) : TcpSock Word :=
  { rcvNxt := word tp.rcvNxt
    receiveQueue := tp.receiveQueue.map (Segment.map word)
    outOfOrderQueue := tp.outOfOrderQueue.map (Segment.map word)
    sackOk := tp.sackOk
    selectiveAcks := tp.selectiveAcks.map (SackBlock.map word)
    warned := tp.warned }

/-- Both ends of a segment are near. -/
def Segment.Near (near : Seq → Prop) (skb : Segment Seq) : Prop := near skb.seq ∧ near skb.endSeq

def SackBlock.Near (near : Seq → Prop) (sp : SackBlock Seq) : Prop :=
  near sp.startSeq ∧ near sp.endSeq

/-- All numbers of the socket that are compared are near. -/
structure TcpSock.Near (near : Seq → Prop) (tp : TcpSock Seq) : Prop where
  rcvNxt : near tp.rcvNxt
  outOfOrderQueue : ∀ skb ∈ tp.outOfOrderQueue, skb.Near near
  selectiveAcks : ∀ sp ∈ tp.selectiveAcks, sp.Near near

theorem TcpSock.Near.tryRmemSchedule {near : Seq → Prop} {tp : TcpSock Seq} (htp : tp.Near near)
    (memory : Memory) : (tcpTryRmemSchedule memory tp).1.Near near := by
  rcases tcpTryRmemSchedule_cases memory tp with heq | heq
  · rw [heq]
    exact htp
  rw [heq, tcpPruneOfoQueue]
  split
  · exact htp
  refine ⟨htp.rcvNxt, by simp, ?_⟩
  split
  · simp
  · exact htp.selectiveAcks

/-- The words of near numbers compare as the numbers do. -/
structure Agrees (before : Seq → Seq → Bool) (wordBefore : Word → Word → Bool)
    (word : Seq → Word) (near : Seq → Prop) : Prop where
  before : ∀ {first second}, near first → near second →
    wordBefore (word first) (word second) = before first second
  injective : ∀ {first second}, near first → near second →
    (word first = word second ↔ first = second)

end Map

section Simulation

variable {Seq Word : Type*}
variable {before : Seq → Seq → Bool} {wordBefore : Word → Word → Bool} {word : Seq → Word}
variable {near : Seq → Prop} (hagrees : Agrees before wordBefore word near) {seq endSeq : Seq}
  {acks : List (SackBlock Seq)} {tp : TcpSock Seq} {skb : Segment Seq} {queue : List (Segment Seq)}
  {sp first : SackBlock Seq}

/-! ### SACK blocks -/

include hagrees

section

variable (hsp : sp.Near near) (hseq : near seq) (hend : near endSeq)
include hsp hseq hend

theorem tcpSackExtend_map :
    tcpSackExtend wordBefore (sp.map word) (word seq) (word endSeq) =
      (tcpSackExtend before sp seq endSeq).map (SackBlock.map word) := by
  unfold tcpSackExtend SackBlock.map
  simp only [hagrees.before hsp.2 hseq, hagrees.before hend hsp.1, hagrees.before hseq hsp.1,
    hagrees.before hsp.2 hend]
  split_ifs <;> rfl

omit hagrees in
theorem tcpSackExtend_near
    (hextend : tcpSackExtend before sp seq endSeq = some first) : first.Near near := by
  unfold tcpSackExtend at hextend
  split_ifs at hextend <;> obtain rfl := Option.some.inj hextend
  · exact ⟨hseq, hend⟩
  · exact ⟨hseq, hsp.2⟩
  · exact ⟨hsp.1, hend⟩
  · exact hsp

end

theorem tcpSackMaybeCoalesce_map (hsp : sp.Near near) (hacks : ∀ sp ∈ acks, sp.Near near) :
    tcpSackMaybeCoalesce wordBefore (sp.map word) (acks.map (SackBlock.map word)) =
      Prod.map (SackBlock.map word) (List.map (SackBlock.map word))
        (tcpSackMaybeCoalesce before sp acks) := by
  induction acks generalizing sp with
  | nil => rfl
  | cons swalk others ih =>
    obtain ⟨hswalk, hothers⟩ := forall_mem_cons.mp hacks
    simp only [map_cons, tcpSackMaybeCoalesce, map_startSeq, map_endSeq]
    rw [tcpSackExtend_map hagrees hsp hswalk.1 hswalk.2]
    cases hextend : tcpSackExtend before sp swalk.startSeq swalk.endSeq with
    | some joined => exact ih (tcpSackExtend_near hsp hswalk.1 hswalk.2 hextend) hothers
    | none =>
      rw [ih hsp hothers]
      rfl

section

variable (hseq : near seq) (hend : near endSeq) (hacks : ∀ sp ∈ acks, sp.Near near)
include hseq hend hacks

theorem rotateExtended_map :
    rotateExtended wordBefore (word seq) (word endSeq) (acks.map (SackBlock.map word)) =
      (rotateExtended before seq endSeq acks).map
        (Prod.map (SackBlock.map word) (List.map (SackBlock.map word))) := by
  induction acks with
  | nil => rfl
  | cons sp others ih =>
    obtain ⟨hsp, hothers⟩ := forall_mem_cons.mp hacks
    simp only [map_cons, rotateExtended]
    rw [tcpSackExtend_map hagrees hsp hseq hend]
    cases hextend : tcpSackExtend before sp seq endSeq with
    | some joined => rfl
    | none =>
      rw [ih hothers, Option.map_map, Option.map_map]
      rfl

omit hagrees in
theorem rotateExtended_near {rest : List (SackBlock Seq)}
    (hrotate : rotateExtended before seq endSeq acks = some (first, rest)) :
    first.Near near ∧ ∀ sp ∈ rest, sp.Near near := by
  induction acks generalizing rest with
  | nil => cases hrotate
  | cons sp others ih =>
    obtain ⟨hsp, hothers⟩ := forall_mem_cons.mp hacks
    rw [rotateExtended] at hrotate
    cases hextend : tcpSackExtend before sp seq endSeq with
    | some joined =>
      rw [hextend] at hrotate
      obtain ⟨rfl, rfl⟩ := Prod.mk.inj (Option.some.inj hrotate)
      exact ⟨tcpSackExtend_near hsp hseq hend hextend, hothers⟩
    | none =>
      rw [hextend] at hrotate
      obtain ⟨⟨found, remaining⟩, hfound, heq⟩ := Option.map_eq_some_iff.mp hrotate
      obtain ⟨rfl, rfl⟩ := Prod.mk.inj heq
      obtain ⟨hfirst, hrest⟩ := ih hothers hfound
      exact ⟨hfirst, forall_mem_cons.mpr ⟨hsp, hrest⟩⟩

theorem tcpSackNewOfoSkb_map :
    tcpSackNewOfoSkb wordBefore (word seq) (word endSeq) (acks.map (SackBlock.map word)) =
      (tcpSackNewOfoSkb before seq endSeq acks).map (SackBlock.map word) := by
  unfold tcpSackNewOfoSkb
  rw [rotateExtended_map hagrees hseq hend hacks]
  cases hrotate : rotateExtended before seq endSeq acks with
  | some found =>
    obtain ⟨hfirst, hrest⟩ := rotateExtended_near hseq hend hacks hrotate
    simp only [Option.map_some, Prod.map]
    rw [tcpSackMaybeCoalesce_map hagrees hfirst hrest]
    rfl
  | none =>
    simp only [Option.map_none, length_map, map_cons]
    congr 1
    split_ifs
    · rw [map_dropLast]
    · rfl

end

attribute [local simp] TcpSock.map

theorem tcpSackRemove_map (hrcvNxt : near tp.rcvNxt) (hacks : ∀ sp ∈ tp.selectiveAcks, sp.Near near) :
    tcpSackRemove wordBefore (tp.map word) = (tcpSackRemove before tp).map word := by
  have hfilter : (tp.selectiveAcks.map (SackBlock.map word)).filter
        (fun sp => wordBefore (word tp.rcvNxt) sp.startSeq) =
      (tp.selectiveAcks.filter fun sp => before tp.rcvNxt sp.startSeq).map (SackBlock.map word) := by
    rw [filter_map]
    exact congrArg _ (filter_congr fun sp hmem => hagrees.before hrcvNxt (hacks sp hmem).1)
  have hany : (tp.selectiveAcks.map (SackBlock.map word)).any
        (fun sp => !wordBefore (word tp.rcvNxt) sp.startSeq &&
          wordBefore (word tp.rcvNxt) sp.endSeq) =
      tp.selectiveAcks.any fun sp =>
        !before tp.rcvNxt sp.startSeq && before tp.rcvNxt sp.endSeq := by
    rw [any_map, Bool.eq_iff_iff, any_eq_true, any_eq_true]
    refine exists_congr fun sp => and_congr_right fun hmem => ?_
    simp [hagrees.before hrcvNxt (hacks sp hmem).1, hagrees.before hrcvNxt (hacks sp hmem).2]
  unfold tcpSackRemove
  by_cases hempty : tp.outOfOrderQueue.isEmpty = true
  · simp [hempty]
  · simp [hempty, hfilter, hany]

/-! ### The queues -/

omit hagrees in
theorem tcpPruneOfoQueue_map (tp : TcpSock Seq) :
    tcpPruneOfoQueue (tp.map word) = Prod.map (TcpSock.map word) id (tcpPruneOfoQueue tp) := by
  unfold tcpPruneOfoQueue
  by_cases hempty : tp.outOfOrderQueue.isEmpty = true
  · simp [hempty]
  · by_cases hsack : tp.sackOk = true <;> simp [hempty, hsack]

omit hagrees in
theorem tcpTryRmemSchedule_map (memory : Memory) (tp : TcpSock Seq) :
    tcpTryRmemSchedule memory (tp.map word) =
      Prod.map (TcpSock.map word) id (tcpTryRmemSchedule memory tp) := by
  have hprune : tcpPruneQueue memory (tp.map word) =
      Prod.map (TcpSock.map word) id (tcpPruneQueue memory tp) := by
    unfold tcpPruneQueue
    rw [tcpPruneOfoQueue_map]
    split <;> rfl
  unfold tcpTryRmemSchedule
  rw [hprune]
  rcases tcpPruneQueue memory tp with ⟨tp1, _ | _⟩
  · split <;> rfl
  · simp only [Prod.map_apply, id_eq, tcpPruneOfoQueue_map]
    rcases tcpPruneOfoQueue tp1 with ⟨tp2, _ | _⟩ <;> split_ifs <;> rfl

section

variable {tp : TcpSock Seq} {queue : List (Segment Seq)} (hrcvNxt : near tp.rcvNxt)
  (hqueue : ∀ skb ∈ queue, skb.Near near)
include hrcvNxt hqueue

theorem ofoLoop_map :
    ofoLoop wordBefore (tp.map word) (queue.map (Segment.map word)) =
      (ofoLoop before tp queue).map word := by
  induction queue generalizing tp with
  | nil => rfl
  | cons skb queue ih =>
    obtain ⟨hskb, hrest⟩ := forall_mem_cons.mp hqueue
    have hextended := @ih
      { tp with receiveQueue := tp.receiveQueue ++ [skb], rcvNxt := skb.endSeq } hskb.2 hrest
    simp only [TcpSock.map, map_append] at hextended
    simp only [map_cons, ofoLoop, TcpSock.map_rcvNxt, Segment.map_seq, Segment.map_endSeq,
      hagrees.before hrcvNxt hskb.1, hagrees.before hrcvNxt hskb.2]
    split_ifs
    · rfl
    · exact ih hrcvNxt hrest
    · exact hextended

omit hagrees in
theorem ofoLoop_near :
    near (ofoLoop before tp queue).rcvNxt ∧
      (ofoLoop before tp queue).selectiveAcks = tp.selectiveAcks := by
  induction queue generalizing tp with
  | nil => exact ⟨hrcvNxt, rfl⟩
  | cons skb queue ih =>
    obtain ⟨hskb, hrest⟩ := forall_mem_cons.mp hqueue
    rw [ofoLoop]
    split_ifs
    · exact ⟨hrcvNxt, rfl⟩
    · exact ih hrcvNxt hrest
    · exact @ih { tp with receiveQueue := tp.receiveQueue ++ [skb], rcvNxt := skb.endSeq } hskb.2
        hrest

end

theorem cleanCovered_map (hend : near endSeq) (hqueue : ∀ skb ∈ queue, skb.Near near) :
    cleanCovered wordBefore (word endSeq) (queue.map (Segment.map word)) =
      (cleanCovered before endSeq queue).map (Segment.map word) := by
  induction queue with
  | nil => rfl
  | cons skb queue ih =>
    obtain ⟨hskb, hrest⟩ := forall_mem_cons.mp hqueue
    simp only [map_cons, cleanCovered, Segment.map_seq, Segment.map_endSeq,
      hagrees.before hskb.1 hend, hagrees.before hend hskb.2, ih hrest]
    split_ifs <;> rfl

omit hagrees in
/-- Searching a mapped list with a test that agrees on its elements. -/
theorem takeWhile_map_of_agree {Element Image : Type*} {image : Element → Image}
    {test : Element → Bool} {imageTest : Image → Bool} {elements : List Element}
    (htest : ∀ element ∈ elements, imageTest (image element) = test element) :
    (elements.map image).takeWhile imageTest = (elements.takeWhile test).map image ∧
      (elements.map image).dropWhile imageTest = (elements.dropWhile test).map image := by
  induction elements with
  | nil => exact ⟨rfl, rfl⟩
  | cons element elements ih =>
    obtain ⟨hfirst, hrest⟩ := forall_mem_cons.mp htest
    obtain ⟨htake, hdrop⟩ := ih hrest
    cases hvalue : test element <;> simp [hfirst, hvalue, htake, hdrop]

theorem insertOfo_map (hskb : skb.Near near) (hqueue : ∀ skb ∈ queue, skb.Near near) :
    insertOfo wordBefore (queue.map (Segment.map word)) (skb.map word) =
      (insertOfo before queue skb).map (Segment.map word) := by
  have htest : ∀ skb1 ∈ queue.reverse,
      wordBefore (skb.map word).seq (skb1.map word).seq = before skb.seq skb1.seq :=
    fun skb1 hmem => hagrees.before hskb.1 (hqueue skb1 (mem_reverse.mp hmem)).1
  obtain ⟨htake, hdrop⟩ := @takeWhile_map_of_agree _ _ (Segment.map word)
    (fun skb1 => before skb.seq skb1.seq) (fun skb1 => wordBefore (skb.map word).seq skb1.seq)
    queue.reverse htest
  unfold insertOfo
  simp only [← map_reverse, htake, hdrop]
  have hpassed : ∀ skb1 ∈ (queue.reverse.takeWhile fun skb1 => before skb.seq skb1.seq).reverse,
      skb1.Near near := by
    intro skb1 hmem
    have hmem := (takeWhile_sublist _).subset (mem_reverse.mp hmem)
    exact hqueue skb1 (mem_reverse.mp hmem)
  have hkept : ∀ skb1 ∈ queue.reverse.dropWhile fun skb1 => before skb.seq skb1.seq,
      skb1.Near near := by
    intro skb1 hmem
    exact hqueue skb1 (mem_reverse.mp ((dropWhile_sublist _).subset hmem))
  generalize (queue.reverse.takeWhile fun skb1 => before skb.seq skb1.seq).reverse = back at hpassed
  generalize (queue.reverse.dropWhile fun skb1 => before skb.seq skb1.seq) = kept at hkept
  have hclean := cleanCovered_map hagrees hskb.2 hpassed
  cases kept with
  | nil => exact congrArg (skb.map word :: ·) hclean
  | cons skb1 earlier =>
    have hskb1 := hkept skb1 mem_cons_self
    have hcleanAll := cleanCovered_map hagrees hskb.2 (forall_mem_cons.mpr ⟨hskb1, hpassed⟩)
    rw [map_cons] at hcleanAll
    simp only [map_cons, Segment.map_seq, Segment.map_endSeq, hagrees.before hskb.1 hskb1.2,
      hagrees.before hskb1.2 hskb.2, hagrees.before hskb1.1 hskb.1, hclean, hcleanAll,
      ← map_reverse]
    split_ifs <;> simp only [map_append, map_cons]

theorem addSack_map {tp : TcpSock Seq} {skb : Segment Seq} (hskb : skb.Near near)
    (hacks : ∀ sp ∈ tp.selectiveAcks, sp.Near near) :
    addSack wordBefore (tp.map word) (skb.map word) = (addSack before tp skb).map word := by
  unfold addSack
  by_cases hsack : tp.sackOk = true
  · simp [hsack, tcpSackNewOfoSkb_map hagrees hskb.1 hskb.2 hacks]
  · simp [hsack]

variable [DecidableEq Seq] [DecidableEq Word]

theorem queueOfo_map (htp : tp.Near near) (hskb : skb.Near near) :
    queueOfo wordBefore (tp.map word) (skb.map word) = (queueOfo before tp skb).map word := by
  have hadd : ∀ {queue wordQueue}, wordQueue = queue.map (Segment.map word) →
      addSack wordBefore { tp.map word with outOfOrderQueue := wordQueue } (skb.map word) =
        (addSack before { tp with outOfOrderQueue := queue } skb).map word := by
    rintro queue wordQueue rfl
    exact @addSack_map _ _ _ _ _ _ hagrees { tp with outOfOrderQueue := queue } skb hskb
      htp.selectiveAcks
  have hlast : (tp.map word).outOfOrderQueue.getLast? =
      tp.outOfOrderQueue.getLast?.map (Segment.map word) := getLast?_map
  unfold queueOfo
  rw [hlast]
  cases hfound : tp.outOfOrderQueue.getLast? with
  | none =>
    by_cases hsack : tp.sackOk = true
    · simp [hsack, Segment.map, SackBlock.map]
    · simp [hsack, Segment.map]
  | some last =>
    have hlastNear := htp.outOfOrderQueue last (mem_of_getLast? hfound)
    simp only [Option.map_some, Segment.map_seq, Segment.map_endSeq,
      hagrees.injective hskb.1 hlastNear.2]
    by_cases hseq : skb.seq = last.endSeq
    · have htail := @hadd (tp.outOfOrderQueue ++ [skb])
        ((tp.map word).outOfOrderQueue ++ [skb.map word]) (by simp)
      simp only [if_pos hseq]
      cases hacks : tp.selectiveAcks with
      | nil =>
        have hmapped : (tp.map word).selectiveAcks = [] := by simp [hacks]
        simp only [hmapped, hacks] at htail ⊢
        exact htail
      | cons first others =>
        have hmapped : (tp.map word).selectiveAcks =
            first.map word :: others.map (SackBlock.map word) := by
          simp [hacks]
        have hfirstNear : first.Near near := htp.selectiveAcks first (by simp [hacks])
        simp only [hmapped, hacks, map_endSeq, hagrees.injective hfirstNear.2 hskb.1] at htail ⊢
        split_ifs
        · simp [Segment.map, SackBlock.map]
        · exact htail
    · simp only [if_neg hseq]
      exact hadd (insertOfo_map hagrees hskb htp.outOfOrderQueue)

omit [DecidableEq Seq] [DecidableEq Word] in
theorem queueAndOut_map (memory : Memory) (htp : tp.Near near) (hskb : skb.Near near) :
    queueAndOut wordBefore memory (tp.map word) (skb.map word) =
      Prod.map (TcpSock.map word) id (queueAndOut before memory tp skb) := by
  have hscheduled := htp.tryRmemSchedule memory
  rw [queueAndOut_eq, queueAndOut_eq, tcpTryRmemSchedule_map]
  generalize tcpTryRmemSchedule memory tp = scheduled at hscheduled
  rcases scheduled with ⟨tp, _ | _⟩
  · rfl
  have hofo := @ofoLoop_map _ _ _ _ _ _ hagrees
    { tp with receiveQueue := tp.receiveQueue ++ [skb], rcvNxt := skb.endSeq }
    tp.outOfOrderQueue hskb.2 hscheduled.outOfOrderQueue
  have hnear := @ofoLoop_near _ before near
    { tp with receiveQueue := tp.receiveQueue ++ [skb], rcvNxt := skb.endSeq }
    tp.outOfOrderQueue hskb.2 hscheduled.outOfOrderQueue
  have hremove := tcpSackRemove_map hagrees hnear.1
    (by rw [hnear.2]; exact hscheduled.selectiveAcks)
  rw [← hofo] at hremove
  simp only [TcpSock.map, map_append] at hremove
  exact congrArg (·, Outcome.inSequence) hremove

theorem dataQueue_map (closed inside : Bool) (memory : Memory) (htp : tp.Near near)
    (hskb : skb.Near near) :
    dataQueue wordBefore closed inside memory (tp.map word) (skb.map word) =
      Prod.map (TcpSock.map word) id (dataQueue before closed inside memory tp skb) := by
  have hscheduled := htp.tryRmemSchedule memory
  unfold dataQueue
  simp only [Segment.map_seq, Segment.map_endSeq, TcpSock.map_rcvNxt,
    hagrees.injective hskb.1 hskb.2, hagrees.injective hskb.1 htp.rcvNxt,
    hagrees.before htp.rcvNxt hskb.2, hagrees.before hskb.1 htp.rcvNxt,
    queueAndOut_map hagrees memory htp hskb, tcpTryRmemSchedule_map]
  split_ifs
  · rfl
  · rfl
  · rfl
  · rfl
  · rfl
  · rfl
  · rfl
  generalize tcpTryRmemSchedule memory tp = scheduled at hscheduled
  rcases scheduled with ⟨tp1, _ | _⟩
  · rfl
  · exact congrArg (·, Outcome.outOfOrder) (queueOfo_map hagrees hscheduled hskb)

end Simulation

/-! ### 32-bit words -/

def word (position : ℤ) : BitVec 32 := BitVec.ofInt 32 position

theorem word_sub (first second : ℤ) : word first - word second = word (first - second) := by
  apply eq_of_toInt_eq
  simp [word, toInt_sub, toInt_ofInt, Int.sub_bmod_bmod, Int.bmod_sub_bmod]

theorem word_toInt (value : BitVec 32) : word value.toInt = value := ofInt_toInt

theorem word_toNat (value : BitVec 32) : word value.toNat = value := by
  apply eq_of_toNat_eq
  rw [word, toNat_ofInt]
  omega

theorem word_add_toInt (position : ℤ) (value : BitVec 32) :
    word (position + (value - word position).toInt) = value := by
  have hoffset : word (position + (value - word position).toInt) - word position =
      value - word position := by
    rw [word_sub, add_sub_cancel_left, word_toInt]
  exact sub_left_injective hoffset

theorem toInt_word {offset : ℤ} (hlow : -2 ^ 31 ≤ offset) (hhigh : offset < 2 ^ 31) :
    (word offset).toInt = offset := by
  rw [word, toInt_ofInt]
  exact Int.bmod_eq_of_le (by omega) (by omega)

theorem toNat_word {offset : ℤ} (hlow : 0 ≤ offset) (hhigh : offset < 2 ^ 32) :
    ((word offset).toNat : ℤ) = offset := by
  rw [word, toNat_ofInt]
  omega

/-- Less than a quarter of the space away. -/
def NearTo (center position : ℤ) : Prop := center - 2 ^ 30 < position ∧ position < center + 2 ^ 30

theorem seqBefore_word {first second : ℤ} (hlow : -2 ^ 31 ≤ first - second)
    (hhigh : first - second < 2 ^ 31) :
    seqBefore (word first) (word second) = streamBefore first second := by
  rw [seqBefore, word_sub, toInt_word hlow hhigh, streamBefore]
  exact decide_eq_decide.mpr sub_neg

theorem agrees_word (center : ℤ) : Agrees streamBefore seqBefore word (NearTo center) where
  before {first second} hfirst hsecond := by
    unfold NearTo at hfirst hsecond
    exact seqBefore_word (by omega) (by omega)
  injective {first second} hfirst hsecond := by
    unfold NearTo at hfirst hsecond
    constructor
    · intro heq
      have hzero : (word (first - second)).toInt = 0 := by
        rw [← word_sub, heq, sub_self]
        rfl
      rw [toInt_word (by omega) (by omega)] at hzero
      exact sub_eq_zero.mp hzero
    · intro heq
      rw [heq]

end KernelM5040.TcpInput
