import KernelM5040.Net.TcpInput

/-!
# The receive queues over positions in the stream

Here sequence numbers are positions in the stream, which do not wrap around.
The out-of-order queue is strictly increasing and lies ahead of `rcv_nxt`; the
receive queue hangs together up to it; the SACK blocks are apart from each
other and cover only what the out-of-order queue holds.
-/

namespace KernelM5040.TcpInput

open List

/-- `before` on positions in the stream. -/
def streamBefore (seq1 seq2 : ℤ) : Bool := decide (seq1 < seq2)

@[simp]
theorem streamBefore_eq_true {seq1 seq2 : ℤ} : streamBefore seq1 seq2 = true ↔ seq1 < seq2 :=
  decide_eq_true_iff

@[simp]
theorem streamBefore_eq_false {seq1 seq2 : ℤ} : streamBefore seq1 seq2 = false ↔ seq2 ≤ seq1 := by
  rw [streamBefore, decide_eq_false_iff_not, not_lt]

/-- A position lies in a segment of the queue. -/
def Held (queue : List (Segment ℤ)) (position : ℤ) : Prop :=
  ∃ skb ∈ queue, skb.seq ≤ position ∧ position < skb.endSeq

/-- Strictly increasing in both ends. -/
def Increasing (queue : List (Segment ℤ)) : Prop :=
  queue.Pairwise fun skb skb1 => skb.seq < skb1.seq ∧ skb.endSeq < skb1.endSeq

variable {position : ℤ}

theorem held_append {front back : List (Segment ℤ)} :
    Held (front ++ back) position ↔ Held front position ∨ Held back position := by
  simp [Held, or_and_right, exists_or]

theorem held_cons {skb : Segment ℤ} {queue : List (Segment ℤ)} :
    Held (skb :: queue) position ↔
      (skb.seq ≤ position ∧ position < skb.endSeq) ∨ Held queue position := by
  simp [Held, or_and_right, exists_or]

theorem not_held_nil : ¬ Held [] position := by
  rintro ⟨skb, hmem, -⟩
  exact absurd hmem not_mem_nil

section Insertion

variable {queue front back : List (Segment ℤ)} {skb : Segment ℤ}

/-- Cleaning keeps a tail of the queue; all that it unlinks ends within the new
segment, and what is left ends after it. -/
theorem cleanCovered_spec (endSeq : ℤ) (hincreasing : Increasing queue)
    (hnonempty : ∀ skb ∈ queue, skb.seq < skb.endSeq) :
    ∃ covered, queue = covered ++ cleanCovered streamBefore endSeq queue ∧
      (∀ skb ∈ covered, skb.endSeq ≤ endSeq) ∧
      ∀ skb ∈ cleanCovered streamBefore endSeq queue, endSeq < skb.endSeq := by
  induction queue with
  | nil => exact ⟨[], rfl, by simp, by simp [cleanCovered]⟩
  | cons skb1 queue ih =>
    have htail := pairwise_cons.mp hincreasing
    have hskb1 := hnonempty skb1 mem_cons_self
    rw [cleanCovered]
    simp only [streamBefore_eq_true]
    split_ifs with hmeets houter
    · refine ⟨[], rfl, by simp, ?_⟩
      rw [forall_mem_cons]
      exact ⟨houter, fun skb hmem => houter.trans (htail.1 skb hmem).2⟩
    · obtain ⟨covered, hsplit, hcovered, hrest⟩ :=
        ih htail.2 fun skb hmem => hnonempty skb (mem_cons_of_mem _ hmem)
      refine ⟨skb1 :: covered, ?_, ?_, hrest⟩
      · rw [cons_append, ← hsplit]
      · rw [forall_mem_cons]
        exact ⟨not_lt.mp houter, hcovered⟩
    · refine ⟨[], rfl, by simp, ?_⟩
      intro skb hmem
      rcases mem_cons.mp hmem with rfl | hmem
      · omega
      · have := (htail.1 skb hmem).2
        omega

/-- What insertion makes of a queue: it stays increasing, and holds the new
segment in addition. -/
structure Inserted (queue : List (Segment ℤ)) (skb : Segment ℤ) (result : List (Segment ℤ)) :
    Prop where
  increasing : Increasing result
  mem : ∀ skb1 ∈ result, skb1 = skb ∨ skb1 ∈ queue
  held : ∀ position, Held result position ↔
    Held queue position ∨ skb.seq ≤ position ∧ position < skb.endSeq

/-- A segment put between those before it and those it does not cover. -/
theorem inserted_between (hincreasing : Increasing (front ++ back))
    (hnonempty : ∀ skb ∈ front ++ back, skb.seq < skb.endSeq)
    (hfront : ∀ skb1 ∈ front, skb1.seq < skb.seq ∧ skb1.endSeq < skb.endSeq)
    (hback : ∀ skb1 ∈ back, skb.seq < skb1.seq ∨ skb1.seq = skb.seq ∧ skb1.endSeq ≤ skb.endSeq) :
    Inserted (front ++ back) skb (front ++ skb :: cleanCovered streamBefore skb.endSeq back) := by
  obtain ⟨hincFront, hincBack, hcross⟩ := pairwise_append.mp hincreasing
  obtain ⟨covered, hsplit, hcovered, hrest⟩ := cleanCovered_spec skb.endSeq hincBack
    fun skb1 hmem => hnonempty skb1 (mem_append_right _ hmem)
  generalize cleanCovered streamBefore skb.endSeq back = rest at hsplit hrest
  subst hsplit
  have hrestBack : ∀ skb1 ∈ rest, skb1 ∈ covered ++ rest := fun skb1 => mem_append_right covered
  constructor
  · apply pairwise_append.mpr
    refine ⟨hincFront, pairwise_cons.mpr ⟨?_, (pairwise_append.mp hincBack).2.1⟩, ?_⟩
    · intro skb1 hmem
      have hend := hrest skb1 hmem
      rcases hback skb1 (hrestBack skb1 hmem) with hlt | ⟨-, hle⟩
      · exact ⟨hlt, hend⟩
      · omega
    · intro skb1 hmem skb2 hmem2
      rcases mem_cons.mp hmem2 with rfl | hmem2
      · exact hfront skb1 hmem
      · exact hcross skb1 hmem skb2 (hrestBack skb2 hmem2)
  · intro skb1 hmem
    rcases mem_append.mp hmem with hmem | hmem
    · exact Or.inr (mem_append_left _ hmem)
    · rcases mem_cons.mp hmem with rfl | hmem
      · exact Or.inl rfl
      · exact Or.inr (mem_append_right _ (hrestBack skb1 hmem))
  · intro position
    have hin : Held covered position → skb.seq ≤ position ∧ position < skb.endSeq := by
      rintro ⟨skb1, hmem, hlow, hhigh⟩
      have hend := hcovered skb1 hmem
      rcases hback skb1 (mem_append_left _ hmem) with hlt | ⟨heq, -⟩
      · omega
      · omega
    rw [held_append, held_cons, held_append, held_append]
    tauto

/-- The backward search splits the queue at the segment's place. -/
theorem search_split (queue : List (Segment ℤ)) (seq : ℤ) :
    queue = (queue.reverse.dropWhile fun skb1 => streamBefore seq skb1.seq).reverse ++
      (queue.reverse.takeWhile fun skb1 => streamBefore seq skb1.seq).reverse := by
  rw [← reverse_append, takeWhile_append_dropWhile, reverse_reverse]

section

variable (hincreasing : Increasing queue) (hnonempty : ∀ skb ∈ queue, skb.seq < skb.endSeq)
  (hskb : skb.seq < skb.endSeq)
include hincreasing hnonempty hskb

theorem inserted_insertOfo : Inserted queue skb (insertOfo streamBefore queue skb) := by
  have hsplit := search_split queue skb.seq
  have hpassed : ∀ skb1 ∈ (queue.reverse.takeWhile
      fun skb1 => streamBefore skb.seq skb1.seq).reverse, skb.seq < skb1.seq := by
    intro skb1 hmem
    have htrue := mem_takeWhile_imp (mem_reverse.mp hmem)
    simpa using htrue
  have hhead : ∀ skb1 earlier, (queue.reverse.dropWhile
      fun skb1 => streamBefore skb.seq skb1.seq) = skb1 :: earlier → skb1.seq ≤ skb.seq := by
    intro skb1 earlier heq
    have hnot := head?_dropWhile_not (fun skb1 => streamBefore skb.seq skb1.seq) queue.reverse
    rw [heq] at hnot
    simpa using hnot
  unfold insertOfo
  simp only
  generalize (queue.reverse.takeWhile fun skb1 => streamBefore skb.seq skb1.seq).reverse = back
    at hsplit hpassed ⊢
  generalize (queue.reverse.dropWhile fun skb1 => streamBefore skb.seq skb1.seq) = kept
    at hsplit hhead ⊢
  have hback : ∀ skb1 ∈ back, skb.seq < skb1.seq ∨ skb1.seq = skb.seq ∧ skb1.endSeq ≤ skb.endSeq :=
    fun skb1 hmem => Or.inl (hpassed skb1 hmem)
  subst hsplit
  cases kept with
  | nil => exact @inserted_between [] back skb hincreasing hnonempty (by simp) hback
  | cons skb1 earlier =>
    have hle := hhead skb1 earlier rfl
    have hskb1 : skb1.seq < skb1.endSeq := hnonempty skb1 (by simp)
    have hsnoc : (skb1 :: earlier).reverse = earlier.reverse ++ [skb1] := reverse_cons
    have hinc := (pairwise_append.mp hincreasing).1
    rw [hsnoc] at hinc
    have hearlier : ∀ skb2 ∈ earlier.reverse, skb2.seq < skb1.seq ∧ skb2.endSeq < skb1.endSeq :=
      fun skb2 hmem => (pairwise_append.mp hinc).2.2 skb2 hmem skb1 (by simp)
    have hbehind : skb1.seq < skb.seq → skb1.endSeq < skb.endSeq →
        Inserted ((skb1 :: earlier).reverse ++ back) skb
          (earlier.reverse ++ skb1 :: skb :: cleanCovered streamBefore skb.endSeq back) := by
      intro hseq hend
      have hfront : ∀ skb2 ∈ (skb1 :: earlier).reverse,
          skb2.seq < skb.seq ∧ skb2.endSeq < skb.endSeq := by
        intro skb2 hmem
        rw [hsnoc, mem_append, mem_singleton] at hmem
        rcases hmem with hmem | rfl
        · have := hearlier skb2 hmem
          omega
        · exact ⟨hseq, hend⟩
      have hinserted := inserted_between hincreasing hnonempty hfront hback
      rw [hsnoc, append_assoc, append_assoc] at hinserted
      rw [hsnoc, append_assoc]
      exact hinserted
    simp only [streamBefore_eq_true, Bool.not_eq_true', streamBefore_eq_false]
    split_ifs with hoverlap hinside hpartial
    · -- all of it is there already
      refine ⟨hincreasing, fun skb2 hmem => Or.inr hmem, ?_⟩
      intro position
      constructor
      · exact Or.inl
      · rintro (hheld | ⟨hlow, hhigh⟩)
        · exact hheld
        · exact ⟨skb1, by simp, by omega, by omega⟩
    · exact hbehind (by omega) (by omega)
    · -- the same start: the earlier one is covered
      rw [hsnoc, append_assoc] at hincreasing hnonempty ⊢
      refine inserted_between hincreasing hnonempty ?_ ?_
      · intro skb2 hmem
        have := hearlier skb2 hmem
        omega
      · intro skb2 hmem
        rcases mem_cons.mp hmem with rfl | hmem
        · exact Or.inr ⟨by omega, by omega⟩
        · exact hback skb2 hmem
    · exact hbehind (by omega) (by omega)

/-- A segment that begins where the last one ends goes to the tail. -/
theorem inserted_tail {last : Segment ℤ} (hlast : queue.getLast? = some last)
    (hseq : skb.seq = last.endSeq) : Inserted queue skb (queue ++ [skb]) := by
  obtain ⟨init, rfl⟩ := getLast?_eq_some_iff.mp hlast
  have hlastNonempty := hnonempty last (by simp)
  have hfront : ∀ skb1 ∈ init ++ [last], skb1.seq < skb.seq ∧ skb1.endSeq < skb.endSeq := by
    intro skb1 hmem
    rcases mem_append.mp hmem with hinit | hsame
    · have := (pairwise_append.mp hincreasing).2.2 skb1 hinit last (by simp)
      omega
    · rw [mem_singleton] at hsame
      subst hsame
      omega
  rw [← append_nil (init ++ [last])] at hincreasing hnonempty
  have hinserted := inserted_between hincreasing hnonempty hfront (by simp)
  rwa [append_nil] at hinserted

end

end Insertion

end KernelM5040.TcpInput
