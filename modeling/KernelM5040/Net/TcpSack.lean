import KernelM5040.Net.TcpStream

/-!
# SACK blocks over positions in the stream

Blocks that are apart stay apart when a new range is added: it joins every
block it meets, and the joined block meets no other.
-/

namespace KernelM5040.TcpInput

open List Option Bool

variable {sp : SackBlock ℤ}

namespace SackBlock

def Covers (sp : SackBlock ℤ) (position : ℤ) : Prop :=
  sp.startSeq ≤ position ∧ position < sp.endSeq

/-- Neither overlapping nor touching. -/
def Apart (sp swalk : SackBlock ℤ) : Prop :=
  sp.endSeq < swalk.startSeq ∨ swalk.endSeq < sp.startSeq

theorem Apart.symm {swalk : SackBlock ℤ} (hapart : sp.Apart swalk) : swalk.Apart sp :=
  Or.symm hapart

/-- One block lies within another. -/
def Within (sp swalk : SackBlock ℤ) : Prop :=
  swalk.startSeq ≤ sp.startSeq ∧ sp.endSeq ≤ swalk.endSeq

theorem Within.trans {first second third : SackBlock ℤ} (hfirst : first.Within second)
    (hsecond : second.Within third) : first.Within third :=
  ⟨hsecond.1.trans hfirst.1, hfirst.2.trans hsecond.2⟩

end SackBlock

open SackBlock

/-- Blocks that hold something and are apart from each other. -/
@[mk_iff]
structure Blocks (acks : List (SackBlock ℤ)) : Prop where
  nonempty : ∀ sp ∈ acks, sp.startSeq < sp.endSeq
  apart : acks.Pairwise Apart

variable {acks fewer : List (SackBlock ℤ)} {position : ℤ}

theorem Blocks.sublist (hblocks : Blocks acks) (hsublist : fewer.Sublist acks) : Blocks fewer :=
  ⟨fun sp hmem => hblocks.nonempty sp (hsublist.subset hmem), hblocks.apart.sublist hsublist⟩

theorem blocks_cons :
    Blocks (sp :: acks) ↔ sp.startSeq < sp.endSeq ∧ (∀ swalk ∈ acks, sp.Apart swalk) ∧ Blocks acks := by
  rw [blocks_iff, blocks_iff, forall_mem_cons, pairwise_cons]
  tauto

/-- A position is covered by one of the blocks. -/
def CoveredBy (acks : List (SackBlock ℤ)) (position : ℤ) : Prop :=
  ∃ sp ∈ acks, sp.Covers position

theorem coveredBy_cons :
    CoveredBy (sp :: acks) position ↔ sp.Covers position ∨ CoveredBy acks position := by
  simp [CoveredBy, or_and_right, exists_or]

theorem CoveredBy.mono (hcovered : CoveredBy fewer position) (hsubset : fewer ⊆ acks) :
    CoveredBy acks position := by
  obtain ⟨sp, hmem, hcovers⟩ := hcovered
  exact ⟨sp, hsubset hmem, hcovers⟩

section Extend

variable {sp swalk first : SackBlock ℤ} {acks rest : List (SackBlock ℤ)} {seq endSeq : ℤ}

theorem tcpSackExtend_some (hextend : tcpSackExtend streamBefore sp seq endSeq = some first)
    (hsp : sp.startSeq < sp.endSeq) (hseq : seq < endSeq) :
    first.startSeq < first.endSeq ∧ sp.Within first ∧
      (SackBlock.mk seq endSeq).Within first ∧
      ∀ position, first.Covers position → sp.Covers position ∨ seq ≤ position ∧ position < endSeq := by
  unfold tcpSackExtend at hextend
  simp only [streamBefore_eq_true, and_eq_true, not_eq_true', streamBefore_eq_false] at hextend
  split_ifs at hextend with hmeets hstart hend hend
  all_goals
    obtain rfl := some.inj hextend
    simp only [Within, Covers]
    refine ⟨by omega, by omega, by omega, ?_⟩
    intro position
    omega

theorem tcpSackExtend_none (hextend : tcpSackExtend streamBefore sp seq endSeq = none) :
    sp.Apart ⟨seq, endSeq⟩ := by
  unfold tcpSackExtend at hextend
  simp only [streamBefore_eq_true, and_eq_true, not_eq_true', streamBefore_eq_false] at hextend
  split_ifs at hextend with hmeets
  simp only [Apart]
  omega

/-- A block made of positions that are apart from another one is apart from it. -/
theorem apart_of_covers (hfirst : first.startSeq < first.endSeq)
    (hswalk : swalk.startSeq < swalk.endSeq)
    (hcovers : ∀ position, first.Covers position → sp.Covers position ∨ CoveredBy acks position)
    (hsp : sp.Apart swalk) (hacks : ∀ other ∈ acks, swalk.Apart other) : first.Apart swalk := by
  by_contra hmeets
  unfold Apart at hmeets
  -- a position of the first block next to or inside the other one
  have hposition := hcovers (max first.startSeq (swalk.startSeq - 1)) ⟨by omega, by omega⟩
  rcases hposition with ⟨hlow, hhigh⟩ | ⟨other, hmem, hlow, hhigh⟩
  · unfold Apart at hsp
    omega
  · have hapart := hacks other hmem
    unfold Apart at hapart
    omega

/-- Coalescing gives blocks that are apart and cover nothing new. -/
theorem tcpSackMaybeCoalesce_spec (hsp : sp.startSeq < sp.endSeq) (hblocks : Blocks acks) :
    Blocks ((tcpSackMaybeCoalesce streamBefore sp acks).1 ::
        (tcpSackMaybeCoalesce streamBefore sp acks).2) ∧
      sp.Within (tcpSackMaybeCoalesce streamBefore sp acks).1 ∧
      (tcpSackMaybeCoalesce streamBefore sp acks).2.Sublist acks ∧
      ∀ position, (tcpSackMaybeCoalesce streamBefore sp acks).1.Covers position →
        sp.Covers position ∨ CoveredBy acks position := by
  induction acks generalizing sp with
  | nil =>
    refine ⟨blocks_cons.mpr ⟨hsp, by simp [tcpSackMaybeCoalesce], hblocks⟩, ⟨le_rfl, le_rfl⟩,
      Sublist.refl _, fun position => Or.inl⟩
  | cons swalk others ih =>
    obtain ⟨hswalk, hapart, hothers⟩ := blocks_cons.mp hblocks
    rw [tcpSackMaybeCoalesce]
    cases hextend : tcpSackExtend streamBefore sp swalk.startSeq swalk.endSeq with
    | some joined =>
      obtain ⟨hjoined, hwithin, -, hcovers⟩ := tcpSackExtend_some hextend hsp hswalk
      obtain ⟨hresult, hinside, hsublist, hnothing⟩ := ih hjoined hothers
      refine ⟨hresult, hwithin.trans hinside, hsublist.cons swalk, ?_⟩
      intro position hposition
      rw [coveredBy_cons]
      rcases hnothing position hposition with hnew | hold
      · exact (hcovers position hnew).imp id Or.inl
      · exact Or.inr (Or.inr hold)
    | none =>
      obtain ⟨hresult, hinside, hsublist, hnothing⟩ := ih hsp hothers
      generalize tcpSackMaybeCoalesce streamBefore sp others = result at *
      obtain ⟨first, rest⟩ := result
      obtain ⟨hfirst, hfirstApart, hrest⟩ := blocks_cons.mp hresult
      have hskipped : first.Apart swalk :=
        apart_of_covers hfirst hswalk hnothing (tcpSackExtend_none hextend) hapart
      refine ⟨blocks_cons.mpr ⟨hfirst, ?_, blocks_cons.mpr ⟨hswalk, ?_, hrest⟩⟩, hinside,
        hsublist.cons_cons swalk, ?_⟩
      · rw [forall_mem_cons]
        exact ⟨hskipped, hfirstApart⟩
      · intro other hmem
        exact hapart other (hsublist.subset hmem)
      · intro position hposition
        rw [coveredBy_cons]
        exact (hnothing position hposition).imp id Or.inr

theorem rotateExtended_some
    (hrotate : rotateExtended streamBefore seq endSeq acks = some (first, rest)) :
    ∃ sp ∈ acks, tcpSackExtend streamBefore sp seq endSeq = some first ∧ rest.Sublist acks ∧
      rest.length + 1 = acks.length := by
  induction acks generalizing rest with
  | nil => cases hrotate
  | cons swalk others ih =>
    rw [rotateExtended] at hrotate
    cases hextend : tcpSackExtend streamBefore swalk seq endSeq with
    | some joined =>
      rw [hextend] at hrotate
      obtain ⟨rfl, rfl⟩ := Prod.mk.inj (some.inj hrotate)
      exact ⟨swalk, mem_cons_self, hextend, sublist_cons_self _ _, rfl⟩
    | none =>
      rw [hextend] at hrotate
      obtain ⟨⟨found, remaining⟩, hfound, heq⟩ := map_eq_some_iff.mp hrotate
      obtain ⟨rfl, rfl⟩ := Prod.mk.inj heq
      obtain ⟨sp, hmem, hsp, hsublist, hlength⟩ := ih hfound
      exact ⟨sp, mem_cons_of_mem _ hmem, hsp, hsublist.cons_cons swalk, by simp [hlength]⟩

theorem rotateExtended_none (hrotate : rotateExtended streamBefore seq endSeq acks = none) :
    ∀ sp ∈ acks, sp.Apart ⟨seq, endSeq⟩ := by
  induction acks with
  | nil => simp
  | cons swalk others ih =>
    rw [rotateExtended] at hrotate
    cases hextend : tcpSackExtend streamBefore swalk seq endSeq with
    | some joined =>
      rw [hextend] at hrotate
      cases hrotate
    | none =>
      rw [hextend] at hrotate
      rw [forall_mem_cons]
      exact ⟨tcpSackExtend_none hextend, ih (map_eq_none_iff.mp hrotate)⟩

/-- What a new range makes of the blocks: they stay apart and few, the first
one holds the range, and nothing else is covered that was not. -/
structure Acknowledged (acks : List (SackBlock ℤ)) (seq endSeq : ℤ)
    (result : List (SackBlock ℤ)) : Prop where
  blocks : Blocks result
  count : result.length ≤ tcpNumSacks
  first : ∃ sp rest, result = sp :: rest ∧ (SackBlock.mk seq endSeq).Within sp
  covered : ∀ position, CoveredBy result position →
    CoveredBy acks position ∨ seq ≤ position ∧ position < endSeq

theorem acknowledged_new (hblocks : Blocks acks) (hcount : acks.length ≤ tcpNumSacks)
    (hseq : seq < endSeq) :
    Acknowledged acks seq endSeq (tcpSackNewOfoSkb streamBefore seq endSeq acks) := by
  unfold tcpSackNewOfoSkb
  cases hrotate : rotateExtended streamBefore seq endSeq acks with
  | some found =>
    obtain ⟨sp, hmem, hextend, hsublist, hlength⟩ := rotateExtended_some hrotate
    obtain ⟨hjoined, -, hinside, hcovers⟩ :=
      tcpSackExtend_some hextend (hblocks.nonempty sp hmem) hseq
    obtain ⟨hresult, hwithin, hfewer, hnothing⟩ :=
      tcpSackMaybeCoalesce_spec hjoined (hblocks.sublist hsublist)
    have hfewerLength := hfewer.length_le
    refine ⟨hresult, ?_, ⟨_, _, rfl, hinside.trans hwithin⟩, ?_⟩
    · simp only [length_cons]
      omega
    intro position hposition
    rcases coveredBy_cons.mp hposition with hfirst | hrest
    · rcases hnothing position hfirst with hnew | hold
      · rcases hcovers position hnew with hsp | hrange
        · exact Or.inl ⟨sp, hmem, hsp⟩
        · exact Or.inr hrange
      · exact Or.inl (hold.mono hsublist.subset)
    · exact Or.inl (hrest.mono (hfewer.trans hsublist).subset)
  | none =>
    have hapart := rotateExtended_none hrotate
    have hfewer : (if tcpNumSacks ≤ acks.length then acks.dropLast else acks).Sublist acks := by
      split
      · exact dropLast_sublist acks
      · exact Sublist.refl acks
    refine ⟨blocks_cons.mpr ⟨hseq, ?_, hblocks.sublist hfewer⟩, ?_, ⟨_, _, rfl, le_rfl, le_rfl⟩, ?_⟩
    · intro swalk hmem
      exact (hapart swalk (hfewer.subset hmem)).symm
    · rw [length_cons]
      split
      · rw [length_dropLast]
        unfold tcpNumSacks at *
        omega
      · omega
    · intro position hposition
      rcases coveredBy_cons.mp hposition with hfirst | hrest
      · exact Or.inr hfirst
      · exact Or.inl (hrest.mono hfewer.subset)

end Extend

end KernelM5040.TcpInput
