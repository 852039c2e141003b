import KernelM5040.Jbd.RecoveryPasses

/-!
# Recovery of a log with any content

What the passes do on a log that may be corrupt: when they come to an end, and
where they read in its blocks.
-/

namespace KernelM5040.Jbd

open Relation Finset Nat

variable (journal : Journal) (pass : Pass) (endTransaction sequence : BitVec 32)

/-- Where `do_one_pass` stops before it reads a block. -/
def Stops : Prop :=
  (pass != .scan && tidGeq sequence endTransaction) = true

instance : Decidable (Stops pass endTransaction sequence) := inferInstanceAs (Decidable (_ = true))

/-- An iteration of the loop that is not the last one. -/
def GoesOn (progress result : Progress) : Prop :=
  passStep journal pass endTransaction progress = .next result

/-- A pass comes to this state. -/
def Visits : Progress → Progress → Prop :=
  ReflTransGen (GoesOn journal pass endTransaction)

/-- The block behind those of a descriptor block: the replay goes through them one by one, the
other passes skip them. -/
def Journal.skip (block count : ℕ) : ℕ :=
  if pass = .replay then (fun block => journal.wrap (block + 1))^[count] block
  else journal.wrap (block + count)

/-- Where a descriptor or a revoke block of a transaction leads that the pass does not stop at. -/
def Journal.leads (place : ℕ) : Option ℕ :=
  let block := journal.log place
  let next := journal.wrap (place + 1)
  if Stops pass endTransaction sequence ∨ journal.last ≤ place ∨
      block.be32 0 ≠ jfsMagicNumber ∨ block.be32 8 ≠ sequence then none
  else if block.be32 4 = jfsDescriptorBlock then
    some (journal.skip pass next (countTags block journal.blocksize))
  else if block.be32 4 = jfsRevokeBlock then some next
  else none

variable {journal pass endTransaction sequence} {start progress result : Progress}
  {fuel offset size : ℕ} {block : Block} {read : ℕ × ℕ}

theorem replayTags_place (block : Block) :
    (replayTags journal block fuel offset progress).nextLogBlock =
        (fun block => journal.wrap (block + 1))^[countTagsFrom journal.blocksize block fuel offset]
          progress.nextLogBlock ∧
      (replayTags journal block fuel offset progress).nextCommitId = progress.nextCommitId := by
  induction fuel generalizing offset progress with
  | zero => exact ⟨rfl, rfl⟩
  | succ fuel ih =>
    simp only [replayTags, countTagsFrom]
    generalize (if journalTestRevoke _ _ _ _ then _ else _) = fs
    split_ifs
    · exact ⟨rfl, rfl⟩
    · rw [Nat.add_comm 1, Function.iterate_succ_apply]
      exact ih
    · exact ⟨rfl, rfl⟩

section

variable (hplace : progress.nextCommitId = sequence)
include hplace

/-- The loop goes on from a block of the expected transaction; a commit block leads to the next
one. -/
theorem GoesOn.cases (hgoes : GoesOn journal pass endTransaction progress result) :
    progress.nextLogBlock < journal.last ∧
      (journal.log progress.nextLogBlock).be32 8 = sequence ∧
      (result.nextCommitId = sequence + 1 ∨ result.nextCommitId = sequence ∧
        journal.leads pass endTransaction sequence progress.nextLogBlock =
          some result.nextLogBlock) := by
  subst hplace
  have hreplay := @replayTags_place journal
    { progress with nextLogBlock := journal.wrap (progress.nextLogBlock + 1) } journal.blocksize 12
    (journal.log progress.nextLogBlock)
  simp only [GoesOn, passStep, Stops, Journal.leads, Journal.skip, countTags] at hgoes hreplay ⊢
  split_ifs at hgoes <;> cases hgoes <;> simp_all

end

/-- A log with a revoke block that claims to have so many bytes of records; a longer one has a commit
block, too. -/
def revokeLog (last : ℕ) (count : BitVec 32) : Journal :=
  ⟨1024, 1, last, 1, 7, fun block =>
    if block = 1 then headed jfsRevokeBlock 7 [count] else headed jfsCommitBlock 7 [],
    fun _ => 0⟩

/-- The tags of a descriptor block that `count_tags` and the replay read, as offsets and
widths; the UUID behind a tag is not read. -/
def tagReads (size : ℕ) (block : Block) : ℕ → ℕ → List (ℕ × ℕ)
  | 0, _ => []
  | fuel + 1, offset =>
    if offset + 8 ≤ size then
      let flags := block.be32 (offset + 4)
      (offset, 8) ::
        if flags &&& jfsFlagLastTag ≠ 0 then [] else tagReads size block fuel (nextTag offset flags)
    else []

/-- The entries of a revoke block that `scan_revoke_records` reads. -/
def revokeReads (block : Block) : ℕ → ℕ → List (ℕ × ℕ)
  | 0, _ => []
  | fuel + 1, offset =>
    if (offset : ℤ) < (block.be32 12).toInt then (offset, 4) :: revokeReads block fuel (offset + 4)
    else []

section

variable (journal pass endTransaction progress)

/-- A block of this kind is read that belongs to the expected transaction. -/
def Accepts (kind : BitVec 32) : Prop :=
  ¬Stops pass endTransaction progress.nextCommitId ∧ progress.nextLogBlock < journal.last ∧
    HasHeader (journal.log progress.nextLogBlock) kind progress.nextCommitId

instance (kind : BitVec 32) : Decidable (Accepts journal pass endTransaction progress kind) :=
  inferInstanceAs (Decidable (_ ∧ _ ∧ _ ∧ _ ∧ _))

/-- The pass REVOKE goes through the records of the block. -/
def ScansRevoke : Prop :=
  pass = .revoke ∧ Accepts journal pass endTransaction progress jfsRevokeBlock

instance : Decidable (ScansRevoke journal pass endTransaction progress) :=
  inferInstanceAs (Decidable (_ ∧ _))

/-- What an iteration of `do_one_pass` reads of a block behind its header. -/
def stepReads : List (ℕ × ℕ) :=
  let block := journal.log progress.nextLogBlock
  if ScansRevoke journal pass endTransaction progress then
    revokeReads block (block.be32 12).toInt.toNat 16
  else if Accepts journal pass endTransaction progress jfsDescriptorBlock then
    tagReads journal.blocksize block journal.blocksize 12
  else []

end

theorem tagReads_inside (hread : read ∈ tagReads size block fuel offset) :
    read.1 + read.2 ≤ size := by
  induction fuel generalizing offset with
  | zero => cases hread
  | succ fuel ih =>
    simp only [tagReads] at hread
    split_ifs at hread with hroom
    · rwa [List.mem_singleton.mp hread]
    · rcases List.mem_cons.mp hread with rfl | hrest
      · exact hroom
      · exact ih hrest
    · cases hread

theorem mem_revokeReads :
    read ∈ revokeReads block fuel offset ↔
      ∃ index < fuel, read = (offset + 4 * index, 4) ∧
        ((offset + 4 * index : ℕ) : ℤ) < (block.be32 12).toInt := by
  induction fuel generalizing offset with
  | zero => simp [revokeReads]
  | succ fuel ih =>
    rw [revokeReads]
    split_ifs with hless
    · rw [List.mem_cons, ih]
      constructor
      · rintro (rfl | ⟨index, hindex, hread⟩)
        · exact ⟨0, succ_pos fuel, rfl, hless⟩
        · exact ⟨index + 1, succ_lt_succ hindex, by rwa [mul_succ, Nat.add_comm (4 * index),
            ← Nat.add_assoc]⟩
      · rintro ⟨index, hindex, hread⟩
        cases index with
        | zero => exact Or.inl hread.1
        | succ index =>
          rw [mul_succ, Nat.add_comm (4 * index), ← Nat.add_assoc] at hread
          exact Or.inr ⟨index, lt_of_succ_lt_succ hindex, hread⟩
    · refine iff_of_false List.not_mem_nil ?_
      rintro ⟨index, -, -, hread⟩
      omega

/-- The records of a revoke block lie in it exactly when its count does not go beyond the whole
words of the block. -/
theorem revokeReads_inside_iff :
    (∀ read ∈ revokeReads block (block.be32 12).toInt.toNat 16, read.1 + read.2 ≤ size) ↔
      (block.be32 12).toInt ≤ max 16 (4 * (size / 4) : ℕ) := by
  constructor
  · intro hinside
    by_contra hmore
    rw [not_le] at hmore
    have hread := hinside (16 + 4 * (size / 4 - 4), 4) (mem_revokeReads.mpr ⟨size / 4 - 4, by omega,
      rfl, by omega⟩)
    omega
  · intro hcount read hread
    obtain ⟨index, -, rfl, hless⟩ := mem_revokeReads.mp hread
    omega

/-- All reads of a pass on a log of any content lie inside their blocks exactly when no revoke
block that it scans has a count beyond the block. -/
theorem reads_inside_iff (journal : Journal) (pass : Pass) (endTransaction : BitVec 32)
    (start : Progress) :
    (∀ progress, Visits journal pass endTransaction start progress →
        ∀ read ∈ stepReads journal pass endTransaction progress,
          read.1 + read.2 ≤ journal.blocksize) ↔
      ∀ progress, Visits journal pass endTransaction start progress →
        ScansRevoke journal pass endTransaction progress →
          ((journal.log progress.nextLogBlock).be32 12).toInt ≤
            max 16 (4 * (journal.blocksize / 4) : ℕ) := by
  refine forall₂_congr fun progress _ => ?_
  rw [stepReads]
  split_ifs with hscans htags
  · rw [revokeReads_inside_iff]
    exact (forall_prop_of_true (q := fun _ => _) hscans).symm
  · exact iff_of_true (fun _ => tagReads_inside) fun hscans' => absurd hscans' hscans
  · exact iff_of_true (by simp) fun hscans' => absurd hscans' hscans

/-- A count of 1028 in a block of 1024 bytes: SCAN comes to the commit block, and REVOKE then reads
behind the block. -/
theorem revoke_reads_beyond :
    ∃ scanned, doOnePass (revokeLog 3 1028) .scan 0 3 (fun _ => []) (fun _ _ => 0) =
        some (true, scanned) ∧
      ∃ progress, Visits (revokeLog 3 1028) .revoke scanned.nextCommitId
        ((revokeLog 3 1028).head scanned.table scanned.fs) progress ∧
        ∃ read ∈ stepReads (revokeLog 3 1028) .revoke scanned.nextCommitId progress,
          (revokeLog 3 1028).blocksize < read.1 + read.2 := by
  refine ⟨_, rfl, _, .refl, (1024, 4), ?_, by decide⟩
  rw [stepReads, if_pos (by decide)]
  exact mem_revokeReads.mpr ⟨252, by decide, rfl, by decide⟩

end KernelM5040.Jbd
