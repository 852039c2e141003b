import KernelM5040.Jbd.RecoveryLog

/-!
# The three passes

Each pass goes through the transactions of the log in their places; what it
leaves in the revoke table and in the filesystem is given by their revokes and
copies alone.
-/

namespace KernelM5040.Jbd

open Transaction List

variable (journal : Journal) (pass : Pass)

/-- What a pass makes of the revokes and the copies of a part of the log. -/
def applyPass (revokes : List (BitVec 32))
    (copies : List (BitVec 32 × Block)) (progress : Progress) : Progress :=
  { progress with
    table :=
      if pass = .revoke then setRevokes journal progress.nextCommitId revokes progress.table
      else progress.table
    fs :=
      if pass = .replay then
        writeCopies
          (fun blocknr => journalTestRevoke journal progress.table blocknr progress.nextCommitId)
          copies progress.fs
      else progress.fs }

/-- The same at another place of the log. -/
def Progress.moveTo (progress : Progress) (block : ℕ) : Progress :=
  { progress with nextLogBlock := block }

/-- After a commit block. -/
def Progress.commit (progress : Progress) : Progress :=
  { progress with nextCommitId := progress.nextCommitId + 1 }

theorem applyPass_append (revokes more : List (BitVec 32))
    (copies further : List (BitVec 32 × Block)) (progress : Progress) :
    applyPass journal pass more further (applyPass journal pass revokes copies progress) =
      applyPass journal pass (revokes ++ more) (copies ++ further) progress := by
  cases pass <;> simp [applyPass, setRevokes, writeCopies]

theorem applyPass_nil (progress : Progress) : applyPass journal pass [] [] progress = progress := by
  cases pass <;> rfl

/-- The loop gets from one state to another in some iterations. -/
def Reaches (endTransaction : BitVec 32) (steps : ℕ) (progress result : Progress) : Prop :=
  ∀ fuel, passLoop journal pass endTransaction (steps + fuel) progress =
    passLoop journal pass endTransaction fuel result

variable {journal : Journal} {pass : Pass} {endTransaction : BitVec 32}
  {steps more count : ℕ} {progress middle result : Progress}

theorem reaches_refl : Reaches journal pass endTransaction 0 progress progress := by
  intro fuel
  rw [zero_add]

theorem Reaches.trans (hfirst : Reaches journal pass endTransaction steps progress middle)
    (hsecond : Reaches journal pass endTransaction more middle result) :
    Reaches journal pass endTransaction (steps + more) progress result := by
  intro fuel
  rw [add_assoc, hfirst, hsecond]

theorem reaches_of_step (hstep : passStep journal pass endTransaction progress = .next result) :
    Reaches journal pass endTransaction 1 progress result := by
  intro fuel
  rw [add_comm, passLoop, hstep]

/-- A loop that comes to an end does so with any fuel that is enough. -/
theorem Reaches.passLoop {fuel : ℕ}
    (hreaches : Reaches journal pass endTransaction steps progress middle)
    (hstep : passStep journal pass endTransaction middle = .done result) (hfuel : steps < fuel) :
    passLoop journal pass endTransaction fuel progress = some (true, result) := by
  obtain ⟨rest, rfl⟩ := Nat.exists_eq_add_of_lt hfuel
  rw [add_assoc, hreaches, Jbd.passLoop, hstep]

theorem add_one_add_ofNat (id : BitVec 32) (index : ℕ) :
    id + 1 + BitVec.ofNat 32 index = id + BitVec.ofNat 32 (index + 1) := by
  rw [Nat.add_comm, BitVec.ofNat_add, ← add_assoc]
  rfl

/-- Going through complete transactions, one id after the other. -/
def applyTransactions (journal : Journal) (pass : Pass) :
    List Transaction → Progress → Progress
  | [], progress => progress
  | transaction :: transactions, progress =>
    applyTransactions journal pass transactions
      (applyPass journal pass transaction.revokes (transaction.copies journal.blocksize)
        progress).commit

section

variable (journal : Journal) (pass : Pass) (transactions : List Transaction) (progress : Progress)

theorem applyTransactions_nextCommitId :
    (applyTransactions journal pass transactions progress).nextCommitId =
      progress.nextCommitId + BitVec.ofNat 32 transactions.length := by
  induction transactions generalizing progress with
  | nil => simp [applyTransactions]
  | cons transaction transactions ih =>
    rw [applyTransactions, ih, length_cons, ← add_one_add_ofNat]
    rfl

theorem applyTransactions_moveTo (block : ℕ) :
    (applyTransactions journal pass transactions (progress.moveTo block)) =
      (applyTransactions journal pass transactions progress).moveTo block := by
  induction transactions generalizing progress with
  | nil => rfl
  | cons transaction transactions ih =>
    exact ih (applyPass journal pass transaction.revokes (transaction.copies journal.blocksize)
        progress).commit

end

theorem length_le_blocks (items : List Item) :
    items.length ≤ (items.flatMap Item.blocks).length := by
  induction items with
  | nil => exact Nat.zero_le _
  | cons item items ih =>
    rw [flatMap_cons, length_append, length_cons]
    cases item <;> simp only [Item.blocks, length_cons, length_nil] <;> omega

theorem not_ended (hgo : pass = .scan ∨ tidGeq progress.nextCommitId endTransaction = false) :
    ¬ (pass != .scan && tidGeq progress.nextCommitId endTransaction) = true := by
  rcases hgo with rfl | hgo
  · simp
  · simp [hgo]

section Items

variable (hfirst : journal.first ≤ journal.start) (hstart : journal.start < journal.last)
  (hplace : progress.nextLogBlock = journal.behind count)
include hfirst hstart hplace

/-- Replaying the tags of a block takes up as many blocks as there are tags. -/
theorem replayTags_eq {block : Block} {fuel offset : ℕ} {data : List Block}
    (hdata : data.length = (tagsFrom journal.blocksize block fuel offset).length)
    (hreads : Reads journal count data) :
    replayTags journal block fuel offset progress =
      (applyPass journal .replay [] ((tagsFrom journal.blocksize block fuel offset).zipWith
          (fun tag data => (tag.1, unescape tag.2 data)) data) progress).moveTo
        (journal.behind (count + data.length)) := by
  induction fuel generalizing offset count data progress with
  | zero =>
    obtain rfl := length_eq_zero_iff.mp hdata
    rw [replayTags, length_nil, add_zero, ← hplace]
    rfl
  | succ fuel ih =>
    have hnext := wrap_behind hfirst hstart count (show 1 ≤ journal.last - journal.first by omega)
    by_cases hroom : offset + 8 ≤ journal.blocksize
    · simp only [replayTags, tagsFrom, if_pos hroom] at hdata ⊢
      cases data with
      | nil => cases hdata
      | cons first rest =>
        obtain ⟨hread, hrest⟩ := reads_cons.mp hreads
        have hcount : count + (first :: rest).length = count + 1 + rest.length := by
          rw [length_cons, add_assoc, add_comm 1]
        have hrestLength := Nat.succ.inj hdata
        simp only [hplace, hread, hnext, hcount]
        by_cases hlast : block.be32 (offset + 4) &&& jfsFlagLastTag ≠ 0
        · simp only [if_pos hlast] at hrestLength ⊢
          obtain rfl := length_eq_zero_iff.mp hrestLength
          rfl
        · simp only [if_neg hlast] at hrestLength ⊢
          rw [ih rfl hrestLength hrest]
          rfl
    · simp only [replayTags, tagsFrom, if_neg hroom] at hdata ⊢
      obtain rfl := length_eq_zero_iff.mp hdata
      rw [length_nil, add_zero, ← hplace]
      rfl

section

variable (hgo : pass = .scan ∨ tidGeq progress.nextCommitId endTransaction = false)
include hgo

/-- Each pass steps over an item, and makes of it what its revokes and copies say. -/
theorem passStep_item {item : Item} (hvalid : item.Valid journal.blocksize progress.nextCommitId)
    (hreads : Reads journal count item.blocks)
    (hlength : item.blocks.length ≤ journal.last - journal.first) :
    passStep journal pass endTransaction progress =
      .next ((applyPass journal pass item.revokes (item.copies journal.blocksize)
        progress).moveTo (journal.behind (count + item.blocks.length))) := by
  have hnext := wrap_behind hfirst hstart count (show 1 ≤ journal.last - journal.first by omega)
  have hbefore := not_le.mpr (hplace ▸ behind_lt hfirst hstart count)
  unfold passStep
  rw [if_neg (not_ended hgo), if_neg hbefore]
  cases item with
  | descriptor block data =>
    obtain ⟨⟨hmagic, hkind, hsequence⟩, hdata⟩ := hvalid
    obtain ⟨hread, hdataReads⟩ := reads_cons.mp hreads
    have hcount : count + (Item.descriptor block data).blocks.length = count + 1 + data.length := by
      rw [Item.blocks, length_cons, add_assoc, add_comm 1]
    have hshort : data.length ≤ journal.last - journal.first :=
      (Nat.le_succ _).trans hlength
    simp only [hplace, hread, hmagic, hkind, hsequence, ne_eq, not_true_eq_false, if_false,
      if_true, hnext, hcount, ← hdata, wrap_behind hfirst hstart _ hshort]
    cases pass with
    | scan | revoke => rfl
    | replay =>
      rw [if_pos rfl]
      refine congrArg Step.next ?_
      exact @replayTags_eq journal (count + 1) (progress.moveTo (journal.behind (count + 1)))
        hfirst hstart rfl block journal.blocksize 12 data
        (hdata.trans (countTagsFrom_eq _ _ _ _)) hdataReads
  | revoke block =>
    obtain ⟨hmagic, hkind, hsequence⟩ := hvalid
    have hread := (reads_cons.mp hreads).1
    have hdescriptor : jfsRevokeBlock ≠ jfsDescriptorBlock := by decide
    have hcommit : jfsRevokeBlock ≠ jfsCommitBlock := by decide
    simp only [hplace, hread, hmagic, hkind, hsequence, ne_eq, not_true_eq_false, if_false,
      if_true, hnext, hdescriptor, hcommit, scanRevokeRecords_eq]
    cases pass <;> rfl

theorem passStep_commit {commit : Block}
    (hheader : HasHeader commit jfsCommitBlock progress.nextCommitId)
    (hreads : Reads journal count [commit]) :
    passStep journal pass endTransaction progress =
      .next (progress.moveTo (journal.behind (count + 1))).commit := by
  have hnext := wrap_behind hfirst hstart count (show 1 ≤ journal.last - journal.first by omega)
  obtain ⟨hmagic, hkind, hsequence⟩ := hheader
  have hread := (reads_cons.mp hreads).1
  have hdescriptor : jfsCommitBlock ≠ jfsDescriptorBlock := by decide
  have hbefore := not_le.mpr (hplace ▸ behind_lt hfirst hstart count)
  unfold passStep
  rw [if_neg (not_ended hgo), if_neg hbefore]
  simp only [hplace, hread, hmagic, hkind, hsequence, ne_eq, not_true_eq_false, if_false, if_true,
    hnext, hdescriptor]
  rfl

theorem reaches_items {items : List Item}
    (hvalid : ∀ item ∈ items, item.Valid journal.blocksize progress.nextCommitId)
    (hreads : Reads journal count (items.flatMap Item.blocks))
    (hlength : (items.flatMap Item.blocks).length ≤ journal.last - journal.first) :
    Reaches journal pass endTransaction items.length progress
      ((applyPass journal pass (items.flatMap Item.revokes)
        (items.flatMap (Item.copies journal.blocksize)) progress).moveTo
          (journal.behind (count + (items.flatMap Item.blocks).length))) := by
  induction items generalizing count progress with
  | nil =>
    rw [flatMap_nil, flatMap_nil, flatMap_nil, applyPass_nil, length_nil,
      length_nil, add_zero, ← hplace]
    exact reaches_refl
  | cons item items ih =>
    obtain ⟨hitem, hitems⟩ := forall_mem_cons.mp hvalid
    rw [flatMap_cons] at hreads hlength
    rw [length_append] at hlength
    obtain ⟨hitemReads, hitemsReads⟩ := reads_append.mp hreads
    have hstep := passStep_item hfirst hstart hplace hgo hitem hitemReads (by omega)
    have hrest := @ih (count + item.blocks.length)
      ((applyPass journal pass item.revokes (item.copies journal.blocksize) progress).moveTo
        (journal.behind (count + item.blocks.length))) rfl hgo hitems hitemsReads (by omega)
    have hall := (reaches_of_step hstep).trans hrest
    rw [add_assoc] at hall
    rw [length_cons, add_comm items.length, flatMap_cons, flatMap_cons,
      flatMap_cons, length_append, ← applyPass_append]
    exact hall

theorem reaches_transaction {transaction : Transaction}
    (hvalid : transaction.Valid journal.blocksize progress.nextCommitId)
    (hreads : Reads journal count transaction.blocks)
    (hlength : transaction.blocks.length ≤ journal.last - journal.first) :
    Reaches journal pass endTransaction (transaction.items.length + 1) progress
      ((applyPass journal pass transaction.revokes (transaction.copies journal.blocksize)
        progress).commit.moveTo (journal.behind (count + transaction.blocks.length))) := by
  obtain ⟨hitemsReads, hcommitReads⟩ := reads_append.mp hreads
  rw [blocks, length_append, length_singleton] at hlength
  have hitems := reaches_items hfirst hstart hplace hgo hvalid.1 hitemsReads (by omega)
  have hcommit := @passStep_commit journal pass endTransaction
    (count + (transaction.items.flatMap Item.blocks).length)
    ((applyPass journal pass transaction.revokes (transaction.copies journal.blocksize)
      progress).moveTo (journal.behind (count + (transaction.items.flatMap Item.blocks).length)))
    hfirst hstart rfl hgo transaction.commit hvalid.2 hcommitReads
  have hall := hitems.trans (reaches_of_step hcommit)
  rw [add_assoc] at hall
  rw [blocks, length_append, length_singleton]
  exact hall

end

theorem reaches_transactions {transactions : List Transaction}
    (hgo : ∀ index < transactions.length, pass = .scan ∨
      tidGeq (progress.nextCommitId + BitVec.ofNat 32 index) endTransaction = false)
    (hvalid : ∀ index (transaction : Transaction), transactions[index]? = some transaction →
      transaction.Valid journal.blocksize (progress.nextCommitId + BitVec.ofNat 32 index))
    (hreads : Reads journal count (transactions.flatMap blocks))
    (hlength : (transactions.flatMap blocks).length ≤ journal.last - journal.first) :
    ∃ steps ≤ (transactions.flatMap blocks).length,
      Reaches journal pass endTransaction steps progress
        ((applyTransactions journal pass transactions progress).moveTo
          (journal.behind (count + (transactions.flatMap blocks).length))) := by
  induction transactions generalizing count progress with
  | nil =>
    refine ⟨0, Nat.zero_le _, ?_⟩
    rw [flatMap_nil, length_nil, add_zero, ← hplace]
    exact reaches_refl
  | cons transaction transactions ih =>
    rw [flatMap_cons] at hreads hlength ⊢
    rw [length_append] at hlength ⊢
    obtain ⟨hfirstReads, hrestReads⟩ := reads_append.mp hreads
    have hzero : progress.nextCommitId + BitVec.ofNat 32 0 = progress.nextCommitId :=
      BitVec.add_zero _
    have hgoFirst := hgo 0 (Nat.succ_pos _)
    have hvalidFirst := hvalid 0 transaction rfl
    rw [hzero] at hgoFirst hvalidFirst
    have htransaction := reaches_transaction hfirst hstart hplace hgoFirst hvalidFirst
      hfirstReads (by omega)
    obtain ⟨steps, hsteps, hrest⟩ := @ih (count + transaction.blocks.length)
      ((applyPass journal pass transaction.revokes (transaction.copies journal.blocksize)
        progress).commit.moveTo (journal.behind (count + transaction.blocks.length))) rfl
      (fun index hindex => by
        have hnext := hgo (index + 1) (Nat.succ_lt_succ hindex)
        rwa [← add_one_add_ofNat] at hnext)
      (fun index found hfound => by
        have hnext := hvalid (index + 1) found hfound
        rwa [← add_one_add_ofNat] at hnext)
      hrestReads (by omega)
    rw [applyTransactions_moveTo, add_assoc] at hrest
    refine ⟨_, ?_, htransaction.trans hrest⟩
    have hitems := length_le_blocks transaction.items
    rw [blocks, length_append, length_singleton]
    omega

end Items

end KernelM5040.Jbd
