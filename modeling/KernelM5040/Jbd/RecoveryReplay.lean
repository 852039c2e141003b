import KernelM5040.Jbd.RecoveryPasses

/-!
# What recovery leaves in the filesystem

Every block ends up as the last copy of it that is not revoked.  Ids are
compared by the sign of their difference, so there may be up to 2^31
transactions in the log, and no more.
-/

namespace KernelM5040.Jbd

open Function Transaction List
open BitVec (ofNat)

/-! ### Transaction ids -/

section

variable (sequence : BitVec 32) {first second : ℕ} (hlow : -2 ^ 31 ≤ (first : ℤ) - second)
  (hhigh : (first : ℤ) - second < 2 ^ 31)
include hlow hhigh

theorem toInt_id_sub :
    (sequence + ofNat 32 first - (sequence + ofNat 32 second)).toInt = first - second := by
  have hsub : sequence + ofNat 32 first - (sequence + ofNat 32 second) =
      ofNat 32 first - ofNat 32 second := add_sub_add_left_eq_sub _ _ _
  rw [hsub, BitVec.toInt_sub, BitVec.toInt_ofNat', BitVec.toInt_ofNat', Int.bmod_sub_bmod,
    Int.sub_bmod_bmod]
  exact Int.bmod_eq_of_le (by omega) (by omega)

theorem tidGeq_id :
    tidGeq (sequence + ofNat 32 first) (sequence + ofNat 32 second) = decide (second ≤ first) := by
  rw [tidGeq, toInt_id_sub sequence hlow hhigh]
  exact decide_eq_decide.mpr (by omega)

theorem tidGt_id :
    tidGt (sequence + ofNat 32 first) (sequence + ofNat 32 second) = decide (second < first) := by
  rw [tidGt, toInt_id_sub sequence hlow hhigh]
  exact decide_eq_decide.mpr (by omega)

end

/-! ### The revoke table -/

/-- The id that the table has for a block. -/
def lookup (journal : Journal) (table : RevokeTable) (blocknr : BitVec 32) : Option (BitVec 32) :=
  (findRevokeRecord journal table blocknr).map RevokeRecord.sequence

theorem find?_updateRecord (blocknr other sequence : BitVec 32) (bucket : List RevokeRecord) :
    (updateRecord blocknr sequence bucket).find? (fun record => record.blocknr == other) =
      (bucket.find? fun record => record.blocknr == other).map fun record =>
        if other = blocknr then { record with sequence := sequence } else record := by
  induction bucket with
  | nil => rfl
  | cons record bucket ih =>
    rw [updateRecord]
    by_cases hblock : record.blocknr = blocknr
    · subst hblock
      by_cases hother : record.blocknr = other
      · simp [hother]
      · have hne : ¬ other = record.blocknr := fun heq => hother heq.symm
        simp [hother, hne]
    · by_cases hother : record.blocknr = other
      · have hne : ¬ other = blocknr := fun heq => hblock (hother.trans heq)
        simp [hother, hne]
      · simp [hblock, hother, ih]

theorem findRevokeRecord_update (journal : Journal) (table : RevokeTable)
    (blocknr other : BitVec 32) (bucket : List RevokeRecord) :
    findRevokeRecord journal (update table (journal.hash blocknr) bucket) other =
      if journal.hash other = journal.hash blocknr then
        bucket.find? fun record => record.blocknr == other
      else findRevokeRecord journal table other := by
  unfold findRevokeRecord
  rw [update_apply]
  split_ifs <;> rfl

theorem lookup_journalSetRevoke (journal : Journal) (table : RevokeTable)
    (blocknr sequence other : BitVec 32) :
    lookup journal (journalSetRevoke journal table blocknr sequence) other =
      if other = blocknr then
        some (match lookup journal table blocknr with
          | none => sequence
          | some recorded => if tidGt sequence recorded then sequence else recorded)
      else lookup journal table other := by
  unfold journalSetRevoke lookup
  cases hfind : findRevokeRecord journal table blocknr with
  | none =>
    rw [findRevokeRecord_update]
    by_cases hother : other = blocknr
    · subst hother
      simp
    have hne : ¬ blocknr = other := fun heq => hother heq.symm
    rw [if_neg hother]
    split_ifs with hbucket
    · unfold findRevokeRecord
      rw [hbucket]
      simp [hne]
    · rfl
  | some record =>
    simp only [Option.map_some]
    by_cases hlater : tidGt sequence record.sequence = true
    · rw [if_pos hlater, findRevokeRecord_update, find?_updateRecord]
      by_cases hother : other = blocknr
      · subst hother
        have hfound : ((table (journal.hash other)).find?
            fun record => record.blocknr == other) = some record := hfind
        simp [hfound, hlater]
      · rw [if_neg hother]
        split_ifs with hbucket
        · unfold findRevokeRecord
          rw [hbucket]
          simp
        · rfl
    · rw [if_neg hlater]
      by_cases hother : other = blocknr
      · subst hother
        simp [hfind, hlater]
      · rw [if_neg hother]

variable {journal : Journal} {blocknr : BitVec 32} {table : RevokeTable} {index fuel : ℕ}
  {processed transactions : List Transaction} {transaction : Transaction} {progress : Progress}

/-- A transaction that is not older than what the table has sets its id for all
that it revokes. -/
theorem lookup_setRevokes {sequence : BitVec 32} (blocknrs : List (BitVec 32))
    (holder : ∀ recorded, lookup journal table blocknr = some recorded →
      recorded = sequence ∨ tidGt sequence recorded = true) :
    lookup journal (setRevokes journal sequence blocknrs table) blocknr =
      if blocknr ∈ blocknrs then some sequence else lookup journal table blocknr := by
  induction blocknrs generalizing table with
  | nil => rfl
  | cons revoked blocknrs ih =>
    have hset := lookup_journalSetRevoke journal table revoked sequence blocknr
    change lookup journal (setRevokes journal sequence blocknrs
      (journalSetRevoke journal table revoked sequence)) blocknr = _
    by_cases hrevoked : blocknr = revoked
    · subst hrevoked
      have hnow : lookup journal (journalSetRevoke journal table blocknr sequence) blocknr =
          some sequence := by
        rw [hset, if_pos rfl]
        cases hlookup : lookup journal table blocknr with
        | none => rfl
        | some recorded =>
          rcases holder recorded hlookup with rfl | hlater
          · simp
          · simp [hlater]
      rw [ih, hnow]
      · simp
      · intro recorded hrecorded
        rw [hnow] at hrecorded
        exact Or.inl (Option.some.inj hrecorded).symm
    · rw [if_neg hrevoked] at hset
      rw [ih, hset]
      · simp [hrevoked]
      · rw [hset]
        exact holder

/-- A transaction of the list revokes the block. -/
def Revokes (transactions : List Transaction) (index : ℕ) (blocknr : BitVec 32) : Prop :=
  ∃ transaction, transactions[index]? = some transaction ∧ blocknr ∈ transaction.revokes

/-- The table has the last transaction that revokes a block, if there is one. -/
def Collected (journal : Journal) (transactions : List Transaction) (table : RevokeTable) : Prop :=
  ∀ blocknr,
    match lookup journal table blocknr with
    | none => ∀ index, ¬ Revokes transactions index blocknr
    | some recorded => ∃ index, recorded = journal.sequence + ofNat 32 index ∧
        Revokes transactions index blocknr ∧
        ∀ later, index < later → ¬ Revokes transactions later blocknr

theorem Revokes.lt_length (hrevokes : Revokes transactions index blocknr) :
    index < transactions.length := by
  obtain ⟨transaction, hfound, -⟩ := hrevokes
  exact (List.getElem?_eq_some_iff.mp hfound).1

theorem revokes_snoc :
    Revokes (transactions ++ [transaction]) index blocknr ↔
      Revokes transactions index blocknr ∨
        index = transactions.length ∧ blocknr ∈ transaction.revokes := by
  unfold Revokes
  rcases lt_trichotomy index transactions.length with hlt | heq | hgt
  · rw [getElem?_append_left hlt]
    simp [hlt.ne]
  · subst heq
    simp
  · rw [getElem?_eq_none (by simp; omega), getElem?_eq_none hgt.le]
    simp [hgt.ne']

theorem Collected.snoc (hcollected : Collected journal transactions table)
    (hlength : transactions.length < 2 ^ 31) :
    Collected journal (transactions ++ [transaction])
      (setRevokes journal (journal.sequence + ofNat 32 transactions.length)
        transaction.revokes table) := by
  intro blocknr
  have hold := hcollected blocknr
  rw [lookup_setRevokes]
  · split_ifs with hrevoked
    · refine ⟨transactions.length, rfl, revokes_snoc.mpr (Or.inr ⟨rfl, hrevoked⟩), ?_⟩
      intro later hlater hrevokes
      have := hrevokes.lt_length
      rw [length_append, length_singleton] at this
      omega
    cases hlookup : lookup journal table blocknr with
    | none =>
      rw [hlookup] at hold
      intro index hrevokes
      rcases revokes_snoc.mp hrevokes with hrevokes | hrevokes
      · exact hold index hrevokes
      · exact hrevoked hrevokes.2
    | some recorded =>
      rw [hlookup] at hold
      obtain ⟨index, hrecorded, hrevokes, hlast⟩ := hold
      refine ⟨index, hrecorded, revokes_snoc.mpr (Or.inl hrevokes), ?_⟩
      intro later hlater hlaterRevokes
      rcases revokes_snoc.mp hlaterRevokes with hlaterRevokes | hlaterRevokes
      · exact hlast later hlater hlaterRevokes
      · exact hrevoked hlaterRevokes.2
  · intro recorded hlookup
    rw [hlookup] at hold
    obtain ⟨index, rfl, hrevokes, -⟩ := hold
    have hindex := hrevokes.lt_length
    right
    rw [tidGt_id journal.sequence (by omega) (by omega)]
    exact decide_eq_true hindex

theorem collected_applyTransactions (hcollected : Collected journal processed progress.table)
    (hid : progress.nextCommitId = journal.sequence + ofNat 32 processed.length)
    (hlength : (processed ++ transactions).length ≤ 2 ^ 31) :
    Collected journal (processed ++ transactions)
      (applyTransactions journal .revoke transactions progress).table := by
  induction transactions generalizing processed progress with
  | nil =>
    rw [append_nil]
    exact hcollected
  | cons transaction transactions ih =>
    rw [length_append, length_cons] at hlength
    have hsnoc := @Collected.snoc journal progress.table processed transaction hcollected (by omega)
    rw [← hid] at hsnoc
    have hrest := @ih (processed ++ [transaction])
      (applyPass journal .revoke transaction.revokes (transaction.copies journal.blocksize)
        progress).commit hsnoc
      (by
        rw [length_append, length_singleton, ← add_one_add_ofNat, add_right_comm, ← hid]
        rfl)
      (by simp; omega)
    rw [append_assoc, singleton_append] at hrest
    exact hrest

/-- A copy is skipped exactly if its transaction or a later one revokes the block. -/
theorem Collected.journalTestRevoke (hcollected : Collected journal transactions table)
    (hlength : transactions.length ≤ 2 ^ 31) (hindex : index < transactions.length)
    (blocknr : BitVec 32) :
    journalTestRevoke journal table blocknr (journal.sequence + ofNat 32 index) = true ↔
      ∃ later, index ≤ later ∧ Revokes transactions later blocknr := by
  have hlookup := hcollected blocknr
  unfold lookup at hlookup
  unfold Jbd.journalTestRevoke
  cases hfind : findRevokeRecord journal table blocknr with
  | none =>
    rw [hfind] at hlookup
    simp only [Bool.false_eq_true, false_iff, not_exists, not_and]
    intro later _
    exact hlookup later
  | some record =>
    rw [hfind] at hlookup
    obtain ⟨last, hrecorded, hrevokes, hlast⟩ := hlookup
    have hlastLength := hrevokes.lt_length
    simp only
    rw [hrecorded, tidGt_id journal.sequence (by omega) (by omega)]
    simp only [Bool.not_eq_true', decide_eq_false_iff_not, not_lt]
    constructor
    · intro hle
      exact ⟨last, hle, hrevokes⟩
    · rintro ⟨later, hle, hlater⟩
      by_contra hgt
      exact hlast later (by omega) hlater

/-! ### The filesystem -/

/-- The copies of a block among others. -/
def copiesOf (blocknr : BitVec 32) (copies : List (BitVec 32 × Block)) : List Block :=
  copies.filterMap fun copy => if copy.1 = blocknr then some copy.2 else none

/-- The copies of a block that no transaction from theirs on revokes. -/
def liveCopies (size : ℕ) (blocknr : BitVec 32) : List Transaction → List Block
  | [] => []
  | transaction :: transactions =>
    (if (transaction :: transactions).any fun later => blocknr ∈ later.revokes then []
      else copiesOf blocknr (transaction.copies size)) ++
      liveCopies size blocknr transactions

theorem writeCopies_apply (revoked : BitVec 32 → Bool) (copies : List (BitVec 32 × Block))
    (fs : BitVec 32 → Block) (blocknr : BitVec 32) :
    writeCopies revoked copies fs blocknr =
      if revoked blocknr then fs blocknr
      else (copiesOf blocknr copies).getLast?.getD (fs blocknr) := by
  induction copies generalizing fs with
  | nil => simp [writeCopies, copiesOf]
  | cons copy copies ih =>
    change writeCopies revoked copies
      (if revoked copy.1 then fs else update fs copy.1 copy.2) blocknr = _
    rw [ih]
    by_cases hsame : copy.1 = blocknr
    · subst hsame
      cases hrevoked : revoked copy.1 <;> simp [copiesOf, getLast?_cons]
    have hne : ¬ blocknr = copy.1 := fun heq => hsame heq.symm
    have hkept : (if revoked copy.1 then fs else update fs copy.1 copy.2) blocknr = fs blocknr := by
      split_ifs
      · rfl
      · exact update_of_ne hne _ _
    simp [copiesOf, hsame, hkept]

/-- The transactions from some place of the list on that revoke a block. -/
theorem exists_revokes_append :
    (∃ later, processed.length ≤ later ∧ Revokes (processed ++ transactions) later blocknr) ↔
      (transactions.any fun later => blocknr ∈ later.revokes) = true := by
  simp only [any_eq_true, decide_eq_true_eq]
  constructor
  · rintro ⟨later, hle, transaction, hfound, hmem⟩
    rw [getElem?_append_right hle] at hfound
    exact ⟨transaction, mem_of_getElem? hfound, hmem⟩
  · rintro ⟨transaction, hmem, hrevoked⟩
    obtain ⟨index, hfound⟩ := mem_iff_getElem?.mp hmem
    refine ⟨processed.length + index, Nat.le_add_right _ _, transaction, ?_, hrevoked⟩
    rw [getElem?_append_right (Nat.le_add_right _ _), Nat.add_sub_cancel_left]
    exact hfound

theorem applyTransactions_replay
    (hcollected : Collected journal (processed ++ transactions) progress.table)
    (hid : progress.nextCommitId = journal.sequence + ofNat 32 processed.length)
    (hlength : (processed ++ transactions).length ≤ 2 ^ 31) (blocknr : BitVec 32) :
    (applyTransactions journal .replay transactions progress).fs blocknr =
      (liveCopies journal.blocksize blocknr transactions).getLast?.getD (progress.fs blocknr) := by
  induction transactions generalizing processed progress with
  | nil => rfl
  | cons transaction transactions ih =>
    have hrevoked := hcollected.journalTestRevoke hlength
      (show processed.length < (processed ++ transaction :: transactions).length by simp) blocknr
    rw [exists_revokes_append, ← hid, Bool.coe_iff_coe] at hrevoked
    have hrest := @ih (processed ++ [transaction])
      (applyPass journal .replay transaction.revokes (transaction.copies journal.blocksize)
        progress).commit
      (by
        rw [append_assoc, singleton_append]
        exact hcollected)
      (by
        rw [length_append, length_singleton, ← add_one_add_ofNat, add_right_comm, ← hid]
        rfl)
      (by
        rw [append_assoc, singleton_append]
        exact hlength)
    have hfs : (applyPass journal .replay transaction.revokes
          (transaction.copies journal.blocksize) progress).commit.fs blocknr =
        if (transaction :: transactions).any fun later => blocknr ∈ later.revokes then
          progress.fs blocknr
        else
          (copiesOf blocknr (transaction.copies journal.blocksize)).getLast?.getD
            (progress.fs blocknr) := by
      rw [← hrevoked]
      exact writeCopies_apply
        (fun blocknr => journalTestRevoke journal progress.table blocknr progress.nextCommitId)
        _ _ blocknr
    rw [applyTransactions, hrest, liveCopies, hfs, getLast?_append]
    split_ifs
    · simp
    · cases (liveCopies journal.blocksize blocknr transactions).getLast? <;> simp

/-! ### Recovery -/

theorem applyTransactions_scan (transactions : List Transaction) (progress : Progress) :
    applyTransactions journal .scan transactions progress =
      { progress with
        nextCommitId := progress.nextCommitId + ofNat 32 transactions.length } := by
  induction transactions generalizing progress with
  | nil => simp [applyTransactions]
  | cons transaction transactions ih =>
    rw [applyTransactions, ih, length_cons, ← add_one_add_ofNat]
    rfl

theorem applyTransactions_revoke_fs (transactions : List Transaction) (progress : Progress) :
    (applyTransactions journal .revoke transactions progress).fs = progress.fs := by
  induction transactions generalizing progress with
  | nil => rfl
  | cons transaction transactions ih => rw [applyTransactions, ih]; rfl

section Recovery

variable {torn : List Item} {stop : Block}

theorem passStep_stop {endTransaction : BitVec 32} (hbefore : progress.nextLogBlock < journal.last)
    (hread : journal.log progress.nextLogBlock = stop)
    (hstop : ∀ kind ∈ [jfsDescriptorBlock, jfsCommitBlock, jfsRevokeBlock],
      ¬ HasHeader stop kind progress.nextCommitId) :
    passStep journal .scan endTransaction progress =
      .done (progress.moveTo (journal.wrap (progress.nextLogBlock + 1))) := by
  unfold passStep
  rw [if_neg (by simp), if_neg (not_le.mpr hbefore)]
  simp only [hread]
  by_cases hmagic : stop.be32 0 = jfsMagicNumber
  · by_cases hsequence : stop.be32 8 = progress.nextCommitId
    · have hkind : ∀ kind ∈ [jfsDescriptorBlock, jfsCommitBlock, jfsRevokeBlock],
          ¬ stop.be32 4 = kind := fun kind hmem heq => hstop kind hmem ⟨hmagic, heq, hsequence⟩
      simp only [forall_mem_cons] at hkind
      simp only [hmagic, hsequence, hkind, ne_eq, not_true_eq_false, if_false]
      rfl
    · simp only [hmagic, hsequence, ne_eq, not_true_eq_false, not_false_eq_true, if_false, if_true]
      rfl
  · simp only [hmagic, ne_eq, not_false_eq_true, if_true]
    rfl

section

variable (hlogged : Logged journal transactions torn stop)
include hlogged

theorem Logged.reaches {pass : Pass}
    (endTransaction : BitVec 32) (hgo : ∀ index < transactions.length, pass = .scan ∨
      tidGeq (journal.sequence + ofNat 32 index) endTransaction = false)
    (table : RevokeTable) (fs : BitVec 32 → Block) :
    ∃ steps ≤ (transactions.flatMap blocks).length, Reaches journal pass endTransaction steps
      ⟨journal.sequence, journal.start, table, fs⟩ ((applyTransactions journal pass transactions
        ⟨journal.sequence, journal.start, table, fs⟩).moveTo
          (journal.behind (transactions.flatMap blocks).length)) := by
  have hlength := hlogged.length
  rw [length_append] at hlength
  rw [← zero_add (transactions.flatMap blocks).length]
  nth_rewrite 1 [zero_add]
  exact reaches_transactions hlogged.first_le hlogged.start_lt
    (behind_zero hlogged.first_le hlogged.start_lt).symm hgo hlogged.complete
    (reads_append.mp hlogged.reads).1 (by omega)

theorem Logged.scan (endTransaction : BitVec 32)
    (hfuel : journal.last - journal.first < fuel) (table : RevokeTable) (fs : BitVec 32 → Block) :
    ∃ scanned, doOnePass journal .scan endTransaction fuel table fs = some (true, scanned) ∧
      scanned.nextCommitId = journal.sequence + ofNat 32 transactions.length ∧
      scanned.table = table ∧ scanned.fs = fs := by
  have hreads := (reads_append.mp hlogged.reads).2
  obtain ⟨htornReads, hstopReads⟩ := reads_append.mp hreads
  have hlength := hlogged.length
  rw [length_append, length_append, length_singleton] at hlength
  rw [zero_add] at htornReads hstopReads
  obtain ⟨steps, hsteps, hreaches⟩ := @Logged.reaches _ _ _ _ hlogged .scan endTransaction
    (fun _ _ => Or.inl rfl) table fs
  rw [applyTransactions_scan] at hreaches
  have hitems := hreaches.trans (reaches_items hlogged.first_le hlogged.start_lt rfl (Or.inl rfl)
    hlogged.torn htornReads (by omega))
  have htornLength := length_le_blocks torn
  have hloop := hitems.passLoop (passStep_stop (behind_lt hlogged.first_le hlogged.start_lt _)
    (reads_cons.mp hstopReads).1 hlogged.stop) (show steps + torn.length < fuel by omega)
  exact ⟨_, congrArg (Option.map _) hloop, rfl, rfl, rfl⟩

/-- A later pass goes through the complete transactions, and stops there. -/
theorem Logged.pass (hcount : transactions.length ≤ 2 ^ 31) {pass : Pass} (hpass : pass ≠ .scan)
    (hfuel : journal.last - journal.first < fuel) (table : RevokeTable) (fs : BitVec 32 → Block) :
    ∃ place, doOnePass journal pass (journal.sequence + ofNat 32 transactions.length) fuel
        table fs =
      some (true, (applyTransactions journal pass transactions
        ⟨journal.sequence, journal.start, table, fs⟩).moveTo place) := by
  have hlength := hlogged.length
  rw [length_append, length_append, length_singleton] at hlength
  have hgo : ∀ index < transactions.length, pass = .scan ∨ tidGeq (journal.sequence + ofNat 32 index)
      (journal.sequence + ofNat 32 transactions.length) = false := by
    intro index hindex
    right
    rw [tidGeq_id journal.sequence (by omega) (by omega)]
    exact decide_eq_false (by omega)
  obtain ⟨steps, hsteps, hreaches⟩ := hlogged.reaches _ hgo table fs
  have hid := applyTransactions_nextCommitId journal pass transactions
    ⟨journal.sequence, journal.start, table, fs⟩
  generalize applyTransactions journal pass transactions
    ⟨journal.sequence, journal.start, table, fs⟩ = reached at hreaches hid ⊢
  have hdone : passStep journal pass (journal.sequence + ofNat 32 transactions.length)
      (reached.moveTo (journal.behind (transactions.flatMap blocks).length)) =
      .done (reached.moveTo (journal.behind (transactions.flatMap blocks).length)) := by
    refine if_pos ?_
    rw [Bool.and_eq_true, bne_iff_ne]
    refine ⟨hpass, ?_⟩
    change tidGeq reached.nextCommitId _ = true
    rw [hid, tidGeq_id journal.sequence (by omega) (by omega)]
    exact decide_eq_true le_rfl
  have hloop := hreaches.passLoop hdone (show steps < fuel by omega)
  refine ⟨_, (congrArg (Option.map _) hloop).trans (congrArg some (Prod.ext ?_ rfl))⟩
  simp [Progress.moveTo, hid]

end

/-- Recovery succeeds, and leaves in every block the last copy of it that is not
revoked, or what was there. -/
theorem journalRecover_replays (hlogged : Logged journal transactions torn stop)
    (hcount : transactions.length ≤ 2 ^ 31) {fuel : ℕ}
    (hfuel : journal.last - journal.first < fuel) (fs : BitVec 32 → Block) :
    ∃ recovered, journalRecover journal fuel fs = some (true, recovered) ∧
      ∀ blocknr, recovered blocknr =
        (liveCopies journal.blocksize blocknr transactions).getLast?.getD (fs blocknr) := by
  obtain ⟨scanned, hscan, hid, htable, hfs⟩ := hlogged.scan 0 hfuel (fun _ => []) fs
  obtain ⟨revokePlace, hrevoke⟩ := hlogged.pass hcount (show Pass.revoke ≠ .scan by decide) hfuel
    (fun _ => []) fs
  have hcollected := @collected_applyTransactions journal [] transactions
    ⟨journal.sequence, journal.start, fun _ => [], fs⟩ (fun _ index hrevokes => by
      cases hrevokes.lt_length) (BitVec.add_zero _).symm hcount
  have hrevokeFs := @applyTransactions_revoke_fs journal transactions
    ⟨journal.sequence, journal.start, fun _ => [], fs⟩
  generalize applyTransactions journal .revoke transactions
    ⟨journal.sequence, journal.start, fun _ => [], fs⟩ = revoked
    at hrevoke hcollected hrevokeFs
  obtain ⟨replayPlace, hreplay⟩ := hlogged.pass hcount (show Pass.replay ≠ .scan by decide) hfuel
    revoked.table fs
  have hblocks := fun blocknr => @applyTransactions_replay journal [] transactions
    ⟨journal.sequence, journal.start, revoked.table, fs⟩ hcollected (BitVec.add_zero _).symm
    hcount blocknr
  refine ⟨_, ?_, hblocks⟩
  have hrevokedFs : (revoked.moveTo revokePlace).fs = fs := hrevokeFs
  have hrevokedTable : (revoked.moveTo revokePlace).table = revoked.table := rfl
  unfold journalRecover
  rw [if_neg hlogged.start_ne_zero, hscan]
  simp only [Option.bind_eq_bind, Option.bind_some, hid, htable, hfs, hrevoke, hrevokedFs,
    hrevokedTable, hreplay, Bool.not_true, Bool.false_eq_true, if_false]
  rfl

end Recovery

/-! ### A chain of commits

One transaction that logs copies of blocks 0 and 5 and revokes block 5, some that are empty, and a
torn one that revokes block 0. -/

def chainDescriptor : Block :=
  headed jfsDescriptorBlock 0 [0, jfsFlagSameUuid, 5, jfsFlagLastTag ||| jfsFlagSameUuid]

def chainData : Block := fun _ => 7

def chainRevoke (sequence blocknr : BitVec 32) : Block :=
  headed jfsRevokeBlock sequence [20, blocknr]

def chainCommit (index : ℕ) : Block := headed jfsCommitBlock (ofNat 32 index) []

variable (count : ℕ)

def chainTorn : Block := chainRevoke (ofNat 32 (count + 1)) 0

def chain : Journal :=
  { blocksize := 1024
    first := 1
    last := count + 8
    start := 1
    sequence := 0
    log := fun block =>
      if block = 1 then chainDescriptor
      else if block < 4 then chainData
      else if block = 4 then chainRevoke 0 5
      else if block < count + 6 then chainCommit (block - 5)
      else if block = count + 6 then chainTorn count
      else fun _ => 0
    hash := fun _ => 0 }

def chainFirst : Transaction :=
  ⟨[.descriptor chainDescriptor [chainData, chainData], .revoke (chainRevoke 0 5)], chainCommit 0⟩

def chainTransactions : List Transaction :=
  chainFirst :: (List.range count).map fun index => ⟨[], chainCommit (index + 1)⟩

theorem chainTransactions_blocks :
    (chainTransactions count).flatMap blocks = chainDescriptor :: chainData :: chainData ::
      chainRevoke 0 5 :: (range (count + 1)).map chainCommit := by
  rw [range_succ_eq_map, map_cons, map_map]
  simp only [chainTransactions, flatMap_cons, flatMap_map]
  simp [blocks, Item.blocks, map_eq_flatMap, comp_def, chainFirst]

theorem chain_reads : Reads (chain count) 0 ((chainTransactions count).flatMap blocks ++
      ([.revoke (chainTorn count)].flatMap Item.blocks ++ [fun _ => 0])) := by
  intro index block hblock
  have hbound := (List.getElem?_eq_some_iff.mp hblock).1
  rw [chainTransactions_blocks] at hblock hbound
  simp only [flatMap_singleton, Item.blocks, length_append, length_cons, length_map, length_range,
    length_nil] at hbound
  have hplace : (chain count).behind (0 + index) = index + 1 := by
    change 1 + (1 - 1 + (0 + index)) % (count + 8 - 1) = index + 1
    rw [Nat.mod_eq_of_lt (by omega)]
    omega
  rw [hplace]
  by_cases hfirst : index < 4
  · interval_cases index <;> exact Option.some.inj hblock
  obtain ⟨index, rfl⟩ := Nat.exists_eq_add_of_le' (not_lt.mp hfirst)
  have hlog : (chain count).log (index + 4 + 1) =
      if index < count + 1 then chainCommit index
      else if index = count + 1 then chainTorn count else fun _ => 0 := by
    have hindex : index + 4 + 1 - 5 = index := by omega
    simp only [chain]
    rw [if_neg (by omega), if_neg (by omega), if_neg (by omega), hindex]
    exact if_congr (by omega) rfl (if_congr (by omega) rfl rfl)
  rw [hlog]
  split_ifs with hcommit htorn
  · rw [getElem?_append_left (by simpa using hcommit)] at hblock
    simpa [hcommit] using hblock
  · subst htorn
    simpa [Item.blocks] using hblock
  · obtain rfl : index = count + 2 := by omega
    simpa [Item.blocks] using hblock

theorem chain_logged :
    Logged (chain count) (chainTransactions count) [.revoke (chainTorn count)] (fun _ => 0) := by
  constructor
  · exact one_ne_zero
  · exact le_rfl
  · change 1 < count + 8
    omega
  · exact chain_reads count
  · rw [chainTransactions_blocks]
    simp only [flatMap_singleton, Item.blocks, length_append, length_cons, length_map,
      length_range, length_nil]
    change _ ≤ count + 8 - 1
    omega
  · intro index transaction hfound
    cases index with
    | zero =>
      obtain rfl := Option.some.inj hfound
      refine ⟨forall_mem_cons.mpr ⟨⟨⟨rfl, rfl, rfl⟩, rfl⟩, ?_⟩, rfl, rfl, rfl⟩
      exact forall_mem_singleton.mpr ⟨rfl, rfl, rfl⟩
    | succ index =>
      rw [chainTransactions, getElem?_cons_succ, getElem?_map, Option.map_eq_some_iff] at hfound
      obtain ⟨found, hrange, rfl⟩ := hfound
      obtain ⟨hlt, rfl⟩ := List.getElem?_eq_some_iff.mp hrange
      rw [List.getElem_range]
      refine ⟨by simp, rfl, rfl, ?_⟩
      exact (zero_add _).symm
  · intro item hmem
    obtain rfl := mem_singleton.mp hmem
    refine ⟨rfl, rfl, ?_⟩
    rw [chainTransactions, length_cons, length_map, length_range]
    exact (zero_add _).symm
  · rintro kind - ⟨hmagic, -⟩
    exact absurd hmagic (by decide)

/-- With more than 2^31 transactions the end of the log seems to lie behind: the
second pass stops at once, and nothing is replayed. -/
theorem chain_fails {count : ℕ} (hlow : 2 ^ 31 ≤ count) (hhigh : count + 1 < 2 ^ 32)
    (hfuel : count + 7 < fuel) (fs : BitVec 32 → Block) :
    journalRecover (chain count) fuel fs = some (false, fs) := by
  obtain ⟨scanned, hscan, hid, htable, hfs⟩ :=
    (chain_logged count).scan 0 (show count + 8 - 1 < fuel by omega) (fun _ => []) fs
  have hend : scanned.nextCommitId = ofNat 32 (count + 1) := by
    rw [hid, chainTransactions, length_cons, length_map, length_range]
    exact zero_add _
  have hpast : tidGeq 0 (ofNat 32 (count + 1)) = true := by
    rw [tidGeq, zero_sub, decide_eq_true_iff, BitVec.toInt_neg, BitVec.toInt_ofNat', Int.bmod_def,
      Int.bmod_def]
    split_ifs <;> omega
  have hne : (0 : BitVec 32) ≠ ofNat 32 (count + 1) := by
    intro heq
    have hzero := congrArg BitVec.toNat heq
    rw [BitVec.toNat_ofNat] at hzero
    change 0 = _ at hzero
    omega
  have hrevoke : doOnePass (chain count) .revoke (ofNat 32 (count + 1)) fuel (fun _ => [])
      fs = some (false, ⟨0, 1, fun _ => [], fs⟩) := by
    obtain ⟨rest, rfl⟩ := Nat.exists_eq_add_of_lt hfuel
    have hstep : passStep (chain count) .revoke (ofNat 32 (count + 1))
        ⟨0, 1, fun _ => [], fs⟩ = .done ⟨0, 1, fun _ => [], fs⟩ :=
      if_pos (Bool.and_eq_true_iff.mpr ⟨by decide, hpast⟩)
    change (passLoop _ _ _ (count + 7 + rest + 1) ⟨0, 1, fun _ => [], fs⟩).map _ = _
    rw [passLoop, hstep]
    exact congrArg some (Prod.ext (beq_eq_false_iff_ne.mpr hne) rfl)
  unfold journalRecover
  rw [if_neg (chain_logged count).start_ne_zero, hscan]
  simp only [Option.bind_eq_bind, Option.bind_some, hend, htable, hfs, hrevoke, Bool.not_true,
    Bool.not_false, Bool.false_eq_true, if_false, if_true]

theorem chain_live (blocknr : BitVec 32) : liveCopies 1024 blocknr (chainTransactions count) =
      if blocknr ∈ chainFirst.revokes then [] else copiesOf blocknr (chainFirst.copies 1024) := by
  have hrest : ∀ indices : List ℕ,
      liveCopies 1024 blocknr (indices.map fun index => ⟨[], chainCommit (index + 1)⟩) = [] := by
    intro indices
    induction indices with
    | nil => rfl
    | cons index indices ih =>
      rw [map_cons, liveCopies, ih]
      split_ifs <;> rfl
  have hnone : ((range count).map fun index => Transaction.mk [] (chainCommit (index + 1))).any
      (fun later => blocknr ∈ later.revokes) = false := by
    simp [revokes]
  rw [chainTransactions, liveCopies, hrest, append_nil, any_cons, hnone, Bool.or_false]
  simp only [decide_eq_true_eq]

/-- Recovery of a log with more than 2^31 transactions fails and loses the copy
that the first of them has logged. -/
theorem journalRecover_too_many :
    Logged (chain (2 ^ 31)) (chainTransactions (2 ^ 31)) [.revoke (chainTorn (2 ^ 31))]
        (fun _ => 0) ∧
      ∀ fuel, 2 ^ 31 + 7 < fuel → ∃ recovered,
        journalRecover (chain (2 ^ 31)) fuel (fun _ _ => 0) = some (false, recovered) ∧
        recovered 0 ≠
          (liveCopies 1024 0 (chainTransactions (2 ^ 31))).getLast?.getD (fun _ => 0) := by
  refine ⟨chain_logged _, fun fuel hfuel => ⟨_, chain_fails le_rfl (by norm_num) hfuel _, ?_⟩⟩
  rw [chain_live]
  intro heq
  exact absurd (congrFun heq 0) (by decide)

/-- Block 0 is written back, in spite of the torn revoke block; block 5 is not. -/
theorem journalRecover_replays_chain :
    ∃ recovered, journalRecover (chain 3) 12 (fun _ _ => 0) = some (true, recovered) ∧
      recovered 0 = chainData ∧ recovered 5 = fun _ => 0 := by
  obtain ⟨recovered, hrecover, hblocks⟩ :=
    @journalRecover_replays (chain 3) (chainTransactions 3) [.revoke (chainTorn 3)] (fun _ => 0)
      (chain_logged 3) (by decide) 12 (by decide) (fun _ _ => 0)
  refine ⟨recovered, hrecover, (hblocks 0).trans ?_, (hblocks 5).trans ?_⟩ <;>
    rw [show (chain 3).blocksize = 1024 from rfl, chain_live] <;> rfl

end KernelM5040.Jbd
