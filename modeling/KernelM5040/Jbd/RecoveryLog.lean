import KernelM5040.Jbd.Recovery

/-!
# What the log says

The log as a run of transactions, and what each of them means: the copies it
logs and the blocks it revokes.  All three passes go through it item by item in
the same places; they differ in what they make of an item.
-/

namespace KernelM5040.Jbd

open Nat

/-- The tags of a descriptor block from an offset on: block number and flags. -/
def tagsFrom (size : ℕ) (block : Block) : ℕ → ℕ → List (BitVec 32 × BitVec 32)
  | 0, _ => []
  | fuel + 1, offset =>
    if offset + 8 ≤ size then
      let flags := block.be32 (offset + 4)
      (block.be32 offset, flags) ::
        if flags &&& jfsFlagLastTag ≠ 0 then []
        else tagsFrom size block fuel (nextTag offset flags)
    else []

def tags (block : Block) (size : ℕ) : List (BitVec 32 × BitVec 32) := tagsFrom size block size 12

theorem countTagsFrom_eq (size : ℕ) (block : Block) (fuel offset : ℕ) :
    countTagsFrom size block fuel offset = (tagsFrom size block fuel offset).length := by
  induction fuel generalizing offset with
  | zero => rfl
  | succ fuel ih =>
    simp only [countTagsFrom, tagsFrom]
    split_ifs
    · rfl
    · rw [ih, List.length_cons, add_comm]
    · rfl

/-- The block numbers of a revoke block from an offset on. -/
def recordsFrom (block : Block) : ℕ → ℕ → List (BitVec 32)
  | 0, _ => []
  | fuel + 1, offset =>
    if (offset : ℤ) < (block.be32 12).toInt then
      block.be32 offset :: recordsFrom block fuel (offset + 4)
    else []

def records (block : Block) : List (BitVec 32) :=
  recordsFrom block (block.be32 12).toInt.toNat 16

/-- Records of one transaction, one after the other. -/
def setRevokes (journal : Journal) (sequence : BitVec 32) (blocknrs : List (BitVec 32))
    (table : RevokeTable) : RevokeTable :=
  blocknrs.foldl (fun table blocknr => journalSetRevoke journal table blocknr sequence) table

theorem scanRevokeRecords_eq (journal : Journal) (block : Block) (sequence : BitVec 32)
    (table : RevokeTable) :
    scanRevokeRecords journal block sequence table =
      setRevokes journal sequence (records block) table := by
  have hfrom : ∀ fuel offset table, scanRevokeFrom journal block sequence fuel offset table =
      setRevokes journal sequence (recordsFrom block fuel offset) table := by
    intro fuel
    induction fuel with
    | zero => exact fun _ _ => rfl
    | succ fuel ih =>
      intro offset table
      simp only [scanRevokeFrom, recordsFrom]
      split_ifs
      · rw [ih]
        rfl
      · rfl
  exact hfrom _ _ _

/-- Copies written back, but for those of revoked blocks. -/
def writeCopies (revoked : BitVec 32 → Bool) (copies : List (BitVec 32 × Block))
    (fs : BitVec 32 → Block) : BitVec 32 → Block :=
  copies.foldl
    (fun fs copy => if revoked copy.1 then fs else Function.update fs copy.1 copy.2) fs

/-- A part of a transaction: a descriptor block with the data blocks behind it,
or a revoke block. -/
inductive Item
  | descriptor (block : Block) (data : List Block)
  | revoke (block : Block)

structure Transaction where
  items : List Item
  commit : Block

def HasHeader (block : Block) (kind sequence : BitVec 32) : Prop :=
  block.be32 0 = jfsMagicNumber ∧ block.be32 4 = kind ∧ block.be32 8 = sequence

/-- A block with a header and the words behind it. -/
def headed (kind sequence : BitVec 32) (words : List (BitVec 32)) : Block :=
  fun word => (jfsMagicNumber :: kind :: sequence :: words).getD word 0

namespace Item

/-- The blocks of the log it takes up. -/
def blocks : Item → List Block
  | .descriptor block data => block :: data
  | .revoke block => [block]

def Valid (size : ℕ) (sequence : BitVec 32) : Item → Prop
  | .descriptor block data =>
    HasHeader block jfsDescriptorBlock sequence ∧ data.length = countTags block size
  | .revoke block => HasHeader block jfsRevokeBlock sequence

/-- The logged copies, unescaped. -/
def copies (size : ℕ) : Item → List (BitVec 32 × Block)
  | .descriptor block data =>
    (tags block size).zipWith (fun tag data => (tag.1, unescape tag.2 data)) data
  | .revoke _ => []

/-- The revoked blocks. -/
def revokes : Item → List (BitVec 32)
  | .descriptor _ _ => []
  | .revoke block => records block

end Item

namespace Transaction

def blocks (transaction : Transaction) : List Block :=
  transaction.items.flatMap Item.blocks ++ [transaction.commit]

def Valid (size : ℕ) (sequence : BitVec 32) (transaction : Transaction) : Prop :=
  (∀ item ∈ transaction.items, item.Valid size sequence) ∧
    HasHeader transaction.commit jfsCommitBlock sequence

def copies (size : ℕ) (transaction : Transaction) : List (BitVec 32 × Block) :=
  transaction.items.flatMap (Item.copies size)

def revokes (transaction : Transaction) : List (BitVec 32) :=
  transaction.items.flatMap Item.revokes

end Transaction

/-- The block of the log some blocks behind its head. -/
def Journal.behind (journal : Journal) (count : ℕ) : ℕ :=
  journal.first + (journal.start - journal.first + count) % (journal.last - journal.first)

/-- The blocks that are found in the log from some place on. -/
def Reads (journal : Journal) (count : ℕ) (blocks : List Block) : Prop :=
  ∀ index block, blocks[index]? = some block → journal.log (journal.behind (count + index)) = block

/-- A log of complete transactions with consecutive ids, possibly a torn one,
and a block that does not go on with it. -/
structure Logged (journal : Journal) (transactions : List Transaction) (torn : List Item)
    (stop : Block) : Prop where
  -- a journal that was cleanly unmounted has no log
  start_ne_zero : journal.start ≠ 0
  first_le : journal.first ≤ journal.start
  start_lt : journal.start < journal.last
  reads : Reads journal 0
    (transactions.flatMap Transaction.blocks ++ (torn.flatMap Item.blocks ++ [stop]))
  length : (transactions.flatMap Transaction.blocks ++
    (torn.flatMap Item.blocks ++ [stop])).length ≤ journal.last - journal.first
  complete : ∀ index (transaction : Transaction), transactions[index]? = some transaction →
    transaction.Valid journal.blocksize (journal.sequence + BitVec.ofNat 32 index)
  torn : ∀ item ∈ torn,
    item.Valid journal.blocksize (journal.sequence + BitVec.ofNat 32 transactions.length)
  stop : ∀ kind ∈ [jfsDescriptorBlock, jfsCommitBlock, jfsRevokeBlock],
    ¬ HasHeader stop kind (journal.sequence + BitVec.ofNat 32 transactions.length)

theorem reads_append {journal : Journal} {count : ℕ} {front back : List Block} :
    Reads journal count (front ++ back) ↔
      Reads journal count front ∧ Reads journal (count + front.length) back := by
  constructor
  · intro hreads
    refine ⟨fun index block hblock => ?_, fun index block hblock => ?_⟩
    · refine hreads index block ?_
      rw [List.getElem?_append_left (List.getElem?_eq_some_iff.mp hblock).1]
      exact hblock
    · rw [add_assoc]
      refine hreads (front.length + index) block ?_
      rw [List.getElem?_append_right (Nat.le_add_right _ _), Nat.add_sub_cancel_left]
      exact hblock
  · rintro ⟨hfront, hback⟩ index block hblock
    by_cases hindex : index < front.length
    · rw [List.getElem?_append_left hindex] at hblock
      exact hfront index block hblock
    · rw [List.getElem?_append_right (not_lt.mp hindex)] at hblock
      have hread := hback (index - front.length) block hblock
      rwa [add_assoc, add_sub_of_le (not_lt.mp hindex)] at hread

theorem reads_cons {journal : Journal} {count : ℕ} {block : Block} {blocks : List Block} :
    Reads journal count (block :: blocks) ↔
      journal.log (journal.behind count) = block ∧ Reads journal (count + 1) blocks := by
  have hsplit := @reads_append journal count [block] blocks
  rw [List.singleton_append, List.length_singleton] at hsplit
  rw [hsplit]
  refine and_congr_left fun _ => ?_
  constructor
  · intro hreads
    exact hreads 0 block rfl
  rintro hread index found hfound
  rw [List.getElem?_singleton] at hfound
  split_ifs at hfound with hindex
  subst hindex
  rw [add_zero, hread]
  exact Option.some.inj hfound

section Position

variable {journal : Journal} (hfirst : journal.first ≤ journal.start)
variable (hstart : journal.start < journal.last)

include hfirst hstart

theorem behind_zero : journal.behind 0 = journal.start := by
  unfold Journal.behind
  rw [add_zero, mod_eq_of_lt (by omega)]
  omega

theorem behind_lt (count : ℕ) : journal.behind count < journal.last := by
  have hmod := mod_lt (journal.start - journal.first + count)
    (show journal.last - journal.first > 0 by omega)
  unfold Journal.behind
  omega

/-- One `wrap` is enough to go on by up to the length of the log. -/
theorem wrap_behind (count : ℕ) {blocks : ℕ} (hblocks : blocks ≤ journal.last - journal.first) :
    journal.wrap (journal.behind count + blocks) = journal.behind (count + blocks) := by
  unfold Journal.wrap Journal.behind
  have hlength : 0 < journal.last - journal.first := by omega
  have hmod := mod_lt (journal.start - journal.first + count) hlength
  rw [← add_assoc, ← mod_add_mod (journal.start - journal.first + count)]
  generalize (journal.start - journal.first + count) % (journal.last - journal.first) = place
    at hmod
  by_cases hwraps : place + blocks < journal.last - journal.first
  · rw [mod_eq_of_lt hwraps, if_neg (by omega)]
    omega
  · rw [mod_eq_sub_mod (not_lt.mp hwraps), mod_eq_of_lt (by omega), if_pos (by omega)]
    omega

end Position

end KernelM5040.Jbd
