import Mathlib

/-!
# Journal recovery: fs/jbd/recovery.c and fs/jbd/revoke.c

`journal_recover` walks the log three times: to find its end, to collect the
revoke records and to replay the blocks that are not revoked.  A block is given
by its big-endian words.  Reading fails behind the end of the log only, no
allocation fails, and no tag names a block of the log.
-/

namespace KernelM5040.Jbd

open Function

/-- The 32-bit words of a block, as `be32_to_cpu` reads them. -/
abbrev Block := ℕ → BitVec 32

/-- The word at a byte offset. -/
def Block.be32 (block : Block) (offset : ℕ) : BitVec 32 := block (offset / 4)

def jfsMagicNumber : BitVec 32 := 0xc03b3998

def jfsDescriptorBlock : BitVec 32 := 1
def jfsCommitBlock : BitVec 32 := 2
def jfsRevokeBlock : BitVec 32 := 5

def jfsFlagEscape : BitVec 32 := 1
def jfsFlagSameUuid : BitVec 32 := 2
def jfsFlagLastTag : BitVec 32 := 8

def tidGt (x y : BitVec 32) : Bool := decide (0 < (x - y).toInt)

def tidGeq (x y : BitVec 32) : Bool := decide (0 ≤ (x - y).toInt)

/-- The journal and its superblock; `last` is `j_maxlen`, too, and `hash` the hash of the revoke
table. -/
structure Journal where
  blocksize : ℕ
  first : ℕ
  last : ℕ
  start : ℕ
  sequence : BitVec 32
  log : ℕ → Block
  hash : BitVec 32 → ℕ

variable (journal : Journal)

/-- The macro `wrap`. -/
def Journal.wrap (block : ℕ) : ℕ :=
  if journal.last ≤ block then block - (journal.last - journal.first) else block

/-- `struct jbd_revoke_record_s`. -/
structure RevokeRecord where
  blocknr : BitVec 32
  sequence : BitVec 32
  deriving DecidableEq, Repr

/-- The lists of the hash table. -/
abbrev RevokeTable := ℕ → List RevokeRecord

variable (table : RevokeTable) (blocknr sequence : BitVec 32)

def findRevokeRecord : Option RevokeRecord :=
  (table (journal.hash blocknr)).find? fun record => record.blocknr == blocknr

/-- The update of the record that `find_revoke_record` has found. -/
def updateRecord : List RevokeRecord → List RevokeRecord
  | [] => []
  | record :: records =>
    if record.blocknr == blocknr then { record with sequence := sequence } :: records
    else record :: updateRecord records

def journalSetRevoke : RevokeTable :=
  let bucket := journal.hash blocknr
  match findRevokeRecord journal table blocknr with
  | some record =>
    if tidGt sequence record.sequence then
      update table bucket (updateRecord blocknr sequence (table bucket))
    else table
  | none => update table bucket (⟨blocknr, sequence⟩ :: table bucket)

def journalTestRevoke : Bool :=
  match findRevokeRecord journal table blocknr with
  | none => false
  | some record => !tidGt sequence record.sequence

inductive Pass
  | scan
  | revoke
  | replay
  deriving DecidableEq, Repr

/-- What a pass carries along, with the blocks of the filesystem. -/
structure Progress where
  nextCommitId : BitVec 32
  nextLogBlock : ℕ
  table : RevokeTable
  fs : BitVec 32 → Block

/-- The offset of the tag after one with the given flags. -/
def nextTag (offset : ℕ) (flags : BitVec 32) : ℕ :=
  offset + 8 + if flags &&& jfsFlagSameUuid = 0 then 16 else 0

/-- The loop of `count_tags` from an offset on; a block has no room for more
tags than its size. -/
def countTagsFrom (size : ℕ) (block : Block) : ℕ → ℕ → ℕ
  | 0, _ => 0
  | fuel + 1, offset =>
    if offset + 8 ≤ size then
      let flags := block.be32 (offset + 4)
      if flags &&& jfsFlagLastTag ≠ 0 then 1
      else 1 + countTagsFrom size block fuel (nextTag offset flags)
    else 0

def countTags (block : Block) (size : ℕ) : ℕ := countTagsFrom size block size 12

/-- The data that goes back to the filesystem. -/
def unescape (flags : BitVec 32) (data : Block) : Block :=
  if flags &&& jfsFlagEscape ≠ 0 then update data 0 jfsMagicNumber else data

/-- The loop over the tags of a descriptor block in pass REPLAY. -/
def replayTags (journal : Journal) (block : Block) : ℕ → ℕ → Progress → Progress
  | 0, _, progress => progress
  | fuel + 1, offset, progress =>
    if offset + 8 ≤ journal.blocksize then
      let flags := block.be32 (offset + 4)
      let ioBlock := progress.nextLogBlock
      let blocknr := block.be32 offset
      let fs :=
        if journalTestRevoke journal progress.table blocknr progress.nextCommitId then
          progress.fs
        else update progress.fs blocknr (unescape flags (journal.log ioBlock))
      let progress := { progress with nextLogBlock := journal.wrap (ioBlock + 1), fs := fs }
      if flags &&& jfsFlagLastTag ≠ 0 then progress
      else replayTags journal block fuel (nextTag offset flags) progress
    else progress

/-- The loop of `scan_revoke_records` from an offset on. -/
def scanRevokeFrom (journal : Journal) (block : Block) (sequence : BitVec 32) :
    ℕ → ℕ → RevokeTable → RevokeTable
  | 0, _, table => table
  | fuel + 1, offset, table =>
    if (offset : ℤ) < (block.be32 12).toInt then
      scanRevokeFrom journal block sequence fuel (offset + 4)
        (journalSetRevoke journal table (block.be32 offset) sequence)
    else table

def scanRevokeRecords (block : Block) (sequence : BitVec 32) (table : RevokeTable) : RevokeTable :=
  scanRevokeFrom journal block sequence (block.be32 12).toInt.toNat 16 table

/-- How an iteration of the loop ends. -/
inductive Step
  | next (progress : Progress)
  | done (progress : Progress)
  | failed (progress : Progress)

/-- One iteration of the loop of `do_one_pass`. -/
def passStep (pass : Pass) (endTransaction : BitVec 32) (progress : Progress) : Step :=
  if pass != .scan && tidGeq progress.nextCommitId endTransaction then .done progress
  -- the check of `jread`
  else if journal.last ≤ progress.nextLogBlock then .failed progress
  else
    let block := journal.log progress.nextLogBlock
    let progress :=
      { progress with nextLogBlock := journal.wrap (progress.nextLogBlock + 1) }
    if block.be32 0 ≠ jfsMagicNumber then .done progress
    else if block.be32 8 ≠ progress.nextCommitId then .done progress
    else if block.be32 4 = jfsDescriptorBlock then
      if pass = .replay then .next (replayTags journal block journal.blocksize 12 progress)
      else
        .next
          { progress with
            nextLogBlock :=
              journal.wrap (progress.nextLogBlock + countTags block journal.blocksize) }
    else if block.be32 4 = jfsCommitBlock then
      .next { progress with nextCommitId := progress.nextCommitId + 1 }
    else if block.be32 4 = jfsRevokeBlock then
      if pass = .revoke then
        .next
          { progress with
            table := scanRevokeRecords journal block progress.nextCommitId progress.table }
      else .next progress
    else .done progress

/-- The loop of `do_one_pass`, and whether it ends without an error; `none` if it has not come to an
end yet. -/
def passLoop (journal : Journal) (pass : Pass) (endTransaction : BitVec 32) :
    ℕ → Progress → Option (Bool × Progress)
  | 0, _ => none
  | fuel + 1, progress =>
    match passStep journal pass endTransaction progress with
    | .done progress => some (true, progress)
    | .failed progress => some (false, progress)
    | .next progress => passLoop journal pass endTransaction fuel progress

/-- The state in which a pass starts. -/
def Journal.head (fs : BitVec 32 → Block) : Progress :=
  ⟨journal.sequence, journal.start, table, fs⟩

/-- A pass over the log, which is to end where the first one has. -/
def doOnePass (pass : Pass) (endTransaction : BitVec 32) (fuel : ℕ) (table : RevokeTable)
    (fs : BitVec 32 → Block) : Option (Bool × Progress) :=
  (passLoop journal pass endTransaction fuel (journal.head table fs)).map fun result =>
    (result.1 && (pass == .scan || result.2.nextCommitId == endTransaction), result.2)

/-- `journal_recover`: whether it succeeded, and the filesystem it leaves. -/
def journalRecover (fuel : ℕ) (fs : BitVec 32 → Block) : Option (Bool × (BitVec 32 → Block)) :=
  if journal.start = 0 then some (true, fs)
  else do
    let scan ← doOnePass journal .scan 0 fuel (fun _ => []) fs
    if !scan.1 then some (false, scan.2.fs)
    else
      let endTransaction := scan.2.nextCommitId
      let revoke ← doOnePass journal .revoke endTransaction fuel scan.2.table scan.2.fs
      if !revoke.1 then some (false, revoke.2.fs)
      else
        let replay ← doOnePass journal .replay endTransaction fuel revoke.2.table revoke.2.fs
        some (replay.1, replay.2.fs)

end KernelM5040.Jbd
