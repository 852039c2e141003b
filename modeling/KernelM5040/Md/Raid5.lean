import Mathlib

/-!
# Block mapping of RAID-4/5/6 arrays: drivers/md/raid5.c

`raid5_compute_sector` maps a logical sector to a data disk and a sector on
it, `compute_blocknr` goes back.  The integer types of the source matter: disk
indexes are 32-bit unsigned, the stripe is a signed 64-bit number on the way
out and an unsigned one on the way back, and the chunk number is a signed
32-bit number on the way back.
-/

namespace KernelM5040.Raid5

inductive Level
  | raid4
  | raid5
  | raid6
  deriving DecidableEq, Repr

inductive Algorithm
  | leftAsymmetric
  | rightAsymmetric
  | leftSymmetric
  | rightSymmetric
  deriving DecidableEq, Repr

/-- `conf->max_degraded`: the disks of a stripe that hold no data. -/
def Level.maxDegraded : Level → ℕ
  | raid4 => 1
  | raid5 => 1
  | raid6 => 2

/-- The fields of `raid5_conf_t` that take part, with at least one data disk
and at least one sector in a chunk. -/
structure Conf where
  level : Level
  algorithm : Algorithm
  raidDisks : ℕ
  chunkSize : ℕ
  hasData : level.maxDegraded < raidDisks
  disksInt : raidDisks < 2 ^ 31
  chunkInt : chunkSize < 2 ^ 31
  hasSector : 512 ≤ chunkSize

namespace Conf

variable (conf : Conf)

def dataDisks : ℕ := conf.raidDisks - conf.level.maxDegraded

def sectorsPerChunk : ℕ := conf.chunkSize >>> 9

end Conf

/-- Conversion to `unsigned int`. -/
def toUnsigned (value : ℤ) : ℕ := (value % 2 ^ 32).toNat

/-- Conversion to `int`. -/
def toInt (value : ℤ) : ℤ := Int.bmod value (2 ^ 32)

/-- Conversion to `long`. -/
def toLong (value : ℤ) : ℤ := Int.bmod value (2 ^ 64)

/-- Conversion to `sector_t`. -/
def toSector (value : ℤ) : ℕ := (value % 2 ^ 64).toNat

/-- What `raid5_compute_sector` hands back. -/
structure Mapping where
  sector : ℕ
  ddIdx : ℕ
  pdIdx : ℕ
  deriving DecidableEq, Repr

/-- `(*dd_idx)++` or `+= 2` once the parity disk is passed over. -/
def skip (count : ℕ) (ddIdx pdIdx : ℕ) : ℕ :=
  if pdIdx ≤ ddIdx then toUnsigned (ddIdx + count) else ddIdx

/-- The asymmetric layouts of level 6: the Q disk may have wrapped around. -/
def skipTwo (raidDisks ddIdx pdIdx : ℕ) : ℕ :=
  if pdIdx = raidDisks - 1 then toUnsigned (ddIdx + 1) else skip 2 ddIdx pdIdx

/-- The symmetric layouts: data starts behind the parity disks. -/
def rotate (count raidDisks ddIdx pdIdx : ℕ) : ℕ :=
  toUnsigned (pdIdx + count + ddIdx) % raidDisks

/-- The parity and the data disk of a stripe, from the index within it. -/
def Conf.computeDisks (conf : Conf) (stripe : ℤ) (ddIdx : ℕ) : ℕ × ℕ :=
  let raidDisks := conf.raidDisks
  let dataDisks := conf.dataDisks
  match conf.level, conf.algorithm with
  | .raid4, _ => (dataDisks, ddIdx)
  | .raid5, .leftAsymmetric =>
    let pdIdx := toUnsigned (dataDisks - stripe.tmod raidDisks)
    (pdIdx, skip 1 ddIdx pdIdx)
  | .raid5, .rightAsymmetric =>
    let pdIdx := toUnsigned (stripe.tmod raidDisks)
    (pdIdx, skip 1 ddIdx pdIdx)
  | .raid5, .leftSymmetric =>
    let pdIdx := toUnsigned (dataDisks - stripe.tmod raidDisks)
    (pdIdx, rotate 1 raidDisks ddIdx pdIdx)
  | .raid5, .rightSymmetric =>
    let pdIdx := toUnsigned (stripe.tmod raidDisks)
    (pdIdx, rotate 1 raidDisks ddIdx pdIdx)
  | .raid6, .leftAsymmetric =>
    let pdIdx := toUnsigned (raidDisks - 1 - stripe.tmod raidDisks)
    (pdIdx, skipTwo raidDisks ddIdx pdIdx)
  | .raid6, .rightAsymmetric =>
    let pdIdx := toUnsigned (stripe.tmod raidDisks)
    (pdIdx, skipTwo raidDisks ddIdx pdIdx)
  | .raid6, .leftSymmetric =>
    let pdIdx := toUnsigned (raidDisks - 1 - stripe.tmod raidDisks)
    (pdIdx, rotate 2 raidDisks ddIdx pdIdx)
  | .raid6, .rightSymmetric =>
    let pdIdx := toUnsigned (stripe.tmod raidDisks)
    (pdIdx, rotate 2 raidDisks ddIdx pdIdx)

def Conf.raid5ComputeSector (conf : Conf) (rSector : ℕ) : Mapping :=
  let chunkOffset := rSector % conf.sectorsPerChunk
  let chunkNumber := rSector / conf.sectorsPerChunk
  let stripe := toLong (chunkNumber / conf.dataDisks : ℕ)
  match conf.computeDisks stripe (chunkNumber % conf.dataDisks) with
  | (pdIdx, ddIdx) =>
    { sector := toSector (stripe * conf.sectorsPerChunk + chunkOffset)
      ddIdx := ddIdx
      pdIdx := pdIdx }

def raid6NextDisk (disk raidDisks : ℤ) : ℤ :=
  if disk + 1 < raidDisks then disk + 1 else 0

/-- The fields of `struct stripe_head` that `compute_blocknr` reads. -/
structure StripeHead where
  sector : ℕ
  pdIdx : ℤ

/-- The index within the stripe of the data disk `i`, or `none` for a parity
disk. -/
def Conf.dataIndex (conf : Conf) (pdIdx i : ℤ) : Option ℤ :=
  if i = pdIdx then none
  else
    match conf.level, conf.algorithm with
    | .raid4, _ => some i
    | .raid5, .leftAsymmetric | .raid5, .rightAsymmetric =>
      some (if pdIdx < i then i - 1 else i)
    | .raid5, .leftSymmetric | .raid5, .rightSymmetric =>
      some ((if i < pdIdx then i + conf.raidDisks else i) - (pdIdx + 1))
    | .raid6, .leftAsymmetric | .raid6, .rightAsymmetric =>
      if i = raid6NextDisk pdIdx conf.raidDisks then none
      else some (if pdIdx = conf.raidDisks - 1 then i - 1 else if pdIdx < i then i - 2 else i)
    | .raid6, .leftSymmetric | .raid6, .rightSymmetric =>
      if i = raid6NextDisk pdIdx conf.raidDisks then none
      else some (if pdIdx = conf.raidDisks - 1 then i - 1
        else (if i < pdIdx then i + conf.raidDisks else i) - (pdIdx + 2))

def Conf.computeBlocknr (conf : Conf) (sh : StripeHead) (i : ℤ) : ℕ :=
  let chunkOffset := sh.sector % conf.sectorsPerChunk
  let stripe := sh.sector / conf.sectorsPerChunk
  match conf.dataIndex sh.pdIdx i with
  | none => 0
  | some index =>
    let chunkNumber := toInt (stripe * conf.dataDisks + index)
    let rSector := toSector (chunkNumber * conf.sectorsPerChunk + chunkOffset)
    let check := conf.raid5ComputeSector rSector
    if check.sector ≠ sh.sector ∨ toInt check.ddIdx ≠ i ∨ toInt check.pdIdx ≠ sh.pdIdx then 0
    else rSector

end KernelM5040.Raid5
