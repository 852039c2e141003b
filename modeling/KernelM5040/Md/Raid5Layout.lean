import KernelM5040.Md.Raid5

/-!
# Where the layouts of raid5.c put a sector

A logical sector splits into an offset within its chunk, an index within the
stripe and the stripe; the sector on the disk is built from the stripe and the
offset, the disk from the index and the residue of the stripe.  The residue is
taken of a signed number, so a stripe of `2 ^ 63` or more has a negative one:
that needs chunks of one sector and a single data disk.
-/

namespace KernelM5040.Raid5

open Conf Nat

section Conversions

variable {value : ℤ}

theorem toInt_of_lt (hge : -2 ^ 31 ≤ value) (hlt : value < 2 ^ 31) : toInt value = value := by
  rw [toInt, Int.bmod_def]
  split <;> omega

theorem toLong_of_lt (hge : -2 ^ 63 ≤ value) (hlt : value < 2 ^ 63) : toLong value = value := by
  rw [toLong, Int.bmod_def]
  split <;> omega

theorem toLong_of_ge (hge : 2 ^ 63 ≤ value) (hlt : value < 2 ^ 64) :
    toLong value = value - 2 ^ 64 := by
  rw [toLong, Int.bmod_def]
  split <;> omega

theorem toSector_natCast {value : ℕ} (hlt : value < 2 ^ 64) : toSector value = value := by
  unfold toSector
  omega

theorem toSector_eq_of_emod {other : ℤ} (h : value % 2 ^ 64 = other % 2 ^ 64) :
    toSector value = toSector other := by
  unfold toSector
  rw [h]

/-- Multiplying after a conversion to `long` is multiplying modulo the word. -/
theorem toSector_toLong_mul (value factor offset : ℤ) :
    toSector (toLong value * factor + offset) = toSector (value * factor + offset) := by
  apply toSector_eq_of_emod
  have hcast : toLong value % 2 ^ 64 = value % 2 ^ 64 := by
    rw [toLong, Int.bmod_def]
    split <;> omega
  apply Int.ModEq.add_right
  exact Int.ModEq.mul_right factor hcast

end Conversions

namespace Conf

variable (conf : Conf) (rSector : ℕ)

theorem dataDisks_pos : 0 < conf.dataDisks := by
  have hdata := conf.hasData
  unfold dataDisks
  omega

theorem raidDisks_eq : conf.raidDisks = conf.dataDisks + conf.level.maxDegraded := by
  have hdata := conf.hasData
  unfold dataDisks
  omega

theorem sectorsPerChunk_pos : 0 < conf.sectorsPerChunk := by
  have hsector := conf.hasSector
  unfold sectorsPerChunk
  rw [shiftRight_eq_div_pow]
  omega

theorem raidDisks_pos : 0 < conf.raidDisks :=
  lt_of_le_of_lt (Nat.zero_le _) conf.hasData

/-- The stripe a logical sector falls into. -/
def stripeOf : ℕ := rSector / conf.sectorsPerChunk / conf.dataDisks

/-- Its index among the data blocks of that stripe. -/
def indexOf : ℕ := rSector / conf.sectorsPerChunk % conf.dataDisks

theorem indexOf_lt : conf.indexOf rSector < conf.dataDisks :=
  mod_lt _ conf.dataDisks_pos

theorem chunk_eq : conf.stripeOf rSector * conf.dataDisks + conf.indexOf rSector =
      rSector / conf.sectorsPerChunk :=
  div_add_mod' _ _

theorem stripeOf_le : conf.stripeOf rSector ≤ rSector / conf.sectorsPerChunk :=
  Nat.div_le_self _ _

/-- The sector on the disk, as a number. -/
def diskSector : ℕ :=
  conf.stripeOf rSector * conf.sectorsPerChunk + rSector % conf.sectorsPerChunk

theorem diskSector_le : conf.diskSector rSector ≤ rSector := by
  calc conf.diskSector rSector
      ≤ rSector / conf.sectorsPerChunk * conf.sectorsPerChunk + rSector % conf.sectorsPerChunk :=
        Nat.add_le_add_right (Nat.mul_le_mul_right _ (conf.stripeOf_le rSector)) _
    _ = rSector := div_add_mod' _ _

theorem diskSector_mod :
    conf.diskSector rSector % conf.sectorsPerChunk = rSector % conf.sectorsPerChunk := by
  unfold diskSector
  rw [mul_comm, mul_add_mod, mod_mod]

theorem diskSector_div :
    conf.diskSector rSector / conf.sectorsPerChunk = conf.stripeOf rSector := by
  have hlt := mod_lt rSector conf.sectorsPerChunk_pos
  unfold diskSector
  rw [mul_comm, mul_add_div conf.sectorsPerChunk_pos, div_eq_of_lt hlt, add_zero]

/-- The disks chosen for a logical sector: parity first. -/
def disksOf : ℕ × ℕ :=
  conf.computeDisks (toLong (conf.stripeOf rSector)) (conf.indexOf rSector)

theorem raid5ComputeSector_eq {rSector : ℕ} (hlt : rSector < 2 ^ 64) :
    conf.raid5ComputeSector rSector =
      { sector := conf.diskSector rSector
        ddIdx := (conf.disksOf rSector).2
        pdIdx := (conf.disksOf rSector).1 } := by
  have hsector : toSector (toLong (conf.stripeOf rSector) * conf.sectorsPerChunk +
      (rSector % conf.sectorsPerChunk : ℕ)) = conf.diskSector rSector := by
    rw [toSector_toLong_mul]
    have hle := conf.diskSector_le rSector
    exact_mod_cast toSector_natCast (lt_of_le_of_lt hle hlt)
  simp only [← hsector]
  rfl

end Conf

/-- What the layouts promise about the two disks they choose for one block. -/
structure Placed (conf : Conf) (disks : ℕ × ℕ) (index : ℕ) : Prop where
  parity : disks.1 < conf.raidDisks
  data : disks.2 < conf.raidDisks
  apart : disks.2 ≠ disks.1
  notQ : conf.level = .raid6 → (disks.2 : ℤ) ≠ raid6NextDisk disks.1 conf.raidDisks
  back : conf.dataIndex disks.1 disks.2 = some (index : ℤ)

theorem mod_of_lt_two_mul {value modulus : ℕ} (hlt : value < 2 * modulus) :
    value % modulus = if value < modulus then value else value - modulus := by
  split
  · exact mod_eq_of_lt ‹_›
  · rw [mod_eq_sub_mod (by omega), mod_eq_of_lt (by omega)]

theorem skip_eq {count ddIdx pdIdx : ℕ} (hlt : ddIdx + count < 2 ^ 32) :
    skip count ddIdx pdIdx = if pdIdx ≤ ddIdx then ddIdx + count else ddIdx := by
  have hcast : toUnsigned ((ddIdx : ℤ) + count) = ddIdx + count := by
    unfold toUnsigned
    omega
  unfold skip
  rw [hcast]

theorem skipTwo_eq {raidDisks ddIdx pdIdx : ℕ} (hlt : ddIdx + 2 < 2 ^ 32) :
    skipTwo raidDisks ddIdx pdIdx =
      if pdIdx = raidDisks - 1 then ddIdx + 1
      else if pdIdx ≤ ddIdx then ddIdx + 2 else ddIdx := by
  have hcast : toUnsigned ((ddIdx : ℤ) + 1) = ddIdx + 1 := by
    unfold toUnsigned
    omega
  unfold skipTwo
  rw [hcast, skip_eq hlt]

theorem rotate_eq {count raidDisks ddIdx pdIdx : ℕ} (hdisks : raidDisks < 2 ^ 31)
    (hlt : pdIdx + count + ddIdx < 2 * raidDisks) :
    rotate count raidDisks ddIdx pdIdx =
      if pdIdx + count + ddIdx < raidDisks then pdIdx + count + ddIdx
      else pdIdx + count + ddIdx - raidDisks := by
  have hcast : toUnsigned ((pdIdx : ℤ) + count + ddIdx) = pdIdx + count + ddIdx := by
    unfold toUnsigned
    omega
  unfold rotate
  rw [hcast, mod_of_lt_two_mul hlt]

/-- The parity disk of the left layouts, counted down from the last disk. -/
theorem toUnsigned_sub {last residue : ℕ} (hle : residue ≤ last) (hlt : last < 2 ^ 31) :
    toUnsigned ((last : ℤ) - (residue : ℤ)) = last - residue := by
  unfold toUnsigned
  omega

theorem toUnsigned_natCast {value : ℕ} (hlt : value < 2 ^ 31) : toUnsigned value = value := by
  unfold toUnsigned
  omega

section Places

variable {conf : Conf} {residue index : ℕ} {pdIdx : ℕ}

theorem placed_raid5 (hlevel : conf.level = .raid5) (hparity : pdIdx < conf.raidDisks)
    (hindex : index < conf.dataDisks) {disk : ℕ}
    (hdisk : disk = if conf.algorithm = .leftAsymmetric ∨ conf.algorithm = .rightAsymmetric then
      skip 1 index pdIdx else rotate 1 conf.raidDisks index pdIdx) :
    Placed conf (pdIdx, disk) index := by
  have hdisks := conf.disksInt
  have hraid := conf.raidDisks_eq
  simp only [hlevel, Level.maxDegraded] at hraid
  rw [skip_eq (by omega), rotate_eq hdisks (by omega)] at hdisk
  have hback : conf.dataIndex pdIdx disk = some (index : ℤ) := by
    cases halgorithm : conf.algorithm <;> simp only [dataIndex, hlevel, halgorithm] <;> grind
  refine ⟨hparity, ?_, ?_, by simp [hlevel], hback⟩ <;> grind

theorem placed_raid6 (hlevel : conf.level = .raid6) (hparity : pdIdx < conf.raidDisks)
    (hindex : index < conf.dataDisks) {disk : ℕ}
    (hdisk : disk = if conf.algorithm = .leftAsymmetric ∨ conf.algorithm = .rightAsymmetric then
      skipTwo conf.raidDisks index pdIdx else rotate 2 conf.raidDisks index pdIdx) :
    Placed conf (pdIdx, disk) index := by
  have hdisks := conf.disksInt
  have hraid := conf.raidDisks_eq
  simp only [hlevel, Level.maxDegraded] at hraid
  rw [skipTwo_eq (by omega), rotate_eq hdisks (by omega)] at hdisk
  have hback : conf.dataIndex pdIdx disk = some (index : ℤ) := by
    cases halgorithm : conf.algorithm <;>
      simp only [dataIndex, hlevel, halgorithm, raid6NextDisk] <;> grind
  refine ⟨hparity, ?_, ?_, fun _ => ?_, hback⟩ <;> simp only [raid6NextDisk] <;> grind

/-- Every layout places a block of a stripe with a nonnegative residue on a
disk of its own, and the way back finds its index. -/
theorem placed_computeDisks {stripe : ℤ} (hresidue : stripe.tmod conf.raidDisks = residue)
    (hlt : residue < conf.raidDisks) (hindex : index < conf.dataDisks) :
    Placed conf (conf.computeDisks stripe index) index := by
  have hdisks := conf.disksInt
  have hraid := conf.raidDisks_eq
  have hright := @toUnsigned_natCast residue (by omega)
  cases hlevel : conf.level with
  | raid4 =>
    simp only [hlevel, Level.maxDegraded] at hraid
    simp only [computeDisks, hlevel]
    refine ⟨by simp; omega, by simp; omega, by simp; omega, by simp [hlevel], ?_⟩
    simp only [dataIndex, hlevel]
    grind
  | raid5 =>
    simp only [hlevel, Level.maxDegraded] at hraid
    have hleft := @toUnsigned_sub conf.dataDisks residue (by omega) (by omega)
    cases halgorithm : conf.algorithm <;>
      simp [computeDisks, hlevel, halgorithm, hresidue, hleft, hright] <;>
      exact placed_raid5 hlevel (by omega) hindex (by simp [halgorithm])
  | raid6 =>
    simp only [hlevel, Level.maxDegraded] at hraid
    have hleft := @toUnsigned_sub (conf.raidDisks - 1) residue (by omega) (by omega)
    rw [cast_sub (by omega), cast_one] at hleft
    cases halgorithm : conf.algorithm <;>
      simp [computeDisks, hlevel, halgorithm, hresidue, hleft, hright] <;>
      exact placed_raid6 hlevel (by omega) hindex (by simp [halgorithm])

end Places

end KernelM5040.Raid5
