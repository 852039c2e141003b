import KernelM5040.Md.Raid5Layout

/-!
# The block mapping of raid5.c and its inverse

`raid5_compute_sector` is collision free, and its disks are told apart, unless
the stripe number is negative as a `long`; `compute_blocknr` undoes it for the
chunk numbers that survive its `int chunk_number`.
-/

namespace KernelM5040.Raid5

open Conf Int Option

namespace Conf

variable (conf : Conf)

/-- By how much a stripe misses `2 ^ 64`, modulo the disks: the residue of a
stripe that is negative as a `long`, with the sign turned. -/
def shortfall (rSector : ℕ) : ℕ := (2 ^ 64 - conf.stripeOf rSector) % conf.raidDisks

theorem shortfall_lt (rSector : ℕ) : conf.shortfall rSector < conf.raidDisks :=
  Nat.mod_lt _ conf.raidDisks_pos

variable {conf} {rSector : ℕ}

theorem stripeOf_lt (hlt : rSector < 2 ^ 64) : conf.stripeOf rSector < 2 ^ 64 :=
  lt_of_le_of_lt ((conf.stripeOf_le rSector).trans (Nat.div_le_self _ _)) hlt

theorem tmod_of_small (hsmall : conf.stripeOf rSector < 2 ^ 63) :
    (toLong (conf.stripeOf rSector)).tmod conf.raidDisks =
      (conf.stripeOf rSector % conf.raidDisks : ℕ) := by
  rw [toLong_of_lt (by omega) (by omega)]
  exact (natCast_mod _ _).symm ▸ tmod_eq_emod_of_nonneg (by omega)

theorem placed_of_small (hsmall : conf.stripeOf rSector < 2 ^ 63) :
    Placed conf (conf.disksOf rSector) (conf.indexOf rSector) :=
  placed_computeDisks (tmod_of_small hsmall) (Nat.mod_lt _ conf.raidDisks_pos)
    (conf.indexOf_lt rSector)

section

variable (hlt : rSector < 2 ^ 64) (hlarge : 2 ^ 63 ≤ conf.stripeOf rSector)
include hlt hlarge

theorem tmod_of_large :
    (toLong (conf.stripeOf rSector)).tmod conf.raidDisks = -(conf.shortfall rSector : ℤ) := by
  have hstripe : conf.stripeOf rSector < 2 ^ 64 := stripeOf_lt hlt
  have hneg : toLong (conf.stripeOf rSector) = -((2 ^ 64 - conf.stripeOf rSector : ℕ) : ℤ) := by
    rw [toLong_of_ge (by omega) (by omega)]
    omega
  rw [hneg, neg_tmod, shortfall]
  exact congrArg Neg.neg ((tmod_eq_emod_of_nonneg (by omega)).trans (natCast_mod _ _).symm)

/-- A stripe of `2 ^ 63` or more leaves no room for a second data disk or a
second sector in a chunk. -/
theorem single_of_large : conf.dataDisks = 1 ∧ conf.sectorsPerChunk = 1 := by
  have hle : conf.stripeOf rSector * conf.dataDisks * conf.sectorsPerChunk ≤ rSector :=
    calc conf.stripeOf rSector * conf.dataDisks * conf.sectorsPerChunk
        ≤ rSector / conf.sectorsPerChunk * conf.sectorsPerChunk :=
          Nat.mul_le_mul_right _ (Nat.div_mul_le_self _ _)
      _ ≤ rSector := Nat.div_mul_le_self _ _
  have hdata := conf.dataDisks_pos
  have hchunk := conf.sectorsPerChunk_pos
  constructor
  · by_contra hne
    have htwo : 2 ^ 63 * 2 * 1 ≤ conf.stripeOf rSector * conf.dataDisks * conf.sectorsPerChunk :=
      Nat.mul_le_mul (Nat.mul_le_mul hlarge (by omega)) hchunk
    omega
  · by_contra hne
    have htwo : 2 ^ 63 * 1 * 2 ≤ conf.stripeOf rSector * conf.dataDisks * conf.sectorsPerChunk :=
      Nat.mul_le_mul (Nat.mul_le_mul hlarge hdata) (by omega)
    omega

theorem indexOf_of_large : conf.indexOf rSector = 0 := by
  have hindex := conf.indexOf_lt rSector
  rw [(single_of_large hlt hlarge).1] at hindex
  omega

end

end Conf

/-! ### The forward map -/

/-- Two sectors do not meet, and the first one's data disk is a disk of the
array that holds neither parity. -/
structure Separate (conf : Conf) (rSector other : ℕ) : Prop where
  apart : ((conf.raid5ComputeSector rSector).sector, (conf.raid5ComputeSector rSector).ddIdx) ≠
    ((conf.raid5ComputeSector other).sector, (conf.raid5ComputeSector other).ddIdx)
  data : (conf.raid5ComputeSector rSector).ddIdx < conf.raidDisks
  notParity : (conf.raid5ComputeSector rSector).ddIdx ≠ (conf.raid5ComputeSector rSector).pdIdx
  notQ : conf.level = .raid6 → ((conf.raid5ComputeSector rSector).ddIdx : ℤ) ≠
    raid6NextDisk (toInt (conf.raid5ComputeSector rSector).pdIdx) conf.raidDisks

/-- The stripe is not negative as a `long`, or the layout survives it. -/
def Conf.QSafe (conf : Conf) (rSector : ℕ) : Prop :=
  conf.stripeOf rSector < 2 ^ 63 ∨
    match conf.level, conf.algorithm with
    | .raid6, .leftAsymmetric => conf.shortfall rSector = 0
    | .raid6, .rightAsymmetric => conf.shortfall rSector ≠ 1
    | .raid6, .leftSymmetric => conf.shortfall rSector ≠ 2
    | _, _ => True

/-- The layout's way back finds the index within a stripe that is negative as a
`long`. -/
def Conf.IndexKept (conf : Conf) (rSector : ℕ) : Prop :=
  match conf.level, conf.algorithm with
  | .raid5, .rightAsymmetric => conf.shortfall rSector = 0
  | .raid6, .leftAsymmetric => conf.shortfall rSector = 0
  | .raid6, .rightAsymmetric => conf.shortfall rSector = 0
  | .raid6, .leftSymmetric => conf.shortfall rSector ≠ 2
  | _, _ => True

section Forward

variable {conf : Conf} {rSector other : ℕ}

/-- The disk sector and the data disk determine the logical sector. -/
theorem eq_of_same_place (hlt : rSector < 2 ^ 64) (hother : other < 2 ^ 64)
    (hsector : conf.diskSector rSector = conf.diskSector other)
    (hdata : (conf.disksOf rSector).2 = (conf.disksOf other).2) : rSector = other := by
  have hstripe : conf.stripeOf rSector = conf.stripeOf other := by
    rw [← conf.diskSector_div, hsector, conf.diskSector_div]
  have hoffset : rSector % conf.sectorsPerChunk = other % conf.sectorsPerChunk := by
    rw [← conf.diskSector_mod, hsector, conf.diskSector_mod]
  have hindex : conf.indexOf rSector = conf.indexOf other := by
    rcases lt_or_ge (conf.stripeOf rSector) (2 ^ 63) with hsmall | hlarge
    · -- the parity disk depends on the stripe only, and with it the way back
      have hparity : (conf.disksOf rSector).1 = (conf.disksOf other).1 := by
        unfold disksOf
        rw [hstripe]
        unfold computeDisks
        split <;> rfl
      have hback := (placed_of_small hsmall).back
      rw [hparity, hdata, (placed_of_small (hstripe ▸ hsmall)).back] at hback
      exact_mod_cast (some.inj hback).symm
    · rw [indexOf_of_large hlt hlarge, indexOf_of_large hother (hstripe ▸ hlarge)]
  have hchunk : rSector / conf.sectorsPerChunk = other / conf.sectorsPerChunk := by
    rw [← conf.chunk_eq, hstripe, hindex, conf.chunk_eq]
  rw [← Nat.div_add_mod rSector conf.sectorsPerChunk, hchunk, hoffset, Nat.div_add_mod]

/-- The disks of a stripe that is negative as a `long`, and what the way back makes of the data
disk: no index, the right one, or one that is too small by one or two. -/
theorem disksOf_of_large (hlt : rSector < 2 ^ 64) (hlarge : 2 ^ 63 ≤ conf.stripeOf rSector) :
    conf.raidDisks = 1 + conf.level.maxDegraded ∧
      ((conf.disksOf rSector).2 < conf.raidDisks ∧
        (conf.disksOf rSector).2 ≠ (conf.disksOf rSector).1) ∧
      ((conf.level = .raid6 → ((conf.disksOf rSector).2 : ℤ) ≠
        raid6NextDisk (toInt (conf.disksOf rSector).1) conf.raidDisks) ↔ conf.QSafe rSector) ∧
      conf.dataIndex (toInt (conf.disksOf rSector).1) (conf.disksOf rSector).2 ∈
        [none, some 0, some (-1), some (-2)] ∧
      (conf.dataIndex (toInt (conf.disksOf rSector).1) (conf.disksOf rSector).2 = some (0 : ℤ) ↔
        conf.IndexKept rSector) := by
  have hraid := conf.raidDisks_eq
  rw [(single_of_large hlt hlarge).1] at hraid
  have hresidue := tmod_of_large hlt hlarge
  have hbound := conf.shortfall_lt rSector
  have hnot : ¬ conf.stripeOf rSector < 2 ^ 63 := by omega
  refine ⟨hraid, ?_⟩
  simp only [QSafe, IndexKept, disksOf, indexOf_of_large hlt hlarge, computeDisks, dataIndex,
    hresidue, (single_of_large hlt hlarge).1, hnot, false_or]
  generalize conf.shortfall rSector = shortfall at hbound ⊢
  generalize conf.raidDisks = raidDisks at hraid hbound ⊢
  generalize conf.level = level at hraid ⊢
  generalize conf.algorithm = algorithm
  cases level <;> simp only [Level.maxDegraded] at hraid <;> subst hraid <;> cases algorithm <;>
    interval_cases shortfall <;> decide +kernel

/-- Two different sectors never share a place; the data disk is one of the
array's and not the parity disk, and it is not the Q disk either exactly when
the stripe is not negative as a `long` or the layout survives that. -/
theorem raid5ComputeSector_separate_iff (conf : Conf) (rSector other : ℕ)
    (hlt : rSector < 2 ^ 64) (hother : other < 2 ^ 64) (hne : rSector ≠ other) :
    Separate conf rSector other ↔ conf.QSafe rSector := by
  have hmap := conf.raid5ComputeSector_eq hlt
  have hapart : ((conf.raid5ComputeSector rSector).sector,
      (conf.raid5ComputeSector rSector).ddIdx) ≠
      ((conf.raid5ComputeSector other).sector, (conf.raid5ComputeSector other).ddIdx) := by
    intro hsame
    rw [hmap, conf.raid5ComputeSector_eq hother] at hsame
    exact hne (eq_of_same_place hlt hother (Prod.mk.inj hsame).1 (Prod.mk.inj hsame).2)
  rcases lt_or_ge (conf.stripeOf rSector) (2 ^ 63) with hsmall | hlarge
  · have hplaced := placed_of_small hsmall
    have hparity : toInt (conf.disksOf rSector).1 = (conf.disksOf rSector).1 :=
      toInt_of_lt (by omega) (by have := hplaced.parity; have := conf.disksInt; omega)
    constructor
    · exact fun _ => Or.inl hsmall
    intro _
    refine ⟨hapart, ?_, ?_, ?_⟩ <;> rw [hmap]
    · exact hplaced.data
    · exact hplaced.apart
    · simp only [hparity]
      exact hplaced.notQ
  · obtain ⟨-, ⟨hdata, hparity⟩, hiff, -⟩ := disksOf_of_large hlt hlarge
    rw [← hiff]
    constructor
    · intro hseparate
      have hq := hseparate.notQ
      rw [hmap] at hq
      exact hq
    · intro hq
      refine ⟨hapart, ?_, ?_, ?_⟩ <;> rw [hmap]
      · exact hdata
      · exact hparity
      · exact hq

/-- A level 6 array of three disks and one-sector chunks: the last sector of
all goes to the disk that `raid6_next_disk` names as Q. -/
def smallestRaid6 : Conf :=
  { level := .raid6, algorithm := .leftAsymmetric, raidDisks := 3, chunkSize := 512
    hasData := by decide, disksInt := by decide, chunkInt := by decide, hasSector := by decide }

theorem raid5ComputeSector_last_sector_on_q :
    ¬ (∀ (conf : Conf) (rSector other : ℕ), rSector < 2 ^ 64 → other < 2 ^ 64 →
      rSector ≠ other → Separate conf rSector other) := by
  intro hall
  have hq := (hall smallestRaid6 (2 ^ 64 - 1) 0 (by decide) (by decide) (by decide)).notQ rfl
  revert hq
  decide +kernel

/-- Two different sectors never share a place, and a data disk never holds parity: `run` refuses
level 6 with less than four disks, so no stripe is negative as a `long` there. -/
theorem raid5ComputeSector_separate (conf : Conf) (rSector other : ℕ)
    (hdisks : conf.level = .raid6 → 4 ≤ conf.raidDisks) (hlt : rSector < 2 ^ 64)
    (hother : other < 2 ^ 64) (hne : rSector ≠ other) : Separate conf rSector other := by
  refine (raid5ComputeSector_separate_iff conf rSector other hlt hother hne).mpr ?_
  rcases lt_or_ge (conf.stripeOf rSector) (2 ^ 63) with hsmall | hlarge
  · exact Or.inl hsmall
  have hraid := (disksOf_of_large hlt hlarge).1
  have hlevel : conf.level ≠ .raid6 := by
    intro heq
    have hfour := hdisks heq
    rw [hraid, heq, Level.maxDegraded] at hfour
    omega
  refine Or.inr ?_
  -- the branches of level 6 contradict `hlevel`
  split <;> trivial

/-- Level 6 on four disks with chunks of 64 KiB. -/
def fourDisks : Conf :=
  { level := .raid6, algorithm := .leftAsymmetric, raidDisks := 4, chunkSize := 65536
    hasData := by decide, disksInt := by decide, chunkInt := by decide, hasSector := by decide }

theorem raid5ComputeSector_separate_four : Separate fourDisks (2 ^ 64 - 1) 4 :=
  raid5ComputeSector_separate fourDisks (2 ^ 64 - 1) 4 (by decide) (by decide) (by decide)
    (by decide)

end Forward

/-! ### The way back -/

/-- The `int chunk_number` of `compute_blocknr` holds the chunk number, or its
sign extension multiplies back to it, and the layout survives a stripe that is
negative as a `long`. -/
def Conf.Reversible (conf : Conf) (rSector : ℕ) : Prop :=
  rSector / conf.sectorsPerChunk < 2 ^ 31 ∨
    2 ^ 64 / conf.sectorsPerChunk - 2 ^ 31 ≤ rSector / conf.sectorsPerChunk ∧
      (conf.stripeOf rSector < 2 ^ 63 ∨ conf.IndexKept rSector)

section Back

variable {conf : Conf} {rSector exponent : ℕ} {shift : ℕ} {index i : ℤ}

theorem sectorsPerChunk_eq_pow (hchunk : conf.chunkSize = 2 ^ exponent) :
    ∃ shift ≤ 21, conf.sectorsPerChunk = 2 ^ shift := by
  have hlow : 9 ≤ exponent := by
    by_contra hlt
    have hle : 2 ^ exponent ≤ 2 ^ 8 := Nat.pow_le_pow_right (by decide) (by omega)
    have hsector := conf.hasSector
    omega
  have hhigh : exponent < 31 := by
    have hlt := conf.chunkInt
    rw [hchunk] at hlt
    exact (Nat.pow_lt_pow_iff_right (by decide)).mp hlt
  refine ⟨exponent - 9, by omega, ?_⟩
  rw [sectorsPerChunk, hchunk, Nat.shiftRight_eq_div_pow, Nat.pow_div hlow (by decide)]

theorem toInt_eq_of_add_mul {value kept turns : ℤ} (hvalue : value = kept + 2 ^ 32 * turns)
    (hge : -2 ^ 31 ≤ kept) (hlt : kept < 2 ^ 31) : toInt value = kept := by
  rw [toInt, bmod_def]
  split <;> omega

theorem toInt_bounds (value : ℤ) : -2 ^ 31 ≤ toInt value ∧ toInt value < 2 ^ 31 := by
  rw [toInt, bmod_def]
  split <;> omega

theorem toInt_emod (value : ℤ) : toInt value % 2 ^ 32 = value % 2 ^ 32 := by
  rw [toInt, bmod_def]
  split <;> omega

theorem emod_eq_of_small {kept : ℤ} {size : ℕ} (hsize : 2 ^ 33 ≤ size)
    (hge : -2 ^ 31 ≤ kept) (hlt : kept < 2 ^ 31) :
    kept % size = if 0 ≤ kept then kept else kept + size := by
  split
  · exact emod_eq_of_lt ‹_› (by omega)
  · rw [← add_emod_right, emod_eq_of_lt (by omega) (by omega)]

theorem two_pow_sub_eq (hshift : shift ≤ 21) :
    ∃ factor : ℕ, 0 < factor ∧ 2 ^ (64 - shift) = 2 ^ 33 * factor := by
  refine ⟨2 ^ (31 - shift), by positivity, ?_⟩
  rw [← pow_add]
  congr 1
  omega

/-- The sign extension of a 32-bit chunk number is the chunk, modulo the number
of chunks, exactly at the two ends of the range. -/
theorem toInt_emod_eq_iff {chunk : ℕ} (hshift : shift ≤ 21) (hlt : chunk < 2 ^ (64 - shift)) :
    toInt chunk % (2 ^ (64 - shift) : ℕ) = chunk ↔
      chunk < 2 ^ 31 ∨ 2 ^ (64 - shift) - 2 ^ 31 ≤ chunk := by
  obtain ⟨factor, hpos, hfactor⟩ := two_pow_sub_eq hshift
  generalize 2 ^ (64 - shift) = size at hfactor hlt ⊢
  constructor
  · intro heq
    obtain ⟨hge, hle⟩ := toInt_bounds chunk
    rw [emod_eq_of_small (by omega) hge hle] at heq
    split at heq <;> omega
  · rintro (hlow | hhigh)
    · rw [toInt_of_lt (by omega) (by omega)]
      exact emod_eq_of_lt (by omega) (by omega)
    have hkept : toInt chunk = chunk - size :=
      @toInt_eq_of_add_mul chunk (chunk - size) (2 * factor) (by omega) (by omega) (by omega)
    rw [hkept, emod_eq_of_small (by omega) (by omega) (by omega)]
    split <;> omega

theorem toSector_mul_add {value : ℤ} {shift offset : ℕ} (hshift : shift ≤ 64)
    (hoffset : offset < 2 ^ shift) :
    (toSector (value * (2 ^ shift : ℕ) + offset) : ℤ) =
      value % (2 ^ (64 - shift) : ℕ) * (2 ^ shift : ℕ) + offset := by
  have hsplit : (2 : ℤ) ^ 64 = (2 ^ (64 - shift) : ℕ) * (2 ^ shift : ℕ) := by
    rw [← Nat.cast_mul, ← pow_add, Nat.sub_add_cancel hshift]
    norm_num
  have hpos : (0 : ℤ) < (2 ^ shift : ℕ) := by positivity
  have hsize : (0 : ℤ) < (2 ^ (64 - shift) : ℕ) := by positivity
  have hemod : (value * (2 ^ shift : ℕ) + offset) % 2 ^ 64 =
      value % (2 ^ (64 - shift) : ℕ) * (2 ^ shift : ℕ) + offset := by
    have hlow := emod_nonneg value hsize.ne'
    have hhigh := emod_lt_of_pos value hsize
    rw [hsplit]
    generalize ((2 ^ (64 - shift) : ℕ) : ℤ) = size at hlow hhigh ⊢
    have hmod : value * (2 ^ shift : ℕ) + offset ≡ value % size * (2 ^ shift : ℕ) + offset
        [ZMOD size * (2 ^ shift : ℕ)] := (mod_modEq value size).symm.mul_right'.add_right offset
    rw [hmod]
    apply emod_eq_of_lt
    · positivity
    calc value % size * (2 ^ shift : ℕ) + offset
        < value % size * (2 ^ shift : ℕ) + (2 ^ shift : ℕ) := by
          omega
      _ = (value % size + 1) * (2 ^ shift : ℕ) := by ring
      _ ≤ size * (2 ^ shift : ℕ) := mul_le_mul_of_nonneg_right (by omega) hpos.le
  unfold toSector
  rw [hemod, toNat_of_nonneg (by omega)]

/-- What `compute_blocknr` builds from an index within the stripe. -/
def Conf.rebuilt (conf : Conf) (rSector : ℕ) (index : ℤ) : ℕ :=
  toSector (toInt (conf.stripeOf rSector * conf.dataDisks + index) * conf.sectorsPerChunk +
    (rSector % conf.sectorsPerChunk : ℕ))

/-- The stripe head of a logical sector. -/
def Conf.stripeHead (conf : Conf) (rSector : ℕ) : StripeHead :=
  { sector := conf.diskSector rSector, pdIdx := toInt (conf.disksOf rSector).1 }

theorem computeBlocknr_stripeHead
    (hindex : conf.dataIndex (toInt (conf.disksOf rSector).1) i = some index) :
    conf.computeBlocknr (conf.stripeHead rSector) i =
      if (conf.raid5ComputeSector (conf.rebuilt rSector index)).sector ≠ conf.diskSector rSector ∨
          toInt (conf.raid5ComputeSector (conf.rebuilt rSector index)).ddIdx ≠ i ∨
          toInt (conf.raid5ComputeSector (conf.rebuilt rSector index)).pdIdx ≠
            toInt (conf.disksOf rSector).1 then 0 else conf.rebuilt rSector index := by
  simp only [computeBlocknr, stripeHead, hindex, conf.diskSector_mod, conf.diskSector_div, rebuilt]
  congr

/-- The recheck lets the rebuilt sector through when it is the right one. -/
theorem computeBlocknr_eq_iff (hlt : rSector < 2 ^ 64)
    (hdata : (conf.disksOf rSector).2 < conf.raidDisks)
    (hindex : conf.dataIndex (toInt (conf.disksOf rSector).1) (conf.disksOf rSector).2 = some index)
    (hpos : 0 < rSector ∨ conf.rebuilt rSector index = rSector) :
    conf.computeBlocknr (conf.stripeHead rSector) (conf.disksOf rSector).2 = rSector ↔
      conf.rebuilt rSector index = rSector := by
  have hdisks := conf.disksInt
  have hdd : toInt (conf.disksOf rSector).2 = (conf.disksOf rSector).2 :=
    toInt_of_lt (by omega) (by omega)
  rw [computeBlocknr_stripeHead hindex]
  constructor
  · intro heq
    split at heq
    · exact hpos.resolve_left (by omega)
    · exact heq
  · intro heq
    rw [heq, conf.raid5ComputeSector_eq hlt, if_neg]
    rintro (hsector | hdisk | hparity)
    · exact hsector rfl
    · exact hdisk hdd
    · exact hparity rfl

theorem rebuilt_eq_iff {index : ℤ} {shift : ℕ} (hshift : shift ≤ 21)
    (hchunk : conf.sectorsPerChunk = 2 ^ shift) :
    conf.rebuilt rSector index = rSector ↔
      toInt (conf.stripeOf rSector * conf.dataDisks + index) % (2 ^ (64 - shift) : ℕ) =
        (rSector / conf.sectorsPerChunk : ℕ) := by
  have hoffset := Nat.mod_lt rSector conf.sectorsPerChunk_pos
  have hsplit := congrArg ofNat (Nat.div_add_mod' rSector conf.sectorsPerChunk)
  have hpos : (0 : ℤ) < (2 ^ shift : ℕ) := by positivity
  unfold rebuilt
  rw [hchunk] at hoffset hsplit ⊢
  generalize toInt (conf.stripeOf rSector * conf.dataDisks + index) = kept
  have hbuilt := @toSector_mul_add kept shift _ (by omega) hoffset
  simp only [ofNat_eq_natCast, Nat.cast_add, Nat.cast_mul] at hsplit
  rw [← natCast_inj, hbuilt]
  constructor
  · intro heq
    exact mul_right_cancel₀ hpos.ne' (add_right_cancel (heq.trans hsplit.symm))
  · intro heq
    rw [heq, hsplit]

/-- With the right index the rebuilt sector is right at the two ends of the
range of chunk numbers. -/
theorem rebuilt_indexOf_iff {shift : ℕ} (hshift : shift ≤ 21)
    (hsectors : conf.sectorsPerChunk = 2 ^ shift) (hlt : rSector < 2 ^ 64) :
    conf.rebuilt rSector (conf.indexOf rSector) = rSector ↔
      rSector / conf.sectorsPerChunk < 2 ^ 31 ∨
        2 ^ 64 / conf.sectorsPerChunk - 2 ^ 31 ≤ rSector / conf.sectorsPerChunk := by
  have hcount : 2 ^ 64 / conf.sectorsPerChunk = 2 ^ (64 - shift) := by
    rw [hsectors, Nat.pow_div (by omega) (by decide)]
  have hchunkLt : rSector / conf.sectorsPerChunk < 2 ^ (64 - shift) := by
    rw [Nat.div_lt_iff_lt_mul conf.sectorsPerChunk_pos, hsectors, ← pow_add,
      Nat.sub_add_cancel (by omega)]
    exact hlt
  have hjoin : (conf.stripeOf rSector : ℤ) * conf.dataDisks + conf.indexOf rSector =
      (rSector / conf.sectorsPerChunk : ℕ) := by
    rw [← conf.chunk_eq rSector, Nat.cast_add, Nat.cast_mul]
  rw [rebuilt_eq_iff hshift hsectors, hjoin, hcount]
  exact toInt_emod_eq_iff hshift hchunkLt

section

variable (hshift : shift ≤ 21) (hsectors : conf.sectorsPerChunk = 2 ^ shift)
  (hlt : rSector < 2 ^ 64)
include hshift hsectors hlt

theorem pos_or_rebuilt : 0 < rSector ∨ conf.rebuilt rSector (conf.indexOf rSector) = rSector := by
  rcases Nat.eq_zero_or_pos rSector with hzero | hpos
  · rw [rebuilt_indexOf_iff hshift hsectors hlt, hzero, Nat.zero_div]
    exact Or.inr (Or.inl (by norm_num))
  · exact Or.inl hpos

theorem computeBlocknr_small_iff (hsmall : conf.stripeOf rSector < 2 ^ 63) :
    conf.computeBlocknr (conf.stripeHead rSector) (conf.disksOf rSector).2 = rSector ↔
      conf.Reversible rSector := by
  have hplaced := placed_of_small hsmall
  have hdisks := conf.disksInt
  have hbelow := hplaced.parity
  have hback : conf.dataIndex (toInt (conf.disksOf rSector).1) (conf.disksOf rSector).2 =
      some (conf.indexOf rSector : ℤ) := by
    rw [toInt_of_lt (by omega) (by omega)]
    exact hplaced.back
  rw [computeBlocknr_eq_iff hlt hplaced.data hback (pos_or_rebuilt hshift hsectors hlt),
    rebuilt_indexOf_iff hshift hsectors hlt, Reversible]
  simp only [hsmall, true_or, and_true]

end

theorem index_eq_zero_of_rebuilt (hone : conf.sectorsPerChunk = 1) (hsingle : conf.dataDisks = 1)
    (hindex : index = 0 ∨ index = -1 ∨ index = -2) (hbuilt : conf.rebuilt rSector index = rSector) :
    index = 0 := by
  have hstripe : conf.stripeOf rSector = rSector := by
    rw [stripeOf, hone, hsingle, Nat.div_one, Nat.div_one]
  rw [@rebuilt_eq_iff conf rSector index 0 (by omega) (by omega), hstripe, hsingle, hone,
    Nat.div_one, Nat.cast_one, mul_one] at hbuilt
  have hlow := toInt_emod ((rSector : ℤ) + index)
  omega

theorem reversible_large_iff (hlt : rSector < 2 ^ 64) (hlarge : 2 ^ 63 ≤ conf.stripeOf rSector) :
    conf.Reversible rSector ↔ conf.rebuilt rSector 0 = rSector ∧
      conf.dataIndex (toInt (conf.disksOf rSector).1) (conf.disksOf rSector).2 = some 0 := by
  obtain ⟨-, hone⟩ := single_of_large hlt hlarge
  have hends := @rebuilt_indexOf_iff conf rSector 0 (by omega) (by omega) hlt
  rw [indexOf_of_large hlt hlarge, Nat.cast_zero] at hends
  have hle := conf.stripeOf_le rSector
  have hnot : ¬ rSector / conf.sectorsPerChunk < 2 ^ 31 := by omega
  have hnotSmall : ¬ conf.stripeOf rSector < 2 ^ 63 := by omega
  rw [hends, (disksOf_of_large hlt hlarge).2.2.2.2, Reversible]
  simp only [hnot, hnotSmall, false_or]

theorem computeBlocknr_of_none (hindex : conf.dataIndex (toInt (conf.disksOf rSector).1) i = none) :
    conf.computeBlocknr (conf.stripeHead rSector) i = 0 := by
  simp only [computeBlocknr, stripeHead, hindex]

theorem computeBlocknr_large_iff (hlt : rSector < 2 ^ 64)
    (hlarge : 2 ^ 63 ≤ conf.stripeOf rSector) :
    conf.computeBlocknr (conf.stripeHead rSector) (conf.disksOf rSector).2 = rSector ↔
      conf.Reversible rSector := by
  have hpos : 0 < rSector := by
    have hle := (conf.stripeOf_le rSector).trans (Nat.div_le_self _ _)
    omega
  obtain ⟨hsingle, hone⟩ := single_of_large hlt hlarge
  obtain ⟨-, ⟨hdata, -⟩, -, hmem, -⟩ := disksOf_of_large hlt hlarge
  rw [reversible_large_iff hlt hlarge]
  cases hfound : conf.dataIndex (toInt (conf.disksOf rSector).1) (conf.disksOf rSector).2 with
  | none =>
    rw [computeBlocknr_of_none hfound]
    constructor
    · intro hzero
      exact absurd hzero hpos.ne
    · rintro ⟨-, hnone⟩
      cases hnone
  | some index =>
    rw [hfound] at hmem
    simp only [List.mem_cons, reduceCtorEq, some.injEq, List.not_mem_nil, or_false,
      false_or] at hmem
    rw [computeBlocknr_eq_iff hlt hdata hfound (Or.inl hpos), some.injEq]
    constructor
    · intro hbuilt
      have hindex := index_eq_zero_of_rebuilt hone hsingle hmem hbuilt
      rw [hindex] at hbuilt
      exact ⟨hbuilt, hindex⟩
    · rintro ⟨hbuilt, rfl⟩
      exact hbuilt

/-- The way back, from the place of a sector: exactly for reversible ones. -/
theorem computeBlocknr_place_iff (hchunk : conf.chunkSize = 2 ^ exponent) (hlt : rSector < 2 ^ 64) :
    conf.computeBlocknr (conf.stripeHead rSector) (conf.disksOf rSector).2 = rSector ↔
      conf.Reversible rSector := by
  obtain ⟨shift, hshift, hsectors⟩ := sectorsPerChunk_eq_pow hchunk
  rcases lt_or_ge (conf.stripeOf rSector) (2 ^ 63) with hsmall | hlarge
  · exact computeBlocknr_small_iff hshift hsectors hlt hsmall
  · exact computeBlocknr_large_iff hlt hlarge

section Rounding

variable {unit : ℕ}

/-- A stripe unit divides the chunk, so rounding stays within it. -/
theorem round_div (hunit : unit ∣ conf.sectorsPerChunk) :
    (rSector - rSector % unit) / conf.sectorsPerChunk = rSector / conf.sectorsPerChunk := by
  obtain ⟨units, hunits⟩ := hunit
  have hpos := conf.sectorsPerChunk_pos
  rw [hunits] at hpos ⊢
  have hunitPos : 0 < unit := Nat.pos_of_mul_pos_right hpos
  have hround : (rSector - rSector % unit) / unit = rSector / unit := by
    rw [← Nat.mul_div_self_eq_mod_sub_self, Nat.mul_div_cancel_left _ hunitPos]
  rw [← Nat.div_div_eq_div_mul, ← Nat.div_div_eq_div_mul, hround]

theorem round_diskSector (hunit : unit ∣ conf.sectorsPerChunk) :
    conf.diskSector (rSector - rSector % unit) =
      conf.diskSector rSector - conf.diskSector rSector % unit := by
  have hdisk : conf.diskSector rSector % unit = rSector % unit := by
    rw [← Nat.mod_mod_of_dvd (conf.diskSector rSector) hunit, conf.diskSector_mod,
      Nat.mod_mod_of_dvd _ hunit]
  have hle : rSector % unit ≤ rSector % conf.sectorsPerChunk := by
    rw [← Nat.mod_mod_of_dvd rSector hunit]
    exact Nat.mod_le _ _
  have hoffset : (rSector - rSector % unit) % conf.sectorsPerChunk =
      rSector % conf.sectorsPerChunk - rSector % unit := by
    have hwhole := Nat.div_add_mod rSector conf.sectorsPerChunk
    have hround := Nat.div_add_mod (rSector - rSector % unit) conf.sectorsPerChunk
    rw [round_div hunit] at hround
    omega
  rw [hdisk]
  unfold diskSector stripeOf
  rw [round_div hunit, hoffset, Nat.add_sub_assoc hle]

/-- `compute_blocknr`, given the stripe sector and the disks chosen for a
sector, returns that sector rounded to the stripe unit exactly when the chunk
number survives its `int` and the stripe its `long`. -/
theorem computeBlocknr_raid5ComputeSector_iff (conf : Conf) (exponent rSector unit : ℕ)
    (hchunk : conf.chunkSize = 2 ^ exponent) (hunit : unit ∣ conf.sectorsPerChunk)
    (hlt : rSector < 2 ^ 64) :
    conf.computeBlocknr
        { sector := (conf.raid5ComputeSector rSector).sector -
            (conf.raid5ComputeSector rSector).sector % unit
          pdIdx := toInt (conf.raid5ComputeSector rSector).pdIdx }
        (conf.raid5ComputeSector rSector).ddIdx = rSector - rSector % unit ↔
      conf.Reversible rSector := by
  have hdisks : conf.disksOf rSector = conf.disksOf (rSector - rSector % unit) := by
    unfold disksOf stripeOf indexOf
    rw [round_div hunit]
  have hreversible : conf.Reversible rSector ↔ conf.Reversible (rSector - rSector % unit) := by
    unfold Reversible IndexKept shortfall stripeOf
    rw [round_div hunit]
  rw [hreversible, conf.raid5ComputeSector_eq hlt, ← round_diskSector hunit, hdisks]
  exact computeBlocknr_place_iff hchunk (by omega)

/-- Two data disks and chunks of 64 KiB: the first chunk number beyond an
`int` comes back as 0. -/
def threeDisks : Conf :=
  { level := .raid5, algorithm := .leftSymmetric, raidDisks := 3, chunkSize := 65536
    hasData := by decide, disksInt := by decide, chunkInt := by decide, hasSector := by decide }

theorem computeBlocknr_chunk_beyond_int :
    ¬ (∀ (conf : Conf) (exponent rSector unit : ℕ), conf.chunkSize = 2 ^ exponent →
      unit ∣ conf.sectorsPerChunk → rSector < 2 ^ 64 → conf.computeBlocknr
        { sector := (conf.raid5ComputeSector rSector).sector -
            (conf.raid5ComputeSector rSector).sector % unit
          pdIdx := toInt (conf.raid5ComputeSector rSector).pdIdx }
        (conf.raid5ComputeSector rSector).ddIdx = rSector - rSector % unit) := by
  intro hall
  have hback := hall threeDisks 16 (2 ^ 38) 8 (by decide) (by decide) (by decide)
  revert hback
  decide +kernel

theorem computeBlocknr_raid5ComputeSector_small :
    threeDisks.computeBlocknr
        { sector := (threeDisks.raid5ComputeSector 1003).sector -
            (threeDisks.raid5ComputeSector 1003).sector % 8
          pdIdx := toInt (threeDisks.raid5ComputeSector 1003).pdIdx }
        (threeDisks.raid5ComputeSector 1003).ddIdx = 1003 - 1003 % 8 ↔ threeDisks.Reversible 1003 :=
  computeBlocknr_raid5ComputeSector_iff threeDisks 16 1003 8 (by decide) (by decide) (by decide)

end Rounding

end Back

end KernelM5040.Raid5
