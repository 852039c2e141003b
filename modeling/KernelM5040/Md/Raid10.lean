import Mathlib

/-!
# Block mapping of RAID-10 arrays: drivers/md/raid10.c

A virtual chunk is stored `near_copies` times in a row, as in RAID-0, and the
whole of this `far_copies` times, each time on devices shifted by
`near_copies`: either in sections of the devices that are `stride` apart or,
with `far_offset`, in rows that follow each other.  `raid10_find_phys` lists
the copies of a sector and `raid10_find_virt` goes back.

Sector numbers are natural numbers here: the sectors of an array are far fewer
than the 2^64 values of `sector_t`.
-/

namespace KernelM5040.Raid10

open List

/-- What `run` is given: the layout word, the number of disks, the chunk size
in bytes and the size of a device in units of 1024 bytes. -/
structure Mddev where
  layout : ℕ
  raidDisks : ℕ
  chunkSize : ℕ
  size : ℕ

/-- The geometry in `conf_t`. -/
structure Conf where
  raidDisks : ℕ
  nearCopies : ℕ
  farCopies : ℕ
  farOffset : Bool
  stride : ℕ
  chunkShift : ℕ
  chunkMask : ℕ

/-! ## The layout computed by `run` -/

/-- The position of the lowest bit that is set, among the lowest `width` bits. -/
def lowestBit : ℕ → ℕ → ℕ
  | 0, _ => 0
  | width + 1, word => if word % 2 = 1 then 0 else lowestBit width (word / 2) + 1

/-- `ffz(~word)`; a number has fewer bits than its value. -/
def ffzNot (word : ℕ) : ℕ := lowestBit word word

variable (mddev : Mddev)

def Mddev.nearCopies : ℕ := mddev.layout &&& 255

def Mddev.farCopies : ℕ := (mddev.layout >>> 8) &&& 255

def Mddev.farOffset : Bool := mddev.layout &&& (1 <<< 16) != 0

def Mddev.chunkShift : ℕ := ffzNot mddev.chunkSize - 9

/-- The chunks of a device that one section of far copies has. -/
def Mddev.rows : ℕ := (mddev.size >>> (mddev.chunkShift - 1)) / mddev.farCopies

/-- The number of chunks in the array. -/
def Mddev.chunks : ℕ := mddev.rows * mddev.raidDisks / mddev.nearCopies

/-- The used chunks of a device. -/
def Mddev.usedChunks : ℕ :=
  (mddev.chunks * (mddev.nearCopies * mddev.farCopies) + (mddev.raidDisks - 1)) / mddev.raidDisks

def Mddev.stride : ℕ :=
  if mddev.farOffset then 1 else mddev.usedChunks / mddev.farCopies

def Mddev.conf : Conf where
  raidDisks := mddev.raidDisks
  nearCopies := mddev.nearCopies
  farCopies := mddev.farCopies
  farOffset := mddev.farOffset
  stride := mddev.stride <<< mddev.chunkShift
  chunkShift := mddev.chunkShift
  chunkMask := (mddev.chunkSize >>> 9) - 1

/-- `mddev->array_sectors` -/
def Mddev.arraySectors : ℕ := mddev.chunks <<< mddev.chunkShift

/-- The layouts that `run` accepts. -/
def Mddev.accepted : Bool :=
  mddev.chunkSize ≠ 0 && 2 ≤ mddev.nearCopies * mddev.farCopies &&
    mddev.nearCopies * mddev.farCopies ≤ mddev.raidDisks && mddev.layout >>> 17 = 0

/-- The part of `run` that sets up the mapping: the geometry and the number of sectors. -/
def run : Option (Conf × ℕ) :=
  if mddev.accepted then some (mddev.conf, mddev.arraySectors) else none

/-! ## From virtual sectors to devices and back -/

/-- An element of `r10bio->devs`. -/
structure Copy where
  devnum : ℕ
  addr : ℕ
  deriving DecidableEq, Repr

/-- The inner loop of `raid10_find_phys`, over the far copies. -/
def farLoop (conf : Conf) : ℕ → ℕ → ℕ → List Copy
  | 0, _, _ => []
  | count + 1, d, s =>
    let next := if conf.raidDisks ≤ d + conf.nearCopies then d + conf.nearCopies - conf.raidDisks
      else d + conf.nearCopies
    ⟨next, s + conf.stride⟩ :: farLoop conf count next (s + conf.stride)

/-- The outer loop of `raid10_find_phys`, over the near copies. -/
def nearLoop (conf : Conf) : ℕ → ℕ → ℕ → List Copy
  | 0, _, _ => []
  | count + 1, dev, sector =>
    ⟨dev, sector⟩ :: farLoop conf (conf.farCopies - 1) dev sector ++
      if conf.raidDisks ≤ dev + 1 then nearLoop conf count 0 (sector + (conf.chunkMask + 1))
      else nearLoop conf count (dev + 1) sector

variable (conf : Conf)

/-- `raid10_find_phys` -/
def findPhys (sector : ℕ) : List Copy :=
  let chunk := (sector >>> conf.chunkShift) * conf.nearCopies
  let stripe := chunk / conf.raidDisks
  let dev := chunk % conf.raidDisks
  let stripe := if conf.farOffset then stripe * conf.farCopies else stripe
  nearLoop conf conf.nearCopies dev ((sector &&& conf.chunkMask) + stripe <<< conf.chunkShift)

/-- The loop of `raid10_find_virt` back to the first section; it does not end when `stride`
is zero. -/
def rewind (conf : Conf) : ℕ → ℕ → ℕ → Option (ℕ × ℕ)
  | 0, _, _ => none
  | fuel + 1, sector, dev =>
    if conf.stride ≤ sector then
      rewind conf fuel (sector - conf.stride)
        (if dev < conf.nearCopies then dev + (conf.raidDisks - conf.nearCopies)
          else dev - conf.nearCopies)
    else some (sector, dev)

/-- `vchunk`, and the sector it gives. -/
def virtSector (offset chunk dev : ℕ) : ℕ :=
  ((chunk * conf.raidDisks + dev) / conf.nearCopies) <<< conf.chunkShift + offset

/-- `raid10_find_virt` -/
def findVirt (sector dev : ℕ) : Option ℕ :=
  let offset := sector &&& conf.chunkMask
  if conf.farOffset then
    let chunk := sector >>> conf.chunkShift
    let back := chunk % conf.farCopies * conf.nearCopies
    some (virtSector conf offset (chunk / conf.farCopies)
      (if dev < back then dev + conf.raidDisks - back else dev - back))
  else
    (rewind conf (sector + 1) sector dev).map fun (sector, dev) =>
      virtSector conf offset (sector >>> conf.chunkShift) dev

/-- The copies of every sector of the array are on different devices, no two sectors share a
place, and every copy leads back to its sector. -/
structure Exact (arraySectors : ℕ) : Prop where
  count : ∀ sector < arraySectors, (findPhys conf sector).length = conf.nearCopies * conf.farCopies
  devices : ∀ sector < arraySectors, ((findPhys conf sector).map Copy.devnum).Nodup
  apart : ∀ sector < arraySectors, ∀ sector' < arraySectors, sector ≠ sector' →
    List.Disjoint (findPhys conf sector) (findPhys conf sector')
  inverse : ∀ sector < arraySectors, ∀ copy ∈ findPhys conf sector,
    findVirt conf copy.addr copy.devnum = some sector

/-! ## The geometry -/

/-- The geometry of an accepted layout with a chunk size that is a power of two. -/
structure Geometry (rows arraySectors : ℕ) : Prop where
  near : 0 < conf.nearCopies
  far : 0 < conf.farCopies
  copies : conf.nearCopies * conf.farCopies ≤ conf.raidDisks
  mask : conf.chunkMask + 1 = 2 ^ conf.chunkShift
  stride : conf.stride = (if conf.farOffset then 1 else rows) * 2 ^ conf.chunkShift
  sectors : arraySectors = rows * conf.raidDisks / conf.nearCopies * 2 ^ conf.chunkShift

theorem lowestBit_two_pow (width : ℕ) {exponent : ℕ} (hlt : exponent < width) :
    lowestBit width (2 ^ exponent) = exponent := by
  induction width generalizing exponent with
  | zero => omega
  | succ width ih =>
    cases exponent with
    | zero => simp [lowestBit]
    | succ exponent =>
      have heven : 2 ^ (exponent + 1) % 2 ≠ 1 := by
        rw [pow_succ]
        omega
      rw [lowestBit, if_neg heven, pow_succ, Nat.mul_div_cancel _ Nat.two_pos, ih (by omega)]

/-- The rows of a section hold the near copies of the whole array, with less than one chunk
and its copies to spare. -/
theorem usedChunks_eq {near far disks rows : ℕ} (hnear : 0 < near)
    (hcopies : near * far ≤ disks) (hdisks : 0 < disks) :
    (rows * disks / near * (near * far) + (disks - 1)) / disks = rows * far := by
  have hspare := Nat.mod_lt (rows * disks) hnear
  have hsplit := Nat.div_add_mod (rows * disks) near
  generalize rows * disks / near = chunks at hsplit
  generalize hrest : rows * disks % near = rest at hspare hsplit
  have hless : rest * far ≤ disks - 1 := by
    rcases Nat.eq_zero_or_pos far with rfl | hpos
    · exact Nat.zero_le _
    have : (rest + 1) * far ≤ near * far := Nat.mul_le_mul_right far hspare
    rw [add_mul, one_mul] at this
    omega
  have htotal : chunks * (near * far) + rest * far = disks * (rows * far) := by
    calc chunks * (near * far) + rest * far = (near * chunks + rest) * far := by ring
      _ = rows * disks * far := by rw [hsplit]
      _ = disks * (rows * far) := by ring
  have hform : chunks * (near * far) + (disks - 1) =
      disks - 1 - rest * far + disks * (rows * far) := by omega
  rw [hform, Nat.add_mul_div_left _ _ hdisks, Nat.div_eq_of_lt (by omega), zero_add]

theorem geometry_conf {mddev : Mddev} (haccepted : mddev.accepted = true) {shift : ℕ}
    (hchunk : mddev.chunkSize = 2 ^ (shift + 9)) :
    Geometry mddev.conf mddev.rows mddev.arraySectors := by
  simp only [Mddev.accepted, Bool.and_eq_true, decide_eq_true_eq] at haccepted
  obtain ⟨⟨⟨-, htwo⟩, hcopies⟩, -⟩ := haccepted
  obtain ⟨hnear, hfar⟩ := CanonicallyOrderedAdd.mul_pos.mp (Nat.two_pos.trans_le htwo)
  have hshift : mddev.chunkShift = shift := by
    rw [Mddev.chunkShift, ffzNot, hchunk, lowestBit_two_pow _ Nat.lt_two_pow_self,
      Nat.add_sub_cancel]
  refine ⟨hnear, hfar, hcopies, ?_, ?_, ?_⟩
  · simp only [Mddev.conf]
    rw [hchunk, hshift, Nat.shiftRight_eq_div_pow, pow_add, Nat.mul_div_cancel _ (by positivity)]
    exact Nat.sub_add_cancel Nat.one_le_two_pow
  · simp only [Mddev.conf, Nat.shiftLeft_eq, Mddev.stride, Mddev.usedChunks, Mddev.chunks]
    rw [usedChunks_eq hnear hcopies (by omega), Nat.mul_div_cancel _ hfar]
  · simp [Mddev.conf, Mddev.arraySectors, Mddev.chunks, Nat.shiftLeft_eq]

/-! ## The copies in closed form -/

/-- Near copy `n` and far copy `f` of the chunk whose first copy is in place `dev` of the
row at `sector`. -/
def place (dev sector n f : ℕ) : Copy where
  devnum := (dev + n + f * conf.nearCopies) % conf.raidDisks
  addr := sector + (dev + n) / conf.raidDisks * 2 ^ conf.chunkShift + f * conf.stride

section ClosedForm

variable {conf : Conf} {rows arraySectors : ℕ} (hgeometry : Geometry conf rows arraySectors)
include hgeometry

theorem Geometry.near_le : conf.nearCopies ≤ conf.raidDisks := by
  have := Nat.le_mul_of_pos_right conf.nearCopies hgeometry.far
  exact this.trans hgeometry.copies

theorem Geometry.disks_pos : 0 < conf.raidDisks := hgeometry.near.trans_le hgeometry.near_le

theorem farLoop_eq (count d s : ℕ) (hd : d < conf.raidDisks) :
    farLoop conf count d s = (range count).map fun f =>
      ⟨(d + (f + 1) * conf.nearCopies) % conf.raidDisks, s + (f + 1) * conf.stride⟩ := by
  have hnear := hgeometry.near_le
  induction count generalizing d s with
  | zero => rfl
  | succ count ih =>
    have hnext : (if conf.raidDisks ≤ d + conf.nearCopies then
        d + conf.nearCopies - conf.raidDisks else d + conf.nearCopies) =
        (d + conf.nearCopies) % conf.raidDisks := by
      split_ifs with hwrap
      · rw [Nat.mod_eq_sub_mod hwrap, Nat.mod_eq_of_lt (by omega)]
      · rw [Nat.mod_eq_of_lt (by omega)]
    rw [farLoop, hnext, ih _ _ (Nat.mod_lt _ hgeometry.disks_pos), range_succ_eq_map,
      map_cons, map_map]
    congr 1
    · simp
    apply map_congr_left
    intro f _
    simp only [Function.comp, Nat.succ_eq_add_one, Copy.mk.injEq]
    constructor
    · rw [Nat.mod_add_mod]
      congr 1
      ring
    · ring

theorem nearLoop_eq (count dev sector : ℕ) (hdev : dev < conf.raidDisks) :
    nearLoop conf count dev sector = (range count).flatMap fun n =>
      (range conf.farCopies).map fun f => place conf dev sector n f := by
  induction count generalizing dev sector with
  | zero => rfl
  | succ count ih =>
    have hfirst : ⟨dev, sector⟩ :: farLoop conf (conf.farCopies - 1) dev sector =
        (range conf.farCopies).map fun f => place conf dev sector 0 f := by
      obtain ⟨more, hmore⟩ : ∃ more, conf.farCopies = more + 1 :=
        ⟨conf.farCopies - 1, by have := hgeometry.far; omega⟩
      rw [farLoop_eq hgeometry _ _ _ hdev, hmore, Nat.add_sub_cancel, range_succ_eq_map,
        map_cons, map_map]
      congr 1
      · simp [place, Nat.mod_eq_of_lt hdev, Nat.div_eq_of_lt hdev]
      · apply map_congr_left
        intro f _
        simp [place, Nat.div_eq_of_lt hdev]
    have hrest : (if conf.raidDisks ≤ dev + 1 then
          nearLoop conf count 0 (sector + (conf.chunkMask + 1))
        else nearLoop conf count (dev + 1) sector) =
        (range count).flatMap fun n =>
          (range conf.farCopies).map fun f => place conf dev sector (n + 1) f := by
      split_ifs with hwrap
      · rw [ih 0 _ hgeometry.disks_pos, hgeometry.mask]
        congr 1
        funext n
        apply map_congr_left
        intro f _
        have hsum : dev + (n + 1) = n + conf.raidDisks := by omega
        simp only [place, hsum, zero_add, Copy.mk.injEq]
        constructor
        · rw [show n + conf.raidDisks + f * conf.nearCopies =
            n + f * conf.nearCopies + conf.raidDisks by omega, Nat.add_mod_right]
        · rw [Nat.add_div_right _ hgeometry.disks_pos]
          ring
      · rw [ih (dev + 1) _ (by omega)]
        congr 1
        funext n
        apply map_congr_left
        intro f _
        simp [place, show dev + 1 + n = dev + (n + 1) by omega]
    rw [nearLoop, hfirst, hrest, range_succ_eq_map, flatMap_cons, flatMap_map]

/-- The sector in front of the near copies: the row of the first one. -/
def firstRow (conf : Conf) (chunk : ℕ) : ℕ :=
  chunk / conf.raidDisks * (if conf.farOffset then conf.farCopies else 1)

theorem findPhys_eq (sector : ℕ) :
    findPhys conf sector = (range conf.nearCopies).flatMap fun n =>
      (range conf.farCopies).map fun f =>
        place conf (sector / 2 ^ conf.chunkShift * conf.nearCopies % conf.raidDisks)
          (sector % 2 ^ conf.chunkShift +
            firstRow conf (sector / 2 ^ conf.chunkShift * conf.nearCopies) * 2 ^ conf.chunkShift)
          n f := by
  have hmask : conf.chunkMask = 2 ^ conf.chunkShift - 1 := by
    rw [← hgeometry.mask]
    rfl
  rw [findPhys, nearLoop_eq hgeometry _ _ _ (Nat.mod_lt _ hgeometry.disks_pos), hmask,
    Nat.and_two_pow_sub_one_eq_mod, Nat.shiftRight_eq_div_pow, Nat.shiftLeft_eq]
  cases hoffset : conf.farOffset <;> simp [firstRow, hoffset]

end ClosedForm

end KernelM5040.Raid10
