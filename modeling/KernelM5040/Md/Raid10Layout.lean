import KernelM5040.Md.Raid10

/-!
# Which RAID-10 layouts are collision free

Number the places of a section row by row: near copy `n` of chunk `v` is in
place `v * near_copies + n`.  Where the row that `raid10_find_phys` computes is
the row of this place, a copy leads back to its place, hence to its sector, and
no two sectors can share one.

With `far_offset` the rows of the far copies follow the row they are copies of,
but a near copy that wraps is put into the next row of the device all the same,
where a far copy of the row before already is.
-/

namespace KernelM5040.Raid10

open List Nat

variable {conf : Conf} {rows arraySectors sector offset index : ℕ} {copy : Copy}

section Devices

variable (hgeometry : Geometry conf rows arraySectors)
include hgeometry

theorem length_findPhys (sector : ℕ) :
    (findPhys conf sector).length = conf.nearCopies * conf.farCopies := by
  rw [findPhys_eq hgeometry, List.length_flatMap]
  simp

theorem mem_findPhys :
    copy ∈ findPhys conf sector ↔ ∃ n < conf.nearCopies, ∃ f < conf.farCopies,
      copy = place conf (sector / 2 ^ conf.chunkShift * conf.nearCopies % conf.raidDisks)
        (sector % 2 ^ conf.chunkShift +
          firstRow conf (sector / 2 ^ conf.chunkShift * conf.nearCopies) * 2 ^ conf.chunkShift)
        n f := by
  rw [findPhys_eq hgeometry]
  simp [mem_flatMap, mem_map, mem_range, eq_comm]

/-- The shifts of two copies differ by less than the number of disks. -/
theorem shift_lt {n f : ℕ} (hn : n < conf.nearCopies) (hf : f < conf.farCopies) :
    n + f * conf.nearCopies < conf.raidDisks := by
  have hle : (f + 1) * conf.nearCopies ≤ conf.farCopies * conf.nearCopies :=
    Nat.mul_le_mul_right _ hf
  have hcopies := hgeometry.copies
  rw [mul_comm] at hcopies
  rw [add_mul, one_mul] at hle
  omega

theorem devnum_injective {dev n n' f f' : ℕ} (hn : n < conf.nearCopies) (hn' : n' < conf.nearCopies)
    (hf : f < conf.farCopies) (hf' : f' < conf.farCopies)
    (heq : (place conf dev sector n f).devnum = (place conf dev sector n' f').devnum) :
    n = n' ∧ f = f' := by
  have hmod : dev + (n + f * conf.nearCopies) ≡ dev + (n' + f' * conf.nearCopies)
      [MOD conf.raidDisks] := by
    rw [Nat.ModEq]
    simpa only [place, add_assoc] using heq
  have hshift : n + f * conf.nearCopies = n' + f' * conf.nearCopies :=
    (Nat.ModEq.add_left_cancel' dev hmod).eq_of_lt_of_lt (shift_lt hgeometry hn hf)
      (shift_lt hgeometry hn' hf')
  have hfar : f = f' := by
    have := congrArg (· / conf.nearCopies) hshift
    simpa [add_mul_div_right _ _ hgeometry.near, div_eq_of_lt hn, div_eq_of_lt hn'] using this
  subst hfar
  exact ⟨by omega, rfl⟩

/-- The copies of a sector are on different devices, whatever the layout. -/
theorem nodup_devnum (sector : ℕ) : ((findPhys conf sector).map Copy.devnum).Nodup := by
  rw [findPhys_eq hgeometry, map_flatMap, nodup_flatMap]
  constructor
  · intro n hn
    rw [map_map]
    apply Nodup.map_on _ nodup_range
    intro f hf f' hf' heq
    rw [mem_range] at hn hf hf'
    exact (devnum_injective hgeometry hn hn hf hf' heq).2
  · apply nodup_range.imp_of_mem
    intro n n' hn hn' hne
    simp only [Function.onFun, disjoint_left, map_map, mem_map, mem_range]
    rintro device ⟨f, hf, rfl⟩ ⟨f', hf', heq⟩
    rw [mem_range] at hn hn'
    exact hne (devnum_injective hgeometry hn' hn hf' hf heq).1.symm

end Devices

/-! ## Going back -/

/-- The row of a place in the copy `f` of its section. -/
def rowOf (conf : Conf) (rows index f : ℕ) : ℕ :=
  if conf.farOffset then index / conf.raidDisks * conf.farCopies + f
  else index / conf.raidDisks + f * rows

/-- A copy of the chunk in place `index`, offset sectors into the chunk. -/
def stored (conf : Conf) (rows index f offset : ℕ) : Copy where
  devnum := (index + f * conf.nearCopies) % conf.raidDisks
  addr := rowOf conf rows index f * 2 ^ conf.chunkShift + offset

theorem shift_back {near disks position back : ℕ} (hdisks : 0 < disks) (hback : back ≤ disks)
    (hnear : near ≡ position + back [MOD disks]) (hlt : near < disks) :
    (if near < back then near + disks - back else near - back) = position % disks := by
  have hposition := mod_lt position hdisks
  have hsum : near = (position % disks + back) % disks := by
    rw [mod_add_mod, ← hnear, mod_eq_of_lt hlt]
  by_cases hwrap : position % disks + back < disks
  · rw [mod_eq_of_lt hwrap] at hsum
    rw [if_neg (by omega)]
    omega
  · rw [mod_eq_sub_mod (by omega), mod_eq_of_lt (by omega)] at hsum
    rw [if_pos (by omega)]
    omega

theorem virtSector_eq :
    virtSector conf offset (index / conf.raidDisks) (index % conf.raidDisks) =
      index / conf.nearCopies * 2 ^ conf.chunkShift + offset := by
  rw [virtSector, shiftLeft_eq, mul_comm (index / conf.raidDisks), div_add_mod]

section Inverse

variable (hgeometry : Geometry conf rows arraySectors)
include hgeometry

/-- The loop of `raid10_find_virt` undoes one section after the other. -/
theorem rewind_eq (hoffset : conf.farOffset = false) (hindex : index < rows * conf.raidDisks)
    (hlt : offset < 2 ^ conf.chunkShift) {f fuel : ℕ} (hf : f < fuel) :
    rewind conf fuel ((index / conf.raidDisks + f * rows) * 2 ^ conf.chunkShift + offset)
        ((index + f * conf.nearCopies) % conf.raidDisks) =
      some (index / conf.raidDisks * 2 ^ conf.chunkShift + offset, index % conf.raidDisks) := by
  have hstride : conf.stride = rows * 2 ^ conf.chunkShift := by
    rw [hgeometry.stride, hoffset]
    rfl
  have hdisks := hgeometry.disks_pos
  have hnear := hgeometry.near_le
  induction f generalizing fuel with
  | zero =>
    obtain ⟨fuel, rfl⟩ : ∃ rest, fuel = rest + 1 := ⟨fuel - 1, by omega⟩
    have hrow : index / conf.raidDisks + 1 ≤ rows := Nat.div_lt_of_lt_mul (by rwa [mul_comm])
    have hinside := Nat.mul_le_mul_right (2 ^ conf.chunkShift) hrow
    rw [add_mul, one_mul] at hinside
    rw [rewind, if_neg (by rw [hstride, zero_mul, add_zero]; omega)]
    simp
  | succ f ih =>
    obtain ⟨fuel, rfl⟩ : ∃ rest, fuel = rest + 1 := ⟨fuel - 1, by omega⟩
    have hsector : (index / conf.raidDisks + (f + 1) * rows) * 2 ^ conf.chunkShift + offset =
        (index / conf.raidDisks + f * rows) * 2 ^ conf.chunkShift + offset + conf.stride := by
      rw [hstride]
      ring
    have hdevice : (if (index + (f + 1) * conf.nearCopies) % conf.raidDisks < conf.nearCopies then
        (index + (f + 1) * conf.nearCopies) % conf.raidDisks + (conf.raidDisks - conf.nearCopies)
        else (index + (f + 1) * conf.nearCopies) % conf.raidDisks - conf.nearCopies) =
        (index + f * conf.nearCopies) % conf.raidDisks := by
      have hmod : (index + (f + 1) * conf.nearCopies) % conf.raidDisks ≡
          index + f * conf.nearCopies + conf.nearCopies [MOD conf.raidDisks] := by
        rw [show index + f * conf.nearCopies + conf.nearCopies =
          index + (f + 1) * conf.nearCopies by ring]
        exact mod_modEq _ _
      rw [← shift_back hdisks hnear hmod (mod_lt _ hdisks), Nat.add_sub_assoc hnear]
    rw [rewind, hsector, if_pos (Nat.le_add_left _ _), Nat.add_sub_cancel, hdevice]
    exact ih (by omega)

theorem findVirt_stored {f : ℕ} (hindex : index < rows * conf.raidDisks) (hf : f < conf.farCopies)
    (hlt : offset < 2 ^ conf.chunkShift) :
    findVirt conf (stored conf rows index f offset).addr (stored conf rows index f offset).devnum =
      some (index / conf.nearCopies * 2 ^ conf.chunkShift + offset) := by
  have hmask : conf.chunkMask = 2 ^ conf.chunkShift - 1 := by
    rw [← hgeometry.mask]
    rfl
  have hpos : 0 < 2 ^ conf.chunkShift := by positivity
  have hsplit : ∀ row, (row * 2 ^ conf.chunkShift + offset) / 2 ^ conf.chunkShift = row := by
    intro row
    rw [mul_comm, mul_add_div hpos, div_eq_of_lt hlt, add_zero]
  rw [findVirt, hmask]
  simp only [stored, and_two_pow_sub_one_eq_mod, mul_add_mod_of_lt hlt,
    shiftRight_eq_div_pow, hsplit]
  cases hoffset : conf.farOffset with
  | true =>
    have hcopy : rowOf conf rows index f % conf.farCopies = f := by
      rw [rowOf, if_pos hoffset, mul_add_mod_of_lt hf]
    have hstripe : rowOf conf rows index f / conf.farCopies = index / conf.raidDisks := by
      rw [rowOf, if_pos hoffset, mul_comm, mul_add_div hgeometry.far, div_eq_of_lt hf, add_zero]
    have hback : f * conf.nearCopies < conf.raidDisks := by
      have := shift_lt hgeometry hgeometry.near hf
      omega
    have hdevice := shift_back hgeometry.disks_pos hback.le (mod_modEq _ _)
      (mod_lt (index + f * conf.nearCopies) hgeometry.disks_pos)
    rw [if_pos rfl, hcopy, hstripe, hdevice, virtSector_eq]
  | false =>
    have hrow : rowOf conf rows index f = index / conf.raidDisks + f * rows := by
      rw [rowOf, hoffset]
      rfl
    have hrows : 0 < rows := by
      apply Nat.pos_of_ne_zero
      rintro rfl
      omega
    -- every turn of the loop takes at least one sector off
    have hfuel : f < rowOf conf rows index f * 2 ^ conf.chunkShift + offset + 1 := by
      have : f * 1 ≤ f * rows := Nat.mul_le_mul_left f hrows
      have : f * rows ≤ rowOf conf rows index f := hrow ▸ Nat.le_add_left _ _
      have : rowOf conf rows index f * 1 ≤ rowOf conf rows index f * 2 ^ conf.chunkShift :=
        Nat.mul_le_mul_left _ hpos
      omega
    have hrewind := rewind_eq hgeometry hoffset hindex hlt hfuel
    rw [← hrow] at hrewind
    rw [if_neg Bool.false_ne_true, hrewind, Option.map_some]
    simp only [hsplit, virtSector_eq]

end Inverse

/-! ## The layouts without collisions -/

/-- No near copy is put where a far copy of the row before is: the far copies are in sections
of their own, or there are none, or the near copies of a chunk never wrap. -/
def Sound (conf : Conf) (rows : ℕ) : Prop :=
  conf.farOffset = false ∨ conf.farCopies = 1 ∨ conf.nearCopies ∣ conf.raidDisks ∨ rows ≤ 1

section Sound

variable (hgeometry : Geometry conf rows arraySectors)
include hgeometry

/-- The places of the copies of a chunk of the array are in the rows of a section. -/
theorem index_lt {n : ℕ} (hsector : sector < arraySectors) (hn : n < conf.nearCopies) :
    sector / 2 ^ conf.chunkShift * conf.nearCopies + n < rows * conf.raidDisks := by
  have hchunk : sector / 2 ^ conf.chunkShift < rows * conf.raidDisks / conf.nearCopies := by
    apply Nat.div_lt_of_lt_mul
    rw [mul_comm, ← hgeometry.sectors]
    exact hsector
  have hle : (sector / 2 ^ conf.chunkShift + 1) * conf.nearCopies ≤
      rows * conf.raidDisks / conf.nearCopies * conf.nearCopies := Nat.mul_le_mul_right _ hchunk
  have := div_mul_le_self (rows * conf.raidDisks) conf.nearCopies
  rw [add_mul, one_mul] at hle
  omega

section

variable (hsound : Sound conf rows)
include hsound

/-- In a sound layout with `far_offset` the near copies of a chunk do not wrap, or there are
no other rows. -/
theorem Sound.row_eq (hoffset : conf.farOffset = true) {chunk n : ℕ} (hn : n < conf.nearCopies)
    (hindex : chunk * conf.nearCopies + n < rows * conf.raidDisks) :
    conf.farCopies = 1 ∨ chunk * conf.nearCopies % conf.raidDisks + n < conf.raidDisks := by
  rcases hsound with hfalse | hone | hdvd | hrows
  · rw [hoffset] at hfalse
    cases hfalse
  · exact Or.inl hone
  · right
    obtain ⟨parts, hparts⟩ := hdvd
    have hpos : 0 < parts := by
      apply Nat.pos_of_ne_zero
      rintro rfl
      have := hgeometry.disks_pos
      omega
    have hlast : chunk % parts + 1 ≤ parts := mod_lt chunk hpos
    have hle := Nat.mul_le_mul_left conf.nearCopies hlast
    rw [hparts, mul_comm chunk, mul_mod_mul_left]
    rw [mul_add, mul_one] at hle
    omega
  · right
    have hle : rows * conf.raidDisks ≤ 1 * conf.raidDisks := Nat.mul_le_mul_right _ hrows
    rw [mod_eq_of_lt (by omega)]
    omega

theorem place_eq_stored {chunk n f : ℕ} (hn : n < conf.nearCopies)
    (hindex : chunk * conf.nearCopies + n < rows * conf.raidDisks) :
    place conf (chunk * conf.nearCopies % conf.raidDisks)
        (offset + firstRow conf (chunk * conf.nearCopies) * 2 ^ conf.chunkShift) n f =
      stored conf rows (chunk * conf.nearCopies + n) f offset := by
  have hdisks := hgeometry.disks_pos
  have hdevice : (chunk * conf.nearCopies % conf.raidDisks + n + f * conf.nearCopies) %
      conf.raidDisks = (chunk * conf.nearCopies + n + f * conf.nearCopies) % conf.raidDisks := by
    rw [add_assoc, mod_add_mod, ← add_assoc]
  have hrow : (chunk * conf.nearCopies + n) / conf.raidDisks =
      chunk * conf.nearCopies / conf.raidDisks +
        (chunk * conf.nearCopies % conf.raidDisks + n) / conf.raidDisks := by
    conv_lhs => rw [← div_add_mod (chunk * conf.nearCopies) conf.raidDisks, add_assoc,
      mul_add_div hdisks]
  simp only [place, stored, hdevice, Copy.mk.injEq, true_and]
  rw [firstRow, rowOf, hgeometry.stride]
  cases hoffset : conf.farOffset with
  | false =>
    simp only [Bool.false_eq_true, if_false, hrow]
    ring
  | true =>
    simp only [if_true]
    rcases hsound.row_eq hgeometry hoffset hn hindex with hone | hwrap
    · rw [hrow, hone]
      ring
    · rw [hrow, div_eq_of_lt hwrap]
      ring

theorem Sound.inverse (hsector : sector < arraySectors) (hcopy : copy ∈ findPhys conf sector) :
    findVirt conf copy.addr copy.devnum = some sector := by
  obtain ⟨n, hn, f, hf, rfl⟩ := (mem_findPhys hgeometry).mp hcopy
  have hindex := index_lt hgeometry hsector hn
  rw [place_eq_stored hgeometry hsound hn hindex,
    findVirt_stored hgeometry hindex hf (mod_lt _ (by positivity)), mul_comm _ conf.nearCopies,
    mul_add_div hgeometry.near, div_eq_of_lt hn, add_zero, mul_comm, div_add_mod]

theorem Sound.exact : Exact conf arraySectors where
  count sector _ := length_findPhys hgeometry sector
  devices sector _ := nodup_devnum hgeometry sector
  apart sector hsector sector' hsector' hne := by
    intro copy hcopy hcopy'
    have hback := hsound.inverse hgeometry hsector hcopy
    rw [hsound.inverse hgeometry hsector' hcopy', Option.some.injEq] at hback
    exact hne hback.symm
  inverse sector hsector copy hcopy := hsound.inverse hgeometry hsector hcopy

end

/-- The first near copy that wraps meets a far copy of the chunk before. -/
theorem collision (hoffset : conf.farOffset = true) (hfar : 2 ≤ conf.farCopies)
    (hdvd : ¬conf.nearCopies ∣ conf.raidDisks) (hrows : 2 ≤ rows) :
    ∃ chunk, 0 < chunk ∧ chunk * 2 ^ conf.chunkShift < arraySectors ∧
      ⟨0, 2 ^ conf.chunkShift⟩ ∈ findPhys conf (chunk * 2 ^ conf.chunkShift) ∧
      ⟨0, 2 ^ conf.chunkShift⟩ ∈ findPhys conf ((chunk - 1) * 2 ^ conf.chunkShift) := by
  have hnear := hgeometry.near
  have hpos : 0 < 2 ^ conf.chunkShift := by positivity
  have hstride : conf.stride = 2 ^ conf.chunkShift := by
    rw [hgeometry.stride, hoffset]
    simp
  have hsplit := div_add_mod conf.raidDisks conf.nearCopies
  have hrest := mod_lt conf.raidDisks hnear
  have hsome : 0 < conf.raidDisks % conf.nearCopies :=
    Nat.pos_of_ne_zero fun hzero => hdvd (dvd_of_mod_eq_zero hzero)
  have htwice : conf.nearCopies * 2 ≤ conf.raidDisks :=
    (Nat.mul_le_mul_left _ hfar).trans hgeometry.copies
  have hchunk : 2 ≤ conf.raidDisks / conf.nearCopies := by
    rw [Nat.le_div_iff_mul_le hnear, mul_comm]
    exact htwice
  generalize conf.raidDisks / conf.nearCopies = chunk at hsplit hchunk
  generalize conf.raidDisks % conf.nearCopies = rest at hsplit hrest hsome
  have hbefore : (chunk - 1) * conf.nearCopies + conf.nearCopies = conf.nearCopies * chunk := by
    obtain ⟨less, rfl⟩ : ∃ less, chunk = less + 1 := ⟨chunk - 1, by omega⟩
    rw [Nat.add_sub_cancel]
    ring
  have hcomm : chunk * conf.nearCopies = conf.nearCopies * chunk := mul_comm _ _
  refine ⟨chunk, by omega, ?_, ?_, ?_⟩
  · rw [hgeometry.sectors]
    apply Nat.mul_lt_mul_of_pos_right _ hpos
    rw [lt_iff_add_one_le, Nat.le_div_iff_mul_le hnear]
    have hle : 2 * conf.raidDisks ≤ rows * conf.raidDisks := Nat.mul_le_mul_right _ hrows
    rw [add_mul, one_mul]
    omega
  · -- the near copy that wraps: device 0 of the next row
    rw [mem_findPhys hgeometry]
    refine ⟨rest, hrest, 0, by omega, ?_⟩
    have hfull : chunk * conf.nearCopies % conf.raidDisks + rest = conf.raidDisks := by
      rw [mod_eq_of_lt (by omega)]
      omega
    rw [Nat.mul_div_cancel _ hpos, mul_mod_left, place, firstRow, hfull,
      div_eq_of_lt (by omega : chunk * conf.nearCopies < conf.raidDisks),
      Nat.div_self hgeometry.disks_pos]
    simp
  · -- a far copy of the chunk before, in the row of the far copies
    rw [mem_findPhys hgeometry]
    refine ⟨rest, hrest, 1, by omega, ?_⟩
    have hplace : (chunk - 1) * conf.nearCopies % conf.raidDisks + rest + conf.nearCopies =
        conf.raidDisks := by
      rw [mod_eq_of_lt (by omega)]
      omega
    rw [Nat.mul_div_cancel _ hpos, mul_mod_left, place, firstRow, one_mul, hplace,
      div_eq_of_lt (by omega : (chunk - 1) * conf.nearCopies < conf.raidDisks),
      div_eq_of_lt (by omega : (chunk - 1) * conf.nearCopies % conf.raidDisks + rest <
        conf.raidDisks), hstride]
    simp

theorem Exact.sound (hexact : Exact conf arraySectors) : Sound conf rows := by
  by_contra hnot
  simp only [Sound, not_or, Bool.not_eq_false, not_le] at hnot
  obtain ⟨hoffset, hone, hdvd, hrows⟩ := hnot
  have hfar := hgeometry.far
  obtain ⟨chunk, hpos, hlt, hnow, hbefore⟩ :=
    collision hgeometry hoffset (by omega) hdvd hrows
  have hshift : 0 < 2 ^ conf.chunkShift := by positivity
  have hless : (chunk - 1) * 2 ^ conf.chunkShift < chunk * 2 ^ conf.chunkShift :=
    Nat.mul_lt_mul_of_pos_right (by omega) hshift
  exact hexact.apart _ hlt _ (hless.trans hlt) hless.ne' hnow hbefore

end Sound

/-- For every layout that `run` accepts and every chunk size that is a power of two, the
mapping is collision free and `raid10_find_virt` inverts it if and only if the far copies are
not offset, or there is one of them, or the near copies divide the disks, or the array has no
second row. -/
theorem raid10_layout_exact {mddev : Mddev} {conf : Conf} {arraySectors shift : ℕ}
    (hchunk : mddev.chunkSize = 2 ^ (shift + 9)) (hrun : run mddev = some (conf, arraySectors)) :
    Exact conf arraySectors ↔
      mddev.farOffset = false ∨ mddev.farCopies = 1 ∨
        mddev.nearCopies ∣ mddev.raidDisks ∨ mddev.rows ≤ 1 := by
  have haccepted : mddev.accepted = true ∧ (mddev.conf, mddev.arraySectors) = (conf, arraySectors) := by
    simpa [run] using hrun
  obtain ⟨haccepted, hresult⟩ := haccepted
  cases hresult
  have hgeometry := geometry_conf haccepted hchunk
  constructor
  · intro hexact
    exact hexact.sound hgeometry
  · intro hsound
    exact Sound.exact hgeometry hsound

/-- Six disks with two near and two far copies. -/
theorem raid10_layout_exact_six :
    Exact (Mddev.conf ⟨66050, 6, 65536, 4096⟩) (Mddev.arraySectors ⟨66050, 6, 65536, 4096⟩) :=
  (@raid10_layout_exact ⟨66050, 6, 65536, 4096⟩ _ _ 7 (by decide) rfl).mpr
    (Or.inr (Or.inr (Or.inl (by decide))))

/-- Five disks with two near and two offset far copies: the second copy of chunk 2 is where
a far copy of chunk 1 is. -/
theorem raid10_layout_collides :
    (run ⟨66050, 5, 65536, 4096⟩).isSome ∧
      ⟨0, 128⟩ ∈ findPhys (Mddev.conf ⟨66050, 5, 65536, 4096⟩) 256 ∧
      ⟨0, 128⟩ ∈ findPhys (Mddev.conf ⟨66050, 5, 65536, 4096⟩) 128 ∧
      256 < Mddev.arraySectors ⟨66050, 5, 65536, 4096⟩ ∧
      ¬Exact (Mddev.conf ⟨66050, 5, 65536, 4096⟩) (Mddev.arraySectors ⟨66050, 5, 65536, 4096⟩) := by
  have hnow : ⟨0, 128⟩ ∈ findPhys (Mddev.conf ⟨66050, 5, 65536, 4096⟩) 256 := by decide
  have hbefore : ⟨0, 128⟩ ∈ findPhys (Mddev.conf ⟨66050, 5, 65536, 4096⟩) 128 := by decide
  have hlt : 256 < Mddev.arraySectors ⟨66050, 5, 65536, 4096⟩ := by decide
  refine ⟨by decide, hnow, hbefore, hlt, ?_⟩
  intro hexact
  exact hexact.apart 256 hlt 128 (by omega) (by decide) hnow hbefore

end KernelM5040.Raid10
