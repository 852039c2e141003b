import KernelM5040.Core.FindNext
import KernelM5040.Core.Word

/-!
# Areas of an IOMMU's map: lib/iommu-helper.c

`iommu_area_alloc` looks for clear bits in a row at a multiple of the alignment,
such that they do not cross a boundary, and sets them.  It takes a run of bits that
ends with the map for one that goes beyond it.
-/

namespace KernelM5040.IommuHelper

open FindNext Word Option

variable (map : ℕ → Bool) (size nr alignMask shift boundarySize : ℕ) (start : ℕ)

/-- One turn of `find_next_zero_area` -/
def zeroAreaRound : Round :=
  let index := align (findNext (fun i => !map i) (size - start) start) (alignMask + 1)
  let stop := index + nr
  if stop ≥ size then .fail
  else
    let i := findNext map nr index
    if i < stop then .again (i + 1) else .found index

/-- `find_next_zero_area`, which takes a bit at least with every turn -/
def findNextZeroArea : Option (Option ℕ) :=
  seek (fun start => some (zeroAreaRound map size nr alignMask start)) (size + 1) start

def iommuIsSpanBoundary (index : ℕ) : Bool :=
  let shift := (shift + index) &&& (boundarySize - 1)
  shift + nr > boundarySize

/-- One turn of `iommu_area_alloc` -/
def areaRound : Option Round :=
  (findNextZeroArea map size nr alignMask start).map fun
    | none => .fail
    | some index =>
      if iommuIsSpanBoundary nr shift boundarySize index then .again (index + 1) else .found index

def setBitArea (index : ℕ) : ℕ → Bool := fun i => if index ≤ i ∧ i < index + nr then true else map i

/-- `iommu_area_alloc` with the map it leaves; nothing within for the result `~0UL` -/
def iommuAreaAlloc : Option (Option ℕ × (ℕ → Bool)) :=
  (seek (areaRound map size nr alignMask shift boundarySize) (size + 1) start).map fun index =>
    (index, index.elim map (setBitArea map nr))

/-- Clear bits in a row at a multiple of the alignment. -/
def zeroAreas : Set ℕ :=
  {i | alignMask + 1 ∣ i ∧ i + nr < size ∧ ∀ bit ∈ Set.Ico i (i + nr), map bit = false}

/-- The areas that do not cross a boundary either: those the caller may be given. -/
def areas : Set ℕ :=
  {i | alignMask + 1 ∣ i ∧ i + nr ≤ size ∧ (∀ bit ∈ Set.Ico i (i + nr), map bit = false) ∧
    (shift + i) % boundarySize + nr ≤ boundarySize}

/-- The call ends with the lowest area from `start` on, which is set, or without any. -/
def AllocExact : Prop :=
  ∃ result, iommuAreaAlloc map size nr alignMask shift boundarySize start =
      some (result, result.elim map (setBitArea map nr)) ∧
    ∀ i, result = some i ↔
      IsLeast (areas map size nr alignMask shift boundarySize ∩ Set.Ici start) i

variable {map size nr alignMask shift boundarySize} {start : ℕ}

section Rounds

variable (hmask : size + alignMask < 2 ^ 64) (hnr : 0 < nr)

include hmask hnr

theorem sound_zeroAreaRound (hstart : start ≤ size) :
    Sound (zeroAreas map size nr alignMask) size start
      (zeroAreaRound map size nr alignMask start) := by
  have hclear := found_findNext_not map hstart
  rw [zeroAreaRound]
  generalize findNext (fun i => !map i) (size - start) start = clear at hclear ⊢
  have hfits : clear + (alignMask + 1 - 1) < 2 ^ 64 := by
    have := hclear.upper
    omega
  -- no area begins before the first clear bit, nor between two multiples
  have hpassed (i) (hi : i ∈ zeroAreas map size nr alignMask) (hlow : start ≤ i) :
      align clear (alignMask + 1) ≤ i :=
    align_le (Nat.succ_pos _) hfits hi.1 (hclear.le_of_clear hlow (hi.2.2 i ⟨le_rfl, by omega⟩))
  dsimp only
  by_cases hend : align clear (alignMask + 1) + nr ≥ size
  · rw [if_pos hend]
    intro i hi
    have hinside := hi.2.1
    by_contra hlow
    have := hpassed i hi (not_lt.mp hlow)
    omega
  · rw [if_neg hend]
    exact sound_run (fun i hi => hi.2.2) hpassed
      (hclear.lower.trans (le_align (Nat.succ_pos alignMask) hfits)) (not_le.mp hend).le
      fun hrun => ⟨align_dvd _ _, not_le.mp hend, hrun⟩

theorem exists_findNextZeroArea (map : ℕ → Bool) (hstart : start ≤ size) :
    ∃ result, findNextZeroArea map size nr alignMask start = some result ∧
      ∀ i, result = some i ↔ IsLeast (zeroAreas map size nr alignMask ∩ Set.Ici start) i :=
  exists_seek (fun _ hle => ⟨_, rfl, sound_zeroAreaRound hmask hnr hle⟩) hstart (by omega)

variable (hboundary : ∃ exponent, boundarySize = 2 ^ exponent)

include hboundary

theorem exists_areaRound (hstart : start ≤ size) :
    ∃ outcome, areaRound map size nr alignMask shift boundarySize start = some outcome ∧
      Sound {i | i ∈ areas map size nr alignMask shift boundarySize ∧ i + nr < size} size start
        outcome := by
  obtain ⟨exponent, rfl⟩ := hboundary
  obtain ⟨result, hresult, hleast⟩ := exists_findNextZeroArea hmask hnr map hstart
  have hzero {i} (hi : i ∈ areas map size nr alignMask shift (2 ^ exponent) ∧ i + nr < size) :
      i ∈ zeroAreas map size nr alignMask := ⟨hi.1.1, hi.2, hi.1.2.2.1⟩
  rw [areaRound, hresult, map_some]
  refine ⟨_, rfl, ?_⟩
  cases result with
  | none =>
    refine fun i hi => not_le.mp fun hlow => ?_
    cases (hleast _).mpr (isLeast_csInf ⟨i, hzero hi, hlow⟩)
  | some index =>
    obtain ⟨⟨hindex, hlow⟩, hlower⟩ := (hleast index).mp rfl
    have hinside := hindex.2.1
    rw [Set.mem_Ici] at hlow
    dsimp only
    split_ifs with hcross <;>
      rw [iommuIsSpanBoundary, Nat.and_two_pow_sub_one_eq_mod, decide_eq_true_iff] at hcross
    · refine ⟨by omega, by omega, fun i hi hle => ?_⟩
      refine Nat.lt_of_le_of_ne (hlower ⟨hzero hi, hle⟩) fun hsame => ?_
      exact absurd (hsame ▸ hi.1.2.2.2) (not_le.mpr hcross)
    · refine ⟨⟨⟨⟨hindex.1, hinside.le, hindex.2.2, not_lt.mp hcross⟩, hinside⟩, hlow⟩, ?_⟩
      exact fun i hi => hlower ⟨hzero hi.1, hi.2⟩

end Rounds

/-- `iommu_area_alloc` is exact unless the lowest area ends where the map does. -/
theorem iommuAreaAlloc_exact_iff (hsize : size < 2 ^ 31) (hnr : 0 < nr)
    (hmask : ∃ k < 31, alignMask = 2 ^ k - 1) (hboundary : ∃ exponent, boundarySize = 2 ^ exponent)
    (hstart : start ≤ size) :
    AllocExact map size nr alignMask shift boundarySize start ↔
      ∀ i, IsLeast (areas map size nr alignMask shift boundarySize ∩ Set.Ici start) i →
        i + nr ≠ size := by
  have hword : size + alignMask < 2 ^ 64 := by
    obtain ⟨k, hk, rfl⟩ := hmask
    have := Nat.pow_lt_pow_right (by decide : 1 < 2) hk
    omega
  obtain ⟨result, hresult, hleast⟩ :=
    exists_seek (fun _ => exists_areaRound hword hnr hboundary) hstart
      (show size < start + (size + 1) by omega)
  have hcall : iommuAreaAlloc map size nr alignMask shift boundarySize start =
      some (result, result.elim map (setBitArea map nr)) := by
    rw [iommuAreaAlloc, hresult, map_some]
  constructor
  · rintro ⟨result', hcall', hexact⟩ i hi hend
    rw [hcall, some_inj, Prod.mk.injEq] at hcall'
    have hsound := (hleast i).mp (hcall'.1.trans ((hexact i).mpr hi))
    exact absurd hend hsound.1.1.2.ne
  intro hends
  refine ⟨result, hcall, fun i => (hleast i).trans ⟨fun hi => ?_, fun hi => ?_⟩⟩
  · have hfirst := isLeast_csInf (s := areas map size nr alignMask shift boundarySize ∩
      Set.Ici start) ⟨i, hi.1.1.1, hi.1.2⟩
    have hinside := lt_of_le_of_ne hfirst.1.1.2.1 (hends _ hfirst)
    have hle := hi.2 ⟨⟨hfirst.1.1, hinside⟩, hfirst.1.2⟩
    rwa [le_antisymm hle (hfirst.2 ⟨hi.1.1.1, hi.1.2⟩)]
  · exact ⟨⟨⟨hi.1.1, lt_of_le_of_ne hi.1.1.2.1 (hends i hi)⟩, hi.1.2⟩, fun other hother =>
      hi.2 ⟨hother.1.1, hother.2⟩⟩

/-- Two bits of the map are set, and the areas at 2 and at 6 cross a boundary. -/
theorem iommuAreaAlloc_exact_eight :
    AllocExact (fun bit => decide (bit = 1 ∨ bit = 5)) 16 3 1 1 4 0 :=
  (iommuAreaAlloc_exact_iff (by decide) (by decide) ⟨1, by decide⟩ ⟨2, rfl⟩ (by decide)).mpr
    fun i hi hend => by
      have hle : i ≤ 8 := hi.2 ⟨⟨by decide, by decide, fun bit hbit => ?_, by decide⟩, by simp⟩
      · omega
      · rw [Set.mem_Ico] at hbit
        simp
        omega

/-- The only bit of a map is free, and is not found. -/
theorem iommuAreaAlloc_misses_end : ¬AllocExact (fun _ => false) 1 1 0 0 1 0 := by
  rintro ⟨result, hcall, hexact⟩
  have hnone : some none = some result := congrArg (Option.map Prod.fst) hcall
  cases hnone
  have hfree : 0 ∈ areas (fun _ => false) 1 1 0 0 1 ∩ Set.Ici 0 := by simp [areas]
  cases (hexact 0).mpr ⟨hfree, fun _ _ => Nat.zero_le _⟩

end KernelM5040.IommuHelper
