import Mathlib

/-!
# The next bit of its kind

A search upwards through a bitmap, in steps of one, for the first bit that is set
or for the first that is clear; and searches made of such searches, which start
again behind a candidate that does not do.
-/

namespace KernelM5040.FindNext

/-- The first number from `start` on, and below `start + steps`, with the property. -/
def findNext (property : ℕ → Bool) : ℕ → ℕ → ℕ
  | 0, start => start
  | steps + 1, start => if property start then start else findNext property steps (start + 1)

variable (bits : ℕ → Bool)

/-- The first bit with a value from `start` on, or the end. -/
structure Found (value : Bool) (max start found : ℕ) : Prop where
  lower : start ≤ found
  upper : found ≤ max
  before : ∀ bit ∈ Set.Ico start found, bits bit = !value
  found : found < max → bits found = value

theorem found_findNext_add (steps start : ℕ) :
    Found bits true (start + steps) start (findNext bits steps start) := by
  induction steps generalizing start with
  | zero =>
    refine ⟨le_rfl, le_rfl, fun bit hbit => ?_, fun hlt => absurd hlt (lt_irrefl _)⟩
    exact absurd (hbit.1.trans_lt hbit.2) (lt_irrefl _)
  | succ steps ih =>
    rw [findNext]
    split
    · rename_i hfound
      refine ⟨le_rfl, by omega, fun bit hbit => ?_, fun _ => hfound⟩
      exact absurd (hbit.1.trans_lt hbit.2) (lt_irrefl _)
    rename_i hnot
    obtain ⟨hlower, hupper, hbefore, hfound⟩ := ih (start + 1)
    refine ⟨by omega, by omega, fun bit hbit => ?_, fun hlt => hfound (by omega)⟩
    rcases eq_or_lt_of_le hbit.1 with rfl | hlt
    · simpa using hnot
    · exact hbefore bit ⟨hlt, hbit.2⟩

theorem found_findNext {max start : ℕ} (hstart : start ≤ max) :
    Found bits true max start (findNext bits (max - start) start) := by
  have hfound := found_findNext_add bits (max - start) start
  rwa [Nat.add_sub_cancel' hstart] at hfound

theorem found_findNext_not {max start : ℕ} (hstart : start ≤ max) :
    Found bits false max start (findNext (fun bit => !bits bit) (max - start) start) := by
  obtain ⟨hlower, hupper, hbefore, hfound⟩ := found_findNext (fun bit => !bits bit) hstart
  refine ⟨hlower, hupper, fun bit hbit => ?_, fun hlt => ?_⟩
  · have := hbefore bit hbit
    rwa [Bool.not_true, Bool.not_eq_false'] at this
  · have := hfound hlt
    rwa [Bool.not_eq_true'] at this

theorem Found.le_of_clear {bits : ℕ → Bool} {max start found i : ℕ}
    (hfound : Found bits false max start found) (hlow : start ≤ i) (hi : bits i = false) :
    found ≤ i := by
  refine not_lt.mp fun hlt => ?_
  have hset := hfound.before i ⟨hlow, hlt⟩
  rw [hi] at hset
  cases hset

/-- How one round of a search ends. -/
inductive Round
  | fail
  | found (i : ℕ)
  | again (start : ℕ)

/-- A search of at most so many rounds; nothing at all if they do not suffice. -/
def seek (round : ℕ → Option Round) : ℕ → ℕ → Option (Option ℕ)
  | 0, _ => none
  | rounds + 1, start => do
    match ← round start with
    | .fail => some none
    | .found i => some (some i)
    | .again next => seek round rounds next

/-- A round from `start` passes over no number that is good. -/
def Sound (good : Set ℕ) (bound start : ℕ) : Round → Prop
  | .fail => ∀ i ∈ good, i < start
  | .found i => IsLeast (good ∩ Set.Ici start) i
  | .again next => start < next ∧ next ≤ bound ∧ ∀ i ∈ good, start ≤ i → next ≤ i

/-- A round that tries a run of clear bits, and starts again behind the first that is set. -/
theorem sound_run {bits : ℕ → Bool} {good : Set ℕ} {nr bound start index : ℕ}
    (hgood : ∀ i ∈ good, ∀ bit ∈ Set.Ico i (i + nr), bits bit = false)
    (hpassed : ∀ i ∈ good, start ≤ i → index ≤ i) (hlower : start ≤ index)
    (hbound : index + nr ≤ bound)
    (hrun : (∀ bit ∈ Set.Ico index (index + nr), bits bit = false) → index ∈ good) :
    Sound good bound start (if findNext bits nr index < index + nr then
      .again (findNext bits nr index + 1) else .found index) := by
  obtain ⟨hfrom, -, hclear, hset⟩ := found_findNext_add bits nr index
  split_ifs with hcut
  · refine ⟨by omega, by omega, fun i hi hlow => ?_⟩
    have hindex := hpassed i hi hlow
    by_contra hless
    have hbit := hgood i hi _ ⟨Nat.lt_succ_iff.mp (not_le.mp hless), hcut.trans_le (by omega)⟩
    rw [hset hcut] at hbit
    cases hbit
  · refine ⟨⟨hrun fun bit hbit => ?_, hlower⟩, fun i hi => hpassed i hi.1 hi.2⟩
    exact hclear bit ⟨hbit.1, hbit.2.trans_le (not_lt.mp hcut)⟩

/-- A search by such rounds ends, with the first good number if there is one. -/
theorem exists_seek {round : ℕ → Option Round} {good : Set ℕ} {bound : ℕ}
    (hround : ∀ start ≤ bound, ∃ outcome, round start = some outcome ∧
      Sound good bound start outcome) {rounds start : ℕ} (hstart : start ≤ bound)
    (hrounds : bound < start + rounds) :
    ∃ result, seek round rounds start = some result ∧
      ∀ i, result = some i ↔ IsLeast (good ∩ Set.Ici start) i := by
  induction rounds generalizing start with
  | zero => omega
  | succ rounds ih =>
    obtain ⟨outcome, houtcome, hsound⟩ := hround start hstart
    rw [seek, houtcome]
    cases outcome with
    | fail =>
      refine ⟨none, rfl, fun i => ⟨nofun, fun hleast => ?_⟩⟩
      exact absurd (hsound i hleast.1.1) (not_lt.mpr hleast.1.2)
    | found found =>
      refine ⟨some found, rfl, fun i => ⟨fun hi => ?_, fun hleast => ?_⟩⟩
      · exact Option.some_inj.mp hi ▸ hsound
      · exact congrArg some (hsound.unique hleast)
    | again next =>
      obtain ⟨hlt, hle, hpassed⟩ := hsound
      have hsame : good ∩ Set.Ici start = good ∩ Set.Ici next :=
        Set.ext fun i => and_congr_right fun hi => ⟨hpassed i hi, hlt.le.trans⟩
      rw [hsame]
      exact ih hle (by omega)

end KernelM5040.FindNext
