import Mathlib

/-!
# Pieces laid out on a line

Pieces have a start and a length.  A list of them is arranged between two
points when they are non-empty and follow each other without overlap; it tiles
the range when there are no gaps either.  Counting is enough to tell: arranged
pieces whose lengths add up to the length of the range tile it.
-/

namespace KernelM5040.Tiling

open List

variable {Piece : Type*} (start length : Piece → ℕ)

/-- Non-empty pieces between two points, each after the one before. -/
def Arranged (low : ℕ) : List Piece → ℕ → Prop
  | [], high => low ≤ high
  | piece :: pieces, high =>
    low ≤ start piece ∧ 0 < length piece ∧
      Arranged (start piece + length piece) pieces high

/-- Pieces without a gap from one point to another. -/
def Tiles (low : ℕ) : List Piece → ℕ → Prop
  | [], high => low = high
  | piece :: pieces, high => start piece = low ∧ Tiles (low + length piece) pieces high

variable {start length} {piece : Piece} {pieces front back : List Piece}
  {low middle high position : ℕ}

theorem Arranged.le (harranged : Arranged start length low pieces high) : low ≤ high := by
  induction pieces generalizing low with
  | nil => exact harranged
  | cons piece pieces ih =>
    have := ih harranged.2.2
    have := harranged.1
    omega

theorem Arranged.low_mono (harranged : Arranged start length middle pieces high)
    (hle : low ≤ middle) : Arranged start length low pieces high := by
  cases pieces with
  | nil => exact hle.trans harranged
  | cons piece pieces => exact ⟨hle.trans harranged.1, harranged.2⟩

theorem Arranged.high_mono (harranged : Arranged start length low pieces middle)
    (hle : middle ≤ high) : Arranged start length low pieces high := by
  induction pieces generalizing low with
  | nil => exact le_trans harranged hle
  | cons piece pieces ih => exact ⟨harranged.1, harranged.2.1, ih harranged.2.2⟩

theorem arranged_append :
    Arranged start length low (front ++ back) high ↔
      ∃ middle, Arranged start length low front middle ∧ Arranged start length middle back high := by
  induction front generalizing low with
  | nil =>
    constructor
    · intro harranged
      exact ⟨low, le_rfl, harranged⟩
    · rintro ⟨middle, hle, harranged⟩
      exact harranged.low_mono hle
  | cons piece front ih =>
    simp only [cons_append, Arranged, ih, and_assoc, exists_and_left]

/-- The end of the last piece. -/
def reach (start length : Piece → ℕ) (low : ℕ) (pieces : List Piece) : ℕ :=
  match pieces.getLast? with
  | none => low
  | some piece => start piece + length piece

theorem Arranged.reach (harranged : Arranged start length low pieces high) :
    Arranged start length low pieces (Tiling.reach start length low pieces) ∧
      Tiling.reach start length low pieces ≤ high := by
  rcases eq_nil_or_concat pieces with rfl | ⟨init, last, rfl⟩
  · exact ⟨le_rfl, harranged⟩
  rw [concat_eq_append] at harranged ⊢
  obtain ⟨middle, hinit, hlow, hlength, hhigh⟩ := arranged_append.mp harranged
  have hreach : Tiling.reach start length low (init ++ [last]) = start last + length last := by
    simp [Tiling.reach]
  rw [hreach]
  exact ⟨arranged_append.mpr ⟨middle, hinit, hlow, hlength, le_rfl⟩, hhigh⟩

/-- What follows in a list starts after the end of the last piece before it. -/
theorem Arranged.split (harranged : Arranged start length low (front ++ back) high) :
    Arranged start length low front (Tiling.reach start length low front) ∧
      Arranged start length (Tiling.reach start length low front) back high := by
  obtain ⟨middle, hfront, hback⟩ := arranged_append.mp harranged
  obtain ⟨hreach, hle⟩ := hfront.reach
  exact ⟨hreach, hback.low_mono hle⟩

theorem Arranged.mem (harranged : Arranged start length low pieces high) (hmem : piece ∈ pieces) :
    low ≤ start piece ∧ 0 < length piece ∧ start piece + length piece ≤ high := by
  obtain ⟨front, back, rfl⟩ := append_of_mem hmem
  obtain ⟨middle, hfront, hlow, hlength, hback⟩ := arranged_append.mp harranged
  exact ⟨hfront.le.trans hlow, hlength, hback.le⟩

theorem arranged_map {Source : Type*} {place : Source → Piece} {sources : List Source} :
    Arranged start length low (sources.map place) high ↔
      Arranged (start ∘ place) (length ∘ place) low sources high := by
  induction sources generalizing low with
  | nil => rfl
  | cons source sources ih => simp only [map_cons, Arranged, ih, Function.comp_apply]

section

variable (harranged : Arranged start length low pieces high)
include harranged

theorem Arranged.pairwise :
    pieces.Pairwise fun piece later => start piece + length piece ≤ start later := by
  induction pieces generalizing low with
  | nil => exact Pairwise.nil
  | cons piece pieces ih =>
    refine pairwise_cons.mpr ⟨fun later hmem => ?_, ih harranged.2.2⟩
    exact (harranged.2.2.mem hmem).1

theorem Arranged.sum_le : low + (pieces.map length).sum ≤ high := by
  induction pieces generalizing low with
  | nil => exact harranged
  | cons piece pieces ih =>
    have hrest := ih harranged.2.2
    have hlow := harranged.1
    rw [map_cons, sum_cons]
    omega

theorem Arranged.tiles (hsum : low + (pieces.map length).sum = high) :
    Tiles start length low pieces high := by
  induction pieces generalizing low with
  | nil => exact hsum
  | cons piece pieces ih =>
    rw [map_cons, sum_cons] at hsum
    have hrest := harranged.2.2.sum_le
    have hlow := harranged.1
    have hstart : start piece = low := by omega
    refine ⟨hstart, ?_⟩
    rw [← hstart]
    exact ih harranged.2.2 (by omega)

end

theorem tiles_append :
    Tiles start length low (front ++ back) high ↔
      ∃ middle, Tiles start length low front middle ∧ Tiles start length middle back high := by
  induction front generalizing low with
  | nil => exact ⟨fun htiles => ⟨low, rfl, htiles⟩, fun ⟨_, hlow, htiles⟩ => hlow ▸ htiles⟩
  | cons piece front ih => simp only [cons_append, Tiles, ih, and_assoc, exists_and_left]

theorem Tiles.arranged (htiles : Tiles start length low pieces high)
    (hpositive : ∀ piece ∈ pieces, 0 < length piece) : Arranged start length low pieces high := by
  induction pieces generalizing low with
  | nil => exact le_of_eq htiles
  | cons piece pieces ih =>
    obtain ⟨hpiece, hpieces⟩ := forall_mem_cons.mp hpositive
    obtain ⟨hstart, hrest⟩ := htiles
    exact ⟨hstart.ge, hpiece, hstart ▸ ih hrest hpieces⟩

theorem Tiles.exists_getElem (htiles : Tiles start length low pieces high) (hlow : low ≤ position)
    (hhigh : position < high) :
    ∃ index, ∃ hindex : index < pieces.length,
      start pieces[index] ≤ position ∧ position < start pieces[index] + length pieces[index] := by
  induction pieces generalizing low with
  | nil =>
    have : low = high := htiles
    omega
  | cons piece pieces ih =>
    obtain ⟨hstart, hrest⟩ := htiles
    by_cases hinside : position < low + length piece
    · exact ⟨0, Nat.succ_pos _, by simp only [getElem_cons_zero]; omega⟩
    · obtain ⟨index, hindex, hfound⟩ := ih hrest (by omega)
      exact ⟨index + 1, Nat.succ_lt_succ hindex, by simpa using hfound⟩

section Contents

variable {Element : Type*} {contents : Piece → List Element}

section

variable (htiles : Tiles start length low pieces high)
  (hcontents : ∀ piece ∈ pieces, (contents piece).length = length piece)
include htiles hcontents

/-- The contents of a tiling, put together, have the length of the range. -/
theorem Tiles.length_flatMap : low + (pieces.flatMap contents).length = high := by
  induction pieces generalizing low with
  | nil => exact htiles
  | cons piece pieces ih =>
    obtain ⟨hpiece, hpieces⟩ := forall_mem_cons.mp hcontents
    have hrest := ih htiles.2 hpieces
    rw [flatMap_cons, length_append, hpiece]
    omega

/-- Each element of the contents comes from its place in a piece. -/
theorem Tiles.getElem?_flatMap (hlow : low ≤ position) (hhigh : position < high) :
    ∃ piece ∈ pieces, start piece ≤ position ∧ position < start piece + length piece ∧
      (pieces.flatMap contents)[position - low]? = (contents piece)[position - start piece]? := by
  induction pieces generalizing low with
  | nil =>
    have : low = high := htiles
    omega
  | cons piece pieces ih =>
    obtain ⟨hpiece, hpieces⟩ := forall_mem_cons.mp hcontents
    obtain ⟨hstart, hrest⟩ := htiles
    rw [flatMap_cons]
    by_cases hinside : position < low + length piece
    · refine ⟨piece, mem_cons_self, by omega, by omega, ?_⟩
      rw [getElem?_append_left (by omega), hstart]
    · obtain ⟨found, hmem, hle, hlt, heq⟩ := ih hrest hpieces (by omega)
      refine ⟨found, mem_cons_of_mem _ hmem, hle, hlt, ?_⟩
      rw [getElem?_append_right (by omega), ← heq, hpiece, Nat.sub_add_eq]

end

end Contents

end KernelM5040.Tiling
