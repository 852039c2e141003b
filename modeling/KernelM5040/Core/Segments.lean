import Mathlib

/-!
# Lists of segments

A segment is a range of integers with a kind.  A list of segments is ordered
when the segments are disjoint and sorted, and no two of one kind touch: it is
then the only such list for the map from integers to kinds that it stands for.
`Painting` follows an algorithm that paints one more segment over an ordered
list, going through the list from left to right.
-/

namespace KernelM5040.Segments

open List Int

variable {Kind : Type*} {point : ℤ} {kind : Kind}

@[ext]
structure Segment (Kind : Type*) where
  start : ℤ
  stop : ℤ
  kind : Kind

def Segment.Covers (segment : Segment Kind) (point : ℤ) : Prop :=
  segment.start ≤ point ∧ point ≤ segment.stop

/-- Left of the other segment, with a gap if both are of one kind. -/
def Segment.Before (left right : Segment Kind) : Prop :=
  left.stop < right.start ∧ (left.kind = right.kind → left.stop < right.start - 1)

/-- The range from the smaller start to the larger stop. -/
def Segment.hull (left right : Segment Kind) : Segment Kind :=
  { left with start := min left.start right.start, stop := max left.stop right.stop }

/-- The part left of another segment. -/
def Segment.cutLeft (segment top : Segment Kind) : Segment Kind :=
  { segment with stop := top.start - 1 }

/-- The part right of another segment. -/
def Segment.cutRight (segment top : Segment Kind) : Segment Kind :=
  { segment with start := top.stop + 1 }

open Segment

@[mk_iff]
structure Ordered (segments : List (Segment Kind)) : Prop where
  proper : ∀ segment ∈ segments, segment.start ≤ segment.stop
  pairwise : segments.Pairwise Before

/-- The map a list of segments stands for. -/
def Holds (segments : List (Segment Kind)) (point : ℤ) (kind : Kind) : Prop :=
  ∃ segment ∈ segments, segment.Covers point ∧ segment.kind = kind

/-- A map with one segment painted over it. -/
def overlay (top : Segment Kind) (under : ℤ → Kind → Prop) (point : ℤ) (kind : Kind) : Prop :=
  (top.Covers point ∧ kind = top.kind) ∨ (¬ top.Covers point ∧ under point kind)

theorem holds_append {left right : List (Segment Kind)} :
    Holds (left ++ right) point kind ↔ Holds left point kind ∨ Holds right point kind := by
  simp [Holds, or_and_right, exists_or]

variable {segment : Segment Kind} {rest : List (Segment Kind)}

theorem holds_cons :
    Holds (segment :: rest) point kind ↔
      (segment.Covers point ∧ segment.kind = kind) ∨ Holds rest point kind := by
  simp [Holds]

theorem holds_nil : ¬ Holds [] point kind := by
  simp [Holds]

theorem overlay_congr {top : Segment Kind} {under under' : ℤ → Kind → Prop}
    (hunder : ¬ top.Covers point → (under point kind ↔ under' point kind)) :
    overlay top under point kind ↔ overlay top under' point kind := by
  unfold overlay
  by_cases hcovers : top.Covers point
  · simp [hcovers]
  · simp [hcovers, hunder hcovers]

theorem Ordered.sublist {segments fewer : List (Segment Kind)} (hordered : Ordered segments)
    (hsublist : fewer.Sublist segments) : Ordered fewer where
  proper := fun segment hmem => hordered.proper segment (hsublist.subset hmem)
  pairwise := hordered.pairwise.sublist hsublist

theorem ordered_append {left right : List (Segment Kind)} :
    Ordered (left ++ right) ↔
      Ordered left ∧ Ordered right ∧ ∀ s ∈ left, ∀ t ∈ right, s.Before t := by
  simp only [ordered_iff, forall_mem_append, pairwise_append, and_assoc, and_left_comm]

theorem ordered_cons :
    Ordered (segment :: rest) ↔
      segment.start ≤ segment.stop ∧ Ordered rest ∧ ∀ t ∈ rest, segment.Before t := by
  simp only [ordered_iff, forall_mem_cons, pairwise_cons, and_assoc, and_comm, and_left_comm]

theorem ordered_nil : Ordered ([] : List (Segment Kind)) := ⟨by simp, Pairwise.nil⟩

theorem ordered_singleton (hproper : segment.start ≤ segment.stop) : Ordered [segment] :=
  ordered_cons.mpr ⟨hproper, ordered_nil, by simp⟩

/-- A segment is exchanged for parts of it. -/
theorem Ordered.exchange {before after middle : List (Segment Kind)}
    (hordered : Ordered (before ++ segment :: after)) (hmiddle : Ordered middle)
    (hparts : ∀ part ∈ middle, segment.start ≤ part.start ∧ part.stop ≤ segment.stop ∧
      part.kind = segment.kind) : Ordered (before ++ (middle ++ after)) := by
  obtain ⟨hbefore, hrest, hcross⟩ := ordered_append.mp hordered
  obtain ⟨_, hafter, hhead⟩ := ordered_cons.mp hrest
  refine ordered_append.mpr ⟨hbefore, ordered_append.mpr ⟨hmiddle, hafter, ?_⟩, ?_⟩
  · intro part hpart later hlater
    obtain ⟨-, hstop, hkind⟩ := hparts part hpart
    have hlt := hhead later hlater
    exact ⟨hstop.trans_lt hlt.1, fun hsame => hstop.trans_lt (hlt.2 (hkind.symm.trans hsame))⟩
  · intro other hother
    obtain ⟨hsegment, hlater⟩ := forall_mem_cons.mp (hcross other hother)
    refine forall_mem_append.mpr ⟨fun part hpart => ?_, hlater⟩
    obtain ⟨hstart, -, hkind⟩ := hparts part hpart
    exact ⟨hsegment.1.trans_le hstart, fun hsame =>
      (hsegment.2 (hsame.trans hkind)).trans_le (Int.sub_le_sub_right hstart 1)⟩

theorem Ordered.holds_unique {segments : List (Segment Kind)} (hordered : Ordered segments)
    {kind' : Kind} (hleft : Holds segments point kind) (hright : Holds segments point kind') :
    kind = kind' := by
  induction segments with
  | nil => exact absurd hleft holds_nil
  | cons segment rest ih =>
    obtain ⟨_, hrest, hcross⟩ := ordered_cons.mp hordered
    have hclash : ∀ {other}, segment.Covers point → Holds rest point other → False := by
      rintro other hcovers ⟨later, hlater, hcovers', _⟩
      have hlt := (hcross later hlater).1
      have hle := hcovers.2
      have hge := hcovers'.1
      omega
    rcases holds_cons.mp hleft with ⟨hcovers, rfl⟩ | hleft
    · rcases holds_cons.mp hright with ⟨_, rfl⟩ | hright
      · rfl
      · exact (hclash hcovers hright).elim
    · rcases holds_cons.mp hright with ⟨hcovers, rfl⟩ | hright
      · exact (hclash hcovers hleft).elim
      · exact ih hrest hleft hright

/-! ## Two segments that touch -/

/-- Segments of one kind that are not apart make up their hull. -/
theorem Segment.covers_hull {left right : Segment Kind} (hkind : left.kind = right.kind)
    (hbefore : ¬ left.Before right) (hafter : ¬ right.Before left) (point : ℤ) :
    (left.hull right).Covers point ↔ left.Covers point ∨ right.Covers point := by
  simp only [Before, hkind, true_imp_iff, not_and, not_lt] at hbefore hafter
  simp only [Covers, hull]
  constructor
  · rintro ⟨hstart, hstop⟩
    by_contra hnone
    rw [not_or, not_and, not_and, not_le, not_le] at hnone
    omega
  · rintro (⟨hstart, hstop⟩ | ⟨hstart, hstop⟩)
    · exact ⟨by omega, by omega⟩
    · exact ⟨by omega, by omega⟩

theorem Segment.Before.trans_proper {left middle right : Segment Kind} (hfirst : left.Before middle)
    (hproper : middle.start ≤ middle.stop) (hsecond : middle.Before right) : left.Before right := by
  have hlt := hfirst.1
  have hlt' := hsecond.1
  exact ⟨by omega, fun _ => by omega⟩

/-! ## Painting -/

/-- The state of a painting: the segments in `done` are left of `top`, `left`
is the segment that `top` cuts on its left side, if there is one, and `rest` is
still to be looked at.  `target` is the map that is to come out. -/
structure Painting (target : ℤ → Kind → Prop) (done left : List (Segment Kind))
    (top : Segment Kind) (rest : List (Segment Kind)) : Prop where
  ordered : Ordered (done ++ left ++ rest)
  proper : top.start ≤ top.stop
  before : ∀ segment ∈ done, segment.Before top
  reaches : ∀ segment ∈ left, segment.start < top.start ∧ top.start ≤ segment.stop ∧
    segment.stop ≤ top.stop ∧ segment.kind ≠ top.kind
  paints : ∀ point kind, overlay top (Holds (done ++ left ++ rest)) point kind ↔ target point kind

variable {target : ℤ → Kind → Prop} {done left rest : List (Segment Kind)}
  {top segment : Segment Kind}

theorem Painting.start_of_left (hpainting : Painting target done left top rest)
    (hleft : left ≠ []) : ∀ segment ∈ rest, top.start ≤ segment.start := by
  obtain ⟨cut, hcut⟩ := exists_mem_of_ne_nil left hleft
  intro segment hsegment
  obtain ⟨_, _, hcross⟩ := ordered_append.mp hpainting.ordered
  have hlt := (hcross cut (mem_append_right done hcut) segment hsegment).1
  have hle := (hpainting.reaches cut hcut).2.1
  omega

theorem overlay_exchange (before after : List (Segment Kind)) {middle middle' : List (Segment Kind)}
    (hmiddle : ∀ point kind, ¬ top.Covers point →
      (Holds middle' point kind ↔ Holds middle point kind)) (point : ℤ) (kind : Kind) :
    overlay top (Holds (before ++ (middle' ++ after))) point kind ↔
      overlay top (Holds (before ++ (middle ++ after))) point kind := by
  apply overlay_congr
  intro hnot
  simp [holds_append, hmiddle point kind hnot]

theorem Segment.holds_cutLeft (hstop : segment.stop ≤ top.stop) (hreach : top.start ≤ segment.stop)
    (hnot : ¬ top.Covers point) :
    Holds [segment.cutLeft top] point kind ↔ Holds [segment] point kind := by
  simp only [holds_cons, holds_nil, or_false, Covers, cutLeft] at hnot ⊢
  rw [not_and, not_le] at hnot
  refine and_congr_left fun _ => ⟨fun h => ⟨h.1, by omega⟩, fun h => ⟨h.1, ?_⟩⟩
  by_contra hlt
  omega

theorem Segment.holds_cutRight (hstart : top.start ≤ segment.start)
    (hreach : segment.start ≤ top.stop) (hnot : ¬ top.Covers point) :
    Holds [segment.cutRight top] point kind ↔ Holds [segment] point kind := by
  simp only [holds_cons, holds_nil, or_false, Covers, cutRight] at hnot ⊢
  rw [not_and, not_le] at hnot
  refine and_congr_left fun _ => ⟨fun h => ⟨by omega, h.2⟩, fun h => ⟨?_, h.2⟩⟩
  omega

theorem Segment.holds_split (hproper : top.start ≤ top.stop) (hstart : segment.start < top.start)
    (hstop : top.stop < segment.stop) (hnot : ¬ top.Covers point) :
    Holds [segment.cutLeft top, segment.cutRight top] point kind ↔ Holds [segment] point kind := by
  simp only [holds_cons, holds_nil, or_false, Covers, cutLeft, cutRight] at hnot ⊢
  rw [not_and, not_le] at hnot
  rw [← or_and_right]
  refine and_congr_left fun _ => ⟨?_, fun h => ?_⟩
  · rintro (h | h)
    · exact ⟨h.1, by omega⟩
    · exact ⟨by omega, h.2⟩
  · by_cases hleft : point ≤ top.start - 1
    · exact Or.inl ⟨h.1, hleft⟩
    · have := hnot (by omega)
      exact Or.inr ⟨by omega, h.2⟩

/-- The segment on the left side is cut off where the painted one begins. -/
theorem Painting.cutLeft (hpainting : Painting target done [segment] top rest) :
    Painting target (done ++ [segment.cutLeft top]) [] top rest := by
  obtain ⟨hordered, hproper, hdone, hleft, hpaints⟩ := hpainting
  obtain ⟨hstart, hreach, hstop, hkind⟩ := hleft segment (mem_singleton_self segment)
  refine ⟨?_, hproper, ?_, by simp, fun point kind => ?_⟩
  · rw [append_assoc] at hordered
    rw [append_nil, append_assoc]
    refine hordered.exchange (ordered_singleton (le_sub_one_of_lt hstart)) ?_
    rw [forall_mem_singleton]
    exact ⟨le_rfl, (sub_one_lt_of_le hreach).le, rfl⟩
  · rw [forall_mem_append, forall_mem_singleton]
    exact ⟨hdone, ⟨sub_one_lt_of_le le_rfl, fun hsame => absurd hsame hkind⟩⟩
  · have hexchange := overlay_exchange done rest
      (fun point kind hnot => holds_cutLeft hstop hreach hnot) point kind
    rw [append_nil, append_assoc, hexchange, ← append_assoc]
    exact hpaints point kind

section

variable (hpainting : Painting target done left top (segment :: rest))
include hpainting

theorem Painting.cover (hstart : top.start ≤ segment.start) (hstop : segment.stop ≤ top.stop) :
    Painting target done left top rest := by
  obtain ⟨hordered, hproper, hdone, hleft, hpaints⟩ := hpainting
  refine ⟨hordered.sublist ((sublist_cons_self segment rest).append_left _), hproper,
    hdone, hleft, fun point kind => (overlay_congr ?_).trans (hpaints point kind)⟩
  intro hnot
  have hgone : ¬ (segment.Covers point ∧ segment.kind = kind) := by
    rintro ⟨⟨hfrom, hto⟩, _⟩
    exact hnot ⟨by omega, by omega⟩
  simp [holds_append, holds_cons, hgone]

/-- A touching segment of the same kind becomes part of the painted one. -/
theorem Painting.absorb (hkind : top.kind = segment.kind) (hbefore : ¬ top.Before segment)
    (hafter : ¬ segment.Before top) : Painting target done left (top.hull segment) rest := by
  have hcovers := covers_hull hkind hbefore hafter
  have hstart : left ≠ [] → top.start ≤ segment.start := fun hne =>
    hpainting.start_of_left hne segment mem_cons_self
  obtain ⟨hordered, hproper, hdone, hleft, hpaints⟩ := hpainting
  obtain ⟨_, hrest, hcross⟩ := ordered_append.mp hordered
  refine ⟨hordered.sublist ((sublist_cons_self segment rest).append_left _), ?_, ?_, ?_,
    fun point kind => Iff.trans ?_ (hpaints point kind)⟩
  · simp only [hull]
    omega
  · intro other hother
    have htop := hdone other hother
    have hsegment := hcross other (mem_append_left left hother) segment mem_cons_self
    refine ⟨?_, fun hsame => ?_⟩
    · have := htop.1
      have := hsegment.1
      simp only [hull]
      omega
    · have := htop.2 hsame
      have := hsegment.2 (hsame.trans hkind)
      simp only [hull]
      omega
  · intro cut hcut
    obtain ⟨hlt, hle, hstop, hne⟩ := hleft cut hcut
    have := hstart (ne_nil_of_mem hcut)
    simp only [hull]
    exact ⟨by omega, by omega, by omega, hne⟩
  · -- a new point of the hull lies in `segment`, so it had this kind already
    by_cases htop : top.Covers point
    · have hhull := (hcovers point).mpr (Or.inl htop)
      simp only [overlay, htop, hhull, true_and, not_true, false_and, or_false]
      rfl
    by_cases hsegment : segment.Covers point
    · have hhull := (hcovers point).mpr (Or.inr hsegment)
      have hheld : Holds (done ++ left ++ segment :: rest) point segment.kind :=
        ⟨segment, by simp, hsegment, rfl⟩
      simp only [overlay, htop, hhull, true_and, not_true, not_false_eq_true, false_and,
        or_false, false_or]
      constructor
      · rintro rfl
        rw [← hkind] at hheld
        exact hheld
      · intro hholds
        exact (hordered.holds_unique hholds hheld).trans hkind.symm
    · have hhull : ¬ (top.hull segment).Covers point := fun hyes =>
        ((hcovers point).mp hyes).elim htop hsegment
      simp [overlay, htop, hhull, holds_append, holds_cons, hsegment]

/-- A segment that ends right of the painted one is cut off where that ends. -/
theorem Painting.cutRight (hstart : top.start ≤ segment.start) (hreach : segment.start ≤ top.stop)
    (hstop : top.stop < segment.stop) :
    Painting target done left top (segment.cutRight top :: rest) := by
  obtain ⟨hordered, hproper, hdone, hleft, hpaints⟩ := hpainting
  refine ⟨?_, hproper, hdone, hleft, fun point kind => ?_⟩
  · refine hordered.exchange (ordered_singleton (add_one_le_of_lt hstop)) ?_
    rw [forall_mem_singleton]
    exact ⟨(lt_add_one_of_le hreach).le, le_rfl, rfl⟩
  · have hexchange := overlay_exchange (done ++ left) rest
      (fun point kind hnot => holds_cutRight hstart hreach hnot) point kind
    exact hexchange.trans (hpaints point kind)

end

section

variable (hpainting : Painting target done [] top (segment :: rest))
include hpainting

theorem Painting.pass (hbefore : segment.Before top) :
    Painting target (done ++ [segment]) [] top rest := by
  obtain ⟨hordered, hproper, hdone, _, hpaints⟩ := hpainting
  rw [append_nil] at hordered hpaints
  refine ⟨?_, hproper, ?_, by simp, ?_⟩
  · rw [append_nil, append_assoc]
    exact hordered
  · rw [forall_mem_append, forall_mem_singleton]
    exact ⟨hdone, hbefore⟩
  · rw [append_nil, append_assoc]
    exact hpaints

/-- A segment that begins left of the painted one and ends under it. -/
theorem Painting.setLeft (hstart : segment.start < top.start) (hreach : top.start ≤ segment.stop)
    (hstop : segment.stop ≤ top.stop) (hkind : segment.kind ≠ top.kind) :
    Painting target done [segment] top rest := by
  obtain ⟨hordered, hproper, hdone, _, hpaints⟩ := hpainting
  rw [append_nil] at hordered hpaints
  refine ⟨?_, hproper, hdone, ?_, ?_⟩
  · rw [append_assoc]
    exact hordered
  · intro cut hcut
    rw [mem_singleton.mp hcut]
    exact ⟨hstart, hreach, hstop, hkind⟩
  · rw [append_assoc]
    exact hpaints

/-- A segment that reaches past the painted one on both sides is split. -/
theorem Painting.split (hstart : segment.start < top.start) (hstop : top.stop < segment.stop)
    (hkind : segment.kind ≠ top.kind) :
    Painting target (done ++ [segment.cutLeft top]) [] top (segment.cutRight top :: rest) := by
  obtain ⟨hordered, hproper, hdone, _, hpaints⟩ := hpainting
  rw [append_nil] at hordered hpaints
  refine ⟨?_, hproper, ?_, by simp, fun point kind => ?_⟩
  · rw [append_nil, append_assoc]
    refine hordered.exchange (ordered_cons.mpr ⟨le_sub_one_of_lt hstart,
      ordered_singleton (add_one_le_of_lt hstop), ?_⟩) ?_
    · rw [forall_mem_singleton]
      simp only [Before, Segment.cutLeft, Segment.cutRight]
      exact ⟨by omega, fun _ => by omega⟩
    · rw [forall_mem_cons, forall_mem_singleton]
      simp only [Segment.cutLeft, Segment.cutRight]
      exact ⟨⟨le_rfl, by omega, trivial⟩, by omega, le_rfl, trivial⟩
  · rw [forall_mem_append, forall_mem_singleton]
    exact ⟨hdone, ⟨sub_one_lt_of_le le_rfl, fun hsame => absurd hsame hkind⟩⟩
  · have hexchange := overlay_exchange done rest
      (fun point kind hnot => holds_split hproper hstart hstop hnot) point kind
    rw [append_nil, append_assoc]
    exact hexchange.trans (hpaints point kind)

end

/-! ## The end of a painting -/

theorem Painting.after_head (hpainting : Painting target done left top (segment :: rest))
    (hhead : top.Before segment) : ∀ later ∈ segment :: rest, top.Before later := by
  obtain ⟨_, hrest, _⟩ := ordered_append.mp hpainting.ordered
  obtain ⟨hproper, _, hcross⟩ := ordered_cons.mp hrest
  rw [forall_mem_cons]
  exact ⟨hhead, fun later hmem => hhead.trans_proper hproper (hcross later hmem)⟩

section

variable (hpainting : Painting target done [] top rest) (hafter : ∀ later ∈ rest, top.Before later)
include hpainting hafter

theorem Painting.not_holds (kind : Kind) (hcovers : top.Covers point) :
    ¬ Holds (done ++ rest) point kind := by
  rintro ⟨segment, hmem, hsegment, _⟩
  have hfrom := hcovers.1
  have hto := hcovers.2
  rcases mem_append.mp hmem with hmem | hmem
  · have := (hpainting.before segment hmem).1
    have := hsegment.2
    omega
  · have := (hafter segment hmem).1
    have := hsegment.1
    omega

/-- When nothing is left to cut, the painted segment goes between the two
sides. -/
theorem Painting.insert :
    Ordered (done ++ top :: rest) ∧
      ∀ point kind, Holds (done ++ top :: rest) point kind ↔ target point kind := by
  have hordered := hpainting.ordered
  rw [append_nil] at hordered
  obtain ⟨hdone, hrest, hcross⟩ := ordered_append.mp hordered
  refine ⟨ordered_append.mpr ⟨hdone, ordered_cons.mpr ⟨hpainting.proper, hrest, hafter⟩, ?_⟩,
    fun point kind => ?_⟩
  · intro other hother
    rw [forall_mem_cons]
    exact ⟨hpainting.before other hother, hcross other hother⟩
  rw [← hpainting.paints, append_nil, holds_append, holds_cons, overlay]
  by_cases hcovers : top.Covers point
  · have hnone := hpainting.not_holds hafter kind hcovers
    rw [holds_append, not_or] at hnone
    simp [hcovers, hnone, eq_comm]
  · simp [hcovers, holds_append]

theorem Painting.erase :
    Ordered (done ++ rest) ∧
      ∀ point kind, kind ≠ top.kind →
        (Holds (done ++ rest) point kind ↔ target point kind) := by
  have hordered := hpainting.ordered
  rw [append_nil] at hordered
  refine ⟨hordered, fun point kind hkind => ?_⟩
  rw [← hpainting.paints, append_nil, overlay]
  by_cases hcovers : top.Covers point
  · simp [hcovers, hkind, hpainting.not_holds hafter kind hcovers]
  · simp [hcovers]

end

end KernelM5040.Segments
