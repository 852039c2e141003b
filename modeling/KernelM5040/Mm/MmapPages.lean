import KernelM5040.Mm.MmapAdjust

/-!
# The pages an address space maps

What an address space is for is a partial map from pages to file pages.  Every
area maps its pages along one line: the same file, flags and policy, and a
page offset that grows with the page.  Areas on one line can be joined and cut
at will without changing the map, which is all that splitting and merging rely
on; the results here reduce a change of the map to the stretch of the list
that was replaced.
-/

namespace KernelM5040.Mmap

open List SearchTree RbTree

/-- What a page maps to. -/
structure PageEntry where
  file : Option ℕ
  pgoff : Pgoff
  flags : Flags
  policy : Option ℕ
  deriving DecidableEq

/-- A line of pages: `base` is the page offset that page 0 would have. -/
structure Line where
  file : Option ℕ
  base : Pgoff
  flags : Flags
  policy : Option ℕ
  deriving DecidableEq

def Line.entry (line : Line) (page : ℕ) : PageEntry :=
  ⟨line.file, line.base + BitVec.ofNat 64 page, line.flags, line.policy⟩

/-- A page lies in an address range. -/
def InRange (start endAddr page : ℕ) : Prop := start ≤ page * pageSize ∧ page * pageSize < endAddr

instance (start endAddr page : ℕ) : Decidable (InRange start endAddr page) :=
  inferInstanceAs (Decidable (_ ∧ _))

namespace Area

def Covers (area : Area) (page : ℕ) : Prop := InRange area.vmStart area.vmEnd page

instance (area : Area) (page : ℕ) : Decidable (area.Covers page) :=
  inferInstanceAs (Decidable (InRange _ _ _))

/-- What an area maps a page to. -/
def page (area : Area) (page : ℕ) : Option PageEntry :=
  if area.Covers page then
    some ⟨area.vmFile, area.vmPgoff + pages area.vmStart (page * pageSize), area.vmFlags,
      area.vmPolicy⟩
  else none

def line (area : Area) : Line :=
  ⟨area.vmFile, area.vmPgoff - BitVec.ofNat 64 (area.vmStart / pageSize), area.vmFlags,
    area.vmPolicy⟩

end Area

/-- The map of an address space, as a function from page numbers. -/
def pageMap (mm : Mm) (page : ℕ) : Option PageEntry :=
  mm.mmap.findSome? fun vma => (mm.area vma).page page

variable {mm mm' : Mm} {front old new back list : List Vma} {vma next : Vma}
  {start endAddr : ℕ} {page : ℕ} {line : Line} {entry : PageEntry}

theorem pageSize_pos : 0 < pageSize := by decide

theorem pages_eq (hstart : pageSize ∣ start) (hle : start ≤ endAddr) :
    pages start endAddr =
      BitVec.ofNat 64 (endAddr / pageSize) - BitVec.ofNat 64 (start / pageSize) := by
  obtain ⟨count, rfl⟩ := hstart
  have hcount : count ≤ endAddr / pageSize := by
    rw [Nat.le_div_iff_mul_le pageSize_pos, mul_comm]
    exact hle
  rw [pages, Nat.mul_div_cancel_left count pageSize_pos, Nat.sub_mul_div]
  apply BitVec.eq_sub_iff_add_eq.mpr
  rw [← BitVec.ofNat_add, Nat.sub_add_cancel hcount]

theorem Area.page_eq_some_iff {area : Area} (hproper : area.Proper) :
    area.page page = some entry ↔ area.Covers page ∧ area.line.entry page = entry := by
  unfold Area.page
  by_cases hcovers : area.Covers page
  · have hpgoff : area.vmPgoff + pages area.vmStart (page * pageSize) =
        area.vmPgoff - BitVec.ofNat 64 (area.vmStart / pageSize) + BitVec.ofNat 64 page := by
      rw [pages_eq hproper.startAligned hcovers.1, Nat.mul_div_cancel page pageSize_pos]
      ring
    rw [if_pos hcovers, hpgoff]
    simp [hcovers, Area.line, Line.entry]
  · simp [hcovers]

/-- Some area on a list maps the page along the line. -/
def MapsIn (area : Vma → Area) (list : List Vma) (page : ℕ) (line : Line) : Prop :=
  ∃ vma ∈ list, (area vma).Covers page ∧ (area vma).line = line

section MapsIn

variable {area area' : Vma → Area}

theorem mapsIn_nil : ¬ MapsIn area [] page line := by
  simp [MapsIn]

theorem mapsIn_cons : MapsIn area (vma :: list) page line ↔
    ((area vma).Covers page ∧ (area vma).line = line) ∨ MapsIn area list page line := by
  simp [MapsIn]

theorem mapsIn_append : MapsIn area (front ++ back) page line ↔
    MapsIn area front page line ∨ MapsIn area back page line := by
  simp [MapsIn, or_and_right, exists_or]

theorem mapsIn_congr (harea : ∀ vma ∈ list, area' vma = area vma) :
    MapsIn area' list page line ↔ MapsIn area list page line := by
  refine exists_congr fun vma => and_congr_right fun hvma => ?_
  rw [harea vma hvma]

theorem not_mapsIn_of_below (hrange : InRange start endAddr page)
    (hbelow : ∀ vma ∈ list, (area vma).vmEnd ≤ start) : ¬ MapsIn area list page line := by
  intro ⟨vma, hvma, hcovers, _⟩
  exact absurd hcovers.2 (not_lt.mpr ((hbelow vma hvma).trans hrange.1))

theorem not_mapsIn_of_above (hrange : InRange start endAddr page)
    (habove : ∀ vma ∈ list, endAddr ≤ (area vma).vmStart) : ¬ MapsIn area list page line := by
  intro ⟨vma, hvma, hcovers, _⟩
  exact absurd hrange.2 (not_lt.mpr ((habove vma hvma).trans hcovers.1))

end MapsIn

theorem Ordered.covers_unique {area : Vma → Area} (hordered : Ordered area list) {other : Vma}
    (hvma : vma ∈ list) (hother : other ∈ list) (hcovers : (area vma).Covers page)
    (hcovers' : (area other).Covers page) : vma = other := by
  by_contra hne
  obtain ⟨front, back, rfl⟩ := append_of_mem hvma
  have hsides : other ∈ front ∨ other ∈ back := by
    simp only [mem_append, mem_cons] at hother
    exact hother.elim .inl fun hrest => hrest.elim (fun heq => absurd heq.symm hne) .inr
  rcases hsides with hmem | hmem
  · exact absurd hcovers'.2 (not_lt.mpr (hordered.below hcovers.1 other hmem))
  · exact absurd hcovers'.1 (not_le.mpr (hordered.above hcovers.2 other hmem))

theorem pageMap_eq_some_iff (hmm : WellFormed mm) :
    pageMap mm page = some entry ↔
      ∃ line, MapsIn mm.area mm.mmap page line ∧ line.entry page = entry := by
  constructor
  · intro hmap
    obtain ⟨vma, hvma, hpage⟩ := exists_of_findSome?_eq_some hmap
    obtain ⟨hcovers, hentry⟩ := (Area.page_eq_some_iff (hmm.ordered.proper vma hvma)).mp hpage
    exact ⟨_, ⟨vma, hvma, hcovers, rfl⟩, hentry⟩
  intro ⟨line, ⟨vma, hvma, hcovers, hline⟩, hentry⟩
  have hpage : (mm.area vma).page page = some entry :=
    (Area.page_eq_some_iff (hmm.ordered.proper vma hvma)).mpr ⟨hcovers, hline ▸ hentry⟩
  cases hmap : pageMap mm page with
  | none =>
    have hnone := findSome?_eq_none_iff.mp hmap vma hvma
    rw [hpage] at hnone
    exact absurd hnone (by simp)
  | some entry' =>
    obtain ⟨other, hother, hpage'⟩ := exists_of_findSome?_eq_some hmap
    have hcovers' :=
      ((Area.page_eq_some_iff (hmm.ordered.proper other hother)).mp hpage').1
    rw [← hmm.ordered.covers_unique hvma hother hcovers hcovers', hpage] at hpage'
    exact hpage'.symm

/-- Two well-formed address spaces whose areas map a page along the same lines
map it alike. -/
theorem pageMap_congr (hmm : WellFormed mm) (hmm' : WellFormed mm')
    (hmaps : ∀ line, MapsIn mm'.area mm'.mmap page line ↔ MapsIn mm.area mm.mmap page line) :
    pageMap mm' page = pageMap mm page := by
  apply Option.ext
  intro entry
  rw [pageMap_eq_some_iff hmm, pageMap_eq_some_iff hmm']
  exact exists_congr fun line => and_congr_left fun _ => hmaps line

/-- The pages of a range are mapped along one line, all others as before. -/
def Painted (mm mm' : Mm) (start endAddr : ℕ) (line : Line) : Prop :=
  ∀ page other, MapsIn mm'.area mm'.mmap page other ↔
    if InRange start endAddr page then other = line else MapsIn mm.area mm.mmap page other

theorem Painted.pageMap_eq (hpainted : Painted mm mm' start endAddr line) (hmm : WellFormed mm)
    (hmm' : WellFormed mm') (page : ℕ) :
    pageMap mm' page =
      if InRange start endAddr page then some (line.entry page) else pageMap mm page := by
  by_cases hrange : InRange start endAddr page
  · rw [if_pos hrange]
    refine (pageMap_eq_some_iff hmm').mpr ⟨line, (hpainted page line).mpr ?_, rfl⟩
    rw [if_pos hrange]
  · rw [if_neg hrange]
    refine pageMap_congr hmm hmm' fun other => (hpainted page other).trans ?_
    rw [if_neg hrange]

theorem Painted.trans_empty {mm'' : Mm} {addr : ℕ} {line' : Line}
    (hfirst : Painted mm mm' start endAddr line) (hsecond : Painted mm' mm'' addr addr line') :
    Painted mm mm'' start endAddr line := by
  intro page other
  have hempty : ¬ InRange addr addr page := fun hrange =>
    absurd hrange.2 (not_lt.mpr hrange.1)
  rw [hsecond page other, if_neg hempty]
  exact hfirst page other

/-- The two address spaces map every page alike. -/
def SameMap (mm mm' : Mm) : Prop :=
  ∀ page other, MapsIn mm'.area mm'.mmap page other ↔ MapsIn mm.area mm.mmap page other

section

variable (hreplaced : Replaced mm mm' front old new back)
include hreplaced

/-- What is mapped after a replacement: the stretch that came, and the areas
around it as before. -/
theorem Replaced.mapsIn_iff (page : ℕ) (other : Line) : MapsIn mm'.area mm'.mmap page other ↔
      MapsIn mm.area front page other ∨ MapsIn mm'.area new page other ∨
        MapsIn mm.area back page other := by
  have hframe (part : List Vma) (hpart : ∀ vma ∈ part, vma ∈ front ++ back) :
      MapsIn mm'.area part page other ↔ MapsIn mm.area part page other :=
    mapsIn_congr fun vma hvma => hreplaced.frame vma (hpart vma hvma)
  rw [hreplaced.list', mapsIn_append, mapsIn_append,
    hframe front fun vma hvma => mem_append_left _ hvma,
    hframe back fun vma hvma => mem_append_right _ hvma]

/-- A range is painted if it is painted in the stretch that was replaced and
the neighbours stay out of it. -/
theorem Replaced.painted (hfront : ∀ vma ∈ front, (mm.area vma).vmEnd ≤ start)
    (hback : ∀ vma ∈ back, endAddr ≤ (mm.area vma).vmStart)
    (hstretch : ∀ page other, MapsIn mm'.area new page other ↔
      if InRange start endAddr page then other = line else MapsIn mm.area old page other) :
    Painted mm mm' start endAddr line := by
  intro page other
  rw [hreplaced.mapsIn_iff, hstretch page other, hreplaced.list, mapsIn_append, mapsIn_append]
  by_cases hrange : InRange start endAddr page
  · have hnofront : ¬ MapsIn mm.area front page other := not_mapsIn_of_below hrange hfront
    have hnoback : ¬ MapsIn mm.area back page other := not_mapsIn_of_above hrange hback
    simp [hrange, hnofront, hnoback]
  · simp [hrange]

/-- No page changes if none does in the stretch that was replaced. -/
theorem Replaced.sameMap
    (hstretch : ∀ page other, MapsIn mm'.area new page other ↔ MapsIn mm.area old page other) :
    SameMap mm mm' := by
  intro page other
  rw [hreplaced.mapsIn_iff, hstretch page other, hreplaced.list, mapsIn_append, mapsIn_append]

end

theorem Replaced.painted_joined (hreplaced : Replaced mm mm' front old [vma] back) {area : Area}
    (harea : mm'.area vma = area) (hfront : ∀ vma ∈ front, (mm.area vma).vmEnd ≤ start)
    (hback : ∀ vma ∈ back, endAddr ≤ (mm.area vma).vmStart)
    (hline : area.line = line) (hlow : area.vmStart ≤ start) (hhigh : endAddr ≤ area.vmEnd)
    (hold : ∀ page other, ¬ InRange start endAddr page →
      (MapsIn mm.area old page other ↔ area.Covers page ∧ line = other)) :
    Painted mm mm' start endAddr line := by
  subst harea
  refine hreplaced.painted hfront hback fun page other => ?_
  rw [mapsIn_cons, hline]
  by_cases hrange : InRange start endAddr page
  · have hcovers : (mm'.area vma).Covers page :=
      ⟨hlow.trans hrange.1, hrange.2.trans_le hhigh⟩
    simp [hrange, hcovers, mapsIn_nil, eq_comm]
  · simp [hrange, hold page other hrange, mapsIn_nil]

end KernelM5040.Mmap
