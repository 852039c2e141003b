import KernelM5040.Mm.BuddyRuns

/-!
# The free blocks are determined by the free pages

Freeing climbs until the buddy is not free, and splitting never lists a block
beside its free buddy.  A zone that starts without free buddies therefore never
has any, and its free blocks are the one canonical way to cut its free pages.
-/

namespace KernelM5040.PageAlloc

open KernelM5040.Dyadic

variable {layout : ZoneLayout}

theorem freeBlocks_eq_of_freePages_eq {left right : Zone} (hleft : ZoneOk layout left)
    (hright : ZoneOk layout right) (hcleft : Canonical layout.maxOrder (freeBlocks left))
    (hcright : Canonical layout.maxOrder (freeBlocks right))
    (hpages : freePages left = freePages right) : freeBlocks left = freeBlocks right :=
  Canonical.eq_of_covered_eq hleft.tiling hright.tiling hcleft hcright hleft.order_lt
    hright.order_lt hpages

/-- The free pages are the pages of the system that are not handed out. -/
theorem SystemOk.freePages_eq {system : System} (hok : SystemOk layout system) :
    freePages system.zone = (system.allocated ∪ freePages system.zone) \ system.allocated := by
  rw [Set.union_sdiff_left]
  exact hok.disjoint.symm.sdiff_eq_left.symm

/-- Along every run no two buddies below the top order are both free.  Two runs
that end with the same free pages end with the same free blocks, and so does a
run that has given back what it took. -/
theorem buddy_canonical_of_runs {start finish start' finish' : System} (hok : SystemOk layout start)
    (hok' : SystemOk layout start') (hcanonical : Canonical layout.maxOrder (freeBlocks start.zone))
    (hcanonical' : Canonical layout.maxOrder (freeBlocks start'.zone))
    (hrun : Relation.ReflTransGen (Step layout) start finish)
    (hrun' : Relation.ReflTransGen (Step layout) start' finish') :
    (∀ block ∈ freeBlocks finish.zone, block.order < layout.maxOrder - 1 →
        block.buddy ∉ freeBlocks finish.zone) ∧
      (freePages finish.zone = freePages finish'.zone →
        freeBlocks finish.zone = freeBlocks finish'.zone) ∧
      (finish.allocated = start.allocated → freeBlocks finish.zone = freeBlocks start.zone) := by
  have hleft := Preserved.of_run hok hrun
  have hright := Preserved.of_run hok' hrun'
  have hfinish := hleft.canonical hcanonical
  refine ⟨?_, ?_, ?_⟩
  · intro block hblock horder
    exact hfinish block hblock (by omega)
  · intro hpages
    exact freeBlocks_eq_of_freePages_eq hleft.ok.toZoneOk hright.ok.toZoneOk hfinish
      (hright.canonical hcanonical') hpages
  · intro hallocated
    apply freeBlocks_eq_of_freePages_eq hleft.ok.toZoneOk hok.toZoneOk hfinish hcanonical
    rw [hleft.ok.freePages_eq, hleft.pages, hallocated, ← hok.freePages_eq]

theorem smallZone_canonical : Canonical smallLayout.maxOrder (freeBlocks smallZone) := by
  rw [freeBlocks_smallZone]
  rintro block rfl horder
  exact absurd horder (by decide)

/-- Allocating a page of the small zone and giving it back restores its one
free block. -/
theorem smallSystem_canonical_of_runs :
    freeBlocks (freeOnePage smallLayout smallTaken 0 0) = freeBlocks smallZone :=
  (buddy_canonical_of_runs smallSystem_ok smallSystem_ok smallZone_canonical smallZone_canonical
    smallSystem_run Relation.ReflTransGen.refl).2.2 rfl

end KernelM5040.PageAlloc
