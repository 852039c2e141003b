import KernelM5040.Mm.BuddyInvariant

/-!
# Runs of the buddy allocator

Allocation takes one block off the lists, possibly after the free pages of its
pageblock have been moved to other lists, and hands out the front of it.  The
allocator is then followed over whole runs, together with the set of pages that
are handed out.
-/

namespace KernelM5040.PageAlloc

open Option Set Function KernelM5040.Dyadic Prod

variable {layout : ZoneLayout} {zone : Zone} {zone' : Zone} {page order current : ℕ}
  {migratetype : MigrateType}

/-! ## Moving free pages between lists -/

/-- The same blocks, on other lists. -/
structure Relisted (layout : ZoneLayout) (zone zone' : Zone) : Prop where
  consistent : Consistent layout zone'
  blocks : freeBlocks zone' = freeBlocks zone
  listed : ∀ order, listed zone' order = listed zone order
  counts : zone'.nrFree = zone.nrFree
  counter : zone'.nrFreePages = zone.nrFreePages

theorem Relisted.refl (hok : Consistent layout zone) : Relisted layout zone zone :=
  ⟨hok, rfl, fun _ => rfl, rfl, rfl⟩

theorem Relisted.trans {zone'' : Zone} (hfirst : Relisted layout zone zone')
    (hsecond : Relisted layout zone' zone'') : Relisted layout zone zone'' where
  consistent := hsecond.consistent
  blocks := hsecond.blocks.trans hfirst.blocks
  listed := fun order => (hsecond.listed order).trans (hfirst.listed order)
  counts := hsecond.counts.trans hfirst.counts
  counter := hsecond.counter.trans hfirst.counter

theorem Relisted.setPageblock (hrelisted : Relisted layout zone zone') (page : ℕ)
    (migratetype : MigrateType) :
    Relisted layout zone (setPageblockMigratetype layout zone' page migratetype) where
  consistent := hrelisted.consistent.congr rfl fun _ _ _ => Iff.rfl
  blocks := hrelisted.blocks
  listed := hrelisted.listed
  counts := hrelisted.counts
  counter := hrelisted.counter

theorem relist_eq (hbuddy : zone.pageBuddy page = true) (migratetype : MigrateType) :
    listAdd (listDel zone page) page (zone.pagePrivate page) migratetype =
      deposit (withdraw zone page) page (zone.pagePrivate page) migratetype := by
  have hflag : update (update zone.pageBuddy page false) page true = zone.pageBuddy := by
    rw [update_idem, ← hbuddy, update_eq_self]
  have hprivate : update (update zone.pagePrivate page 0) page
      (zone.pagePrivate page) = zone.pagePrivate := by
    rw [update_idem, update_eq_self]
  simp [deposit, withdraw, setPageOrder, rmvPageOrder, listAdd, listDel, hflag, hprivate]

theorem Relisted.relist (hok : Consistent layout zone) (hmapped : layout.Mapped page)
    (hbuddy : zone.pageBuddy page = true) (migratetype : MigrateType) :
    Relisted layout zone
      (listAdd (listDel zone page) page (zone.pagePrivate page) migratetype) := by
  have hblock : (⟨zone.pagePrivate page, page⟩ : Block) ∈ freeBlocks zone :=
    (hok.flags page _ hmapped).mp ⟨hbuddy, rfl⟩
  have hunlisted := Unlisted.of_withdraw hok hblock
  rw [relist_eq hbuddy]
  refine ⟨Consistent.deposit hunlisted migratetype, ?_, fun order => ?_, rfl, rfl⟩
  · have hblocks := freeBlocks_withdraw hok hblock
    rw [freeBlocks_deposit, hblocks, insert_sdiff_singleton, insert_eq_of_mem hblock]
  · rw [listed_deposit, listed_withdraw hok hblock]

theorem moveFreepagesLoop_relisted (endPage : ℕ) (migratetype : MigrateType)
    (rounds page moved : ℕ) (hok : Consistent layout zone)
    (hrange : ∀ pfn, page ≤ pfn → pfn ≤ endPage → layout.pfnValidWithin pfn = true →
      layout.Mapped pfn) :
    Relisted layout zone
      (moveFreepagesLoop layout endPage migratetype rounds zone page moved).2 := by
  induction rounds generalizing zone page moved with
  | zero => exact Relisted.refl hok
  | succ rounds ih =>
    have hnext : ∀ step, ∀ pfn, page + step ≤ pfn → pfn ≤ endPage →
        layout.pfnValidWithin pfn = true → layout.Mapped pfn :=
      fun step pfn hfrom => hrange pfn (by omega)
    rw [moveFreepagesLoop]
    by_cases hend : endPage < page
    · rw [if_pos hend]
      exact Relisted.refl hok
    rw [if_neg hend]
    by_cases hvalid : layout.pfnValidWithin page = true
    · by_cases hbuddy : zone.pageBuddy page = true
      · simp only [hvalid, hbuddy, Bool.not_true, Bool.false_eq_true, if_false]
        have hstep := Relisted.relist hok (hrange page le_rfl (by omega) hvalid) hbuddy migratetype
        exact hstep.trans (ih _ _ hstep.consistent (hnext _))
      · simp only [hvalid, hbuddy, Bool.not_true, Bool.false_eq_true, if_false,
          Bool.not_false, if_true]
        exact ih _ _ hok (hnext 1)
    · simp only [hvalid, Bool.not_false, if_true]
      exact ih _ _ hok (hnext 1)

/-- The pageblock is cut off at the boundaries of the zone, so only pages of
the zone are looked at. -/
theorem moveFreepagesBlock_relisted (hok : Consistent layout zone) (hpage : layout.InZone page)
    (migratetype : MigrateType) :
    Relisted layout zone (moveFreepagesBlock layout zone page migratetype).2 := by
  simp only [moveFreepagesBlock]
  split
  · exact Relisted.refl hok
  rename_i hend
  apply moveFreepagesLoop_relisted _ _ _ _ _ hok
  intro pfn hfrom hto hvalid
  rw [ldiff_low] at hfrom hto hend
  have hsplit := Nat.div_add_mod' page (2 ^ layout.pageblockOrder)
  have hlow := Nat.mod_lt page (Nat.two_pow_pos layout.pageblockOrder)
  have hstart := hpage.1
  have hblock : pfn / 2 ^ layout.pageblockOrder = page / 2 ^ layout.pageblockOrder := by
    apply Nat.div_eq_of_lt_le
    · split at hfrom <;> omega
    · rw [Nat.succ_mul]
      omega
  refine ⟨hvalid, layout.spanned_own page pfn hpage.1 hpage.2.1 hpage.2.2.1 hpage.2.2.2 hblock ?_
    (by omega) hvalid⟩
  split at hfrom <;> omega

/-! ## Allocation -/

/-- The effect of a successful allocation. -/
structure Taken (layout : ZoneLayout) (zone : Zone) (block : Block) (zone' : Zone) : Prop
    where
  ok : ZoneOk layout zone'
  aligned : block.Aligned
  wasFree : block.pages ⊆ freePages zone
  freePages_eq : freePages zone' = freePages zone \ block.pages
  canonical : Canonical layout.maxOrder (freeBlocks zone) →
    Canonical layout.maxOrder (freeBlocks zone')

/-- The end that all allocation paths share.  `relisted` is the zone when the
block leaves its list, with `nr_free` already lowered. -/
theorem Taken.of_expand (hok : ZoneOk layout zone)
    (hblock : (⟨current, page⟩ : Block) ∈ freeBlocks zone) (hle : order ≤ current)
    (relisted removed : Zone) (hrelisted : Relisted layout (decNrFree zone current) relisted)
    (hlists : removed.freeList = (withdraw relisted page).freeList)
    (hbuddy : removed.pageBuddy = (withdraw relisted page).pageBuddy)
    (hprivate : removed.pagePrivate = (withdraw relisted page).pagePrivate)
    (hcounts : removed.nrFree = relisted.nrFree)
    (hcounter : removed.nrFreePages = relisted.nrFreePages + -(2 ^ order : ℕ))
    (migratetype : MigrateType) :
    Taken layout zone ⟨order, page⟩ (expand removed page order current migratetype) := by
  have hblock' : (⟨current, page⟩ : Block) ∈ freeBlocks relisted := by
    rw [hrelisted.blocks]
    exact hblock
  obtain ⟨hpending, hblocks, hpages, htotal⟩ :=
    @Pending.of_withdraw layout relisted removed ⟨current, page⟩ hrelisted.consistent hblock'
      hlists hbuddy hprivate (by
        intro order' horder'
        rw [hcounts, hrelisted.counts, hrelisted.listed]
        exact hok.counted.decNrFree hok.toConsistent hblock order' horder')
  obtain ⟨hrest, hsame, hcanon⟩ := expand_spec migratetype hpending hle
  have hfree : freePages relisted = freePages zone := by
    unfold freePages
    rw [hrelisted.blocks]
    rfl
  have hunion : (⟨order, page⟩ : Block).pages ∪
      freePages (expand removed page order current migratetype) = freePages zone := by
    rw [hsame.pages, ← hpages, hfree]
  refine ⟨⟨hrest.consistent, hrest.counted, ?_⟩, hrest.aligned, ?_, ?_, ?_⟩
  · have hlisted : freeTotal layout relisted = freeTotal layout zone := by
      simp only [freeTotal, hrelisted.listed]
      rfl
    have hsum : 2 ^ order + freeTotal layout
        (expand removed page order current migratetype) = freeTotal layout zone := by
      rw [hsame.total, ← hlisted, htotal, add_comm]
    have hnow : zone.nrFreePages = freeTotal layout zone := hok.nrFreePages_eq
    have hrel : relisted.nrFreePages = zone.nrFreePages := hrelisted.counter
    rw [hsame.counter, hcounter, hrel, hnow, ← hsum]
    push_cast
    ring
  · rw [← hunion]
    exact subset_union_left
  · rw [← hunion, union_sdiff_left]
    exact hrest.fresh.symm.sdiff_eq_left.symm
  · intro hcanonical
    apply hcanon
    rw [hblocks, hrelisted.blocks]
    exact hcanonical.subset sdiff_subset

theorem rmqueueSmallestFrom_taken (hok : ZoneOk layout zone) (order : ℕ) (migratetype : MigrateType)
    (rounds current : ℕ) (hle : order ≤ current)
    (hsome : rmqueueSmallestFrom zone order migratetype rounds current = some (page, zone')) :
    Taken layout zone ⟨order, page⟩ zone' := by
  induction rounds generalizing current with
  | zero => simp [rmqueueSmallestFrom] at hsome
  | succ rounds ih =>
    rw [rmqueueSmallestFrom] at hsome
    split at hsome
    · exact ih (current + 1) (by omega) hsome
    rename_i first rest hlist
    have hblock : (⟨current, first⟩ : Block) ∈ freeBlocks zone :=
      ⟨migratetype, by rw [hlist]; exact List.mem_cons_self⟩
    obtain ⟨rfl, rfl⟩ := mk.inj (some.inj hsome)
    exact Taken.of_expand hok hblock hle (decNrFree zone current)
      (modZonePageState (decNrFree (rmvPageOrder (listDel zone first) first) current)
        (-(2 ^ order : ℕ)))
      (Relisted.refl (hok.toConsistent.congr rfl fun _ _ _ => Iff.rfl)) rfl rfl rfl rfl
      rfl migratetype

theorem fallbackPage_mem {types : List MigrateType}
    (hsome : fallbackPage zone current types = some (migratetype, page)) :
    page ∈ zone.freeList current migratetype := by
  induction types with
  | nil => simp [fallbackPage] at hsome
  | cons first rest ih =>
    rw [fallbackPage] at hsome
    split at hsome
    · exact ih hsome
    split at hsome
    · exact ih hsome
    rename_i head tail hlist
    obtain ⟨rfl, rfl⟩ := mk.inj (some.inj hsome)
    rw [hlist]
    exact List.mem_cons_self

theorem findFallback_mem {rounds : ℕ} {start : MigrateType}
    (hsome : findFallback zone order start rounds = some (current, migratetype, page)) :
    order ≤ current ∧ page ∈ zone.freeList current migratetype := by
  induction rounds with
  | zero => simp [findFallback] at hsome
  | succ rounds ih =>
    rw [findFallback] at hsome
    split at hsome
    · rename_i found head hfound
      obtain ⟨rfl, rest⟩ := mk.inj (some.inj hsome)
      obtain ⟨rfl, rfl⟩ := mk.inj rest
      exact ⟨Nat.le_add_right _ _, fallbackPage_mem hfound⟩
    · exact ih hsome

theorem takeFallback_taken (hok : ZoneOk layout zone) (start migratetype : MigrateType)
    (hblock : (⟨current, page⟩ : Block) ∈ freeBlocks zone) (hle : order ≤ current) :
    Taken layout zone ⟨order, page⟩
      (takeFallback layout zone order start current migratetype page).2 := by
  have hlowered : Consistent layout (decNrFree zone current) :=
    hok.toConsistent.congr rfl fun _ _ _ => Iff.rfl
  have hpage : layout.InZone page := hok.inZone _ hblock _ (Block.head_mem_pages _)
  have hmoved := moveFreepagesBlock_relisted hlowered hpage start
  set moved := moveFreepagesBlock layout (decNrFree zone current) page start with hmovedDef
  have hclaimed : ∀ claim : Bool, Relisted layout (decNrFree zone current) (if claim then
        if 2 ^ (layout.pageblockOrder - 1) ≤ moved.1 then
          setPageblockMigratetype layout moved.2 page start
        else moved.2
      else decNrFree zone current) := by
    intro claim
    cases claim with
    | false => exact Relisted.refl hlowered
    | true =>
      simp only [if_true]
      split
      · exact hmoved.setPageblock page start
      · exact hmoved
  apply Taken.of_expand hok hblock hle _ _ (hclaimed _)
  · split <;> rfl
  · split <;> rfl
  · split <;> rfl
  · split <;> rfl
  · split <;> rfl

theorem rmqueue_taken (hok : ZoneOk layout zone)
    (hsome : rmqueue layout zone order migratetype = some (page, zone')) :
    Taken layout zone ⟨order, page⟩ zone' := by
  unfold rmqueue at hsome
  split at hsome
  · rename_i result hresult
    obtain rfl := some.inj hsome
    exact rmqueueSmallestFrom_taken hok _ _ _ _ le_rfl hresult
  unfold rmqueueFallback at hsome
  split at hsome
  · rename_i current found head hfound
    obtain ⟨hle, hmem⟩ := findFallback_mem hfound
    have htaken := takeFallback_taken hok migratetype found (mem_freeBlocks_of_mem hmem) hle
    have hpair := some.inj hsome
    have hpage : head = page := congrArg fst hpair
    rw [hpair] at htaken
    rw [← hpage]
    exact htaken
  · exact rmqueueSmallestFrom_taken hok _ _ _ _ le_rfl hsome

/-! ## Runs -/

/-- The allocator together with the pages that are handed out. -/
structure System where
  zone : Zone
  allocated : Set ℕ

structure SystemOk (layout : ZoneLayout) (system : System) : Prop
    extends ZoneOk layout system.zone where
  disjoint : Disjoint system.allocated (freePages system.zone)

/-- What a caller of `__free_one_page` promises. -/
structure Freeable (layout : ZoneLayout) (system : System) (block : Block) : Prop where
  order_lt : block.order < layout.maxOrder
  aligned : block.Aligned
  allocated : block.pages ⊆ system.allocated
  inZone : ∀ page ∈ block.pages, layout.InZone page

/-- What the holders of pages may write: `page_private` and the compound marks
of handed out pages, and the migrate types of pageblocks. -/
structure HolderWrite (allocated : Set ℕ) (zone zone' : Zone) : Prop where
  lists : zone'.freeList = zone.freeList
  counts : zone'.nrFree = zone.nrFree
  counter : zone'.nrFreePages = zone.nrFreePages
  flags : zone'.pageBuddy = zone.pageBuddy
  orders : ∀ page, page ∉ allocated → zone'.pagePrivate page = zone.pagePrivate page

inductive Step (layout : ZoneLayout) : System → System → Prop
  | free (system : System) (block : Block) (hfreeable : Freeable layout system block) :
      Step layout system
        ⟨freeOnePage layout system.zone block.head block.order, system.allocated \ block.pages⟩
  | rmqueue (system : System) (order : ℕ) (migratetype : MigrateType) (page : ℕ)
      (zone' : Zone)
      (hsome : rmqueue layout system.zone order migratetype = some (page, zone')) :
      Step layout system ⟨zone', system.allocated ∪ (⟨order, page⟩ : Block).pages⟩
  | moveFreepagesBlock (system : System) (page : ℕ) (migratetype : MigrateType)
      (hpage : layout.InZone page) :
      Step layout system
        ⟨(moveFreepagesBlock layout system.zone page migratetype).2, system.allocated⟩
  | holder (system : System) (zone' : Zone)
      (hwrite : HolderWrite system.allocated system.zone zone') :
      Step layout system ⟨zone', system.allocated⟩

variable {system : System}

theorem Freeable.pending {block : Block} (hfreeable : Freeable layout system block)
    (hok : SystemOk layout system) :
    Pending layout system.zone block where
  consistent := hok.toConsistent
  order_lt := hfreeable.order_lt
  aligned := hfreeable.aligned
  inZone := hfreeable.inZone
  fresh := hok.disjoint.mono_left hfreeable.allocated
  counted := hok.counted

theorem Relisted.zoneOk (hrelisted : Relisted layout zone zone') (hok : ZoneOk layout zone) :
    ZoneOk layout zone' where
  toConsistent := hrelisted.consistent
  counted := fun order horder => by
    rw [hrelisted.counts, hrelisted.listed]
    exact hok.counted order horder
  nrFreePages_eq := by
    rw [hrelisted.counter, hok.nrFreePages_eq]
    simp [freeTotal, hrelisted.listed]

/-- Only handed out pages are written, and none of them heads a free block. -/
theorem HolderWrite.relisted (hwrite : HolderWrite system.allocated system.zone zone')
    (hok : SystemOk layout system) : Relisted layout system.zone zone' := by
  refine ⟨hok.toConsistent.congr hwrite.lists fun page order hmapped => ?_,
    freeBlocks_congr hwrite.lists, fun order => ?_, hwrite.counts, hwrite.counter⟩
  · rw [hwrite.flags]
    refine and_congr_right fun hbuddy => ?_
    rw [hwrite.orders]
    have hblock := (hok.flags page _ hmapped).mp ⟨hbuddy, rfl⟩
    exact disjoint_right.mp hok.disjoint (pages_subset_covered hblock (Block.head_mem_pages _))
  · unfold listed
    rw [hwrite.lists]

/-- What one operation preserves. -/
structure Preserved (layout : ZoneLayout) (system system' : System) : Prop where
  ok : SystemOk layout system'
  pages : system'.allocated ∪ freePages system'.zone = system.allocated ∪ freePages system.zone
  canonical : Canonical layout.maxOrder (freeBlocks system.zone) →
    Canonical layout.maxOrder (freeBlocks system'.zone)

theorem Preserved.of_relisted (hok : SystemOk layout system)
    (hrelisted : Relisted layout system.zone zone') :
    Preserved layout system ⟨zone', system.allocated⟩ := by
  have hfree : freePages zone' = freePages system.zone := by
    rw [freePages, hrelisted.blocks]
    rfl
  refine ⟨⟨hrelisted.zoneOk hok.toZoneOk, ?_⟩, ?_, ?_⟩
  · rw [hfree]
    exact hok.disjoint
  · rw [hfree]
  · rw [hrelisted.blocks]
    exact id

theorem Preserved.of_step {system' : System} (hok : SystemOk layout system)
    (hstep : Step layout system system') : Preserved layout system system' := by
  cases hstep with
  | free block hfreeable =>
    obtain ⟨hzone, hpages, hcanonical⟩ :=
      freeOnePage_spec hok.toZoneOk (hfreeable.pending hok)
    refine ⟨⟨hzone, ?_⟩, ?_, hcanonical⟩
    · rw [hpages, disjoint_union_right]
      exact ⟨disjoint_sdiff_left, hok.disjoint.mono_left sdiff_subset⟩
    · rw [hpages, ← union_assoc, sdiff_union_of_subset hfreeable.allocated]
  | rmqueue order migratetype page zone' hsome =>
    have htaken := rmqueue_taken hok.toZoneOk hsome
    refine ⟨⟨htaken.ok, ?_⟩, ?_, htaken.canonical⟩
    · rw [htaken.freePages_eq, disjoint_union_left]
      exact ⟨hok.disjoint.mono_right sdiff_subset, disjoint_sdiff_right⟩
    · rw [htaken.freePages_eq, union_assoc, union_sdiff_cancel htaken.wasFree]
  | moveFreepagesBlock page migratetype hpage =>
    exact Preserved.of_relisted hok (moveFreepagesBlock_relisted hok.toConsistent hpage migratetype)
  | holder zone' hwrite =>
    exact Preserved.of_relisted hok (hwrite.relisted hok)

theorem Preserved.of_run {start finish : System} (hok : SystemOk layout start)
    (hrun : Relation.ReflTransGen (Step layout) start finish) : Preserved layout start finish := by
  induction hrun with
  | refl => exact ⟨hok, rfl, id⟩
  | tail _ hstep ih =>
    have hnext := Preserved.of_step ih.ok hstep
    exact ⟨hnext.ok, hnext.pages.trans ih.pages,
      fun hcanonical => hnext.canonical (ih.canonical hcanonical)⟩

/-- The representation invariant holds along every run, and at every point of
it each operation changes the free pages by exactly its block. -/
theorem buddy_invariant_of_run {start finish : System} (hok : SystemOk layout start)
    (hrun : Relation.ReflTransGen (Step layout) start finish) :
    SystemOk layout finish ∧
      (∀ order migratetype page zone',
        rmqueue layout finish.zone order migratetype = some (page, zone') → 2 ^ order ∣ page ∧
          (⟨order, page⟩ : Block).pages ⊆ freePages finish.zone ∧
          freePages zone' = freePages finish.zone \ (⟨order, page⟩ : Block).pages) ∧
      (∀ block, Freeable layout finish block → Disjoint block.pages (freePages finish.zone) ∧
          freePages (freeOnePage layout finish.zone block.head block.order) =
            freePages finish.zone ∪ block.pages) ∧
      (∀ page migratetype, layout.InZone page →
        freeBlocks (moveFreepagesBlock layout finish.zone page migratetype).2 =
          freeBlocks finish.zone) := by
  have hfinish := (Preserved.of_run hok hrun).ok
  refine ⟨hfinish, ?_, ?_, ?_⟩
  · intro order migratetype page zone' hsome
    have htaken := rmqueue_taken hfinish.toZoneOk hsome
    exact ⟨htaken.aligned, htaken.wasFree, htaken.freePages_eq⟩
  · intro block hfreeable
    have hpending := hfreeable.pending hfinish
    refine ⟨hpending.fresh, ?_⟩
    rw [union_comm]
    exact (freeOnePage_spec hfinish.toZoneOk hpending).2.1
  · intro page migratetype hpage
    exact (moveFreepagesBlock_relisted hfinish.toConsistent hpage migratetype).blocks

/-! ## A small zone -/

/-- Four pages in blocks of at most two. -/
def smallLayout : ZoneLayout where
  maxOrder := 2
  pageblockOrder := 1
  zoneStartPfn := 0
  spannedPages := 4
  zoneId := 0
  pfnValidWithin := fun _ => true
  pageZoneId := fun _ => 0
  pfnToPage := id
  pageGroupByMobilityDisabled := false
  maxOrder_pos := by decide
  spanned_own := fun _ _ _ _ _ _ _ _ _ _ => rfl

/-- The first two pages are free. -/
def smallZone : Zone where
  freeList := fun order migratetype =>
    if order = 1 ∧ migratetype = .movable then [0] else []
  nrFree := fun order => if order = 1 then 1 else 0
  nrFreePages := 2
  pageBuddy := fun page => page == 0
  pagePrivate := fun page => if page = 0 then 1 else 0
  pageblockFlags := fun _ => .movable
  pageHead := fun _ => false
  pageTail := fun _ => false
  compoundOrder := fun _ => 0

/-- The other two are handed out. -/
def smallSystem : System := ⟨smallZone, {2, 3}⟩

theorem freeBlocks_smallZone : freeBlocks smallZone = {⟨1, 0⟩} := by
  ext block
  simp only [mem_freeBlocks, smallZone, mem_singleton_iff, Block.ext_iff]
  constructor
  · rintro ⟨migratetype, hmem⟩
    split at hmem <;> simp_all
  · rintro ⟨horder, hhead⟩
    exact ⟨.movable, by simp [horder, hhead]⟩

theorem smallSystem_ok : SystemOk smallLayout smallSystem := by
  have hblocks := freeBlocks_smallZone
  have hpages : ∀ page, page ∈ (⟨1, 0⟩ : Block).pages ↔ page < 2 := by
    intro page
    simp [Block.mem_pages]
  refine ⟨⟨⟨?_, ?_, ?_, ?_, ?_, ?_⟩, ?_, ?_⟩, ?_⟩
  · intro order migratetype
    simp only [smallSystem, smallZone]
    split <;> simp
  · intro order page left right hleft hright
    simp only [smallSystem, smallZone] at hleft hright
    grind
  · simp [smallSystem, hblocks, smallLayout]
  · rw [smallSystem, hblocks]
    refine ⟨?_, ?_⟩
    · simp [Block.Aligned]
    · simp
  · rw [smallSystem, hblocks]
    rintro block rfl page hpage
    have hlt := (hpages page).mp hpage
    refine ⟨Nat.zero_le _, ?_, rfl, rfl⟩
    change page < 0 + 4
    omega
  · intro page order _
    rw [smallSystem, hblocks]
    simp only [smallZone, mem_singleton_iff, Block.mk.injEq, beq_iff_eq]
    grind
  · intro order horder
    change order < 2 at horder
    interval_cases order <;> rfl
  · rfl
  · rw [disjoint_left]
    rintro page hpage ⟨block, hblock, hmem⟩
    rw [smallSystem, hblocks] at hblock
    obtain rfl := hblock
    have hlt := (hpages page).mp hmem
    simp only [smallSystem, mem_insert_iff, mem_singleton_iff] at hpage
    omega

/-- The zone once its first page is taken. -/
def smallTaken : Zone :=
  ((rmqueue smallLayout smallZone 0 .unmovable).map snd).getD smallZone

/-- The page is taken and given back. -/
theorem smallSystem_run : Relation.ReflTransGen (Step smallLayout) smallSystem
    ⟨freeOnePage smallLayout smallTaken 0 0, {2, 3}⟩ := by
  have hpages : (⟨0, 0⟩ : Block).pages = {0} := by
    ext page
    simp [Block.mem_pages]
  have htake := @Step.rmqueue smallLayout smallSystem 0 .unmovable 0 smallTaken rfl
  have hfreeable : Freeable smallLayout ⟨smallTaken, {2, 3} ∪ (⟨0, 0⟩ : Block).pages⟩ ⟨0, 0⟩ := by
    refine ⟨by decide, one_dvd _, subset_union_right, ?_⟩
    rw [hpages]
    rintro page rfl
    exact ⟨le_rfl, by decide, rfl, rfl⟩
  have hleft : ({2, 3} ∪ (⟨0, 0⟩ : Block).pages) \ (⟨0, 0⟩ : Block).pages = ({2, 3} : Set ℕ) := by
    rw [hpages, union_sdiff_right]
    simp
  have hfree := Step.free _ _ hfreeable
  rw [hleft] at hfree
  exact (Relation.ReflTransGen.single htake).tail hfree

/-- Allocating the page once more splits the free block again. -/
theorem smallSystem_invariant_of_run :
    ∃ zone', rmqueue smallLayout (freeOnePage smallLayout smallTaken 0 0) 0 .unmovable =
      some (0, zone') ∧ freePages zone' =
        freePages (freeOnePage smallLayout smallTaken 0 0) \ (⟨0, 0⟩ : Block).pages := by
  have hsome : (rmqueue smallLayout (freeOnePage smallLayout smallTaken 0 0) 0 .unmovable).map
      fst = some 0 := by decide +kernel
  obtain ⟨⟨page, zone'⟩, htaken, rfl⟩ := Option.map_eq_some_iff.mp hsome
  have hrun := buddy_invariant_of_run smallSystem_ok smallSystem_run
  exact ⟨zone', htaken, (hrun.2.1 0 .unmovable 0 zone' htaken).2.2⟩

end KernelM5040.PageAlloc
