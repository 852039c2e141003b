import KernelM5040.Core.DyadicBlock

/-!
# The buddy allocator of one zone

Model of `mm/page_alloc.c`: freeing with coalescing, allocation with
splitting, stealing from the free lists of other migrate types, and moving the
free pages of a pageblock between lists.  Pages are page frame numbers.  The
four places the allocator keeps its state in are separate fields, updated one
by one as the code does: the lists, the per-order counters, the page flags
with `page_private`, and the zone counter `NR_FREE_PAGES`.
-/

namespace KernelM5040.PageAlloc

/-- `MIGRATE_TYPES`. -/
inductive MigrateType
  | unmovable
  | reclaimable
  | movable
  | reserve
  | isolate
  deriving DecidableEq

instance : Fintype MigrateType where
  elems := {.unmovable, .reclaimable, .movable, .reserve, .isolate}
  complete := by
    intro migratetype
    cases migratetype <;> decide

/-- What does not change while the allocator runs: configuration, the span of
the zone and the layout of the memory map.  `spanned_own` is what
`move_freepages_block` relies on when it only compares page frame numbers with
the zone boundaries: of a pageblock that holds a page of the zone, the valid
pages within the boundaries are pages of the zone. -/
structure ZoneLayout where
  maxOrder : ℕ
  pageblockOrder : ℕ
  zoneStartPfn : ℕ
  spannedPages : ℕ
  zoneId : ℕ
  pfnValidWithin : ℕ → Bool
  pageZoneId : ℕ → ℕ
  pfnToPage : ℕ → ℕ
  pageGroupByMobilityDisabled : Bool
  maxOrder_pos : 0 < maxOrder
  spanned_own : ∀ page pfn, zoneStartPfn ≤ page → page < zoneStartPfn + spannedPages →
    pfnValidWithin page = true → pageZoneId page = zoneId →
    pfn / 2 ^ pageblockOrder = page / 2 ^ pageblockOrder →
    zoneStartPfn ≤ pfn → pfn < zoneStartPfn + spannedPages →
    pfnValidWithin pfn = true → pageZoneId pfn = zoneId

variable (layout : ZoneLayout)

/-- A page whose `struct page` exists and carries the id of the zone.  The
part of the memory map past the end of the zone may carry it as well. -/
def ZoneLayout.Mapped (pfn : ℕ) : Prop :=
  layout.pfnValidWithin pfn = true ∧ layout.pageZoneId pfn = layout.zoneId

/-- A page of the zone. -/
def ZoneLayout.InZone (pfn : ℕ) : Prop :=
  layout.zoneStartPfn ≤ pfn ∧ pfn < layout.zoneStartPfn + layout.spannedPages ∧
    layout.Mapped pfn

/-- The state of the allocator.  `nrFreePages` is the sum of the zone counter
`NR_FREE_PAGES` and its per-cpu differentials.  `page->first_page` is the same
word as `page_private(page)`. -/
structure Zone where
  freeList : ℕ → MigrateType → List ℕ
  nrFree : ℕ → ℕ
  nrFreePages : ℤ
  pageBuddy : ℕ → Bool
  pagePrivate : ℕ → ℕ
  pageblockFlags : ℕ → MigrateType
  pageHead : ℕ → Bool
  pageTail : ℕ → Bool
  compoundOrder : ℕ → ℕ

variable (zone : Zone) (page : ℕ)

/-- `list_del(&page->lru)`: the page leaves whatever list it is on. -/
def listDel : Zone :=
  { zone with freeList := fun order migratetype =>
      (zone.freeList order migratetype).erase page }

/-- `list_add(&page->lru, &zone->free_area[order].free_list[migratetype])`. -/
def listAdd (page order : ℕ) (migratetype : MigrateType) : Zone :=
  { zone with freeList := fun order' migratetype' =>
      if order' = order ∧ migratetype' = migratetype then
        page :: zone.freeList order' migratetype'
      else zone.freeList order' migratetype' }

def incNrFree (order : ℕ) : Zone :=
  { zone with nrFree := Function.update zone.nrFree order (zone.nrFree order + 1) }

def decNrFree (zone : Zone) (order : ℕ) : Zone :=
  { zone with nrFree := Function.update zone.nrFree order (zone.nrFree order - 1) }

/-- `__mod_zone_page_state(zone, NR_FREE_PAGES, delta)`. -/
def modZonePageState (delta : ℤ) : Zone :=
  { zone with nrFreePages := zone.nrFreePages + delta }

def setPageOrder (page order : ℕ) : Zone :=
  { zone with
    pagePrivate := Function.update zone.pagePrivate page order
    pageBuddy := Function.update zone.pageBuddy page true }

def rmvPageOrder : Zone :=
  { zone with
    pageBuddy := Function.update zone.pageBuddy page false
    pagePrivate := Function.update zone.pagePrivate page 0 }

/-- The pageblock of a page, as `pfn_to_bitidx` numbers them with a flat
memory map. -/
def pageblockIndex : ℕ :=
  (page - layout.zoneStartPfn) / 2 ^ layout.pageblockOrder

def getPageblockMigratetype : MigrateType :=
  if layout.pageGroupByMobilityDisabled then .unmovable
  else zone.pageblockFlags (pageblockIndex layout page)

def setPageblockMigratetype (migratetype : MigrateType) : Zone :=
  { zone with pageblockFlags :=
      Function.update zone.pageblockFlags (pageblockIndex layout page) migratetype }

def pageCompound : Bool :=
  zone.pageHead page || zone.pageTail page

/-- `bad_page`, of which the flag `PG_buddy` is the part kept here. -/
def badPage : Zone :=
  { zone with pageBuddy := Function.update zone.pageBuddy page false }

/-- One round of the loop over the tail pages. -/
def destroyTail (zone : Zone) (index : ℕ) : Zone :=
  let tail := page + index
  let zone := if !zone.pageTail tail || zone.pagePrivate tail != layout.pfnToPage page
    then badPage zone page else zone
  { zone with pageTail := Function.update zone.pageTail tail false }

def destroyCompoundPage (page order : ℕ) : Zone :=
  let compound := if zone.pageHead page then zone.compoundOrder page else 0
  let zone := if compound ≠ order then badPage zone page else zone
  let zone := if !zone.pageHead page then badPage zone page else zone
  let zone := { zone with pageHead := Function.update zone.pageHead page false }
  ((List.range (2 ^ order - 1)).map Nat.succ).foldl (destroyTail layout page) zone

def pageFindBuddy (page pageIdx order : ℕ) : ℕ :=
  let buddyIdx := pageIdx ^^^ 2 ^ order
  page + buddyIdx - pageIdx

def findCombinedIndex (pageIdx order : ℕ) : ℕ := Nat.ldiff pageIdx (2 ^ order)

def pageIsBuddy (page buddy order : ℕ) : Bool :=
  if !layout.pfnValidWithin buddy then false
  else if layout.pageZoneId page ≠ layout.pageZoneId buddy then false
  else zone.pageBuddy buddy && zone.pagePrivate buddy == order

/-- The coalescing loop of `__free_one_page`; `rounds` is
`MAX_ORDER - 1 - order`, so the loop ends when it is zero.  It returns the
page and the order it climbed to. -/
def mergeBuddies (layout : ZoneLayout) :
    ℕ → Zone → ℕ → ℕ → ℕ → Zone × ℕ × ℕ
  | 0, zone, page, _, order => (zone, page, order)
  | rounds + 1, zone, page, pageIdx, order =>
    let buddy := pageFindBuddy page pageIdx order
    if pageIsBuddy layout zone page buddy order then
      let zone := rmvPageOrder (decNrFree (listDel zone buddy) order) buddy
      let combinedIdx := findCombinedIndex pageIdx order
      mergeBuddies layout rounds zone (page + combinedIdx - pageIdx) combinedIdx
        (order + 1)
    else (zone, page, order)

def freeOnePage (page order : ℕ) : Zone :=
  let migratetype := getPageblockMigratetype layout zone page
  let zone := if pageCompound zone page then destroyCompoundPage layout zone page order else zone
  let pageIdx := page &&& (2 ^ layout.maxOrder - 1)
  let zone := modZonePageState zone (2 ^ order : ℕ)
  let merged := mergeBuddies layout (layout.maxOrder - 1 - order) zone page pageIdx order
  let zone := setPageOrder merged.1 merged.2.1 merged.2.2
  let zone := listAdd zone merged.2.1 merged.2.2 migratetype
  incNrFree zone merged.2.2

/-- `expand`: the right halves go back to the free lists, the largest first. -/
def expand (zone : Zone) (page low : ℕ) : ℕ → MigrateType → Zone
  | 0, _ => zone
  | high + 1, migratetype =>
    if low < high + 1 then
      let half := page + 2 ^ high
      let zone := listAdd zone half high migratetype
      let zone := incNrFree zone high
      expand (setPageOrder zone half high) page low high migratetype
    else zone

/-- The loop of `__rmqueue_smallest`, with `rounds = MAX_ORDER - current`. -/
def rmqueueSmallestFrom (zone : Zone) (order : ℕ) (migratetype : MigrateType) :
    ℕ → ℕ → Option (ℕ × Zone)
  | 0, _ => none
  | rounds + 1, current =>
    match zone.freeList current migratetype with
    | [] => rmqueueSmallestFrom zone order migratetype rounds (current + 1)
    | page :: _ =>
      let zone := listDel zone page
      let zone := rmvPageOrder zone page
      let zone := decNrFree zone current
      let zone := modZonePageState zone (-(2 ^ order : ℕ))
      some (page, expand zone page order current migratetype)

def rmqueueSmallest (order : ℕ) (migratetype : MigrateType) : Option (ℕ × Zone) :=
  rmqueueSmallestFrom zone order migratetype (layout.maxOrder - order) order

/-- The table `fallbacks`.  Its rows have `MIGRATE_TYPES - 1` places but only
three initialisers, and there is no row for `MIGRATE_ISOLATE`: the rest is
zero, which is `MIGRATE_UNMOVABLE`. -/
def fallbacks : MigrateType → List MigrateType
  | .unmovable => [.reclaimable, .movable, .reserve, .unmovable]
  | .reclaimable => [.unmovable, .movable, .reserve, .unmovable]
  | .movable => [.reclaimable, .unmovable, .reserve, .unmovable]
  | .reserve => [.reserve, .reserve, .reserve, .unmovable]
  | .isolate => [.unmovable, .unmovable, .unmovable, .unmovable]

/-- The loop of `move_freepages`: the pages moved so far are counted in
`moved`.  `rounds` bounds the number of pages looked at. -/
def moveFreepagesLoop (layout : ZoneLayout) (endPage : ℕ) (migratetype : MigrateType) :
    ℕ → Zone → ℕ → ℕ → ℕ × Zone
  | 0, zone, _, moved => (moved, zone)
  | rounds + 1, zone, page, moved =>
    if endPage < page then (moved, zone)
    else if !layout.pfnValidWithin page then
      moveFreepagesLoop layout endPage migratetype rounds zone (page + 1) moved
    else if !zone.pageBuddy page then
      moveFreepagesLoop layout endPage migratetype rounds zone (page + 1) moved
    else
      let order := zone.pagePrivate page
      let zone := listAdd (listDel zone page) page order migratetype
      moveFreepagesLoop layout endPage migratetype rounds zone (page + 2 ^ order)
        (moved + 2 ^ order)

def moveFreepages (startPage endPage : ℕ) (migratetype : MigrateType) : ℕ × Zone :=
  moveFreepagesLoop layout endPage migratetype (endPage + 1 - startPage) zone startPage 0

def moveFreepagesBlock (migratetype : MigrateType) : ℕ × Zone :=
  let startPfn := Nat.ldiff page (2 ^ layout.pageblockOrder - 1)
  let endPfn := startPfn + 2 ^ layout.pageblockOrder - 1
  let startPage := if startPfn < layout.zoneStartPfn then page else startPfn
  if layout.zoneStartPfn + layout.spannedPages ≤ endPfn then (0, zone)
  else moveFreepages layout zone startPage endPfn migratetype

/-- The inner loop of `__rmqueue_fallback`: the first fallback type with a
free page of this order. -/
def fallbackPage (zone : Zone) (current : ℕ) : List MigrateType → Option (MigrateType × ℕ)
  | [] => none
  | migratetype :: rest =>
    if migratetype = .reserve then fallbackPage zone current rest
    else
      match zone.freeList current migratetype with
      | [] => fallbackPage zone current rest
      | page :: _ => some (migratetype, page)

/-- The outer loop, from the largest order down to `order`; with `rounds + 1`
orders left the current one is `order + rounds`. -/
def findFallback (zone : Zone) (order : ℕ) (start : MigrateType) :
    ℕ → Option (ℕ × MigrateType × ℕ)
  | 0 => none
  | rounds + 1 =>
    match fallbackPage zone (order + rounds) (fallbacks start) with
    | some (migratetype, page) => some (order + rounds, migratetype, page)
    | none => findFallback zone order start rounds

/-- The body of the loops of `__rmqueue_fallback` once a page is found. -/
def takeFallback (order : ℕ) (start : MigrateType) (current : ℕ) (migratetype : MigrateType)
    (page : ℕ) : ℕ × Zone :=
  let zone := decNrFree zone current
  let claim : Bool := decide (layout.pageblockOrder / 2 ≤ current) || start == .reclaimable
  let moved := moveFreepagesBlock layout zone page start
  let zone :=
    if claim then
      if 2 ^ (layout.pageblockOrder - 1) ≤ moved.1 then
        setPageblockMigratetype layout moved.2 page start
      else moved.2
    else zone
  let migratetype := if claim then start else migratetype
  let zone := listDel zone page
  let zone := rmvPageOrder zone page
  let zone := modZonePageState zone (-(2 ^ order : ℕ))
  let zone := if current = layout.pageblockOrder
    then setPageblockMigratetype layout zone page start else zone
  (page, expand zone page order current migratetype)

def rmqueueFallback (order : ℕ) (start : MigrateType) : Option (ℕ × Zone) :=
  match findFallback zone order start (layout.maxOrder - order) with
  | some (current, migratetype, page) =>
    some (takeFallback layout zone order start current migratetype page)
  | none => rmqueueSmallest layout zone order .reserve

def rmqueue (order : ℕ) (migratetype : MigrateType) : Option (ℕ × Zone) :=
  match rmqueueSmallest layout zone order migratetype with
  | some result => some result
  | none => rmqueueFallback layout zone order migratetype

end KernelM5040.PageAlloc
