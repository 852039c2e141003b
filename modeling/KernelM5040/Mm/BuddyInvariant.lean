import KernelM5040.Mm.PageAlloc

/-!
# The representation invariant of the buddy allocator

The free lists of a zone are read as a set of dyadic blocks.  The invariant
says that these blocks tile the free pages, and that flags and counters agree
with the lists.  While a block is merged or split it is on no list: `Pending`
describes a zone together with such a block, and both loops of the allocator
preserve it.
-/

namespace KernelM5040.PageAlloc

open Set Finset Function KernelM5040.Dyadic Nat Block

variable (layout : ZoneLayout) (zone : Zone)

/-! ## Reading the lists -/

def freeBlocks : Set Block :=
  {block | ∃ migratetype, block.head ∈ zone.freeList block.order migratetype}

/-- The free pages of a zone. -/
def freePages : Set ℕ := covered (freeBlocks zone)

/-- The number of blocks on the lists of one order. -/
def listed (order : ℕ) : ℕ :=
  ∑ migratetype, (zone.freeList order migratetype).length

/-- The number of pages on all lists. -/
def freeTotal : ℕ :=
  ∑ order ∈ Finset.range layout.maxOrder, 2 ^ order * listed zone order

/-- The lists hold disjoint aligned blocks of the zone, each once, and the
page flags say exactly which page heads which block. -/
structure Consistent : Prop where
  nodup : ∀ order migratetype, (zone.freeList order migratetype).Nodup
  single : ∀ order page left right, page ∈ zone.freeList order left →
    page ∈ zone.freeList order right → left = right
  order_lt : ∀ block ∈ freeBlocks zone, block.order < layout.maxOrder
  tiling : Tiling (freeBlocks zone)
  inZone : ∀ block ∈ freeBlocks zone, ∀ page ∈ block.pages, layout.InZone page
  flags : ∀ page order, layout.Mapped page →
    ((zone.pageBuddy page = true ∧ zone.pagePrivate page = order) ↔
      (⟨order, page⟩ : Block) ∈ freeBlocks zone)

/-- The counters of the free areas agree with the lists. -/
def Counted : Prop :=
  ∀ order, order < layout.maxOrder → zone.nrFree order = listed zone order

/-- The whole invariant of a zone. -/
structure ZoneOk : Prop extends Consistent layout zone where
  counted : Counted layout zone
  nrFreePages_eq : zone.nrFreePages = freeTotal layout zone

variable {layout zone} {block : Block} {order page : ℕ} {migratetype : MigrateType} {zone' : Zone}

theorem mem_freeBlocks : block ∈ freeBlocks zone ↔
    ∃ migratetype, block.head ∈ zone.freeList block.order migratetype := Iff.rfl

theorem mem_freeBlocks_of_mem (hmem : page ∈ zone.freeList order migratetype) :
    (⟨order, page⟩ : Block) ∈ freeBlocks zone := ⟨migratetype, hmem⟩

theorem Consistent.mapped (hok : Consistent layout zone) (hblock : block ∈ freeBlocks zone) :
    layout.Mapped block.head :=
  (hok.inZone block hblock _ block.head_mem_pages).2.2

theorem freeBlocks_congr (hlists : zone'.freeList = zone.freeList) :
    freeBlocks zone' = freeBlocks zone := by
  unfold freeBlocks
  rw [hlists]

theorem freePages_congr (hlists : zone'.freeList = zone.freeList) :
    freePages zone' = freePages zone := by
  unfold freePages
  rw [freeBlocks_congr hlists]

theorem Consistent.congr {other : Zone} (hok : Consistent layout zone)
    (hlists : other.freeList = zone.freeList) (hflags : ∀ page order, layout.Mapped page →
      ((other.pageBuddy page = true ∧ other.pagePrivate page = order) ↔
        (zone.pageBuddy page = true ∧ zone.pagePrivate page = order))) :
    Consistent layout other := by
  have hblocks : freeBlocks other = freeBlocks zone := freeBlocks_congr hlists
  constructor
  · rw [hlists]
    exact hok.nodup
  · rw [hlists]
    exact hok.single
  · rw [hblocks]
    exact hok.order_lt
  · rw [hblocks]
    exact hok.tiling
  · rw [hblocks]
    exact hok.inZone
  · intro page order hmapped
    rw [hblocks, hflags page order hmapped]
    exact hok.flags page order hmapped

/-! ## Taking one block off the lists -/

/-- The list and flag updates with which every path takes a free block. -/
def withdraw (zone : Zone) (page : ℕ) : Zone := rmvPageOrder (listDel zone page) page

/-- The list and flag updates with which every path adds a free block. -/
def deposit (zone : Zone) (page order : ℕ) (migratetype : MigrateType) : Zone :=
  setPageOrder (listAdd zone page order migratetype) page order

theorem mem_withdraw (hok : Consistent layout zone) {other : ℕ} :
    other ∈ (withdraw zone page).freeList order migratetype ↔
      other ≠ page ∧ other ∈ zone.freeList order migratetype :=
  (hok.nodup order migratetype).mem_erase_iff

section

variable (hok : Consistent layout zone) (hblock : block ∈ freeBlocks zone)
include hok hblock

theorem freeBlocks_withdraw :
    freeBlocks (withdraw zone block.head) = freeBlocks zone \ {block} := by
  ext other
  constructor
  · rintro ⟨migratetype, hmem⟩
    obtain ⟨hne, hmem⟩ := (mem_withdraw hok).mp hmem
    refine ⟨⟨migratetype, hmem⟩, fun heq => hne ?_⟩
    rw [mem_singleton_iff] at heq
    rw [heq]
  · rintro ⟨⟨migratetype, hmem⟩, hne⟩
    refine ⟨migratetype, (mem_withdraw hok).mpr ⟨fun heq => hne ?_, hmem⟩⟩
    -- two blocks with one head overlap there
    exact hok.tiling.eq_of_mem ⟨migratetype, hmem⟩ hblock
      (heq ▸ other.head_mem_pages) block.head_mem_pages

theorem Consistent.withdraw : Consistent layout (withdraw zone block.head) := by
  have hblocks := freeBlocks_withdraw hok hblock
  have hsubset : freeBlocks (PageAlloc.withdraw zone block.head) ⊆ freeBlocks zone := by
    rw [hblocks]
    exact sdiff_subset
  constructor
  · intro order migratetype
    exact (hok.nodup order migratetype).erase block.head
  · intro order other left right hleft hright
    exact hok.single order other left right ((mem_withdraw hok).mp hleft).2
      ((mem_withdraw hok).mp hright).2
  · exact fun other hmem => hok.order_lt other (hsubset hmem)
  · exact hok.tiling.subset hsubset
  · exact fun other hmem => hok.inZone other (hsubset hmem)
  intro other order hmapped
  rw [hblocks]
  by_cases heq : other = block.head
  · subst heq
    simp only [PageAlloc.withdraw, rmvPageOrder, update_self, Bool.false_eq_true,
      false_and, false_iff]
    rintro ⟨hmem, hne⟩
    exact hne (hok.tiling.eq_of_mem hmem hblock
      (head_mem_pages ⟨order, block.head⟩) block.head_mem_pages)
  · have hne : (⟨order, other⟩ : Block) ≠ block := fun h =>
      heq (congrArg head h)
    simp only [PageAlloc.withdraw, rmvPageOrder, update_of_ne heq]
    rw [mem_sdiff, mem_singleton_iff]
    exact (hok.flags other order hmapped).trans (and_iff_left hne).symm

theorem listed_withdraw (order : ℕ) :
    listed zone order = listed (withdraw zone block.head) order +
      if order = block.order then 1 else 0 := by
  obtain ⟨migratetype, hmem⟩ := hblock
  have hone : ∀ migratetype', (zone.freeList order migratetype').length =
      ((withdraw zone block.head).freeList order migratetype').length +
        if order = block.order ∧ migratetype' = migratetype then 1 else 0 := by
    intro migratetype'
    change _ = ((zone.freeList order migratetype').erase block.head).length + _
    by_cases hpage : block.head ∈ zone.freeList order migratetype'
    · have horder : order = block.order := congrArg Block.order
        (hok.tiling.eq_of_mem (mem_freeBlocks_of_mem hpage) ⟨migratetype, hmem⟩
          (head_mem_pages ⟨order, block.head⟩) block.head_mem_pages)
      subst horder
      have htype := hok.single _ _ _ _ hpage hmem
      rw [if_pos ⟨rfl, htype⟩, List.length_erase_add_one hpage]
    · rw [List.erase_of_not_mem hpage, if_neg]
      · rfl
      · rintro ⟨rfl, rfl⟩
        exact hpage hmem
  unfold listed
  rw [sum_congr rfl fun migratetype' _ => hone migratetype', sum_add_distrib]
  congr 1
  by_cases horder : order = block.order
  · simp [horder]
  · simp [horder]

theorem listed_pos : 0 < listed zone block.order := by
  rw [listed_withdraw hok hblock, if_pos rfl]
  exact succ_pos _

end

theorem Counted.decNrFree (hcounted : Counted layout zone)
    (hok : Consistent layout zone) {block : Block} (hblock : block ∈ freeBlocks zone)
    (order : ℕ) (horder : order < layout.maxOrder) :
    (decNrFree zone block.order).nrFree order + (if order = block.order then 1 else 0) =
      listed zone order := by
  have hcount := hcounted order horder
  have hpos := listed_pos hok hblock
  change Function.update zone.nrFree block.order (zone.nrFree block.order - 1) order + _ = _
  by_cases heq : order = block.order
  · rw [heq] at hcount ⊢
    rw [update_self, if_pos rfl]
    omega
  · rw [update_of_ne heq, if_neg heq]
    omega

/-! ## Adding one block to the lists -/

theorem mem_deposit {other order' : ℕ} {migratetype' : MigrateType} :
    other ∈ (deposit zone page order migratetype).freeList order' migratetype' ↔
      (order' = order ∧ migratetype' = migratetype ∧ other = page) ∨
        other ∈ zone.freeList order' migratetype' := by
  change other ∈ (if _ then _ else _) ↔ _
  split
  · rename_i heq
    simp [heq.1, heq.2]
  rename_i hne
  constructor
  · exact Or.inr
  · rintro (⟨horder, htype, _⟩ | hmem)
    · exact absurd ⟨horder, htype⟩ hne
    · exact hmem

theorem freeBlocks_deposit (page order : ℕ) (migratetype : MigrateType) :
    freeBlocks (deposit zone page order migratetype) = insert ⟨order, page⟩ (freeBlocks zone) := by
  ext block
  simp only [mem_freeBlocks, mem_deposit, mem_insert_iff, Block.ext_iff, exists_or,
    exists_and_left, exists_eq_left]

theorem listed_deposit (page order : ℕ) (migratetype : MigrateType) (order' : ℕ) :
    listed (deposit zone page order migratetype) order' =
      listed zone order' + if order' = order then 1 else 0 := by
  have hone : ∀ migratetype',
      ((deposit zone page order migratetype).freeList order' migratetype').length =
        (zone.freeList order' migratetype').length +
          if order' = order ∧ migratetype' = migratetype then 1 else 0 := by
    intro migratetype'
    change (if _ then _ else _ : List ℕ).length = _
    split <;> rfl
  unfold listed
  rw [sum_congr rfl fun migratetype' _ => hone migratetype', sum_add_distrib]
  congr 1
  by_cases horder : order' = order
  · simp [horder]
  · simp [horder]

/-! ## A block on no list -/

section

variable (layout : ZoneLayout) (zone : Zone) (block : Block)

/-- A consistent zone together with an aligned block of its pages that no list
covers. -/
structure Unlisted : Prop where
  consistent : Consistent layout zone
  order_lt : block.order < layout.maxOrder
  aligned : block.Aligned
  inZone : ∀ page ∈ block.pages, layout.InZone page
  fresh : Disjoint block.pages (freePages zone)

/-- What a loop of the allocator has in hand between two rounds. -/
structure Pending : Prop
    extends Unlisted layout zone block where
  counted : Counted layout zone

/-- Two zones with a block in hand hold the same pages, in hand or listed. -/
structure SameHolding (zone' : Zone) (block' : Block) : Prop where
  pages : block'.pages ∪ freePages zone' = block.pages ∪ freePages zone
  total : 2 ^ block'.order + freeTotal layout zone' = 2 ^ block.order + freeTotal layout zone
  counter : zone'.nrFreePages = zone.nrFreePages

end

theorem SameHolding.refl (zone : Zone) (block : Block) :
    SameHolding layout zone block zone block := ⟨rfl, rfl, rfl⟩

theorem SameHolding.trans {zone'' : Zone} {block' block'' : Block}
    (hfirst : SameHolding layout zone block zone' block')
    (hsecond : SameHolding layout zone' block' zone'' block'') :
    SameHolding layout zone block zone'' block'' where
  pages := hsecond.pages.trans hfirst.pages
  total := hsecond.total.trans hfirst.total
  counter := hsecond.counter.trans hfirst.counter

theorem Unlisted.not_mem {block : Block} (hunlisted : Unlisted layout zone block)
    {other : Block} (hhead : other.head ∈ block.pages) : other ∉ freeBlocks zone :=
  fun hmem => disjoint_left.mp hunlisted.fresh hhead
    (pages_subset_covered hmem other.head_mem_pages)

theorem Consistent.deposit (hunlisted : Unlisted layout zone block) (migratetype : MigrateType) :
    Consistent layout (deposit zone block.head block.order migratetype) := by
  have hok := hunlisted.consistent
  have hnew : block ∉ freeBlocks zone := hunlisted.not_mem block.head_mem_pages
  have hblocks : freeBlocks (PageAlloc.deposit zone block.head block.order migratetype) =
      insert block (freeBlocks zone) := freeBlocks_deposit _ _ _
  constructor
  · intro order migratetype'
    change (if _ then _ else _ : List ℕ).Nodup
    split
    · rename_i heq
      refine List.nodup_cons.mpr ⟨fun hmem => hnew ?_, hok.nodup order migratetype'⟩
      exact ⟨migratetype', heq.1 ▸ hmem⟩
    · exact hok.nodup order migratetype'
  · intro order page left right hleft hright
    rcases mem_deposit.mp hleft with ⟨horder, hl, hpage⟩ | hl <;>
      rcases mem_deposit.mp hright with ⟨horder', hr, hpage'⟩ | hr
    · exact hl.trans hr.symm
    · subst horder hpage
      exact absurd ⟨right, hr⟩ hnew
    · subst horder' hpage'
      exact absurd ⟨left, hl⟩ hnew
    · exact hok.single order page left right hl hr
  · rw [hblocks]
    rintro other (rfl | hother)
    · exact hunlisted.order_lt
    · exact hok.order_lt other hother
  · rw [hblocks]
    exact hok.tiling.insert hunlisted.aligned hunlisted.fresh
  · rw [hblocks]
    rintro other (rfl | hother)
    · exact hunlisted.inZone
    · exact hok.inZone other hother
  · intro page order hmapped
    rw [hblocks, mem_insert_iff, Block.ext_iff]
    by_cases heq : page = block.head
    · subst heq
      have hnot : (⟨order, block.head⟩ : Block) ∉ freeBlocks zone :=
        hunlisted.not_mem block.head_mem_pages
      simp [PageAlloc.deposit, setPageOrder, hnot, eq_comm]
    · simp only [PageAlloc.deposit, setPageOrder, update_of_ne heq, heq, and_false, false_or]
      exact hok.flags page order hmapped

theorem freeTotal_add (horder : order < layout.maxOrder)
    (hlisted : ∀ order', listed zone' order' = listed zone order' + if order' = order then 1 else 0) :
    freeTotal layout zone' = freeTotal layout zone + 2 ^ order := by
  simp only [freeTotal, hlisted, mul_add, sum_add_distrib]
  congr 1
  simp [horder]

theorem freePages_withdraw (hok : Consistent layout zone) (hblock : block ∈ freeBlocks zone) :
    freePages (withdraw zone block.head) = freePages zone \ block.pages := by
  rw [freePages, freeBlocks_withdraw hok hblock, covered_diff_singleton hok.tiling hblock]
  rfl

theorem Unlisted.of_withdraw (hok : Consistent layout zone) {block : Block}
    (hblock : block ∈ freeBlocks zone) :
    Unlisted layout (withdraw zone block.head) block where
  consistent := hok.withdraw hblock
  order_lt := hok.order_lt _ hblock
  aligned := hok.tiling.aligned _ hblock
  inZone := hok.inZone _ hblock
  fresh := by
    rw [freePages_withdraw hok hblock]
    exact disjoint_sdiff_right

/-- Withdrawing a free block, and lowering its counter, leaves it in hand. -/
theorem Pending.of_withdraw {zone' : Zone} {block : Block}
    (hok : Consistent layout zone) (hblock : block ∈ freeBlocks zone)
    (hlists : zone'.freeList = (withdraw zone block.head).freeList)
    (hbuddy : zone'.pageBuddy = (withdraw zone block.head).pageBuddy)
    (hprivate : zone'.pagePrivate = (withdraw zone block.head).pagePrivate)
    (hcount : ∀ order, order < layout.maxOrder →
      zone'.nrFree order + (if order = block.order then 1 else 0) = listed zone order) :
    Pending layout zone' block ∧
      freeBlocks zone' = freeBlocks zone \ {block} ∧
      freePages zone = block.pages ∪ freePages zone' ∧
      freeTotal layout zone = freeTotal layout zone' + 2 ^ block.order := by
  have hlisted : ∀ order, listed zone order = listed zone' order +
      if order = block.order then 1 else 0 := by
    intro order
    rw [listed_withdraw hok hblock, listed, listed, hlists]
  have hunlisted := Unlisted.of_withdraw hok hblock
  have hpages : freePages zone' = freePages zone \ block.pages :=
    (freePages_congr hlists).trans (freePages_withdraw hok hblock)
  refine ⟨⟨⟨?_, hunlisted.order_lt, hunlisted.aligned, hunlisted.inZone, ?_⟩, ?_⟩,
    (freeBlocks_congr hlists).trans (freeBlocks_withdraw hok hblock), ?_,
    freeTotal_add hunlisted.order_lt hlisted⟩
  · refine hunlisted.consistent.congr hlists fun page order _ => ?_
    rw [hbuddy, hprivate]
  · rw [hpages]
    exact disjoint_sdiff_right
  · intro order horder
    have := hcount order horder
    have := hlisted order
    omega
  · rw [hpages]
    exact (union_sdiff_cancel (pages_subset_covered hblock)).symm

theorem Pending.put (hpending : Pending layout zone block) (migratetype : MigrateType)
    (hzone : zone' = incNrFree (deposit zone block.head block.order migratetype) block.order) :
    Consistent layout zone' ∧ Counted layout zone' ∧
      freeBlocks zone' = insert block (freeBlocks zone) ∧
      freePages zone' = block.pages ∪ freePages zone ∧
      freeTotal layout zone' = freeTotal layout zone + 2 ^ block.order := by
  subst hzone
  have hblocks : freeBlocks (incNrFree (deposit zone block.head block.order migratetype)
      block.order) = insert block (freeBlocks zone) := freeBlocks_deposit _ _ _
  refine ⟨(Consistent.deposit hpending.toUnlisted migratetype).congr rfl fun _ _ _ => Iff.rfl, ?_,
    hblocks, ?_, freeTotal_add hpending.order_lt (listed_deposit _ _ migratetype)⟩
  · intro order horder
    have hcount := hpending.counted order horder
    change Function.update zone.nrFree block.order (zone.nrFree block.order + 1) order =
      listed (deposit zone block.head block.order migratetype) order
    rw [listed_deposit, ← hcount]
    by_cases heq : order = block.order
    · subst heq
      simp
    · simp [heq]
  · rw [freePages, hblocks, covered_insert]
    rfl

theorem Pending.part {part : Block} (hpending : Pending layout zone block)
    (hle : part.order ≤ block.order) (haligned : part.Aligned)
    (hsubset : part.pages ⊆ block.pages) : Pending layout zone part where
  consistent := hpending.consistent
  counted := hpending.counted
  order_lt := lt_of_le_of_lt hle hpending.order_lt
  aligned := haligned
  inZone := fun page hpage => hpending.inZone page (hsubset hpage)
  fresh := hpending.fresh.mono_left hsubset

/-! ## The coalescing loop -/

theorem pageIsBuddy_iff (hok : Consistent layout zone) {buddy : ℕ} (hpage : layout.Mapped page) :
    pageIsBuddy layout zone page buddy order = true ↔
      (⟨order, buddy⟩ : Block) ∈ freeBlocks zone := by
  have hunfold : pageIsBuddy layout zone page buddy order = true ↔
      layout.Mapped buddy ∧ zone.pageBuddy buddy = true ∧
        zone.pagePrivate buddy = order := by
    unfold pageIsBuddy ZoneLayout.Mapped
    rw [hpage.2]
    by_cases hvalid : layout.pfnValidWithin buddy = true
    · by_cases hid : layout.zoneId = layout.pageZoneId buddy
      · simp [hvalid, ← hid]
      · simp [hvalid, hid, Ne.symm hid]
    · simp [hvalid]
  rw [hunfold]
  constructor
  · rintro ⟨hmapped, hflags⟩
    exact (hok.flags buddy order hmapped).mp hflags
  · intro hmem
    have hmapped := hok.mapped hmem
    exact ⟨hmapped, (hok.flags buddy order hmapped).mpr hmem⟩

/-- One round of the loop: the buddy leaves the lists and the parent is in
hand. -/
theorem Pending.merge (hpending : Pending layout zone block)
    (hmax : block.order + 1 < layout.maxOrder) (hbuddy : block.buddy ∈ freeBlocks zone)
    (hzone : zone' = rmvPageOrder (decNrFree (listDel zone block.buddy.head) block.order)
      block.buddy.head) :
    Pending layout zone' block.parent ∧
      SameHolding layout zone block zone' block.parent ∧
      freeBlocks zone' ⊆ freeBlocks zone := by
  have hok := hpending.consistent
  have hparent := pages_parent hpending.aligned
  have hcount := @Counted.decNrFree layout zone hpending.counted hok block.buddy hbuddy
  obtain ⟨htaken, hblocks, hpages, htotal⟩ :=
    @Pending.of_withdraw layout zone zone' block.buddy hok hbuddy (by rw [hzone]; rfl)
      (by rw [hzone]; rfl) (by rw [hzone]; rfl) (by rw [hzone]; exact hcount)
  refine ⟨⟨⟨htaken.consistent, hmax, parent_aligned hpending.aligned, ?_, ?_⟩,
    htaken.counted⟩, ⟨?_, ?_, by rw [hzone]; rfl⟩, ?_⟩
  · rw [hparent]
    rintro page (hpage | hpage)
    · exact hpending.inZone page hpage
    · exact htaken.inZone page hpage
  · rw [hparent, disjoint_union_left]
    refine ⟨hpending.fresh.mono_right ?_, htaken.fresh⟩
    rw [hpages]
    exact subset_union_right
  · rw [hparent, hpages, union_assoc]
  · rw [htotal, parent_order, buddy_order, pow_succ]
    omega
  · rw [hblocks]
    exact sdiff_subset

theorem pageFindBuddy_eq (horder : block.order < layout.maxOrder) :
    pageFindBuddy block.head (block.head % 2 ^ layout.maxOrder) block.order = block.buddy.head :=
  add_xor_window horder

/-- What the loop returns: the same pages as before, now in one block that
cannot be merged any further. -/
theorem mergeBuddies_spec (rounds : ℕ) (hpending : Pending layout zone block)
    (hrounds : block.order + rounds + 1 = layout.maxOrder) :
    ∃ zone' block',
      mergeBuddies layout rounds zone block.head (block.head % 2 ^ layout.maxOrder)
        block.order = (zone', block'.head, block'.order) ∧
      Pending layout zone' block' ∧
      SameHolding layout zone block zone' block' ∧
      freeBlocks zone' ⊆ freeBlocks zone ∧
      (block'.order + 1 < layout.maxOrder → block'.buddy ∉ freeBlocks zone') := by
  induction rounds generalizing zone block with
  | zero =>
    refine ⟨zone, block, rfl, hpending, SameHolding.refl _ _, subset_rfl, ?_⟩
    intro hlt
    omega
  | succ rounds ih =>
    have hpage : layout.Mapped block.head :=
      (hpending.inZone _ block.head_mem_pages).2.2
    have hiff : pageIsBuddy layout zone block.head block.buddy.head block.order = true ↔
        block.buddy ∈ freeBlocks zone := pageIsBuddy_iff hpending.consistent hpage
    rw [mergeBuddies, pageFindBuddy_eq hpending.order_lt]
    by_cases hbuddy : block.buddy ∈ freeBlocks zone
    · rw [if_pos (hiff.mpr hbuddy)]
      obtain ⟨hparent, hsame, hfewer⟩ := hpending.merge (by omega) hbuddy rfl
      obtain ⟨zone', block', hresult, hpending', hsame', hfewer', hstop⟩ :=
        ih hparent (by rw [parent_order]; omega)
      refine ⟨zone', block', ?_, hpending', hsame.trans hsame', hfewer'.trans hfewer, hstop⟩
      simp only [findCombinedIndex]
      rw [add_ldiff_window hpending.order_lt, ldiff_window]
      exact hresult
    · rw [if_neg fun hyes => hbuddy (hiff.mp hyes)]
      exact ⟨zone, block, rfl, hpending, SameHolding.refl _ _, subset_rfl, fun _ => hbuddy⟩

/-! ## The splitting loop -/

/-- One round of `expand`: the right half is listed, the left half is in
hand. -/
theorem Pending.split {high : ℕ} (hpending : Pending layout zone ⟨high + 1, page⟩)
    (migratetype : MigrateType)
    (hzone : zone' = setPageOrder (incNrFree (listAdd zone (page + 2 ^ high) high migratetype)
      high) (page + 2 ^ high) high) :
    Pending layout zone' ⟨high, page⟩ ∧
      SameHolding layout zone ⟨high + 1, page⟩ zone' ⟨high, page⟩ ∧
      freeBlocks zone' = insert (buddy ⟨high, page⟩) (freeBlocks zone) := by
  obtain ⟨haligned, hbuddy, hparent⟩ := halves hpending.aligned
  have hpages : (⟨high + 1, page⟩ : Block).pages =
      (⟨high, page⟩ : Block).pages ∪ (buddy ⟨high, page⟩).pages := by
    rw [← hparent, pages_parent haligned]
  have hhalf : Pending layout zone (buddy ⟨high, page⟩) :=
    hpending.part (le_succ high) (buddy_aligned haligned) (by
      rw [hpages]
      exact subset_union_right)
  have hleft : Pending layout zone ⟨high, page⟩ :=
    hpending.part (le_succ high) haligned (by
      rw [hpages]
      exact subset_union_left)
  have hput : zone' = incNrFree (deposit zone (buddy ⟨high, page⟩).head
      (buddy ⟨high, page⟩).order migratetype) (buddy ⟨high, page⟩).order := by
    rw [hbuddy, hzone]
    rfl
  obtain ⟨hok, hcounted, hblocks, hfree, htotal⟩ := hhalf.put migratetype hput
  refine ⟨⟨⟨hok, hleft.order_lt, haligned, hleft.inZone, ?_⟩, hcounted⟩,
    ⟨?_, ?_, by rw [hzone]; rfl⟩, hblocks⟩
  · rw [hfree, disjoint_union_right]
    exact ⟨disjoint_buddy haligned, hleft.fresh⟩
  · rw [hfree, hpages, union_assoc]
  rw [htotal]
  change 2 ^ high + (freeTotal layout zone + 2 ^ high) = 2 ^ (high + 1) + freeTotal layout zone
  rw [pow_succ]
  omega

theorem expand_spec (migratetype : MigrateType) {low high : ℕ}
    (hpending : Pending layout zone ⟨high, page⟩) (hle : low ≤ high) :
    Pending layout (expand zone page low high migratetype) ⟨low, page⟩ ∧
      SameHolding layout zone ⟨high, page⟩ (expand zone page low high migratetype)
        ⟨low, page⟩ ∧
      (Canonical layout.maxOrder (freeBlocks zone) → Canonical layout.maxOrder
        (freeBlocks (expand zone page low high migratetype))) := by
  induction high generalizing zone with
  | zero =>
    obtain rfl : low = 0 := le_zero.mp hle
    exact ⟨hpending, SameHolding.refl _ _, id⟩
  | succ high ih =>
    rw [expand]
    split
    · rename_i hlt
      obtain ⟨haligned, _, _⟩ := halves hpending.aligned
      obtain ⟨hhalf, hsame, hblocks⟩ := hpending.split migratetype rfl
      obtain ⟨hrest, hsame', hcanon⟩ := ih hhalf (le_of_lt_succ hlt)
      refine ⟨hrest, hsame.trans hsame', fun hcanonical => hcanon ?_⟩
      rw [hblocks]
      refine hcanonical.insert (buddy_aligned haligned) fun _ => ?_
      -- the buddy of the right half is still in hand
      rw [buddy_buddy]
      exact hpending.not_mem (head_mem_pages ⟨high + 1, page⟩)
    · rename_i hge
      obtain rfl : low = high + 1 := by omega
      exact ⟨hpending, SameHolding.refl _ _, id⟩

/-! ## Freeing a block -/

/-- What `destroy_compound_page` can do to the parts of a zone the invariant
speaks about: at most it clears `PG_buddy` of the page being freed. -/
structure AtMostBad (page : ℕ) (zone zone' : Zone) : Prop where
  lists : zone'.freeList = zone.freeList
  counts : zone'.nrFree = zone.nrFree
  counter : zone'.nrFreePages = zone.nrFreePages
  order : zone'.pagePrivate = zone.pagePrivate
  others : ∀ other, other ≠ page → zone'.pageBuddy other = zone.pageBuddy other
  cleared : zone'.pageBuddy page = true → zone.pageBuddy page = true

theorem AtMostBad.refl (page : ℕ) (zone : Zone) : AtMostBad page zone zone :=
  ⟨rfl, rfl, rfl, rfl, fun _ _ => rfl, id⟩

section

variable (hbad : AtMostBad page zone zone')
include hbad

theorem AtMostBad.badPage_if (check : Prop) [Decidable check] :
    AtMostBad page zone (if check then badPage zone' page else zone') := by
  split
  · refine ⟨hbad.lists, hbad.counts, hbad.counter, hbad.order, fun other hne => ?_, ?_⟩
    · exact (update_of_ne hne _ _).trans (hbad.others other hne)
    · simp [badPage]
  · exact hbad

theorem AtMostBad.destroyTail (index : ℕ) :
    AtMostBad page zone (destroyTail layout page zone' index) := by
  obtain ⟨hlists, hcounts, hcounter, horder, hothers, hcleared⟩ := hbad.badPage_if
    (!zone'.pageTail (page + index) || zone'.pagePrivate (page + index) != layout.pfnToPage page)
  exact ⟨hlists, hcounts, hcounter, horder, hothers, hcleared⟩

theorem AtMostBad.foldl_destroyTail (indices : List ℕ) :
    AtMostBad page zone (indices.foldl (PageAlloc.destroyTail layout page) zone') := by
  induction indices generalizing zone' with
  | nil => exact hbad
  | cons index rest ih => exact ih (hbad.destroyTail index)

end

theorem AtMostBad.destroyCompoundPage (page order : ℕ) :
    AtMostBad page zone (destroyCompoundPage layout zone page order) := by
  apply AtMostBad.foldl_destroyTail
  obtain ⟨hlists, hcounts, hcounter, hprivate, hothers, hcleared⟩ :=
    ((AtMostBad.refl page zone).badPage_if
      ((if zone.pageHead page then zone.compoundOrder page else 0) ≠ order)).badPage_if
      (!(if (if zone.pageHead page then zone.compoundOrder page else 0) ≠ order
        then badPage zone page else zone).pageHead page)
  exact ⟨hlists, hcounts, hcounter, hprivate, hothers, hcleared⟩

theorem freeTotal_congr (hlists : zone'.freeList = zone.freeList) :
    freeTotal layout zone' = freeTotal layout zone := by
  unfold freeTotal listed
  rw [hlists]

/-- A page in hand heads no free block, so its flag does not matter. -/
theorem Pending.atMostBad (hpending : Pending layout zone block)
    (hbad : AtMostBad block.head zone zone') : Pending layout zone' block := by
  have hok := hpending.consistent
  refine ⟨⟨hok.congr hbad.lists ?_, hpending.order_lt, hpending.aligned, hpending.inZone, ?_⟩, ?_⟩
  · intro page order hmapped
    rw [hbad.order]
    by_cases hhead : page = block.head
    · subst hhead
      have hnot : zone.pageBuddy block.head ≠ true := fun hset =>
        @Unlisted.not_mem layout zone block hpending.toUnlisted
          ⟨zone.pagePrivate block.head, block.head⟩ block.head_mem_pages ((hok.flags _ _
            hmapped).mp ⟨hset, rfl⟩)
      have hnot' := mt hbad.cleared hnot
      simp [hnot, hnot']
    · rw [hbad.others page hhead]
  · rw [freePages_congr hbad.lists]
    exact hpending.fresh
  · intro order horder
    unfold listed
    rw [hbad.counts, hbad.lists]
    exact hpending.counted order horder

/-- `__free_one_page` adds exactly the freed block to the free pages. -/
theorem freeOnePage_spec (hok : ZoneOk layout zone) (hpending : Pending layout zone ⟨order, page⟩) :
    ZoneOk layout (freeOnePage layout zone page order) ∧
      freePages (freeOnePage layout zone page order) =
        (⟨order, page⟩ : Block).pages ∪ freePages zone ∧
      (Canonical layout.maxOrder (freeBlocks zone) → Canonical layout.maxOrder
          (freeBlocks (freeOnePage layout zone page order))) := by
  set cleaned := if pageCompound zone page then destroyCompoundPage layout zone page order
    else zone with hcleaned
  have hbad : AtMostBad page zone cleaned := by
    rw [hcleaned]
    split
    · exact AtMostBad.destroyCompoundPage page order
    · exact AtMostBad.refl page zone
  set started := modZonePageState cleaned (2 ^ order : ℕ) with hstarted
  have hpending' : Pending layout started ⟨order, page⟩ := by
    obtain ⟨⟨hcons, hlt, haligned, hin, hfresh⟩, hcounted⟩ := hpending.atMostBad hbad
    exact ⟨⟨hcons.congr rfl fun _ _ _ => Iff.rfl, hlt, haligned, hin, hfresh⟩, hcounted⟩
  have hlt : order < layout.maxOrder := hpending.order_lt
  obtain ⟨zone', block', hresult, hmerged, hsame, hfewer, hstop⟩ :=
    mergeBuddies_spec (layout.maxOrder - 1 - order) hpending' (by
      change order + _ + 1 = _
      omega)
  have hfree : freeOnePage layout zone page order =
      incNrFree (deposit zone' block'.head block'.order
        (getPageblockMigratetype layout zone page)) block'.order := by
    unfold freeOnePage
    simp only [and_two_pow_sub_one_eq_mod, ← hcleaned, ← hstarted]
    rw [hresult]
    rfl
  obtain ⟨hcons, hcounted, hblocks, hpages, htotal⟩ := hmerged.put _ hfree
  have hlists : started.freeList = zone.freeList := hbad.lists
  refine ⟨⟨hcons, hcounted, ?_⟩, ?_, ?_⟩
  · have hcounter : (freeOnePage layout zone page order).nrFreePages =
        zone.nrFreePages + (2 ^ order : ℕ) := by
      rw [hfree]
      change zone'.nrFreePages = _
      rw [hsame.counter, ← hbad.counter]
      rfl
    have htotal' := hsame.total
    rw [freeTotal_congr hlists] at htotal'
    rw [hcounter, hok.nrFreePages_eq, htotal, ← cast_add]
    congr 1
    change _ = 2 ^ order + _ at htotal'
    omega
  · rw [hpages, hsame.pages, freePages_congr hlists]
  · intro hcanonical
    rw [hblocks]
    rw [freeBlocks_congr hlists] at hfewer
    exact (hcanonical.subset hfewer).insert hmerged.aligned hstop

end KernelM5040.PageAlloc
