import KernelM5040.Mm.MmapUnmap

/-!
# Runs of the address space operations

One step links a new area, splits an area, merges a request for an unmapped
range or for part of an area, changes flags, unmaps a range or looks an area
up.  Every step keeps the address space well formed, and what it does to the
map from pages to file pages is exactly what was asked for.
-/

namespace KernelM5040.Mmap

open Mm SearchTree RbTree List

variable {mm mm' : Mm} {vma : Vma}

/-- One call, with any outcome of its allocations. -/
inductive Step (mm : Mm) : Mm → Prop
  | vmaLink (vma : Vma) (area : Area) (hfresh : vma ∉ mm.mmap) (hproper : area.Proper)
      (hunmapped : Unmapped mm area.vmStart area.vmEnd) : Step mm (mm.linkNew vma area)
  | splitVma (sysctlMaxMapCount : ℤ) (attempt : Attempt) (vma : Vma) (addr : ℕ) (newBelow : Bool)
      (hmem : vma ∈ mm.mmap) (hinside : Inside (mm.area vma) addr) :
      Step mm (mm.splitVma sysctlMaxMapCount attempt vma addr newBelow).2
  | mmapMerge (addr endAddr : ℕ) (request : Request) (hrange : PageRange addr endAddr)
      (hunmapped : Unmapped mm addr endAddr) : Step mm (mm.mmapMerge addr endAddr request).2
  | mprotectMerge (vma : Vma) (addr endAddr : ℕ) (newflags : Flags) (hmem : vma ∈ mm.mmap)
      (hrange : PageRange addr endAddr) (hlow : (mm.area vma).vmStart ≤ addr)
      (hhigh : endAddr ≤ (mm.area vma).vmEnd) :
      Step mm (mm.mprotectMerge vma addr endAddr newflags).2
  | setFlags (vma : Vma) (newflags : Flags) : Step mm (mm.setFlags vma newflags)
  | doMunmap (sysctlMaxMapCount : ℤ) (lower upper : Attempt) (start len : ℕ) :
      Step mm (mm.doMunmap sysctlMaxMapCount lower upper start len).2
  | findVma (addr : ℕ) : Step mm (mm.findVma addr).2

abbrev Run : Mm → Mm → Prop := Relation.ReflTransGen Step

theorem WellFormed.linkNew (hmm : WellFormed mm) {area : Area} (hfresh : vma ∉ mm.mmap)
    (hproper : area.Proper) (hunmapped : Unmapped mm area.vmStart area.vmEnd) :
    WellFormed (mm.linkNew vma area) := by
  have hcopied := hmm.setArea_fresh area hfresh
  obtain ⟨front, back, hcut⟩ := hmm.exists_cut area.vmStart
  have hkeep := setArea_area_fresh area hfresh
  have hself := setArea_area_self mm vma area
  refine (vmaLink_spec hcopied hcut.split (by rw [hself]; exact hproper) ?_ ?_ ?_).2.2
  · intro other hother
    rw [hself, hkeep other (by rw [hcut.split]; exact mem_append_left _ hother)]
    exact hcut.below other hother
  · intro other hother
    have hmem : other ∈ mm.mmap := by
      rw [hcut.split]
      exact mem_append_right _ hother
    rw [hself, hkeep other hmem]
    exact hunmapped.above hcut other hother
  · rw [hself]

theorem WellFormed.setFlags (hmm : WellFormed mm) (vma : Vma) (newflags : Flags) :
    WellFormed (mm.setFlags vma newflags) := by
  have hbounds (other : Vma) :
      ((mm.setFlags vma newflags).area other).vmStart = (mm.area other).vmStart ∧
        ((mm.setFlags vma newflags).area other).vmEnd = (mm.area other).vmEnd := by
    by_cases hother : other = vma
    · rw [hother, Mm.setFlags, setArea_area_self]
      exact ⟨rfl, rfl⟩
    · rw [Mm.setFlags, setArea_area_of_ne _ _ hother]
      exact ⟨rfl, rfl⟩
  refine ⟨⟨fun other hother => ?_, hmm.ordered.pairwise.imp fun hbelow => ?_⟩, hmm.tree, hmm.count,
    hmm.cache, hmm.running⟩
  · obtain ⟨hnonempty, hstart, hend⟩ := hmm.ordered.proper other hother
    exact ⟨by rw [(hbounds other).1, (hbounds other).2]; exact hnonempty,
      (hbounds other).1 ▸ hstart, (hbounds other).2 ▸ hend⟩
  · rw [Area.Below, (hbounds _).1, (hbounds _).2]
    exact hbelow

theorem Step.wellFormed (hmm : WellFormed mm) (hstep : Step mm mm') : WellFormed mm' := by
  cases hstep with
  | vmaLink vma area hfresh hproper hunmapped => exact hmm.linkNew hfresh hproper hunmapped
  | splitVma sysctlMaxMapCount attempt vma addr newBelow hmem hinside =>
    obtain ⟨front, back, hlist⟩ := append_of_mem hmem
    have hsplit := splitVma_spec hmm hlist hinside sysctlMaxMapCount attempt newBelow
    generalize mm.splitVma sysctlMaxMapCount attempt vma addr newBelow = result at hsplit ⊢
    cases hsplit with
    | failed errno mm' hmm' | split low high mm' hmm' => exact hmm'
  | mmapMerge addr endAddr request hrange hunmapped =>
    have hmerged := mmapMerge_spec hmm hrange hunmapped request
    generalize mm.mmapMerge addr endAddr request = result at hmerged ⊢
    cases hmerged with
    | refused => exact hmm
    | merged vma mm' hmm' => exact hmm'
  | mprotectMerge vma addr endAddr newflags hmem hrange hlow hhigh =>
    have hmerged := mprotectMerge_spec hmm hrange hmem hlow hhigh newflags
    generalize mm.mprotectMerge vma addr endAddr newflags = result at hmerged ⊢
    cases hmerged with
    | refused => exact hmm
    | merged vma mm' hmm' => exact hmm'
  | setFlags vma newflags => exact hmm.setFlags vma newflags
  | doMunmap sysctlMaxMapCount lower upper start len =>
    have hunmapping := doMunmap_spec hmm sysctlMaxMapCount lower upper start len
    generalize mm.doMunmap sysctlMaxMapCount lower upper start len = result at hunmapping ⊢
    cases hunmapping with
    | failed errno mm' hmm' | done mm' hmm' => exact hmm'
  | findVma addr =>
    obtain ⟨cache, heq, hcache⟩ := hmm.findVma_eq addr
    rw [heq]
    exact hmm.setCache hcache

/-- Whatever the calls, the list is in order, the tree, the count and the cache
agree with it, and so lookups find the first area that ends above an address
and the one before it. -/
theorem addressSpace_wellFormed (hmm : WellFormed mm) (hrun : Run mm mm') :
    WellFormed mm' ∧ ∀ addr,
      (mm'.findVma addr).1 = mm'.mmap.find? (fun vma => addr < (mm'.area vma).vmEnd) ∧
      mm'.findVmaPrev addr =
        (mm'.mmap.find? (fun vma => addr < (mm'.area vma).vmEnd),
          (mm'.mmap.takeWhile fun vma => (mm'.area vma).vmEnd ≤ addr).getLast?) := by
  have hmm' : WellFormed mm' := by
    induction hrun with
    | refl => exact hmm
    | tail _ hstep ih => exact hstep.wellFormed ih
  refine ⟨hmm', fun addr => ?_⟩
  obtain ⟨cache, heq, -⟩ := hmm'.findVma_eq addr
  obtain ⟨front, back, hcut⟩ := hmm'.exists_cut addr
  have htake : (mm'.mmap.takeWhile fun vma => (mm'.area vma).vmEnd ≤ addr) = front := by
    rw [← hcut.takeWhile_eq]
    congr 1
    funext vma
    simp [endsAbove, ← decide_not]
  refine ⟨by rw [heq]; rfl, ?_⟩
  rw [hmm'.findVmaPrev_eq hcut, htake, ← hcut.find_eq]
  rfl

/-- An address space without areas. -/
def Mm.init : Mm where
  area := fun _ => ⟨0, 0, 0, 0, none, none, none, false⟩
  mmap := []
  mmRb := .leaf
  mapCount := 0
  mmapCache := none
  bug := false

theorem wellFormed_init : WellFormed init :=
  ⟨ordered_nil, rfl, rfl, by simp [init], rfl⟩

/-- An allocator that hands out the first struct not in use. -/
def firstFree : Allocation where
  pick live := (range (live.length + 1)).find? (fun vma => decide (vma ∉ live))
  fresh live vma hpick := by simpa using List.find?_some hpick

/-- Three pages of file 7 from its page 5 on. -/
def threePages : Area := ⟨0, 3 * pageSize, 5, 1, some 7, none, none, false⟩

theorem addressSpace_wellFormed_hole : ∃ mm', Run Mm.init mm' ∧ mm'.mmap = [0, 1] ∧
    WellFormed mm' ∧ mm'.findVmaPrev pageSize = (some 1, some 0) := by
  have hlink : Step init (init.linkNew 0 threePages) :=
    .vmaLink 0 threePages (by simp [init]) ⟨by decide, by decide, by decide⟩
      (by simp [Unmapped, init])
  have hrun : Run init ((init.linkNew 0 threePages).doMunmap 10 ⟨firstFree, true⟩
      ⟨firstFree, true⟩ pageSize pageSize).2 :=
    (Relation.ReflTransGen.single hlink).tail (.doMunmap 10 _ _ pageSize pageSize)
  obtain ⟨hmm, hfind⟩ := addressSpace_wellFormed wellFormed_init hrun
  refine ⟨_, hrun, by decide +kernel, hmm, ?_⟩
  rw [(hfind pageSize).2]
  decide +kernel

section PageMap

variable {addr endAddr start len : ℕ} {page : ℕ}

theorem SameMap.pageMap_eq (hsame : SameMap mm mm') (hmm : WellFormed mm) (hmm' : WellFormed mm') :
    pageMap mm' = pageMap mm := by
  funext page
  exact pageMap_congr hmm hmm' (hsame page)

theorem Erased.pageMap_eq (herased : Erased mm mm' start endAddr) (hmm : WellFormed mm)
    (hmm' : WellFormed mm') (page : ℕ) :
    pageMap mm' page = if InRange start endAddr page then none else pageMap mm page := by
  by_cases hrange : InRange start endAddr page
  · rw [if_pos hrange]
    apply Option.eq_none_iff_forall_ne_some.mpr
    intro entry hentry
    obtain ⟨line, hmaps, -⟩ := (pageMap_eq_some_iff hmm').mp hentry
    exact ((herased page line).mp hmaps).1 hrange
  · rw [if_neg hrange]
    refine pageMap_congr hmm hmm' fun other => (herased page other).trans ?_
    exact and_iff_right hrange

theorem Request.entry_line (request : Request) (haddr : pageSize ∣ addr)
    (hrange : InRange addr endAddr page) :
    (request.line addr).entry page =
      ⟨request.file, request.pgoff + pages addr (page * pageSize), request.vmFlags,
        request.policy⟩ := by
  rw [pages_eq haddr hrange.1, Nat.mul_div_cancel page pageSize_pos]
  simp only [Line.entry, Request.line, PageEntry.mk.injEq, true_and, and_true]
  ring

theorem entry_reflagged (hmm : WellFormed mm) (hmem : vma ∈ mm.mmap)
    (hlow : (mm.area vma).vmStart ≤ addr) (hhigh : endAddr ≤ (mm.area vma).vmEnd)
    (hrange : InRange addr endAddr page) (newflags : Flags) :
    some (((mm.area vma).reflagged newflags).entry page) =
      (pageMap mm page).map fun entry => { entry with flags := newflags } := by
  have hcovers : (mm.area vma).Covers page :=
    ⟨hlow.trans hrange.1, hrange.2.trans_le hhigh⟩
  rw [(pageMap_eq_some_iff hmm).mpr ⟨_, ⟨vma, hmem, hcovers, rfl⟩, rfl⟩]
  rfl

/-- Rounding the length up to whole pages adds no page to the range. -/
theorem inRange_pageAlign (hstart : pageSize ∣ start) :
    InRange start (start + pageAlign len) page ↔ InRange start (start + len) page := by
  obtain ⟨first, rfl⟩ := hstart
  refine and_congr_right fun hlow => ?_
  have hround : page - first < (len + (pageSize - 1)) / pageSize ↔
      (page - first) * pageSize < len := by
    rw [← Nat.add_one_le_iff, Nat.le_div_iff_mul_le pageSize_pos, add_mul]
    have := pageSize_pos
    omega
  have hmul : (page - first) * pageSize = page * pageSize - pageSize * first := by
    rw [Nat.sub_mul, mul_comm first]
  have halign : pageAlign len = (len + (pageSize - 1)) / pageSize * pageSize := rfl
  have hlt : (page - first) * pageSize < pageAlign len ↔
      page - first < (len + (pageSize - 1)) / pageSize := by
    rw [halign]
    exact Nat.mul_lt_mul_right pageSize_pos
  rw [hmul] at hlt hround
  omega

/-- Splitting changes no page; merging maps the range that was asked for, or
changes its flags; unmapping takes out the range or fails and changes no page. -/
theorem pageMap_exact (hmm : WellFormed mm) :
    (∀ sysctlMaxMapCount attempt vma addr newBelow, vma ∈ mm.mmap → Inside (mm.area vma) addr →
      pageMap (mm.splitVma sysctlMaxMapCount attempt vma addr newBelow).2 = pageMap mm) ∧
    (∀ addr endAddr request vma mm', PageRange addr endAddr → Unmapped mm addr endAddr →
      mm.mmapMerge addr endAddr request = (some vma, mm') → ∀ page, pageMap mm' page =
        if InRange addr endAddr page then
          some ⟨request.file, request.pgoff + pages addr (page * pageSize), request.vmFlags,
            request.policy⟩
        else pageMap mm page) ∧
    (∀ vma addr endAddr newflags area mm', vma ∈ mm.mmap → PageRange addr endAddr →
      (mm.area vma).vmStart ≤ addr → endAddr ≤ (mm.area vma).vmEnd →
      mm.mprotectMerge vma addr endAddr newflags = (some area, mm') →
      ∀ page, pageMap (mm'.setFlags area newflags) page =
        if InRange addr endAddr page then
          (pageMap mm page).map fun entry => { entry with flags := newflags }
        else pageMap mm page) ∧
    (∀ sysctlMaxMapCount lower upper start len mm',
      mm.doMunmap sysctlMaxMapCount lower upper start len = (.ok (), mm') →
      ∀ page, pageMap mm' page =
        if InRange start (start + len) page then none else pageMap mm page) ∧
    (∀ sysctlMaxMapCount lower upper start len errno mm',
      mm.doMunmap sysctlMaxMapCount lower upper start len = (.error errno, mm') →
      pageMap mm' = pageMap mm) := by
  refine ⟨?_, ?_, ?_, ?_, ?_⟩
  · intro sysctlMaxMapCount attempt vma addr newBelow hmem hinside
    obtain ⟨front, back, hlist⟩ := append_of_mem hmem
    have hsplit := splitVma_spec hmm hlist hinside sysctlMaxMapCount attempt newBelow
    generalize mm.splitVma sysctlMaxMapCount attempt vma addr newBelow = result at hsplit ⊢
    cases hsplit with
    | failed errno mm' hmm' hlist' harea =>
      exact (SameMap.of_list hlist' harea).pageMap_eq hmm hmm'
    | split low high mm' hmm' hreplaced hlow hhigh hkept hsame => exact hsame.pageMap_eq hmm hmm'
  · intro addr endAddr request vma mm' hrange hunmapped heq page
    have hmerged := mmapMerge_spec hmm hrange hunmapped request
    rw [heq] at hmerged
    cases hmerged with
    | merged vma mm' hmm' hmem hpainted =>
      rw [hpainted.pageMap_eq hmm hmm' page]
      by_cases hin : InRange addr endAddr page
      · rw [if_pos hin, if_pos hin, request.entry_line hrange.startAligned hin]
      · rw [if_neg hin, if_neg hin]
  · intro vma addr endAddr newflags area mm' hmem hrange hlow hhigh heq page
    have hmerged := mprotectMerge_spec hmm hrange hmem hlow hhigh newflags
    rw [heq] at hmerged
    cases hmerged with
    | merged area mm' hmm' _ hpainted =>
      rw [hpainted.pageMap_eq hmm (hmm'.setFlags area newflags) page]
      by_cases hin : InRange addr endAddr page
      · rw [if_pos hin, if_pos hin, entry_reflagged hmm hmem hlow hhigh hin]
      · rw [if_neg hin, if_neg hin]
  · intro sysctlMaxMapCount lower upper start len mm' heq page
    have hunmapping := doMunmap_spec hmm sysctlMaxMapCount lower upper start len
    rw [heq] at hunmapping
    have haligned : pageSize ∣ start := by
      apply Nat.dvd_of_mod_eq_zero
      by_contra hne
      simp [doMunmap, hne] at heq
    cases hunmapping with
    | done mm' hmm' herased =>
      rw [herased.pageMap_eq hmm hmm' page]
      simp [inRange_pageAlign haligned]
  · intro sysctlMaxMapCount lower upper start len errno mm' heq
    have hunmapping := doMunmap_spec hmm sysctlMaxMapCount lower upper start len
    rw [heq] at hunmapping
    cases hunmapping with
    | failed errno mm' hmm' hsame => exact hsame.pageMap_eq hmm hmm'

theorem pageMap_exact_hole : WellFormed (Mm.init.linkNew 0 threePages) ∧
    ∃ mm', (Mm.init.linkNew 0 threePages).doMunmap 10 ⟨firstFree, true⟩ ⟨firstFree, true⟩ pageSize
        pageSize = (.ok (), mm') ∧
      pageMap mm' 1 = none ∧ pageMap mm' 2 = some ⟨some 7, 7, 1, none⟩ := by
  have hmm : WellFormed (init.linkNew 0 threePages) :=
    wellFormed_init.linkNew (by simp [init]) ⟨by decide, by decide, by decide⟩
      (by simp [Unmapped, init])
  have heq : (init.linkNew 0 threePages).doMunmap 10 ⟨firstFree, true⟩ ⟨firstFree, true⟩ pageSize
      pageSize = (.ok (), ((init.linkNew 0 threePages).doMunmap 10 ⟨firstFree, true⟩
        ⟨firstFree, true⟩ pageSize pageSize).2) := by
    apply Prod.ext
    · decide +kernel
    · rfl
  have hmap := (pageMap_exact hmm).2.2.2.1 _ _ _ _ _ _ heq
  refine ⟨hmm, _, heq, ?_, ?_⟩
  · rw [hmap 1]
    decide +kernel
  · rw [hmap 2]
    decide +kernel

end PageMap

end KernelM5040.Mmap
