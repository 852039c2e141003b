import KernelM5040.Mm.MmapInvariant

/-!
# What linking, splitting and adjusting do to the list of areas

Every change of an address space replaces a stretch of the list by another
one and leaves the areas before and after it alone.  The lemmas here give, for
each of the updates that `vma_adjust` is made of, the stretch that goes, the
one that comes and the new bounds, and show that the tree, the count and the
cache follow.
-/

namespace KernelM5040.Mmap

open Mm List SearchTree RbTree

variable {mm mm' : Mm} {front old new back : List Vma} {vma next : Vma}

/-- The stretch `old` between `front` and `back` becomes `new`. -/
structure Replaced (mm mm' : Mm) (front old new back : List Vma) : Prop where
  list : mm.mmap = front ++ (old ++ back)
  list' : mm'.mmap = front ++ (new ++ back)
  frame : ∀ vma ∈ front ++ back, mm'.area vma = mm.area vma
  tree : mm'.mmRb.inorder = mm'.mmap
  count : mm'.mapCount = mm'.mmap.length
  cache : ∀ vma, mm'.mmapCache = some vma → vma ∈ mm'.mmap
  running : mm'.bug = false

/-- New areas that stay within the room between their neighbours keep the
order. -/
theorem Ordered.replace {area area' : Vma → Area} (old new : List Vma)
    (hordered : Ordered area (front ++ (old ++ back)))
    (hframe : ∀ vma ∈ front ++ back, area' vma = area vma) (low high : ℕ)
    (hnew : Ordered area' new) (hlow : ∀ left ∈ front, (area left).vmEnd ≤ low)
    (hhigh : ∀ right ∈ back, high ≤ (area right).vmStart)
    (hroom : ∀ vma ∈ new, low ≤ (area' vma).vmStart ∧ (area' vma).vmEnd ≤ high) :
    Ordered area' (front ++ (new ++ back)) := by
  obtain ⟨hfront, hrest, hcross⟩ := ordered_append.mp hordered
  obtain ⟨-, hback, -⟩ := ordered_append.mp hrest
  have hframe (vma : Vma) (hvma : vma ∈ front ∨ vma ∈ back) : area' vma = area vma :=
    hframe vma (mem_append.mpr hvma)
  refine ordered_append.mpr ⟨hfront.congr fun vma hvma => hframe vma (.inl hvma),
    ordered_append.mpr ⟨hnew, hback.congr fun vma hvma => hframe vma (.inr hvma), ?_⟩, ?_⟩
  · intro left hleft right hright
    rw [Area.Below, hframe right (.inr hright)]
    exact (hroom left hleft).2.trans (hhigh right hright)
  intro left hleft right hright
  rw [Area.Below, hframe left (.inl hleft)]
  rcases mem_append.mp hright with hmem | hmem
  · exact (hlow left hleft).trans (hroom right hmem).1
  · rw [hframe right (.inr hmem)]
    exact hcross left hleft right (mem_append_right _ hmem)

section

variable (hreplaced : Replaced mm mm' front old new back) (hmm : WellFormed mm)
include hreplaced hmm

theorem Replaced.wellFormed (low high : ℕ) (hnew : Ordered mm'.area new)
    (hlow : ∀ left ∈ front, (mm.area left).vmEnd ≤ low)
    (hhigh : ∀ right ∈ back, high ≤ (mm.area right).vmStart)
    (hroom : ∀ vma ∈ new, low ≤ (mm'.area vma).vmStart ∧ (mm'.area vma).vmEnd ≤ high) :
    WellFormed mm' := by
  refine ⟨?_, hreplaced.tree, hreplaced.count, hreplaced.cache, hreplaced.running⟩
  rw [hreplaced.list']
  exact (hreplaced.list ▸ hmm.ordered).replace old new hreplaced.frame low high hnew hlow hhigh hroom

theorem Replaced.wellFormed_one (hone : new = [vma]) (hproper : (mm'.area vma).Proper)
    (hlow : ∀ left ∈ front, (mm.area left).vmEnd ≤ (mm'.area vma).vmStart)
    (hhigh : ∀ right ∈ back, (mm'.area vma).vmEnd ≤ (mm.area right).vmStart) : WellFormed mm' := by
  subst hone
  exact hreplaced.wellFormed hmm _ _ (ordered_singleton hproper) hlow hhigh (by simp)

end

theorem Replaced.trans {mm'' : Mm} {middle : List Vma}
    (hfirst : Replaced mm mm' front old middle back)
    (hsecond : Replaced mm' mm'' front middle new back) : Replaced mm mm'' front old new back :=
  ⟨hfirst.list, hsecond.list',
    fun vma hvma => (hsecond.frame vma hvma).trans (hfirst.frame vma hvma),
    hsecond.tree, hsecond.count, hsecond.cache, hsecond.running⟩

section Areas

@[simp] theorem setArea_mmap (mm : Mm) (vma : Vma) (area : Area) :
    (mm.setArea vma area).mmap = mm.mmap := rfl

theorem setArea_area_of_ne {other : Vma} (mm : Mm) (area : Area) (hne : other ≠ vma) :
    (mm.setArea vma area).area other = mm.area other := by
  simp [setArea, hne]

@[simp] theorem setArea_area_self (mm : Mm) (vma : Vma) (area : Area) :
    (mm.setArea vma area).area vma = area := by
  simp [setArea]

theorem setArea_self (mm : Mm) (vma : Vma) : mm.setArea vma (mm.area vma) = mm := by
  simp [setArea]

theorem importAnonVma_eq (mm : Mm) (importer vma next : Vma) :
    ∃ anonVma, mm.importAnonVma importer vma next =
      mm.setArea importer { mm.area importer with anonVma := anonVma } := by
  unfold importAnonVma
  split
  · exact ⟨_, rfl⟩
  · exact ⟨(mm.area importer).anonVma, (setArea_self mm importer).symm⟩

theorem setArea_area_fresh (area : Area) (hfresh : vma ∉ mm.mmap) :
    ∀ other ∈ mm.mmap, (mm.setArea vma area).area other = mm.area other :=
  fun _ hother => setArea_area_of_ne mm area (ne_of_mem_of_not_mem hother hfresh)

theorem WellFormed.setArea_fresh (hmm : WellFormed mm) (area : Area) (hfresh : vma ∉ mm.mmap) :
    WellFormed (mm.setArea vma area) :=
  ⟨hmm.ordered.congr (setArea_area_fresh area hfresh), hmm.tree, hmm.count, hmm.cache, hmm.running⟩

theorem WellFormed.setArea_replaced (hmm : WellFormed mm) (area : Area)
    (hlist : mm.mmap = front ++ vma :: back) :
    Replaced mm (mm.setArea vma area) front [vma] [vma] back := by
  have hordered := hlist ▸ hmm.ordered
  refine ⟨hlist, hlist, ?_, hmm.tree, hmm.count, hmm.cache, hmm.running⟩
  intro other hother
  apply setArea_area_of_ne
  rintro rfl
  exact (mem_append.mp hother).elim hordered.not_mem_front hordered.not_mem_back

end Areas

section Link

/-- `__vma_link_list` at the place that `find_vma_prepare` found. -/
theorem vmaLinkList_eq (hmm : WellFormed mm) (vma : Vma) (hlist : mm.mmap = front ++ back)
    {rbParent : Option Vma} (hparent : front = [] → rbParent = back.head?) :
    mm.vmaLinkList vma front.getLast? rbParent = front ++ vma :: back := by
  have hordered := hlist ▸ hmm.ordered
  unfold vmaLinkList
  rw [hlist]
  rcases eq_nil_or_concat front with rfl | ⟨init, prev, rfl⟩
  · rw [hparent rfl]
    cases back with
    | nil => rfl
    | cons first rest =>
      have hfirst : following first ([] ++ first :: rest) = rest :=
        following_split not_mem_nil
      simpa using hfirst
  · have hinit : Ordered mm.area (init ++ prev :: back) := by simpa using hordered
    rw [concat_eq_append, append_assoc, singleton_append]
    simp [upTo_split hinit.not_mem_front, following_split hinit.not_mem_front]

section

variable (hmm : WellFormed mm) (hlist : mm.mmap = front ++ back) (hproper : (mm.area vma).Proper)
  (hfront : ∀ other ∈ front, (mm.area other).vmEnd ≤ (mm.area vma).vmStart)
  (hback : ∀ other ∈ back, (mm.area vma).vmEnd ≤ (mm.area other).vmStart)
include hmm hlist hproper hfront hback

/-- Linking an area between the areas below it and those above it. -/
theorem vmaLink_spec {found : Prepared} (hfound : mm.findVmaPrepare (mm.area vma).vmStart = found) :
    found.vma = back.head? ∧
      Replaced mm (mm.vmaLink vma found.prev found.rbLink found.rbParent) front [] [vma] back ∧
      WellFormed (mm.vmaLink vma found.prev found.rbLink found.rbParent) := by
  obtain ⟨hvma, hprev, hbefore, hafter, hparent⟩ := hmm.findVmaPrepare_spec hlist hfront
    fun other hother => hproper.nonempty.trans_le (hback other hother)
  rw [hfound] at hvma hprev hbefore hafter hparent
  have hlinked : (mm.vmaLink vma found.prev found.rbLink found.rbParent).mmap =
      front ++ ([vma] ++ back) := by
    rw [hprev]
    exact vmaLinkList_eq hmm vma hlist hparent
  have hreplaced : Replaced mm (mm.vmaLink vma found.prev found.rbLink found.rbParent) front []
      [vma] back := by
    refine ⟨hlist, hlinked, fun _ _ => rfl, ?_, ?_, ?_, hmm.running⟩
    · rw [hlinked]
      change (rbLinkNode vma found.rbLink).inorder = _
      rw [inorder_rbLinkNode, hbefore, hafter]
      rfl
    · rw [hlinked]
      change mm.mapCount + 1 = _
      rw [hmm.count, hlist]
      simp only [length_append, length_singleton]
      push_cast
      ring
    · intro other hother
      have hmem := hmm.cache other hother
      rw [hlinked]
      rw [hlist] at hmem
      exact (mem_append.mp hmem).elim (mem_append_left _)
        fun hin => mem_append_right _ (mem_append_right _ hin)
  exact ⟨hvma, hreplaced, hreplaced.wellFormed_one hmm rfl hproper hfront hback⟩

theorem insertVmStruct_spec :
    Replaced mm (mm.insertVmStruct vma) front [] [vma] back ∧
      WellFormed (mm.insertVmStruct vma) ∧ (mm.insertVmStruct vma).area = mm.area := by
  obtain ⟨hvma, hreplaced, hlinked⟩ := vmaLink_spec hmm hlist hproper hfront hback rfl
  have heq : mm.insertVmStruct vma = mm.vmaLink vma (mm.findVmaPrepare (mm.area vma).vmStart).prev
        (mm.findVmaPrepare (mm.area vma).vmStart).rbLink
        (mm.findVmaPrepare (mm.area vma).vmStart).rbParent := by
    simp only [insertVmStruct, hvma]
    cases back with
    | nil => simp [vmaLink]
    | cons next rest => simp [vmaLink, not_lt.mpr (hback next mem_cons_self)]
  rw [heq]
  exact ⟨hreplaced, hlinked, rfl⟩

end

end Link

section Adjust

variable {start endAddr : ℕ} {pgoff : Pgoff}

/-- An area with new bounds; what anon_vma it gets does not matter here. -/
def Area.resized (area : Area) (start endAddr : ℕ) (pgoff : Pgoff) (anonVma : Option ℕ) : Area :=
  { area with vmStart := start, vmEnd := endAddr, vmPgoff := pgoff, anonVma := anonVma }

/-- The update made when an area swallows the next one, field by field. -/
theorem swallowNext_eq (mm : Mm) (vma next : Vma) (start : ℕ) (pgoff : Pgoff) :
    ∃ anonVma, mm.swallowNext vma next start pgoff =
      { mm.setArea vma ((mm.area vma).resized start (mm.area next).vmEnd pgoff anonVma) with
        mmap := upTo vma mm.mmap ++ following next mm.mmap
        mmRb := rbErase next mm.mmRb
        mapCount := mm.mapCount - 1
        mmapCache := if mm.mmapCache = some next then some vma else mm.mmapCache } := by
  obtain ⟨anonVma, himport⟩ := importAnonVma_eq mm vma vma next
  refine ⟨anonVma, ?_⟩
  rw [swallowNext, himport]
  simp [setBounds, vmaUnlink, setArea, Area.resized]

/-- Two neighbours with new bounds. -/
def Mm.resizeBoth (mm : Mm) (vma next : Vma) (area area' : Area) : Mm :=
  (mm.setArea vma area).setArea next area'

section

variable (hmm : WellFormed mm) (hlist : mm.mmap = front ++ vma :: next :: back)
include hmm hlist

theorem swallowNext_replaced (start : ℕ) (pgoff : Pgoff) :
    Replaced mm (mm.swallowNext vma next start pgoff) front [vma, next] [vma] back ∧
      ∃ anonVma, (mm.swallowNext vma next start pgoff).area =
        (mm.setArea vma ((mm.area vma).resized start (mm.area next).vmEnd pgoff anonVma)).area := by
  obtain ⟨anonVma, heq⟩ := swallowNext_eq mm vma next start pgoff
  have hordered := hlist ▸ hmm.ordered
  have hsplit := hlist.trans (append_cons front vma (next :: back))
  have hnext : next ∉ front ++ [vma] := (hsplit ▸ hmm.ordered).not_mem_front
  have hmmap : upTo vma mm.mmap ++ following next mm.mmap = front ++ ([vma] ++ back) := by
    nth_rewrite 1 [hlist]
    rw [upTo_split hordered.not_mem_front, hsplit, following_split hnext, append_assoc]
  refine ⟨?_, anonVma, by rw [heq]⟩
  rw [heq]
  refine ⟨hlist, hmmap, ?_, ?_, ?_, ?_, hmm.running⟩
  · intro other hother
    apply setArea_area_of_ne
    rintro rfl
    rcases mem_append.mp hother with hmem | hmem
    · exact hordered.not_mem_front hmem
    · exact hordered.not_mem_back (mem_cons_of_mem _ hmem)
  · change (rbErase next mm.mmRb).inorder = upTo vma mm.mmap ++ following next mm.mmap
    rw [inorder_rbErase, hmm.tree, hmmap, hsplit, erase_append_right _ hnext,
      erase_cons_head, append_assoc]
  · change mm.mapCount - 1 = (upTo vma mm.mmap ++ following next mm.mmap).length
    rw [hmm.count, hmmap, hlist]
    simp only [length_append, length_cons, length_nil]
    push_cast
    ring
  · intro other hother
    change other ∈ upTo vma mm.mmap ++ following next mm.mmap
    rw [hmmap]
    change (if mm.mmapCache = some next then some vma else mm.mmapCache) = some other at hother
    by_cases hcache : mm.mmapCache = some next
    · rw [if_pos hcache] at hother
      simp [← Option.some.inj hother]
    rw [if_neg hcache] at hother
    have hne : other ≠ next := fun heq => hcache (heq ▸ hother)
    have hmem := hmm.cache other hother
    rw [hlist] at hmem
    simp only [mem_append, mem_cons] at hmem ⊢
    tauto

theorem vmaAdjust_swallow (hend : endAddr = (mm.area next).vmEnd) :
    mm.vmaAdjust vma start endAddr pgoff none = mm.swallowNext vma next start pgoff := by
  have hnext : mm.vmNext vma = some next := hmm.vmNext_eq hlist
  have hlength : mm.mmap.length = (front.length + back.length + 1) + 1 := by
    rw [hlist]
    simp only [length_append, length_cons]
    omega
  simp [vmaAdjust, hnext, hend, hlength, removeNext]

theorem resizeBoth_replaced (area area' : Area) :
    Replaced mm (mm.resizeBoth vma next area area') front [vma, next] [vma, next] back ∧
      (mm.resizeBoth vma next area area').area vma = area ∧
      (mm.resizeBoth vma next area area').area next = area' := by
  have hordered := hlist ▸ hmm.ordered
  have hsplit := hlist.trans (append_cons front vma (next :: back))
  have hordered' := hsplit ▸ hmm.ordered
  refine ⟨⟨hlist, hlist, ?_, hmm.tree, hmm.count, hmm.cache, hmm.running⟩, ?_, ?_⟩
  · intro other hother
    have hvma : other ≠ vma := by
      rintro rfl
      exact (mem_append.mp hother).elim hordered.not_mem_front
        fun hmem => hordered.not_mem_back (mem_cons_of_mem _ hmem)
    have hnext : other ≠ next := by
      rintro rfl
      exact (mem_append.mp hother).elim
        (fun hmem => hordered'.not_mem_front (mem_append_left _ hmem)) hordered'.not_mem_back
    rw [resizeBoth, setArea_area_of_ne _ _ hnext, setArea_area_of_ne _ _ hvma]
  · rw [resizeBoth, setArea_area_of_ne _ _ (hmm.ne_next hlist), setArea_area_self]
  · rw [resizeBoth, setArea_area_self]

end

theorem vmaAdjust_swallow_two (hmm : WellFormed mm) {beyond : Vma}
    (hlist : mm.mmap = front ++ vma :: next :: beyond :: back)
    (hmid : WellFormed (mm.swallowNext vma next start pgoff))
    (hend : endAddr = (mm.area beyond).vmEnd) :
    mm.vmaAdjust vma start endAddr pgoff none =
      (mm.swallowNext vma next start pgoff).swallowNext vma beyond start pgoff := by
  have hnext : mm.vmNext vma = some next := hmm.vmNext_eq hlist
  obtain ⟨hreplaced, -⟩ := swallowNext_replaced hmm hlist start pgoff
  have hlist' : (mm.swallowNext vma next start pgoff).mmap = front ++ vma :: beyond :: back :=
    hreplaced.list'
  have hnext' : (mm.swallowNext vma next start pgoff).vmNext vma = some beyond :=
    hmid.vmNext_eq hlist'
  have hframe : (mm.swallowNext vma next start pgoff).area beyond = mm.area beyond :=
    hreplaced.frame beyond (by simp)
  have hlength : mm.mmap.length = (front.length + back.length + 1) + 1 + 1 := by
    rw [hlist]
    simp only [length_append, length_cons]
    omega
  have hbeyond : (mm.area next).vmEnd < (mm.area beyond).vmEnd := by
    have hrest := (ordered_append.mp (hlist ▸ hmm.ordered)).2.1
    have hbelow := (ordered_cons.mp (ordered_cons.mp hrest).2.1).2.2 beyond (by simp)
    have hproper := hmm.ordered.proper beyond (by simp [hlist])
    exact lt_of_le_of_lt hbelow hproper.nonempty
  simp [vmaAdjust, hnext, hend, hlength, removeNext, hbeyond, hbeyond.le, hnext', hframe,
    hbeyond.not_gt]

theorem shift_eq (mm : Mm) (hne : vma ≠ next) {importer : Vma}
    (himporter : importer = vma ∨ importer = next) (start endAddr : ℕ) (pgoff : Pgoff)
    (adjust : ℤ) :
    ∃ anonVma anonVma', ((mm.importAnonVma importer vma next).setBounds vma start endAddr
        pgoff).adjustNext next adjust =
      mm.resizeBoth vma next ((mm.area vma).resized start endAddr pgoff anonVma)
        ((mm.area next).resized ((mm.area next).vmStart + adjust * pageSize).toNat
          (mm.area next).vmEnd ((mm.area next).vmPgoff + BitVec.ofInt 64 adjust) anonVma') := by
  obtain ⟨anonVma, himport⟩ := importAnonVma_eq mm importer vma next
  rw [himport]
  rcases himporter with rfl | rfl
  · refine ⟨anonVma, (mm.area next).anonVma, ?_⟩
    simp [adjustNext, setBounds, resizeBoth, setArea, Area.resized, hne.symm]
  · refine ⟨(mm.area vma).anonVma, anonVma, ?_⟩
    simp [adjustNext, setBounds, resizeBoth, setArea, Area.resized, hne, hne.symm,
      Function.update_comm hne]

section

variable (start : ℕ) (pgoff : Pgoff) (hmm : WellFormed mm)
  (hlist : mm.mmap = front ++ vma :: next :: back) (haligned : pageSize ∣ endAddr)
include hmm hlist haligned

/-- `vma_adjust` that takes pages from the front of the next area. -/
theorem vmaAdjust_shift_up (hlow : (mm.area next).vmStart < endAddr)
    (hhigh : endAddr < (mm.area next).vmEnd) :
    ∃ anonVma anonVma', mm.vmaAdjust vma start endAddr pgoff none =
      mm.resizeBoth vma next ((mm.area vma).resized start endAddr pgoff anonVma)
        ((mm.area next).resized endAddr (mm.area next).vmEnd
          ((mm.area next).vmPgoff + pages (mm.area next).vmStart endAddr) anonVma') := by
  have hnext : mm.vmNext vma = some next := hmm.vmNext_eq hlist
  obtain ⟨anonVma, anonVma', heq⟩ := shift_eq mm (hmm.ne_next hlist) (.inl rfl) start endAddr pgoff
    ((endAddr - (mm.area next).vmStart) / pageSize : ℕ)
  have hstart : ((mm.area next).vmStart +
      (((endAddr - (mm.area next).vmStart) / pageSize : ℕ) : ℤ) * pageSize).toNat = endAddr := by
    have hdvd := Nat.dvd_sub haligned (hmm.proper_next hlist).startAligned
    have hmul := Nat.div_mul_cancel hdvd
    rw [← Nat.cast_mul, hmul, ← Nat.cast_add, Int.toNat_natCast]
    omega
  refine ⟨anonVma, anonVma', ?_⟩
  rw [hstart] at heq
  simp only [vmaAdjust, hnext, if_neg (not_le.mpr hhigh), if_pos hlow]
  exact heq

/-- `vma_adjust` that gives the last pages of the area to the next one. -/
theorem vmaAdjust_shift_down (hmeet : (mm.area vma).vmEnd = (mm.area next).vmStart)
    (hhigh : endAddr < (mm.area vma).vmEnd) :
    ∃ anonVma anonVma', mm.vmaAdjust vma start endAddr pgoff none =
      mm.resizeBoth vma next ((mm.area vma).resized start endAddr pgoff anonVma)
        ((mm.area next).resized endAddr (mm.area next).vmEnd
          ((mm.area next).vmPgoff - pages endAddr (mm.area next).vmStart) anonVma') := by
  have hnext : mm.vmNext vma = some next := hmm.vmNext_eq hlist
  obtain ⟨anonVma, anonVma', heq⟩ := shift_eq mm (hmm.ne_next hlist) (.inr rfl) start endAddr pgoff
    (-(((mm.area vma).vmEnd - endAddr) / pageSize : ℕ))
  have hproper := hmm.proper_next hlist
  have hstart : ((mm.area next).vmStart +
      -(((mm.area vma).vmEnd - endAddr) / pageSize : ℕ) * (pageSize : ℤ)).toNat = endAddr := by
    have hdvd := Nat.dvd_sub hproper.startAligned haligned
    have hmul := Nat.div_mul_cancel hdvd
    rw [hmeet, Int.neg_mul, ← Nat.cast_mul, hmul]
    omega
  have hpgoff : (mm.area next).vmPgoff +
      BitVec.ofInt 64 (-(((mm.area vma).vmEnd - endAddr) / pageSize : ℕ)) =
        (mm.area next).vmPgoff - pages endAddr (mm.area next).vmStart := by
    rw [BitVec.ofInt_neg, BitVec.ofInt_natCast, ← BitVec.sub_eq_add_neg, hmeet]
    rfl
  refine ⟨anonVma, anonVma', ?_⟩
  rw [hstart, hpgoff] at heq
  have hnoswallow : ¬ (mm.area next).vmEnd ≤ endAddr := by
    have := hproper.nonempty
    omega
  have hnoshift : ¬ (mm.area next).vmStart < endAddr := by omega
  simp only [vmaAdjust, hnext, if_neg hnoswallow, if_neg hnoshift, if_pos hhigh]
  exact heq

end

theorem vmaAdjust_alone (hmm : WellFormed mm) (hlist : mm.mmap = front ++ vma :: back)
    (hend : (mm.area vma).vmEnd ≤ endAddr)
    (hback : ∀ other ∈ back, endAddr ≤ (mm.area other).vmStart) :
    mm.vmaAdjust vma start endAddr pgoff none =
      mm.setArea vma ((mm.area vma).resized start endAddr pgoff (mm.area vma).anonVma) := by
  have hnext := hmm.vmNext_eq hlist
  cases back with
  | nil =>
    simp only [vmaAdjust, hnext]
    rfl
  | cons next rest =>
    simp only [head?_cons] at hnext
    have hstart := hback next mem_cons_self
    have hproper := (hmm.proper_next hlist).nonempty
    simp only [vmaAdjust, hnext, if_neg (not_le.mpr (hstart.trans_lt hproper)),
      if_neg (not_lt.mpr hstart), if_neg (not_lt.mpr hend)]
    rfl

end Adjust

end KernelM5040.Mmap
