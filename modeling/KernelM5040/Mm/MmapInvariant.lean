import KernelM5040.Mm.Mmap

/-!
# The representation of an address space, and looking areas up

A well-formed `mm_struct` has its areas on the list in the order of their
addresses, without overlap; the tree holds the same sequence, the count is its
length and the cache is one of its elements.  In such a state an address cuts
the list in the areas that end at or below it and those that end above it, and
the three lookups of the source all find that cut: through the cache or the
tree, from the tree alone, and as the place where a new area is linked.
-/

namespace KernelM5040.Mmap

open Mm List SearchTree RbTree Option

/-- An area covers at least one page, and whole pages only. -/
structure Area.Proper (area : Area) : Prop where
  nonempty : area.vmStart < area.vmEnd
  startAligned : pageSize ∣ area.vmStart
  endAligned : pageSize ∣ area.vmEnd

/-- One area lies below another. -/
def Area.Below (left right : Area) : Prop := left.vmEnd ≤ right.vmStart

/-- Areas in the order of their addresses, without overlap. -/
@[mk_iff]
structure Ordered (area : Vma → Area) (list : List Vma) : Prop where
  proper : ∀ vma ∈ list, (area vma).Proper
  pairwise : list.Pairwise fun left right => (area left).Below (area right)

structure WellFormed (mm : Mm) : Prop where
  ordered : Ordered mm.area mm.mmap
  tree : mm.mmRb.inorder = mm.mmap
  count : mm.mapCount = mm.mmap.length
  cache : ∀ vma, mm.mmapCache = some vma → vma ∈ mm.mmap
  running : mm.bug = false

section Lists

variable {vma : Vma} {front back : List Vma}

theorem following_split (hfront : vma ∉ front) : following vma (front ++ vma :: back) = back := by
  unfold following
  rw [dropWhile_append_of_pos]
  · simp
  · intro other hother
    simpa using fun heq : other = vma => hfront (heq ▸ hother)

theorem upTo_split (hfront : vma ∉ front) : upTo vma (front ++ vma :: back) = front ++ [vma] := by
  unfold upTo
  rw [takeWhile_append_of_pos]
  · simp
  · intro other hother
    simpa using fun heq : other = vma => hfront (heq ▸ hother)

end Lists

section Order

variable {area area' : Vma → Area} {list front back : List Vma} {vma : Vma} {addr : ℕ}

theorem ordered_nil : Ordered area [] := ⟨by simp, Pairwise.nil⟩

theorem ordered_singleton (hproper : (area vma).Proper) : Ordered area [vma] :=
  ⟨by simpa using hproper, pairwise_singleton _ _⟩

theorem ordered_append : Ordered area (front ++ back) ↔
    Ordered area front ∧ Ordered area back ∧
      ∀ left ∈ front, ∀ right ∈ back, (area left).Below (area right) := by
  simp only [ordered_iff, forall_mem_append, pairwise_append, and_assoc, and_left_comm]

theorem ordered_cons : Ordered area (vma :: back) ↔
    (area vma).Proper ∧ Ordered area back ∧ ∀ right ∈ back, (area vma).Below (area right) := by
  simp only [ordered_iff, forall_mem_cons, pairwise_cons, and_assoc, and_comm, and_left_comm]

theorem Ordered.congr (hordered : Ordered area list)
    (harea : ∀ vma ∈ list, area' vma = area vma) : Ordered area' list := by
  refine ⟨fun vma hvma => harea vma hvma ▸ hordered.proper vma hvma, ?_⟩
  refine hordered.pairwise.imp_of_mem fun hleft hright hbelow => ?_
  rw [harea _ hleft, harea _ hright]
  exact hbelow

theorem Ordered.nodup (hordered : Ordered area list) : list.Nodup := by
  refine hordered.pairwise.imp_of_mem fun {left right} hleft _ hbelow heq => ?_
  subst heq
  exact absurd (hordered.proper left hleft).nonempty (not_lt.mpr hbelow)

section

variable (hordered : Ordered area (front ++ vma :: back))
include hordered

theorem Ordered.not_mem_front : vma ∉ front :=
  fun hmem => (nodup_append.mp hordered.nodup).2.2 vma hmem vma mem_cons_self rfl

theorem Ordered.not_mem_back : vma ∉ back :=
  (nodup_cons.mp (nodup_append.mp hordered.nodup).2.1).1

/-- The areas before one that starts at or below an address end there too. -/
theorem Ordered.below (haddr : (area vma).vmStart ≤ addr) :
    ∀ other ∈ front, (area other).vmEnd ≤ addr := by
  intro other hother
  exact ((ordered_append.mp hordered).2.2 other hother vma mem_cons_self).trans haddr

/-- The areas after one that ends above an address start above it. -/
theorem Ordered.above (haddr : addr < (area vma).vmEnd) :
    ∀ other ∈ back, addr < (area other).vmStart := by
  intro other hother
  exact haddr.trans_le ((ordered_cons.mp (ordered_append.mp hordered).2.1).2.2 other hother)

theorem Ordered.below_back : ∀ other ∈ back, (area vma).vmEnd ≤ (area other).vmStart :=
  (ordered_cons.mp (ordered_append.mp hordered).2.1).2.2

/-- From an area that starts at or above an address on, all areas do. -/
theorem Ordered.startsAbove_from (haddr : addr ≤ (area vma).vmStart) :
    ∀ other ∈ vma :: back, addr ≤ (area other).vmStart := by
  refine forall_mem_cons.mpr ⟨haddr, fun other hother => ?_⟩
  have hproper := hordered.proper vma (by simp)
  exact haddr.trans (hproper.nonempty.le.trans (hordered.below_back other hother))

end

end Order

variable {mm : Mm} {addr : ℕ} {tree : RbRoot Vma}

section

variable (hmm : WellFormed mm) {vma next : Vma} {front back : List Vma}
include hmm

theorem WellFormed.proper (hlist : mm.mmap = front ++ vma :: back) : (mm.area vma).Proper :=
  hmm.ordered.proper vma (by simp [hlist])

theorem WellFormed.proper_next (hlist : mm.mmap = front ++ vma :: next :: back) :
    (mm.area next).Proper :=
  hmm.ordered.proper next (by simp [hlist])

theorem WellFormed.ne_next (hlist : mm.mmap = front ++ vma :: next :: back) : vma ≠ next := by
  rintro rfl
  exact (hlist ▸ hmm.ordered).not_mem_back mem_cons_self

theorem WellFormed.vmNext_eq (hlist : mm.mmap = front ++ vma :: back) :
    mm.vmNext vma = back.head? := by
  rw [vmNext, hlist, following_split (hlist ▸ hmm.ordered).not_mem_front]

theorem WellFormed.endsAbove_from (hlist : mm.mmap = front ++ vma :: back)
    (haddr : addr < (mm.area vma).vmEnd) : ∀ other ∈ vma :: back, addr < (mm.area other).vmEnd := by
  refine forall_mem_cons.mpr ⟨haddr, fun other hother => ?_⟩
  have hproper := hmm.ordered.proper other (by simp [hlist, hother])
  exact ((hlist ▸ hmm.ordered).above haddr other hother).trans hproper.nonempty

end

/-- What ends above the address, as the test of the source. -/
def endsAbove (mm : Mm) (addr : ℕ) (vma : Vma) : Bool := addr < (mm.area vma).vmEnd

/-- An address cuts a list of areas: those that end at or below it, and those
that end above it. -/
structure Cut (mm : Mm) (addr : ℕ) (list front back : List Vma) : Prop where
  split : list = front ++ back
  below : ∀ vma ∈ front, (mm.area vma).vmEnd ≤ addr
  above : ∀ vma ∈ back, addr < (mm.area vma).vmEnd

namespace Cut

variable {list front back : List Vma}

theorem find_eq (hcut : Cut mm addr list front back) :
    list.find? (endsAbove mm addr) = back.head? := by
  have hfront : front.find? (endsAbove mm addr) = none := by
    apply find?_eq_none.mpr
    intro vma hvma
    simpa [endsAbove] using hcut.below vma hvma
  rw [hcut.split, find?_append, hfront, none_or]
  cases back with
  | nil => rfl
  | cons vma rest => simp [endsAbove, hcut.above vma mem_cons_self]

theorem takeWhile_eq (hcut : Cut mm addr list front back) :
    list.takeWhile (fun vma => !endsAbove mm addr vma) = front := by
  have hfront : ∀ vma ∈ front, (!endsAbove mm addr vma) = true := by
    intro vma hvma
    simpa [endsAbove] using hcut.below vma hvma
  rw [hcut.split, takeWhile_append_of_pos hfront]
  cases back with
  | nil => simp
  | cons vma rest => simp [endsAbove, hcut.above vma mem_cons_self]

end Cut

/-- The walk of `find_vma` finds the first area that ends above the address. -/
theorem findVmaLoop_eq (addr : ℕ) (vma : Option Vma) (hordered : Ordered mm.area tree.inorder) :
    mm.findVmaLoop addr tree vma = (tree.inorder.find? (endsAbove mm addr)).or vma := by
  induction tree generalizing vma with
  | leaf => simp [findVmaLoop]
  | node colour left tmp right ihleft ihright =>
    rw [Tree.inorder] at hordered
    obtain ⟨hleft, hrest, -⟩ := ordered_append.mp hordered
    obtain ⟨hproper, hright, -⟩ := ordered_cons.mp hrest
    -- nothing on the left of an area that starts at or below the address is found
    have hskip (hin : (mm.area tmp).vmStart ≤ addr) :
        left.inorder.find? (endsAbove mm addr) = none := by
      apply find?_eq_none.mpr
      intro other hother
      simpa [endsAbove] using hordered.below hin other hother
    by_cases hend : addr < (mm.area tmp).vmEnd
    · by_cases hin : (mm.area tmp).vmStart ≤ addr
      · rw [findVmaLoop, if_pos hend, if_pos hin, Tree.inorder, find?_append, hskip hin]
        simp [endsAbove, hend]
      · rw [findVmaLoop, if_pos hend, if_neg hin, ihleft _ hleft, Tree.inorder, find?_append]
        simp [endsAbove, hend]
    · rw [findVmaLoop, if_neg hend, ihright _ hright, Tree.inorder, find?_append,
        hskip (hproper.nonempty.le.trans (not_lt.mp hend))]
      simp [endsAbove, hend]

/-- The walk of `find_vma_prev` finds the last area that ends at or below the
address.  The walk is at a subtree between `front` and `back`. -/
theorem findVmaPrevLoop_eq (hmm : WellFormed mm) {front back : List Vma}
    (hlist : mm.mmap = front ++ (tree.inorder ++ back))
    (hfront : ∀ vma ∈ front, (mm.area vma).vmEnd ≤ addr)
    (hback : ∀ vma ∈ back, addr < (mm.area vma).vmEnd) :
    mm.findVmaPrevLoop addr tree front.getLast? =
      (mm.mmap.takeWhile fun vma => !endsAbove mm addr vma).getLast? := by
  induction tree generalizing front back with
  | leaf =>
    have hcut : Cut mm addr mm.mmap front back := ⟨hlist, hfront, hback⟩
    rw [findVmaPrevLoop, hcut.takeWhile_eq]
  | node colour left tmp right ihleft ihright =>
    have hsplit : mm.mmap = (front ++ left.inorder) ++ tmp :: (right.inorder ++ back) := by
      rw [hlist]
      simp
    have hordered := hsplit ▸ hmm.ordered
    have hproper := hmm.proper hsplit
    by_cases hend : addr < (mm.area tmp).vmEnd
    · rw [findVmaPrevLoop, if_pos hend]
      exact ihleft (by rw [hlist]; simp) hfront (hmm.endsAbove_from hsplit hend)
    have hbelow : ∀ vma ∈ front ++ left.inorder ++ [tmp], (mm.area vma).vmEnd ≤ addr := by
      rw [forall_mem_append, forall_mem_singleton]
      exact ⟨hordered.below (hproper.nonempty.le.trans (not_lt.mp hend)), not_lt.mp hend⟩
    have hlast : (front ++ left.inorder ++ [tmp]).getLast? = some tmp := by simp
    rw [findVmaPrevLoop, if_neg hend, hmm.vmNext_eq hsplit]
    cases hrest : right.inorder ++ back with
    | nil =>
      have hcut : Cut mm addr mm.mmap (front ++ left.inorder ++ [tmp]) [] :=
        ⟨by rw [hsplit, hrest]; simp, hbelow, by simp⟩
      rw [hcut.takeWhile_eq, hlast]
      rfl
    | cons next rest =>
      by_cases hnext : addr < (mm.area next).vmEnd
      · have hafter : mm.mmap = (front ++ left.inorder ++ [tmp]) ++ next :: rest := by
          rw [hsplit, hrest]
          simp
        have hcut : Cut mm addr mm.mmap (front ++ left.inorder ++ [tmp]) (next :: rest) :=
          ⟨hafter, hbelow, hmm.endsAbove_from hafter hnext⟩
        rw [hcut.takeWhile_eq, hlast]
        simp [hnext]
      · simp only [head?_cons, if_neg hnext]
        rw [← hlast]
        exact ihright (by rw [hlist]; simp) hbelow hback

/-- The walk of `find_vma_prepare` at a subtree: either it stops at an area
that holds the address, or it ends at the place between the areas below the
address and those above it. -/
inductive Walked (mm : Mm) (addr : ℕ) (list : List Vma) (found : Mm.Prepared) : Prop
  | inside (vma : Vma) (hmem : vma ∈ list) (hin : (mm.area vma).vmStart ≤ addr)
      (hend : addr < (mm.area vma).vmEnd)
  | between (hlist : list = before found.rbLink ++ after found.rbLink)
      (hbelow : ∀ vma ∈ before found.rbLink, (mm.area vma).vmEnd ≤ addr)
      (habove : ∀ vma ∈ after found.rbLink, addr < (mm.area vma).vmStart)
      (hvma : found.vma = (after found.rbLink).head?)
      (hprev : found.prev = (before found.rbLink).getLast?)
      (hparent : found.rbParent = found.rbLink.head?.map Frame.value)

theorem findVmaPrepareLoop_spec {found : Prepared} {list : List Vma}
    (hordered : Ordered mm.area list)
    (hlist : list = before found.rbLink ++ (tree.inorder ++ after found.rbLink))
    (hbelow : ∀ vma ∈ before found.rbLink, (mm.area vma).vmEnd ≤ addr)
    (habove : ∀ vma ∈ after found.rbLink, addr < (mm.area vma).vmStart)
    (hvma : found.vma = (after found.rbLink).head?)
    (hprev : found.prev = (before found.rbLink).getLast?)
    (hparent : found.rbParent = found.rbLink.head?.map Frame.value) :
    Walked mm addr list (mm.findVmaPrepareLoop addr tree found) := by
  induction tree generalizing found with
  | leaf => exact .between hlist hbelow habove hvma hprev hparent
  | node colour left tmp right ihleft ihright =>
    have hsplit : list = (before found.rbLink ++ left.inorder) ++
        tmp :: (right.inorder ++ after found.rbLink) := by
      rw [hlist]
      simp
    have hmem : tmp ∈ list := by simp [hsplit]
    have hproper := (hordered.proper tmp hmem).nonempty
    by_cases hend : addr < (mm.area tmp).vmEnd
    · by_cases hin : (mm.area tmp).vmStart ≤ addr
      · exact .inside tmp hmem hin hend
      rw [findVmaPrepareLoop, if_pos hend, if_neg hin]
      refine ihleft ?_ hbelow ?_ ?_ hprev ?_
      · rw [hlist]
        simp
      · intro vma hvma'
        rcases mem_cons.mp hvma' with rfl | hlater
        · exact not_le.mp hin
        · exact (hsplit ▸ hordered).above hend vma hlater
      · rfl
      · rfl
    · rw [findVmaPrepareLoop, if_neg hend]
      refine ihright ?_ ?_ habove hvma ?_ ?_
      · rw [hlist]
        simp
      · intro vma hvma'
        simp only [before, ← append_assoc, mem_append, mem_singleton] at hvma'
        rcases hvma' with hearlier | rfl
        · exact (hsplit ▸ hordered).below (hproper.le.trans (not_lt.mp hend)) vma
            (mem_append.mpr hearlier)
        · exact not_lt.mp hend
      · simp
      · rfl

/-- When no area was passed on the way down, the last area seen is the first
of the list. -/
theorem head_after_of_before_nil {link : RbLink Vma} (hbefore : before link = []) :
    link.head?.map Frame.value = (after link).head? := by
  cases link with
  | nil => rfl
  | cons frame above =>
    cases frame with
    | left tag value beside => rfl
    | right tag beside value => simp at hbefore

namespace WellFormed

section

variable (hmm : WellFormed mm)
include hmm

/-- `find_vma` returns the first area that ends above the address; at most the
cache changes. -/
theorem findVma_eq (addr : ℕ) :
    ∃ cache, mm.findVma addr =
        (mm.mmap.find? (endsAbove mm addr), { mm with mmapCache := cache }) ∧
      ∀ vma, cache = some vma → vma ∈ mm.mmap := by
  cases hhit : mm.cacheHit addr with
  | some vma =>
    obtain ⟨hcache, htest⟩ := filter_eq_some_iff.mp hhit
    simp only [Bool.and_eq_true, decide_eq_true_eq] at htest
    obtain ⟨front, back, hlist⟩ := append_of_mem (hmm.cache vma hcache)
    have hcut : Cut mm addr mm.mmap front (vma :: back) :=
      ⟨hlist, (hlist ▸ hmm.ordered).below htest.2, hmm.endsAbove_from hlist htest.1⟩
    refine ⟨mm.mmapCache, ?_, hmm.cache⟩
    rw [findVma, hhit, hcut.find_eq]
    rfl
  | none =>
    have hloop := findVmaLoop_eq addr none (hmm.tree ▸ hmm.ordered)
    rw [hmm.tree, or_none] at hloop
    cases hfind : mm.mmap.find? (endsAbove mm addr) with
    | none =>
      refine ⟨mm.mmapCache, ?_, hmm.cache⟩
      rw [findVma, hhit, hloop, hfind]
    | some vma =>
      refine ⟨some vma, ?_, ?_⟩
      · rw [findVma, hhit, hloop, hfind]
      · intro other hother
        rw [← some.inj hother]
        exact mem_of_find?_eq_some hfind

theorem exists_cut (addr : ℕ) : ∃ front back, Cut mm addr mm.mmap front back := by
  refine ⟨mm.mmap.takeWhile fun vma => !endsAbove mm addr vma,
    mm.mmap.dropWhile fun vma => !endsAbove mm addr vma, takeWhile_append_dropWhile.symm, ?_, ?_⟩
  · intro vma hvma
    have htest := mem_takeWhile_imp hvma
    simpa [endsAbove] using htest
  have hsplit := (takeWhile_append_dropWhile
    (p := fun vma => !endsAbove mm addr vma) (l := mm.mmap)).symm
  cases hback : mm.mmap.dropWhile fun vma => !endsAbove mm addr vma with
  | nil => simp
  | cons vma rest =>
    have htest := head?_dropWhile_not (fun vma => !endsAbove mm addr vma) mm.mmap
    rw [hback] at htest hsplit
    exact hmm.endsAbove_from hsplit (by simpa [endsAbove] using htest)

/-- `find_vma_prev` returns the first area that ends above the address and the
area before it. -/
theorem findVmaPrev_eq {front back : List Vma} (hcut : Cut mm addr mm.mmap front back) :
    mm.findVmaPrev addr = (back.head?, front.getLast?) := by
  have hempty : mm.findVmaPrevLoop addr mm.mmRb ([] : List Vma).getLast? = _ :=
    findVmaPrevLoop_eq hmm (by rw [hmm.tree, append_nil, nil_append]) (by simp) (by simp)
  have hloop : mm.findVmaPrevLoop addr mm.mmRb none = front.getLast? := by
    rw [← hcut.takeWhile_eq, ← hempty]
    rfl
  rw [findVmaPrev, hloop]
  rcases eq_nil_or_concat front with rfl | ⟨init, prev, rfl⟩
  · simp [hcut.split]
  · have hnext : mm.vmNext prev = back.head? :=
      hmm.vmNext_eq (by rw [hcut.split, concat_eq_append, append_assoc]; rfl)
    simp [hnext]

/-- Where no area holds the address, `find_vma_prepare` finds the place
between the areas below it and those above it. -/
theorem findVmaPrepare_spec {front back : List Vma}
    (hlist : mm.mmap = front ++ back) (hbelow : ∀ vma ∈ front, (mm.area vma).vmEnd ≤ addr)
    (habove : ∀ vma ∈ back, addr < (mm.area vma).vmStart) :
    (mm.findVmaPrepare addr).vma = back.head? ∧
      (mm.findVmaPrepare addr).prev = front.getLast? ∧
      before (mm.findVmaPrepare addr).rbLink = front ∧
      after (mm.findVmaPrepare addr).rbLink = back ∧
      (front = [] → (mm.findVmaPrepare addr).rbParent = back.head?) := by
  have hwalk : Walked mm addr mm.mmap (mm.findVmaPrepare addr) :=
    findVmaPrepareLoop_spec hmm.ordered (by simp [hmm.tree]) (by simp) (by simp) rfl rfl rfl
  have hcut {front back : List Vma} (hlist : mm.mmap = front ++ back)
      (hbelow : ∀ vma ∈ front, (mm.area vma).vmEnd ≤ addr)
      (habove : ∀ vma ∈ back, addr < (mm.area vma).vmStart) : Cut mm addr mm.mmap front back := by
    refine ⟨hlist, hbelow, fun vma hvma => (habove vma hvma).trans ?_⟩
    exact (hmm.ordered.proper vma (by simp [hlist, hvma])).nonempty
  cases hwalk with
  | inside vma hmem hin hend =>
    rcases mem_append.mp (hlist ▸ hmem) with hfront | hback
    · exact absurd hend (not_lt.mpr (hbelow vma hfront))
    · exact absurd hin (not_le.mpr (habove vma hback))
  | between hlist' hbelow' habove' hvma hprev hparent =>
    -- both are the cut of the list at the address
    obtain rfl := (hcut hlist hbelow habove).takeWhile_eq.symm.trans
      (hcut hlist' hbelow' habove').takeWhile_eq
    obtain rfl := append_cancel_left (hlist.symm.trans hlist')
    refine ⟨hvma, hprev, rfl, rfl, fun hnil => ?_⟩
    rw [hparent, head_after_of_before_nil hnil]

end

end WellFormed

end KernelM5040.Mmap
