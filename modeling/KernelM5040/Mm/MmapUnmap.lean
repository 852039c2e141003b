import KernelM5040.Mm.MmapMerge

/-!
# Splitting and unmapping

`split_vma` puts a second area on the line of the first and moves the bound
between them, so no page changes.  `do_munmap` splits at both ends of its
range and then takes out the areas in between; a failed split leaves the map as
it was, also after the first split has succeeded.
-/

namespace KernelM5040.Mmap

open Mm List SearchTree RbTree

variable {mm mm' : Mm} {front back : List Vma} {vma new : Vma} {addr start endAddr : ℕ}

/-- An address at a page boundary strictly inside an area. -/
structure Inside (area : Area) (addr : ℕ) : Prop where
  aligned : pageSize ∣ addr
  above : area.vmStart < addr
  below : addr < area.vmEnd

/-- What `split_vma` leaves: nothing has changed on the list, or the area has
become two areas that meet at the address. -/
inductive Split (mm : Mm) (front back : List Vma) (vma : Vma) (addr : ℕ) (newBelow : Bool) :
    Except Errno Unit × Mm → Prop
  | failed (errno : Errno) (mm' : Mm) (hmm' : WellFormed mm') (hlist : mm'.mmap = mm.mmap)
      (harea : ∀ other ∈ mm.mmap, mm'.area other = mm.area other) :
      Split mm front back vma addr newBelow (.error errno, mm')
  | split (low high : Vma) (mm' : Mm) (hmm' : WellFormed mm')
      (hreplaced : Replaced mm mm' front [vma] [low, high] back)
      (hlow : (mm'.area low).vmStart = (mm.area vma).vmStart ∧ (mm'.area low).vmEnd = addr)
      (hhigh : (mm'.area high).vmStart = addr ∧ (mm'.area high).vmEnd = (mm.area vma).vmEnd)
      (hkept : if newBelow then high = vma else low = vma) (hsame : SameMap mm mm') :
      Split mm front back vma addr newBelow (.ok (), mm')

/-- The bounds of the kept part are moved in a state where the new part has
been written but is not linked yet. -/
theorem setBounds_copied (hmm : WellFormed mm) (hlist : mm.mmap = front ++ vma :: back)
    (hfresh : new ∉ mm.mmap) (part : Area) {pgoff : Pgoff}
    (hproper : ((mm.area vma).resized start endAddr pgoff (mm.area vma).anonVma).Proper)
    (hlow : (mm.area vma).vmStart ≤ start) (hhigh : endAddr ≤ (mm.area vma).vmEnd) :
    ∃ mm', (mm.setArea new part).setBounds vma start endAddr pgoff = mm' ∧ WellFormed mm' ∧
      mm'.mmap = mm.mmap ∧ mm'.area new = part ∧
      mm'.area vma = (mm.area vma).resized start endAddr pgoff (mm.area vma).anonVma ∧
      ∀ other ∈ front ++ back, mm'.area other = mm.area other := by
  have hordered := hlist ▸ hmm.ordered
  have hne : vma ≠ new := by
    rintro rfl
    exact hfresh (by simp [hlist])
  have hvma : ((mm.setArea new part).setBounds vma start endAddr pgoff).area vma =
      (mm.area vma).resized start endAddr pgoff (mm.area vma).anonVma := by
    rw [setBounds, setArea_area_self, setArea_area_of_ne _ _ hne]
    rfl
  have hframe : ∀ other ∈ front ++ back,
      ((mm.setArea new part).setBounds vma start endAddr pgoff).area other = mm.area other := by
    intro other hother
    have hmem : other ∈ mm.mmap := by
      simp only [hlist, mem_append, mem_cons] at hother ⊢
      tauto
    have hother' : other ≠ vma := by
      rintro rfl
      exact (mem_append.mp hother).elim hordered.not_mem_front hordered.not_mem_back
    rw [setBounds, setArea_area_of_ne _ _ hother', setArea_area_fresh part hfresh other hmem]
  refine ⟨_, rfl, ⟨?_, hmm.tree, hmm.count, hmm.cache, hmm.running⟩, rfl, ?_, hvma, hframe⟩
  · change Ordered _ mm.mmap
    rw [hlist]
    refine hordered.replace [vma] [vma] hframe start endAddr
      (ordered_singleton (hvma ▸ hproper)) (hordered.below hlow)
      (fun right hright => hhigh.trans (hordered.below_back right hright)) ?_
    rw [forall_mem_singleton, hvma]
    exact ⟨le_rfl, le_rfl⟩
  · rw [setBounds, setArea_area_of_ne _ _ hne.symm, setArea_area_self]

section

variable (hmm : WellFormed mm) (hlist : mm.mmap = front ++ vma :: back)
  (hinside : Inside (mm.area vma) addr)
include hmm hlist hinside

/-- The new part is linked beside the kept part, which has its new bounds. -/
theorem split_linked {mid : Mm} {before after : List Vma} {low high : Vma} {newBelow : Bool}
    (hmid : WellFormed mid) (hmidList : mid.mmap = before ++ after)
    (hparts : before ++ new :: after = front ++ low :: high :: back)
    (hlow : (mid.area low).vmStart = (mm.area vma).vmStart ∧ (mid.area low).vmEnd = addr)
    (hhigh : (mid.area high).vmStart = addr ∧ (mid.area high).vmEnd = (mm.area vma).vmEnd)
    (hline : (mid.area low).line = (mm.area vma).line)
    (hline' : (mid.area high).line = (mm.area vma).line)
    (hframe : ∀ other ∈ front ++ back, mid.area other = mm.area other)
    (hkept : if newBelow then high = vma else low = vma) :
    Split mm front back vma addr newBelow (.ok (), mid.insertVmStruct new) := by
  obtain ⟨hnonempty, hstart, hend⟩ := hmm.proper hlist
  obtain ⟨haligned, habove, hbelow⟩ := hinside
  have hordered := hlist ▸ hmm.ordered
  have htwo : Ordered mid.area [low, high] := by
    refine ordered_cons.mpr ⟨?_, ordered_singleton ?_, ?_⟩
    · exact ⟨by rwa [hlow.1, hlow.2], by rwa [hlow.1], by rwa [hlow.2]⟩
    · exact ⟨by rwa [hhigh.1, hhigh.2], by rwa [hhigh.1], by rwa [hhigh.2]⟩
    · simp [Area.Below, hlow.2, hhigh.1]
  have hafter : Ordered mid.area (before ++ new :: after) := by
    rw [hparts]
    refine hordered.replace [vma] [low, high] hframe (mm.area vma).vmStart
      (mm.area vma).vmEnd htwo (hordered.below le_rfl) hordered.below_back ?_
    simp [hlow, hhigh, habove.le, hbelow.le]
  obtain ⟨hreplaced, hmm', harea⟩ := insertVmStruct_spec hmid hmidList
    (hafter.proper new (by simp)) (hafter.below le_rfl) hafter.below_back
  have hfinal : Replaced mm (mid.insertVmStruct new) front [vma] [low, high] back :=
    ⟨hlist, hreplaced.list'.trans hparts, harea ▸ hframe, hreplaced.tree, hreplaced.count,
      hreplaced.cache, hreplaced.running⟩
  refine .split low high _ hmm' hfinal (harea ▸ hlow) (harea ▸ hhigh) hkept
    (hfinal.sameMap fun page other => ?_)
  simp only [mapsIn_cons, mapsIn_nil, or_false, harea, hline, hline', Area.Covers, InRange, hlow,
    hhigh]
  grind

theorem split_below (hfresh : new ∉ mm.mmap) :
    Split mm front back vma addr true (.ok (),
      (mm.setArea new (mm.splitPart vma addr true)).vmaAdjust vma addr (mm.area vma).vmEnd
        ((mm.area vma).vmPgoff + pages (mm.area vma).vmStart addr) (some new)) := by
  have hproper := hmm.proper hlist
  obtain ⟨mid, heq, hmid, hlist', hnew, hvma, hframe⟩ := setBounds_copied hmm hlist hfresh
    (mm.splitPart vma addr true)
    (Area.Proper.resized hinside.aligned hproper.endAligned hinside.below (mm.area vma)
      ((mm.area vma).vmPgoff + pages (mm.area vma).vmStart addr) (mm.area vma).anonVma)
    hinside.above.le le_rfl
  simp only [vmaAdjust, heq]
  refine split_linked hmm hlist hinside hmid (hlist'.trans hlist) rfl ?_ ?_ ?_ ?_ hframe rfl
  · rw [hnew]
    exact ⟨rfl, rfl⟩
  · rw [hvma]
    exact ⟨rfl, rfl⟩
  · rw [hnew]
    rfl
  · rw [hvma]
    exact Area.line_raised _ _ _ hproper.startAligned hinside.above.le

theorem split_above (hfresh : new ∉ mm.mmap) :
    Split mm front back vma addr false (.ok (),
      (mm.setArea new (mm.splitPart vma addr false)).vmaAdjust vma (mm.area vma).vmStart addr
        (mm.area vma).vmPgoff (some new)) := by
  have hproper := hmm.proper hlist
  obtain ⟨mid, heq, hmid, hlist', hnew, hvma, hframe⟩ := setBounds_copied hmm hlist hfresh
    (mm.splitPart vma addr false)
    (Area.Proper.resized hproper.startAligned hinside.aligned hinside.above (mm.area vma)
      (mm.area vma).vmPgoff (mm.area vma).anonVma)
    le_rfl hinside.below.le
  have hsplit := (hlist'.trans hlist).trans (append_cons front vma back)
  simp only [vmaAdjust, heq]
  refine split_linked hmm hlist hinside hmid hsplit (append_cons front vma _).symm ?_ ?_ ?_ ?_
    hframe rfl
  · rw [hvma]
    exact ⟨rfl, rfl⟩
  · rw [hnew]
    exact ⟨rfl, rfl⟩
  · rw [hvma]
    rfl
  · rw [hnew]
    exact (mm.area vma).line_raised (mm.area vma).vmEnd (mm.area vma).anonVma
      hproper.startAligned hinside.above.le

theorem splitVma_spec (sysctlMaxMapCount : ℤ) (attempt : Attempt) (newBelow : Bool) :
    Split mm front back vma addr newBelow
      (mm.splitVma sysctlMaxMapCount attempt vma addr newBelow) := by
  unfold splitVma
  split
  · exact .failed .enomem mm hmm rfl fun _ _ => rfl
  cases halloc : attempt.alloc.pick mm.mmap with
  | none => exact .failed .enomem mm hmm rfl fun _ _ => rfl
  | some new =>
    have hfresh := attempt.alloc.fresh mm.mmap new halloc
    cases hdup : attempt.mpolDup with
    | false =>
      exact .failed .enomem _ (hmm.setArea_fresh _ hfresh) rfl (setArea_area_fresh _ hfresh)
    | true =>
      cases newBelow with
      | true => exact split_below hmm hlist hinside hfresh
      | false => exact split_above hmm hlist hinside hfresh

end

section Detach

/-- The loop of `detach_vmas_to_be_unmapped` takes out the areas that start
below the end of the range. -/
theorem detachLoop_spec {list : List Vma} {root : RbRoot Vma} (count : ℤ)
    (hordered : Ordered mm.area (front ++ list)) (hinorder : root.inorder = front ++ list)
    (hfirst : ∃ first rest, list = first :: rest ∧ (mm.area first).vmStart < endAddr) :
    ∃ gone rest root', mm.detachLoop endAddr list root count = (rest, root', count - gone.length) ∧
      list = gone ++ rest ∧ root'.inorder = front ++ rest ∧
      (∀ vma ∈ gone, (mm.area vma).vmStart < endAddr) ∧
      ∀ vma ∈ rest, endAddr ≤ (mm.area vma).vmStart := by
  induction list generalizing root count with
  | nil => obtain ⟨first, rest, heq, -⟩ := hfirst; cases heq
  | cons vma list ih =>
    obtain ⟨first, rest, heq, hstart⟩ := hfirst
    obtain ⟨rfl, rfl⟩ := List.cons.inj heq
    have herase : (rbErase vma root).inorder = front ++ list := by
      rw [inorder_rbErase, hinorder, erase_append_right _ hordered.not_mem_front, erase_cons_head]
    have hrest : Ordered mm.area (front ++ list) := by
      obtain ⟨hfront, hback, hcross⟩ := ordered_append.mp hordered
      exact ordered_append.mpr ⟨hfront, (ordered_cons.mp hback).2.1,
        fun left hleft right hright => hcross left hleft right (mem_cons_of_mem _ hright)⟩
    cases list with
    | nil => exact ⟨[vma], [], rbErase vma root, rfl, rfl, herase, by simpa using hstart, by simp⟩
    | cons next more =>
      by_cases hnext : (mm.area next).vmStart < endAddr
      · obtain ⟨gone, rest, root', hloop, hlist, hroot, hgone, hkept⟩ :=
          ih (count - 1) hrest herase ⟨next, more, rfl, hnext⟩
        refine ⟨vma :: gone, rest, root', ?_, ?_, hroot, ?_, hkept⟩
        · rw [detachLoop, if_pos hnext, hloop]
          simp only [length_cons]
          push_cast
          ring_nf
        · rw [hlist]
          rfl
        · exact forall_mem_cons.mpr ⟨hstart, hgone⟩
      · refine ⟨[vma], next :: more, rbErase vma root, ?_, rfl, herase, by simpa using hstart, ?_⟩
        · rw [detachLoop, if_neg hnext]
          rfl
        exact hrest.startsAbove_from (not_lt.mp hnext)

/-- The pages of a range are unmapped, all others as before. -/
def Erased (mm mm' : Mm) (start endAddr : ℕ) : Prop :=
  ∀ page other, MapsIn mm'.area mm'.mmap page other ↔
    ¬ InRange start endAddr page ∧ MapsIn mm.area mm.mmap page other

/-- `detach_vmas_to_be_unmapped`, once no area straddles an end of the range. -/
theorem detachVmas_spec (hmm : WellFormed mm) {first : Vma} (hlist : mm.mmap = front ++ first :: back)
    (hfront : ∀ vma ∈ front, (mm.area vma).vmEnd ≤ start) (hstart : start ≤ (mm.area first).vmStart)
    (hfirst : (mm.area first).vmStart < endAddr)
    (hends : ∀ vma ∈ mm.mmap, (mm.area vma).vmEnd ≤ endAddr ∨ endAddr ≤ (mm.area vma).vmStart) :
    WellFormed (mm.detachVmasToBeUnmapped front.getLast? endAddr) ∧
      Erased mm (mm.detachVmasToBeUnmapped front.getLast? endAddr) start endAddr := by
  have hstarts := (hlist ▸ hmm.ordered).startsAbove_from hstart
  obtain ⟨gone, rest, root, hloop, hback, hroot, hgone, hrest⟩ :=
    detachLoop_spec mm.mapCount (hlist ▸ hmm.ordered) (hmm.tree.trans hlist)
      ⟨first, back, rfl, hfirst⟩
  have hnonempty : (gone ++ rest).isEmpty = false := hback ▸ rfl
  rw [hback] at hlist hloop hstarts
  have heq : mm.detachVmasToBeUnmapped front.getLast? endAddr =
      { mm with
        mmap := front ++ rest
        mmRb := root
        mapCount := mm.mapCount - gone.length
        mmapCache := none } := by
    rcases eq_nil_or_concat front with rfl | ⟨init, prev, rfl⟩
    · rw [nil_append] at hlist
      simp [detachVmasToBeUnmapped, getLast?_nil, hlist, hloop, hnonempty]
    rw [concat_eq_append, append_assoc, singleton_append] at hlist
    have hinit := (hlist ▸ hmm.ordered).not_mem_front
    simp only [detachVmasToBeUnmapped, concat_eq_append, getLast?_concat, hlist,
      following_split hinit, upTo_split hinit, hloop, hnonempty, Bool.or_false]
  have hreplaced : Replaced mm (mm.detachVmasToBeUnmapped front.getLast? endAddr) front gone []
      rest := by
    rw [heq]
    refine ⟨hlist, rfl, fun _ _ => rfl, hroot, ?_, by simp, hmm.running⟩
    change mm.mapCount - gone.length = ((front ++ rest).length : ℤ)
    rw [hmm.count, hlist]
    simp only [length_append]
    push_cast
    ring
  refine ⟨hreplaced.wellFormed hmm start endAddr ordered_nil hfront hrest (by simp), ?_⟩
  intro page other
  rw [hreplaced.mapsIn_iff, hlist, mapsIn_append, mapsIn_append]
  have hgoneRange : MapsIn mm.area gone page other → InRange start endAddr page := by
    intro ⟨vma, hvma, hcovers, _⟩
    have hmem : vma ∈ gone ++ rest := mem_append_left _ hvma
    have hend := (hends vma (by simp [hlist, hvma])).resolve_right (not_le.mpr (hgone vma hvma))
    exact ⟨(hstarts vma hmem).trans hcovers.1, hcovers.2.trans_le hend⟩
  by_cases hrange : InRange start endAddr page
  · have hnofront : ¬ MapsIn mm.area front page other := not_mapsIn_of_below hrange hfront
    have hnorest : ¬ MapsIn mm.area rest page other := not_mapsIn_of_above hrange hrest
    simp [hrange, hnofront, hnorest, mapsIn_nil]
  · have hnogone : ¬ MapsIn mm.area gone page other := fun hmaps => hrange (hgoneRange hmaps)
    simp [hrange, hnogone, mapsIn_nil]

end Detach

section Unmap

variable {sysctlMaxMapCount : ℤ} {attempt : Attempt}

/-- What `do_munmap` leaves: an error and every page as it was, or success and
the pages of the range unmapped. -/
inductive Unmapping (mm : Mm) (start endAddr : ℕ) : Except Errno Unit × Mm → Prop
  | failed (errno : Errno) (mm' : Mm) (hmm' : WellFormed mm') (hsame : SameMap mm mm') :
      Unmapping mm start endAddr (.error errno, mm')
  | done (mm' : Mm) (hmm' : WellFormed mm') (herased : Erased mm mm' start endAddr) :
      Unmapping mm start endAddr (.ok (), mm')

theorem SameMap.refl (mm : Mm) : SameMap mm mm := fun _ _ => Iff.rfl

theorem SameMap.of_list (hlist : mm'.mmap = mm.mmap)
    (harea : ∀ vma ∈ mm.mmap, mm'.area vma = mm.area vma) : SameMap mm mm' := by
  intro page other
  rw [hlist]
  exact mapsIn_congr harea

theorem Unmapping.of_same {middle : Mm} {result : Except Errno Unit × Mm}
    (hsame : SameMap mm middle) (hresult : Unmapping middle start endAddr result) :
    Unmapping mm start endAddr result := by
  cases hresult with
  | failed errno mm' hmm' hsame' =>
    exact .failed errno mm' hmm' fun page other => (hsame' page other).trans (hsame page other)
  | done mm' hmm' herased =>
    exact .done mm' hmm' fun page other =>
      (herased page other).trans (and_congr_right fun _ => hsame page other)

theorem Unmapping.of_detached (hdetached : WellFormed mm' ∧ Erased mm mm' start endAddr) :
    Unmapping mm start endAddr (.ok (), mm') :=
  .done mm' hdetached.1 hdetached.2

section

variable (hmm : WellFormed mm)
include hmm

theorem Unmapping.of_unmapped
    (hnone : ∀ page other, InRange start endAddr page → ¬ MapsIn mm.area mm.mmap page other) :
    Unmapping mm start endAddr (.ok (), mm) :=
  .done mm hmm fun page other =>
    ⟨fun hmaps => ⟨fun hrange => hnone page other hrange hmaps, hmaps⟩, fun hmaps => hmaps.2⟩

theorem WellFormed.setCache {cache : Option Vma}
    (hcache : ∀ vma, cache = some vma → vma ∈ mm.mmap) :
    WellFormed { mm with mmapCache := cache } :=
  ⟨hmm.ordered, hmm.tree, hmm.count, hcache, hmm.running⟩

/-- The part of `do_munmap` after the split at the start of the range. -/
theorem munmapFrom_spec {first : Vma} (hlist : mm.mmap = front ++ first :: back)
    (haligned : pageSize ∣ endAddr) (hfront : ∀ vma ∈ front, (mm.area vma).vmEnd ≤ start)
    (hstart : start ≤ (mm.area first).vmStart) (hfirst : (mm.area first).vmStart < endAddr) :
    Unmapping mm start endAddr
      (mm.munmapFrom sysctlMaxMapCount attempt front.getLast? endAddr) := by
  obtain ⟨cache, hfind, hcache⟩ := hmm.findVma_eq endAddr
  have hcached := hmm.setCache hcache
  obtain ⟨below, above, hcut⟩ := hmm.exists_cut endAddr
  rw [hcut.find_eq] at hfind
  unfold munmapFrom
  rw [hfind]
  -- without a second split, the areas between are detached as they are
  have hnosplit (hends : ∀ vma ∈ above, endAddr ≤ (mm.area vma).vmStart) :
      Unmapping mm start endAddr (.ok (),
        detachVmasToBeUnmapped { mm with mmapCache := cache } front.getLast? endAddr) := by
    refine .of_detached (detachVmas_spec hcached hlist hfront hstart hfirst ?_)
    rw [hcut.split]
    exact forall_mem_append.mpr ⟨fun vma hvma => .inl (hcut.below vma hvma),
      fun vma hvma => .inr (hends vma hvma)⟩
  cases above with
  | nil => exact hnosplit (by simp)
  | cons last rest =>
    have hlast := hcut.above last mem_cons_self
    have hlastMem : last ∈ front ++ first :: back := by
      rw [← hlist, hcut.split]
      simp
    simp only [head?_cons]
    by_cases hstraddle : (mm.area last).vmStart < endAddr
    · have hback : last ∈ first :: back := by
        refine (mem_append.mp hlastMem).resolve_left fun hmem => ?_
        exact absurd hlast (not_lt.mpr ((hfront last hmem).trans (hstart.trans hfirst.le)))
      obtain ⟨lower, upper, hparts⟩ := append_of_mem hback
      have hlist' : mm.mmap = (front ++ lower) ++ last :: upper := by
        rw [hlist, hparts, append_assoc]
      have hsplit := splitVma_spec hcached hlist' ⟨haligned, hstraddle, hlast⟩
        sysctlMaxMapCount attempt true
      rw [if_pos hstraddle]
      generalize splitVma { mm with mmapCache := cache } sysctlMaxMapCount attempt last endAddr
        true = result at hsplit ⊢
      cases hsplit with
      | failed errno mm' hmm' hlist'' harea =>
        exact .failed errno mm' hmm' (SameMap.of_list hlist'' harea)
      | split low high mm' hmm' hreplaced hlow hhigh _ hsame =>
        refine .of_same hsame (.of_detached ?_)
        -- the first area of the range may be the lower part of the one that was split
        obtain ⟨first', rest', hparts', hfirst'⟩ : ∃ first' rest',
            lower ++ [low, high] ++ upper = first' :: rest' ∧
              (mm'.area first').vmStart = (mm.area first).vmStart := by
          cases lower with
          | nil => exact ⟨low, _, rfl, (List.cons.inj hparts).1 ▸ hlow.1⟩
          | cons first' more =>
            refine ⟨first', _, rfl, ?_⟩
            rw [hreplaced.frame first' (by simp), (List.cons.inj hparts).1]
        have hlist'' : mm'.mmap = front ++ first' :: rest' := by
          rw [hreplaced.list', ← hparts']
          simp
        have hends : mm'.mmap = (front ++ lower ++ [low]) ++ high :: upper := by
          rw [hreplaced.list']
          simp
        refine detachVmas_spec hmm' hlist'' (fun vma hvma => ?_) (hfirst'.symm ▸ hstart)
          (hfirst'.symm ▸ hfirst) ?_
        · rw [hreplaced.frame vma (by simp [hvma])]
          exact hfront vma hvma
        have hordered := hends ▸ hmm'.ordered
        rw [hends]
        exact forall_mem_append.mpr ⟨fun vma hvma => .inl (hordered.below hhigh.1.le vma hvma),
          fun vma hvma => .inr (hordered.startsAbove_from hhigh.1.ge vma hvma)⟩
    · rw [if_neg hstraddle]
      exact hnosplit ((hcut.split ▸ hmm.ordered).startsAbove_from (not_lt.mp hstraddle))

/-- `do_munmap` unmaps the pages of its range, or fails and unmaps none. -/
theorem doMunmap_spec (sysctlMaxMapCount : ℤ) (lower upper : Attempt) (start len : ℕ) :
    Unmapping mm start (start + pageAlign len)
      (mm.doMunmap sysctlMaxMapCount lower upper start len) := by
  unfold doMunmap
  split
  · exact .failed .einval mm hmm (SameMap.refl mm)
  rename_i hargs
  split
  · exact .failed .einval mm hmm (SameMap.refl mm)
  rename_i hlen
  have haligned : pageSize ∣ start := by
    apply Nat.dvd_of_mod_eq_zero
    by_contra hne
    exact hargs (.inl hne)
  have hend : pageSize ∣ start + pageAlign len := Nat.dvd_add haligned (Nat.dvd_mul_left _ _)
  have hlt : start < start + pageAlign len := Nat.lt_add_of_pos_right (Nat.pos_of_ne_zero hlen)
  obtain ⟨front, back, hcut⟩ := hmm.exists_cut start
  rw [hmm.findVmaPrev_eq hcut]
  generalize start + pageAlign len = endAddr at hend hlt ⊢
  cases back with
  | nil =>
    refine .of_unmapped hmm fun page other hrange => not_mapsIn_of_below hrange ?_
    rw [hcut.split, append_nil]
    exact hcut.below
  | cons vma rest =>
    have hlist := hcut.split
    have hvmaEnd := hcut.above vma mem_cons_self
    simp only [head?_cons]
    split
    · rename_i habove
      refine .of_unmapped hmm fun page other hrange => ?_
      rw [hlist, mapsIn_append, not_or]
      exact ⟨not_mapsIn_of_below hrange hcut.below,
        not_mapsIn_of_above hrange ((hlist ▸ hmm.ordered).startsAbove_from habove)⟩
    rename_i hreach
    split
    · rename_i hstraddle
      have hsplit := splitVma_spec hmm hlist ⟨haligned, hstraddle, hvmaEnd⟩ sysctlMaxMapCount
        lower false
      generalize mm.splitVma sysctlMaxMapCount lower vma start false = result at hsplit ⊢
      cases hsplit with
      | failed errno mm' hmm' hlist' harea =>
        exact .failed errno mm' hmm' (SameMap.of_list hlist' harea)
      | split low high mm' hmm' hreplaced hlow hhigh hkept hsame =>
        obtain rfl : low = vma := hkept
        refine .of_same hsame ?_
        have hlist' : mm'.mmap = (front ++ [low]) ++ high :: rest := by
          rw [hreplaced.list', append_assoc]
          rfl
        have hlast : some low = (front ++ [low]).getLast? := by simp
        rw [hlast]
        exact munmapFrom_spec hmm' hlist' hend ((hlist' ▸ hmm'.ordered).below hhigh.1.le)
          hhigh.1.ge (hhigh.1 ▸ hlt)
    · rename_i hstart
      exact munmapFrom_spec hmm hlist hend hcut.below (not_lt.mp hstart) (not_le.mp hreach)

end

end Unmap

end KernelM5040.Mmap
