import KernelM5040.Mm.MmapPages

/-!
# Merging areas

`vma_merge` extends a neighbour over the requested range instead of making an
area for it.  The results follow the cases of its comment: in each of them the
areas that are joined lie on the line of the request, so that the range is
painted with that line and no other page changes, whether the range was
unmapped before (cases 1 to 3) or part of one area (cases 4 to 8).
-/

namespace KernelM5040.Mmap

open Option Mm List SearchTree RbTree Area

variable {mm mm' : Mm} {front back : List Vma} {vma prev next : Vma} {addr endAddr : ℕ}
  {request : Request} {test : Vma → Bool}

/-- The line a request maps its range along. -/
def Request.line (request : Request) (addr : ℕ) : Line :=
  ⟨request.file, request.pgoff - BitVec.ofNat 64 (addr / pageSize), request.vmFlags, request.policy⟩

section

variable (area : Area) (endAddr : ℕ) (anonVma : Option ℕ)

theorem Area.line_lowered (haddr : pageSize ∣ addr) (hle : addr ≤ area.vmStart) :
    (area.resized addr endAddr (area.vmPgoff - pages addr area.vmStart) anonVma).line =
      area.line := by
  simp only [Area.line, Area.resized, pages_eq haddr hle, Line.mk.injEq, true_and, and_true]
  ring

theorem Area.line_raised (haligned : pageSize ∣ area.vmStart) (hle : area.vmStart ≤ addr) :
    (area.resized addr endAddr (area.vmPgoff + pages area.vmStart addr) anonVma).line =
      area.line := by
  simp only [Area.line, Area.resized, pages_eq haligned hle, Line.mk.injEq, true_and, and_true]
  ring

end

theorem Area.covers_resized (area : Area) (start endAddr : ℕ) (pgoff : Pgoff)
    (anonVma : Option ℕ) (page : ℕ) :
    (area.resized start endAddr pgoff anonVma).Covers page ↔ InRange start endAddr page := Iff.rfl

theorem line_of_mergesAfter (hproper : (mm.area prev).Proper)
    (hmerges : mm.mergesAfter addr request prev = true) :
    (mm.area prev).vmEnd = addr ∧ (mm.area prev).line = request.line addr := by
  simp only [mergesAfter, canVmaMergeAfter, isMergeableVma, Bool.and_eq_true,
    decide_eq_true_eq] at hmerges
  obtain ⟨⟨hend, hpolicy⟩, ⟨⟨⟨hflags, hfile⟩, -⟩, -⟩, hpgoff⟩ := hmerges
  refine ⟨hend, ?_⟩
  rw [pages_eq hproper.startAligned hproper.nonempty.le, hend] at hpgoff
  simp only [Area.line, Request.line, hflags, hfile, hpolicy, ← hpgoff, Line.mk.injEq, true_and,
    and_true]
  ring

theorem line_of_mergesBefore (haddr : pageSize ∣ addr) (hle : addr ≤ endAddr)
    (hmerges : mm.mergesBefore endAddr request (pages addr endAddr) next = true) :
    (mm.area next).vmStart = endAddr ∧ (mm.area next).line = request.line addr := by
  simp only [mergesBefore, canVmaMergeBefore, isMergeableVma, Bool.and_eq_true,
    decide_eq_true_eq] at hmerges
  obtain ⟨⟨hstart, hpolicy⟩, ⟨⟨⟨hflags, hfile⟩, -⟩, -⟩, hpgoff⟩ := hmerges
  refine ⟨hstart.symm, ?_⟩
  rw [pages_eq haddr hle] at hpgoff
  simp only [Area.line, Request.line, hflags, hfile, hpolicy, hpgoff, ← hstart, Line.mk.injEq,
    true_and, and_true]
  ring

section Cases

variable {line : Line} {pgoff : Pgoff} {anonVma anonVma' : Option ℕ} {newflags : Flags}

theorem Area.Proper.resized (hstart : pageSize ∣ addr) (hend : pageSize ∣ endAddr)
    (hlt : addr < endAddr) (area : Area) (pgoff : Pgoff) (anonVma : Option ℕ) :
    (area.resized addr endAddr pgoff anonVma).Proper :=
  ⟨hlt, hstart, hend⟩

theorem wellFormed_resized (hmm : WellFormed mm) (hlist : mm.mmap = front ++ vma :: back)
    (hproper : ((mm.area vma).resized addr endAddr pgoff anonVma).Proper)
    (hlow : ∀ left ∈ front, (mm.area left).vmEnd ≤ addr)
    (hhigh : ∀ right ∈ back, endAddr ≤ (mm.area right).vmStart) :
    WellFormed (mm.setArea vma ((mm.area vma).resized addr endAddr pgoff anonVma)) := by
  refine (hmm.setArea_replaced _ hlist).wellFormed_one hmm rfl ?_ ?_ ?_ <;>
    rwa [setArea_area_self]

section

variable (hmm : WellFormed mm) (hlist : mm.mmap = front ++ vma :: next :: back)
include hmm hlist

theorem wellFormed_swallowNext (haligned : pageSize ∣ addr)
    (hlow : ∀ left ∈ front, (mm.area left).vmEnd ≤ addr)
    (hlt : addr < (mm.area next).vmEnd) : WellFormed (mm.swallowNext vma next addr pgoff) := by
  obtain ⟨hreplaced, anonVma, harea⟩ := swallowNext_replaced hmm hlist addr pgoff
  have hsplit := hlist.trans (append_cons front vma (next :: back))
  refine hreplaced.wellFormed_one hmm rfl ?_ ?_ ?_ <;> rw [harea, setArea_area_self]
  · exact Area.Proper.resized haligned (hmm.proper_next hlist).endAligned hlt _ _ _
  · exact hlow
  · exact (hsplit ▸ hmm.ordered).below_back

theorem wellFormed_resizeBoth
    {pgoff' : Pgoff} (haligned : pageSize ∣ endAddr) (hlow : (mm.area vma).vmStart < endAddr)
    (hhigh : endAddr < (mm.area next).vmEnd) :
    WellFormed (mm.resizeBoth vma next
      ((mm.area vma).resized (mm.area vma).vmStart endAddr pgoff anonVma)
      ((mm.area next).resized endAddr (mm.area next).vmEnd pgoff' anonVma')) := by
  obtain ⟨hreplaced, hvma, hnext⟩ := resizeBoth_replaced hmm hlist
    ((mm.area vma).resized (mm.area vma).vmStart endAddr pgoff anonVma)
    ((mm.area next).resized endAddr (mm.area next).vmEnd pgoff' anonVma')
  have hsplit := hlist.trans (append_cons front vma (next :: back))
  have hproper := hmm.proper hlist
  have hproper' := hmm.proper_next hlist
  have hback := (hsplit ▸ hmm.ordered).below_back
  refine hreplaced.wellFormed hmm (mm.area vma).vmStart (mm.area next).vmEnd ?_
    ((hlist ▸ hmm.ordered).below le_rfl) hback ?_
  · refine ordered_cons.mpr ⟨?_, ordered_cons.mpr ⟨?_, ordered_nil, by simp⟩, ?_⟩
    · rw [hvma]
      exact Area.Proper.resized hproper.startAligned haligned hlow _ _ _
    · rw [hnext]
      exact Area.Proper.resized haligned hproper'.endAligned hhigh _ _ _
    · intro right hright
      rw [mem_singleton.mp hright, hvma, hnext]
      exact le_refl endAddr
  · intro other hother
    simp only [mem_cons, not_mem_nil, or_false] at hother
    rcases hother with rfl | rfl
    · rw [hvma]
      exact ⟨le_rfl, hhigh.le⟩
    · rw [hnext]
      exact ⟨hlow.le, le_rfl⟩

end

theorem setFlags_eq_self (hflags : (mm.area vma).vmFlags = newflags) :
    mm.setFlags vma newflags = mm := by
  rw [setFlags, ← hflags]
  exact setArea_self mm vma

section

variable (hmm : WellFormed mm) {beyond : Vma}
include hmm

/-- Case 2: a range that follows an area on its line is added to it. -/
theorem painted_case_two (hlist : mm.mmap = front ++ prev :: back)
    (hline : (mm.area prev).line = line) (hend : (mm.area prev).vmEnd = addr)
    (hback : ∀ right ∈ back, endAddr ≤ (mm.area right).vmStart) (hle : addr ≤ endAddr) :
    Painted mm (mm.setArea prev ((mm.area prev).resized (mm.area prev).vmStart endAddr
      (mm.area prev).vmPgoff anonVma)) addr endAddr line := by
  have hnonempty := (hmm.proper hlist).nonempty
  refine (hmm.setArea_replaced _ hlist).painted_joined (setArea_area_self _ _ _)
    ((hlist ▸ hmm.ordered).below (hnonempty.le.trans hend.le)) hback hline
    (hnonempty.le.trans hend.le) le_rfl fun page other hrange => ?_
  rw [mapsIn_cons, hline, covers_resized]
  simp only [mapsIn_nil, or_false, Area.Covers, InRange, hend] at hrange ⊢
  grind

/-- Case 3: a range before an area on its line is added to it. -/
theorem painted_case_three (hlist : mm.mmap = front ++ next :: back)
    (hline : (mm.area next).line = line) (hstart : (mm.area next).vmStart = endAddr)
    (hfront : ∀ left ∈ front, (mm.area left).vmEnd ≤ addr) (haddr : pageSize ∣ addr)
    (hle : addr ≤ endAddr) :
    Painted mm (mm.setArea next ((mm.area next).resized addr (mm.area next).vmEnd
      ((mm.area next).vmPgoff - pages addr endAddr) anonVma)) addr endAddr line := by
  have hnonempty := (hmm.proper hlist).nonempty
  have hback : ∀ right ∈ back, endAddr ≤ (mm.area right).vmStart := fun right hright =>
    (hstart ▸ hnonempty.le).trans ((hlist ▸ hmm.ordered).below_back right hright)
  refine (hmm.setArea_replaced _ hlist).painted_joined (setArea_area_self _ _ _) hfront hback ?_
    le_rfl (hstart ▸ hnonempty.le) fun page other hrange => ?_
  · rw [← hstart, line_lowered _ _ _ haddr (hle.trans hstart.ge), hline]
  rw [mapsIn_cons, hline, covers_resized]
  simp only [mapsIn_nil, or_false, Area.Covers, InRange, hstart] at hrange ⊢
  grind

/-- Cases 1 and 7: the area before the range swallows the area after it, on
the same line, or the area that was the range. -/
theorem painted_swallow (hlist : mm.mmap = front ++ prev :: next :: back)
    (hline : (mm.area prev).line = line) (hend : (mm.area prev).vmEnd = addr)
    (hnext : (mm.area next).vmStart = endAddr ∧ (mm.area next).line = line ∨
      (mm.area next).vmStart = addr ∧ (mm.area next).vmEnd = endAddr) (hle : addr ≤ endAddr) :
    Painted mm (mm.swallowNext prev next (mm.area prev).vmStart (mm.area prev).vmPgoff)
      addr endAddr line := by
  obtain ⟨hreplaced, anonVma, harea⟩ := swallowNext_replaced hmm hlist (mm.area prev).vmStart
    (mm.area prev).vmPgoff
  have hsplit := hlist.trans (append_cons front prev (next :: back))
  have hnonempty := (hmm.proper hlist).nonempty
  have hnonempty' := (hmm.proper_next hlist).nonempty
  have hhigh : endAddr ≤ (mm.area next).vmEnd := by
    rcases hnext with ⟨hstart, -⟩ | ⟨-, hstop⟩
    · exact hstart ▸ hnonempty'.le
    · exact hstop.ge
  have hback : ∀ right ∈ back, endAddr ≤ (mm.area right).vmStart := fun right hright =>
    hhigh.trans ((hsplit ▸ hmm.ordered).below_back right hright)
  have hself := (congrFun harea prev).trans (setArea_area_self _ _ _)
  refine hreplaced.painted_joined hself
    ((hlist ▸ hmm.ordered).below (hnonempty.le.trans hend.le)) hback hline
    (hnonempty.le.trans hend.le) hhigh fun page other hrange => ?_
  rw [mapsIn_cons, mapsIn_cons, hline, covers_resized]
  simp only [mapsIn_nil, or_false, Area.Covers, InRange, hend] at hrange ⊢
  rcases hnext with ⟨hstart, hline'⟩ | ⟨hstart, hstop⟩
  · rw [hstart, hline']
    grind
  · rw [hstart, hstop]
    grind

/-- Case 6: the area before the range swallows the area that was the range and
the one after it, in two passes. -/
theorem case_six (hlist : mm.mmap = front ++ prev :: vma :: beyond :: back)
    (hline : (mm.area prev).line = line) (hend : (mm.area prev).vmEnd = addr)
    (hvma : (mm.area vma).vmStart = addr ∧ (mm.area vma).vmEnd = endAddr)
    (hbeyond : (mm.area beyond).vmStart = endAddr ∧ (mm.area beyond).line = line) :
    ∃ mm', mm.vmaAdjust prev (mm.area prev).vmStart (mm.area beyond).vmEnd (mm.area prev).vmPgoff
        none = mm' ∧
      WellFormed mm' ∧ prev ∈ mm'.mmap ∧ (mm'.area prev).vmFlags = (mm.area prev).vmFlags ∧
      Painted mm mm' addr endAddr line := by
  have hproper := hmm.proper hlist
  have hproper' := hmm.proper_next hlist
  have hle : addr ≤ endAddr := hvma.1 ▸ hvma.2 ▸ hproper'.nonempty.le
  have hlow := (hlist ▸ hmm.ordered).below (le_refl (mm.area prev).vmStart)
  have hshort := hproper.nonempty
  have hmid : WellFormed (mm.swallowNext prev vma (mm.area prev).vmStart (mm.area prev).vmPgoff) :=
    wellFormed_swallowNext hmm hlist hproper.startAligned hlow (by omega)
  rw [vmaAdjust_swallow_two hmm hlist hmid rfl]
  have hfirst := painted_swallow hmm hlist hline hend (.inr hvma) hle
  obtain ⟨hreplaced, anonVma, harea⟩ := swallowNext_replaced hmm hlist (mm.area prev).vmStart
    (mm.area prev).vmPgoff
  have hbeyond' := hreplaced.frame beyond (by simp)
  have hlow' : ∀ left ∈ front, _ := fun left hleft =>
    (hreplaced.frame left (mem_append_left _ hleft)).symm ▸ hlow left hleft
  generalize mm.swallowNext prev vma (mm.area prev).vmStart (mm.area prev).vmPgoff = middle
    at hmid hfirst hreplaced harea hbeyond' hlow' ⊢
  have hprev : middle.area prev =
      (mm.area prev).resized (mm.area prev).vmStart endAddr (mm.area prev).vmPgoff anonVma := by
    rw [harea, setArea_area_self, hvma.2]
  have hsecond : Painted middle (middle.swallowNext prev beyond _ _) endAddr endAddr line :=
    painted_swallow hmid hreplaced.list' (by rw [hprev]; exact hline) (by rw [hprev]; rfl)
      (.inl (by rw [hbeyond']; exact hbeyond)) le_rfl
  rw [hprev] at hsecond
  obtain ⟨hreplaced', anonVma', harea'⟩ := swallowNext_replaced hmid hreplaced.list'
    (mm.area prev).vmStart (mm.area prev).vmPgoff
  have hnonempty := (hmm.ordered.proper beyond (by simp [hlist])).nonempty
  refine ⟨_, rfl, ?_, ?_, ?_, hfirst.trans_empty hsecond⟩
  · refine wellFormed_swallowNext hmid hreplaced.list' hproper.startAligned hlow' ?_
    rw [hbeyond']
    omega
  · rw [hreplaced'.list']
    simp
  · rw [harea', setArea_area_self, hprev]
    rfl

/-- Case 8: the area that was the range swallows the one after it and takes
the new flags. -/
theorem painted_case_eight (hlist : mm.mmap = front ++ vma :: beyond :: back)
    (hvma : (mm.area vma).vmStart = addr ∧ (mm.area vma).vmEnd = endAddr)
    (hbeyond : (mm.area beyond).vmStart = endAddr ∧ (mm.area beyond).line = line)
    (hfile : (mm.area vma).vmFile = line.file) (hpolicy : (mm.area vma).vmPolicy = line.policy)
    (hflags : line.flags = newflags) :
    Painted mm ((mm.swallowNext vma beyond addr
      ((mm.area beyond).vmPgoff - pages addr endAddr)).setFlags vma newflags) addr endAddr line := by
  have hproper := hmm.proper hlist
  have hproper' := hmm.proper_next hlist
  have hle : addr ≤ endAddr := hvma.1 ▸ hvma.2 ▸ hproper.nonempty.le
  have hlow : ∀ left ∈ front, (mm.area left).vmEnd ≤ addr :=
    (hlist ▸ hmm.ordered).below hvma.1.le
  have hmid : WellFormed
      (mm.swallowNext vma beyond addr ((mm.area beyond).vmPgoff - pages addr endAddr)) :=
    wellFormed_swallowNext hmm hlist (hvma.1 ▸ hproper.startAligned) hlow
      (hle.trans_lt (hbeyond.1 ▸ hproper'.nonempty))
  obtain ⟨hreplaced, anonVma, harea⟩ := swallowNext_replaced hmm hlist addr
    ((mm.area beyond).vmPgoff - pages addr endAddr)
  generalize mm.swallowNext vma beyond addr ((mm.area beyond).vmPgoff - pages addr endAddr) = middle
    at hmid hreplaced harea ⊢
  rw [setFlags, harea, setArea_area_self]
  have hback : ∀ right ∈ back, endAddr ≤ (mm.area right).vmStart := fun right hright =>
    hvma.2 ▸ (hlist ▸ hmm.ordered).below_back right (mem_cons_of_mem _ hright)
  refine (hreplaced.trans (hmid.setArea_replaced _ hreplaced.list')).painted_joined
    (setArea_area_self _ _ _) hlow hback ?_ le_rfl (hbeyond.1 ▸ hproper'.nonempty.le) ?_
  · have hlowered := (mm.area beyond).line_lowered (mm.area beyond).vmEnd anonVma
      (hvma.1 ▸ hproper.startAligned) (hle.trans hbeyond.1.ge)
    rw [hbeyond.2, hbeyond.1] at hlowered
    rw [← hflags, ← hlowered]
    simp only [Area.line, Area.resized, ← hlowered] at hfile hpolicy ⊢
    rw [hfile, hpolicy]
  · intro page other hrange
    rw [mapsIn_cons, mapsIn_cons, hbeyond.2]
    simp only [mapsIn_nil, or_false, Area.Covers, InRange, hvma.1, hvma.2, hbeyond.1, Area.resized]
      at hrange ⊢
    grind

/-- Case 4: the last pages of an area go to the one after it. -/
theorem painted_case_four (hlist : mm.mmap = front ++ vma :: next :: back)
    (hend : (mm.area vma).vmEnd = endAddr)
    (hnext : (mm.area next).vmStart = endAddr ∧ (mm.area next).line = line)
    (haddr : pageSize ∣ addr) (hlow : (mm.area vma).vmStart < addr) (hle : addr ≤ endAddr) :
    Painted mm (mm.resizeBoth vma next
      ((mm.area vma).resized (mm.area vma).vmStart addr (mm.area vma).vmPgoff anonVma)
      ((mm.area next).resized addr (mm.area next).vmEnd
        ((mm.area next).vmPgoff - pages addr endAddr) anonVma')) addr endAddr line := by
  have hlowered : ((mm.area next).resized addr (mm.area next).vmEnd
      ((mm.area next).vmPgoff - pages addr endAddr) anonVma').line = line := by
    rw [← hnext.1, line_lowered _ _ _ haddr (hle.trans hnext.1.ge), hnext.2]
  have hnonempty := (hmm.proper_next hlist).nonempty
  refine (resizeBoth_replaced hmm hlist _ _).1.painted ((hlist ▸ hmm.ordered).below hlow.le)
    (fun right hright => hend ▸ (hlist ▸ hmm.ordered).below_back right
      (mem_cons_of_mem _ hright)) fun page other => ?_
  have hkept : ((mm.area vma).resized (mm.area vma).vmStart addr (mm.area vma).vmPgoff
      anonVma).line = (mm.area vma).line := rfl
  simp only [mapsIn_cons, mapsIn_nil, or_false, (resizeBoth_replaced hmm hlist _ _).2, hlowered,
    hkept, hnext.2, covers_resized]
  simp only [Area.Covers, InRange, hend, hnext.1] at hnonempty ⊢
  split <;> grind

/-- Case 5: the first pages of an area go to the one before it. -/
theorem painted_case_five (hlist : mm.mmap = front ++ prev :: vma :: back)
    (hline : (mm.area prev).line = line) (hend : (mm.area prev).vmEnd = addr)
    (hstart : (mm.area vma).vmStart = addr) (hle : addr ≤ endAddr)
    (hhigh : endAddr < (mm.area vma).vmEnd) :
    Painted mm (mm.resizeBoth prev vma
      ((mm.area prev).resized (mm.area prev).vmStart endAddr (mm.area prev).vmPgoff anonVma)
      ((mm.area vma).resized endAddr (mm.area vma).vmEnd
        ((mm.area vma).vmPgoff + pages (mm.area vma).vmStart endAddr) anonVma'))
      addr endAddr line := by
  have hproper := hmm.proper hlist
  have hproper' := hmm.proper_next hlist
  have hraised := (mm.area vma).line_raised (mm.area vma).vmEnd anonVma'
    hproper'.startAligned (hstart.le.trans hle)
  have hsplit := hlist.trans (append_cons front prev (vma :: back))
  refine (resizeBoth_replaced hmm hlist _ _).1.painted
    ((hlist ▸ hmm.ordered).below (hproper.nonempty.le.trans hend.le))
    (fun right hright => hhigh.le.trans ((hsplit ▸ hmm.ordered).below_back right hright))
    fun page other => ?_
  have hkept : ((mm.area prev).resized (mm.area prev).vmStart endAddr (mm.area prev).vmPgoff
      anonVma).line = line := hline
  have hnonempty := hproper.nonempty
  simp only [mapsIn_cons, mapsIn_nil, or_false, (resizeBoth_replaced hmm hlist _ _).2, hraised,
    hkept, hline, covers_resized]
  simp only [Area.Covers, InRange, hend, hstart] at hnonempty ⊢
  split <;> grind

end

end Cases

/-- A page-aligned range of at least one page. -/
structure PageRange (addr endAddr : ℕ) : Prop where
  startAligned : pageSize ∣ addr
  endAligned : pageSize ∣ endAddr
  nonempty : addr < endAddr

/-- No area touches the range. -/
def Unmapped (mm : Mm) (addr endAddr : ℕ) : Prop :=
  ∀ vma ∈ mm.mmap, (mm.area vma).vmEnd ≤ addr ∨ endAddr ≤ (mm.area vma).vmStart

theorem Unmapped.above (hunmapped : Unmapped mm addr endAddr)
    (hcut : Cut mm addr mm.mmap front back) : ∀ vma ∈ back, endAddr ≤ (mm.area vma).vmStart := by
  intro vma hvma
  refine (hunmapped vma (by simp [hcut.split, hvma])).resolve_left fun hbelow => ?_
  exact absurd (hcut.above vma hvma) (not_lt.mpr hbelow)

/-- What `vma_merge` returns: NULL, and nothing has changed; or an area, and
the range is painted once the caller is done with that area. -/
inductive Merged (mm : Mm) (addr endAddr : ℕ) (line : Line) (caller : Vma → Mm → Mm) :
    Option Vma × Mm → Prop
  | refused : Merged mm addr endAddr line caller (none, mm)
  | merged (vma : Vma) (mm' : Mm) (hmm' : WellFormed mm') (hmem : vma ∈ mm'.mmap)
      (hpainted : Painted mm (caller vma mm') addr endAddr line) :
      Merged mm addr endAddr line caller (some vma, mm')

theorem mergeArea_eq (hmm : WellFormed mm) (hlist : mm.mmap = front ++ back) :
    mm.mergeArea front.getLast? = back.head? := by
  rcases eq_nil_or_concat front with rfl | ⟨init, prev, rfl⟩
  · simp [mergeArea, hlist]
  rw [concat_eq_append, getLast?_concat]
  have hsplit : mm.mmap = init ++ prev :: back := by
    rw [hlist, concat_eq_append, append_assoc]
    rfl
  exact hmm.vmNext_eq hsplit

theorem mergeNext_eq (hmm : WellFormed mm) (hsub : back ⊆ mm.mmap)
    (hback : ∀ next ∈ back, endAddr ≤ (mm.area next).vmStart) :
    mm.mergeNext back.head? endAddr = back.head? := by
  cases back with
  | nil => rfl
  | cons next rest =>
    have hstart := hback next mem_cons_self
    have hproper := (hmm.ordered.proper next (hsub mem_cons_self)).nonempty
    have hne : (mm.area next).vmEnd ≠ endAddr := by omega
    simp [mergeNext, hne]

/-- The area before the range, where it can be merged with the request. -/
theorem exists_mergesAfter (hmm : WellFormed mm) (hlist : mm.mmap = front ++ back)
    (hafter : front.getLast?.filter (mm.mergesAfter addr request) = some prev) :
    ∃ init, mm.mmap = init ++ prev :: back ∧ (mm.area prev).Proper ∧
      (mm.area prev).vmEnd = addr ∧ (mm.area prev).line = request.line addr := by
  obtain ⟨hlast, htest⟩ := filter_eq_some_iff.mp hafter
  obtain ⟨init, rfl⟩ := getLast?_eq_some_iff.mp hlast
  rw [append_assoc, singleton_append] at hlist
  have hproper := hmm.proper hlist
  exact ⟨init, hlist, hproper, line_of_mergesAfter hproper htest⟩

theorem head?_filter_eq_some (h : back.head?.filter test = some next) :
    ∃ rest, back = next :: rest ∧ test next = true := by
  obtain ⟨hhead, htest⟩ := filter_eq_some_iff.mp h
  obtain ⟨rest, rfl⟩ := head?_eq_some_iff.mp hhead
  exact ⟨rest, rfl, htest⟩

theorem getLast?_filter_reaching (hfront : ∀ vma ∈ front, (mm.area vma).vmEnd ≤ addr) :
    (front.getLast?.filter fun prev => decide (addr < (mm.area prev).vmEnd)) = none := by
  apply filter_eq_none_iff.mpr
  intro prev hprev
  simpa using hfront prev (mem_of_getLast? hprev)

section

variable (hmm : WellFormed mm) (hrange : PageRange addr endAddr)
include hmm hrange

theorem vmaMerge_unmapped
    (hlist : mm.mmap = front ++ back) (hfront : ∀ vma ∈ front, (mm.area vma).vmEnd ≤ addr)
    (hback : ∀ vma ∈ back, endAddr ≤ (mm.area vma).vmStart) :
    Merged mm addr endAddr (request.line addr) (fun _ mm' => mm')
      (mm.vmaMerge front.getLast? addr endAddr request) := by
  have hle := hrange.nonempty.le
  have harea := mergeArea_eq hmm hlist
  simp only [vmaMerge, harea, mergeNext_eq hmm (by simp [hlist]) hback]
  split
  · exact .refused
  cases hafter : front.getLast?.filter (mm.mergesAfter addr request) with
  | some prev =>
    obtain ⟨init, hlist, hproper, hend, hline⟩ := exists_mergesAfter hmm hlist hafter
    have hbelow := (hlist ▸ hmm.ordered).below (le_refl (mm.area prev).vmStart)
    dsimp only
    cases hbefore : back.head?.filter fun next =>
        mm.mergesBefore endAddr request (pages addr endAddr) next &&
          isMergeableAnonVma (mm.area prev).anonVma (mm.area next).anonVma with
    | some next =>
      obtain ⟨rest, rfl, htest'⟩ := head?_filter_eq_some hbefore
      have hline' :=
        line_of_mergesBefore hrange.startAligned hle (Bool.and_eq_true_iff.mp htest').1
      have hlow : (mm.area prev).vmStart < (mm.area next).vmEnd := by
        have := hproper.nonempty
        have := (hmm.proper_next hlist).nonempty
        omega
      dsimp only
      rw [vmaAdjust_swallow hmm hlist rfl]
      refine .merged prev _ (wellFormed_swallowNext hmm hlist hproper.startAligned hbelow hlow) ?_
        (painted_swallow hmm hlist hline hend (.inl hline') hle)
      rw [(swallowNext_replaced hmm hlist _ _).1.list']
      simp
    | none =>
      dsimp only
      rw [vmaAdjust_alone hmm hlist (hend.le.trans hle) hback]
      refine .merged prev _ (wellFormed_resized hmm hlist ?_ hbelow hback) (by simp [hlist])
        (painted_case_two hmm hlist hline hend hback hle)
      have := hproper.nonempty
      exact Area.Proper.resized hproper.startAligned hrange.endAligned (by omega) _ _ _
  | none =>
    dsimp only
    cases hbefore : back.head?.filter
        (mm.mergesBefore endAddr request (pages addr endAddr)) with
    | none =>
      cases back.head? <;> exact .refused
    | some next =>
      obtain ⟨rest, rfl, htest⟩ := head?_filter_eq_some hbefore
      obtain ⟨hstart, hline⟩ := line_of_mergesBefore hrange.startAligned hle htest
      have hproper := hmm.proper hlist
      have hrest := (hlist ▸ hmm.ordered).below_back
      simp only [head?_cons, getLast?_filter_reaching hfront]
      rw [vmaAdjust_alone hmm hlist le_rfl hrest]
      refine .merged next _ (wellFormed_resized hmm hlist ?_ hfront hrest) (by simp [hlist])
        (painted_case_three hmm hlist hline hstart hfront hrange.startAligned hle)
      have := hproper.nonempty
      exact Area.Proper.resized hrange.startAligned hproper.endAligned (by omega) _ _ _

theorem mmapMerge_spec (hunmapped : Unmapped mm addr endAddr) (request : Request) :
    Merged mm addr endAddr (request.line addr) (fun _ mm' => mm')
      (mm.mmapMerge addr endAddr request) := by
  obtain ⟨front, back, hcut⟩ := hmm.exists_cut addr
  have hback := hunmapped.above hcut
  obtain ⟨-, hprev, -⟩ := hmm.findVmaPrepare_spec hcut.split hcut.below
    fun vma hvma => hrange.nonempty.trans_le (hback vma hvma)
  rw [mmapMerge, hprev]
  exact vmaMerge_unmapped hmm hrange hcut.split hcut.below hback

end

section Mprotect

variable {newflags : Flags}

/-- The line of a range inside an area, with other flags. -/
def Area.reflagged (area : Area) (newflags : Flags) : Line := { area.line with flags := newflags }

theorem mprotectRequest_line (newflags : Flags) (hproper : (mm.area vma).Proper)
    (hlow : (mm.area vma).vmStart ≤ addr) :
    (mm.mprotectRequest vma addr newflags).line addr = (mm.area vma).reflagged newflags := by
  simp only [mprotectRequest, Request.line, reflagged, Area.line, Line.mk.injEq, true_and,
    and_true, pages_eq hproper.startAligned hlow]
  ring

/-- The caller's update does nothing to an area that has the flags already. -/
theorem Merged.of_flags {line : Line} (hmm' : WellFormed mm') (hmem : vma ∈ mm'.mmap)
    (hflags : (mm'.area vma).vmFlags = newflags) (hpainted : Painted mm mm' addr endAddr line) :
    Merged mm addr endAddr line (fun area mm' => mm'.setFlags area newflags) (some vma, mm') := by
  refine .merged vma mm' hmm' hmem ?_
  rw [setFlags_eq_self hflags]
  exact hpainted

section

variable (hmm : WellFormed mm) (hrange : PageRange addr endAddr)
include hmm hrange

/-- Merging the last pages of an area with the next one: case 4. -/
theorem vmaMerge_inside (hlist : mm.mmap = front ++ vma :: back)
    (hlow : (mm.area vma).vmStart < addr) (hhigh : endAddr ≤ (mm.area vma).vmEnd) :
    Merged mm addr endAddr ((mm.area vma).reflagged newflags)
      (fun area mm' => mm'.setFlags area newflags)
      (mm.vmaMerge (some vma) addr endAddr (mm.mprotectRequest vma addr newflags)) := by
  have hle := hrange.nonempty.le
  have hlt := hrange.nonempty
  have hproper := hmm.proper hlist
  have hline := mprotectRequest_line newflags hproper hlow.le
  have harea : mm.mergeArea (some vma) = back.head? := hmm.vmNext_eq hlist
  have hbelow := (hlist ▸ hmm.ordered).below_back
  have hnext := mergeNext_eq hmm (by simp [hlist]) fun next hmem => hhigh.trans (hbelow next hmem)
  have hafter : mm.mergesAfter addr (mm.mprotectRequest vma addr newflags) vma = false := by
    have hne : (mm.area vma).vmEnd ≠ addr := by omega
    simp [mergesAfter, hne]
  have hreach : addr < (mm.area vma).vmEnd := by omega
  simp only [vmaMerge, harea, hnext, filter_some, hafter, hreach, decide_true, if_true,
    Bool.false_eq_true, if_false]
  split
  · exact .refused
  cases hbefore : back.head?.filter
      (mm.mergesBefore endAddr (mm.mprotectRequest vma addr newflags) (pages addr endAddr)) with
  | none => cases back.head? <;> exact .refused
  | some next =>
    obtain ⟨rest, rfl, htest⟩ := head?_filter_eq_some hbefore
    obtain ⟨hstart, hline'⟩ := line_of_mergesBefore hrange.startAligned hle htest
    rw [hline] at hline'
    have hend : (mm.area vma).vmEnd = endAddr :=
      le_antisymm (hstart ▸ hbelow next mem_cons_self) hhigh
    have hproper' := hmm.proper_next hlist
    obtain ⟨anonVma, anonVma', heq⟩ := vmaAdjust_shift_down (mm.area vma).vmStart
      (mm.area vma).vmPgoff hmm hlist hrange.startAligned (hend.trans hstart.symm) hreach
    have hnonempty := hproper'.nonempty
    rw [heq, hstart]
    refine .of_flags (wellFormed_resizeBoth hmm hlist hrange.startAligned hlow (by omega))
      (by simp [resizeBoth, hlist]) ?_
      (painted_case_four hmm hlist hend ⟨hstart, hline'⟩ hrange.startAligned hlow hle)
    rw [(resizeBoth_replaced hmm hlist _ _).2.2]
    exact congrArg Line.flags hline'

/-- Merging the first pages of an area with its neighbours: cases 5 to 8. -/
theorem vmaMerge_start (hlist : mm.mmap = front ++ vma :: back)
    (hstart : (mm.area vma).vmStart = addr) (hhigh : endAddr ≤ (mm.area vma).vmEnd) :
    Merged mm addr endAddr ((mm.area vma).reflagged newflags)
      (fun area mm' => mm'.setFlags area newflags)
      (mm.vmaMerge front.getLast? addr endAddr (mm.mprotectRequest vma addr newflags)) := by
  have hle := hrange.nonempty.le
  have hlt := hrange.nonempty
  have hproper := hmm.proper hlist
  have hline := mprotectRequest_line newflags hproper hstart.le
  have hfront := (hlist ▸ hmm.ordered).below hstart.le
  have harea : mm.mergeArea front.getLast? = some vma := mergeArea_eq hmm hlist
  by_cases hend : (mm.area vma).vmEnd = endAddr
  · -- the range is the whole area: cases 6, 7, 8
    have hnext : mm.mergeNext (some vma) endAddr = back.head? := by
      simp [mergeNext, hend, hmm.vmNext_eq hlist]
    simp only [vmaMerge, harea, hnext]
    split
    · exact .refused
    cases hafter : front.getLast?.filter
        (mm.mergesAfter addr (mm.mprotectRequest vma addr newflags)) with
    | some prev =>
      obtain ⟨init, hlist, hproper', hmeet, hline'⟩ := exists_mergesAfter hmm hlist hafter
      rw [hline] at hline'
      have hflags : (mm.area prev).vmFlags = newflags := congrArg Line.flags hline'
      have hbelow := (hlist ▸ hmm.ordered).below (le_refl (mm.area prev).vmStart)
      have hnonempty := hproper'.nonempty
      have hmid : WellFormed
          (mm.swallowNext prev vma (mm.area prev).vmStart (mm.area prev).vmPgoff) :=
        wellFormed_swallowNext hmm hlist hproper'.startAligned hbelow (by omega)
      obtain ⟨hreplaced, anonVma, harea'⟩ := swallowNext_replaced hmm hlist
        (mm.area prev).vmStart (mm.area prev).vmPgoff
      dsimp only
      cases hbefore : back.head?.filter fun next =>
          mm.mergesBefore endAddr (mm.mprotectRequest vma addr newflags) (pages addr endAddr) next
            && isMergeableAnonVma (mm.area prev).anonVma (mm.area next).anonVma with
      | some beyond =>
        obtain ⟨rest, rfl, htest'⟩ := head?_filter_eq_some hbefore
        have hbeyond :=
          line_of_mergesBefore hrange.startAligned hle (Bool.and_eq_true_iff.mp htest').1
        rw [hline] at hbeyond
        obtain ⟨mm', heq, hmm', hmem, hflags', hpainted⟩ :=
          case_six hmm hlist hline' hmeet ⟨hstart, hend⟩ hbeyond
        dsimp only
        rw [heq]
        exact .of_flags hmm' hmem (hflags'.trans hflags) hpainted
      | none =>
        dsimp only
        rw [vmaAdjust_swallow hmm hlist hend.symm]
        refine .of_flags hmid (by simp [hreplaced.list']) ?_
          (painted_swallow hmm hlist hline' hmeet (.inr ⟨hstart, hend⟩) hle)
        rw [harea', setArea_area_self]
        exact hflags
    | none =>
      dsimp only
      cases hbefore : back.head?.filter
          (mm.mergesBefore endAddr (mm.mprotectRequest vma addr newflags) (pages addr endAddr)) with
      | none => exact .refused
      | some beyond =>
        obtain ⟨rest, rfl, htest⟩ := head?_filter_eq_some hbefore
        have hbeyond := line_of_mergesBefore hrange.startAligned hle htest
        rw [hline] at hbeyond
        have hproper' := (hmm.proper_next hlist).nonempty
        simp only [getLast?_filter_reaching hfront]
        rw [vmaAdjust_swallow hmm hlist rfl]
        refine .merged vma _ (wellFormed_swallowNext hmm hlist hrange.startAligned hfront
          (by omega)) ?_ (painted_case_eight hmm hlist ⟨hstart, hend⟩ hbeyond rfl rfl rfl)
        rw [(swallowNext_replaced hmm hlist _ _).1.list']
        simp
  · -- the area goes on beyond the range: case 5
    have hnext : mm.mergeNext (some vma) endAddr = some vma := by
      simp [mergeNext, hend]
    have hbefore : mm.mergesBefore endAddr (mm.mprotectRequest vma addr newflags)
        (pages addr endAddr) vma = false := by
      have hne : endAddr ≠ (mm.area vma).vmStart := by omega
      simp [mergesBefore, hne]
    simp only [vmaMerge, harea, hnext, filter_some, hbefore, Bool.false_and,
      Bool.false_eq_true, if_false]
    split
    · exact .refused
    cases hafter : front.getLast?.filter
        (mm.mergesAfter addr (mm.mprotectRequest vma addr newflags)) with
    | none => exact .refused
    | some prev =>
      obtain ⟨init, hlist, hproper', hmeet, hline'⟩ := exists_mergesAfter hmm hlist hafter
      rw [hline] at hline'
      have hbeyond : endAddr < (mm.area vma).vmEnd := lt_of_le_of_ne hhigh (Ne.symm hend)
      have hnonempty := hproper'.nonempty
      obtain ⟨anonVma, anonVma', heq⟩ := vmaAdjust_shift_up (mm.area prev).vmStart
        (mm.area prev).vmPgoff hmm hlist hrange.endAligned (hstart.le.trans_lt hlt) hbeyond
      dsimp only
      rw [heq]
      refine .of_flags (wellFormed_resizeBoth hmm hlist hrange.endAligned (by omega) hbeyond)
        (by simp [resizeBoth, hlist]) ?_
        (painted_case_five hmm hlist hline' hmeet hstart hle hbeyond)
      rw [(resizeBoth_replaced hmm hlist _ _).2.1]
      exact congrArg Line.flags hline'

/-- The merge that `mprotect_fixup` tries for a range inside an area. -/
theorem mprotectMerge_spec (hmem : vma ∈ mm.mmap) (hlow : (mm.area vma).vmStart ≤ addr)
    (hhigh : endAddr ≤ (mm.area vma).vmEnd) (newflags : Flags) :
    Merged mm addr endAddr ((mm.area vma).reflagged newflags)
      (fun area mm' => mm'.setFlags area newflags)
      (mm.mprotectMerge vma addr endAddr newflags) := by
  obtain ⟨front, back, hlist⟩ := append_of_mem hmem
  unfold mprotectMerge mprotectPrev
  rcases hlow.lt_or_eq with hinside | hstart
  · rw [if_pos hinside]
    exact vmaMerge_inside hmm hrange hlist hinside hhigh
  have hcut : Cut mm addr mm.mmap front (vma :: back) :=
    ⟨hlist, (hlist ▸ hmm.ordered).below hlow,
      hmm.endsAbove_from hlist (hrange.nonempty.trans_le hhigh)⟩
  rw [if_neg hstart.not_lt, hmm.findVmaPrev_eq hcut]
  exact vmaMerge_start hmm hrange hlist hstart hhigh

end

end Mprotect

end KernelM5040.Mmap
