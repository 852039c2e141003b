import KernelM5040.Mm.Vmalloc

/-!
# The areas of the vmalloc space do not meet

While no size and no rounded end of an area overflows, the list stays in order and
a new area has its place between two others.  It lies inside the window asked for
if there is room in the window, or if the search ends there.
-/

namespace KernelM5040.Vmalloc

open Option List Word

variable (vmlist : List VmStruct)

/-- The areas are not empty, end inside the address space, and each ends before the next begins. -/
structure Ordered : Prop where
  size_pos : ∀ area ∈ vmlist, 0 < area.size
  stop_lt : ∀ area ∈ vmlist, area.stop < 2 ^ 64
  apart : vmlist.Pairwise fun left right => left.stop ≤ right.addr

/-- Neither the guard page nor rounding up the end of an area overflows. -/
structure NoWrap (size flags : ℕ) : Prop where
  guard_lt : pageAlign size + pageSize < 2 ^ 64
  stop_round : ∀ area ∈ vmlist, area.stop + (alignOf size flags - 1) < 2 ^ 64

/-- An area in the window that leaves no room in it, and that no end before it is rounded beyond. -/
structure Closes (mult size addr stop : ℕ) (area : VmStruct) : Prop where
  mem : area ∈ vmlist
  lower : addr ≤ area.addr
  upper : area.addr ≤ stop
  full : stop < align area.stop mult + size
  before : ∀ tmp ∈ vmlist, tmp.stop ≤ area.addr → align tmp.stop mult ≤ area.addr

/-- There is room in the window, or it can hold the size and no area lies behind it or one closes
it. -/
def Window (mult size addr stop : ℕ) : Prop :=
  (∃ place, mult ∣ place ∧ addr ≤ place ∧ place + size ≤ stop ∧
      ∀ tmp ∈ vmlist, tmp.stop ≤ place ∨ place + size ≤ tmp.addr) ∨
    size ≤ stop ∧ ((∀ tmp ∈ vmlist, tmp.addr ≤ stop) ∨
      ∃ area, Closes vmlist mult size addr stop area)

section Walk

variable {mult size stop addr : ℕ} {area : ℕ → VmStruct} {result : List VmStruct × ℕ}
  {vmlist next : List VmStruct} {tmp : VmStruct}

/-- The place that a walk finds for an area. -/
structure Placed (vmlist : List VmStruct) (area : ℕ → VmStruct) (mult size addr : ℕ)
    (result : List VmStruct × ℕ) : Prop where
  split : ∃ before behind, vmlist = before ++ behind ∧
    result.1 = before ++ area result.2 :: behind ∧
    (∀ tmp ∈ before, tmp.stop ≤ result.2) ∧ ∀ tmp ∈ behind, result.2 + size ≤ tmp.addr
  lower : addr ≤ result.2
  stop_lt : result.2 + size < 2 ^ 64
  aligned : mult ∣ result.2

theorem Placed.cons {addr' : ℕ} (hplaced : Placed vmlist area mult size addr' result)
    (hbefore : tmp.stop ≤ addr') (hlower : addr ≤ addr') :
    Placed (tmp :: vmlist) area mult size addr (tmp :: result.1, result.2) := by
  obtain ⟨before, behind, hlist, hresult, hleft, hright⟩ := hplaced.split
  refine ⟨⟨tmp :: before, behind, ?_, ?_, ?_, hright⟩, hlower.trans hplaced.lower,
    hplaced.stop_lt, hplaced.aligned⟩
  · rw [hlist, cons_append]
  · rw [hresult, cons_append]
  · rw [forall_mem_cons]
    exact ⟨hbefore.trans hplaced.lower, hleft⟩

theorem Ordered.sublist {vmlist' : List VmStruct} (hordered : Ordered vmlist)
    (hsublist : vmlist'.Sublist vmlist) : Ordered vmlist' :=
  ⟨fun area harea => hordered.size_pos area (hsublist.subset harea),
    fun area harea => hordered.stop_lt area (hsublist.subset harea),
    hordered.apart.sublist hsublist⟩

theorem Ordered.word_stop (hordered : Ordered (tmp :: next)) :
    word (tmp.size + tmp.addr) = tmp.stop := by
  rw [VmStruct.stop, add_comm]
  exact word_eq (hordered.stop_lt tmp mem_cons_self)

section

variable (hmult : 0 < mult) (hordered : Ordered vmlist)
  (hround : ∀ tmp ∈ vmlist, tmp.stop + (mult - 1) < 2 ^ 64)
include hmult hordered hround

theorem walk_placed (hsize : size < 2 ^ 64) (haddr : addr < 2 ^ 64) (haligned : mult ∣ addr)
    (hwalk : walk mult size stop area addr vmlist = some result) :
    Placed vmlist area mult size addr result := by
  induction vmlist generalizing addr result with
  | nil =>
    rw [walk] at hwalk
    split_ifs at hwalk with hwrap hend
    obtain rfl := some.inj hwalk
    have hsum := word_add_of_le haddr hsize (not_lt.mp hwrap)
    have hlt := word_lt (size + addr)
    refine ⟨⟨[], [], rfl, rfl, ?_, ?_⟩, le_rfl, by simp only; omega, haligned⟩
    · intro tmp htmp
      cases htmp
    · intro tmp htmp
      cases htmp
  | cons tmp next ih =>
    have step : ∀ {addr' : ℕ}, addr' < 2 ^ 64 → mult ∣ addr' → tmp.stop ≤ addr' → addr ≤ addr' →
        (walk mult size stop area addr' next).map (fun found => (tmp :: found.1, found.2)) =
          some result → Placed (tmp :: next) area mult size addr result := by
      intro addr' haddr' haligned' hbefore hlower hwalk
      obtain ⟨found, hfound, rfl⟩ := map_eq_some_iff.mp hwalk
      exact (ih (hordered.sublist (sublist_cons_self _ _))
        (fun other hother => hround other (mem_cons_of_mem tmp hother)) haddr' haligned'
        hfound).cons hbefore hlower
    have hup : tmp.stop ≤ align tmp.stop mult :=
      le_align hmult (hround tmp mem_cons_self)
    rw [walk, add_comm tmp.addr, hordered.word_stop] at hwalk
    simp only at hwalk
    split_ifs at hwalk with hbefore hreach hwrap hroom hend
    · exact step (align_lt _ _) (align_dvd _ _) hup (hreach.trans hup) hwalk
    · exact step haddr haligned (not_le.mp hreach).le le_rfl hwalk
    · obtain rfl := some.inj hwalk
      have hsum := word_add_of_le haddr hsize (not_lt.mp hwrap)
      have hlt := word_lt (size + addr)
      refine ⟨⟨[], tmp :: next, rfl, rfl, ?_, ?_⟩, le_rfl, by simp only; omega, haligned⟩
      · intro other hother
        cases hother
      intro other hother
      rcases mem_cons.mp hother with rfl | hmem
      · omega
      · have := (pairwise_cons.mp hordered.apart).1 other hmem
        rw [VmStruct.stop] at this
        omega
    · refine step (align_lt _ _) (align_dvd _ _) hup ?_ hwalk
      rw [VmStruct.stop] at hup ⊢
      omega

theorem walk_inside (hstop : stop < 2 ^ 64) (hsize : size < 2 ^ 64) (haddr : addr < 2 ^ 64)
    (hwindow : Window vmlist mult size addr stop)
    (hwalk : walk mult size stop area addr vmlist = some result) : result.2 + size ≤ stop := by
  have hle : size ≤ stop := by
    rcases hwindow with ⟨place, -, -, hroom, -⟩ | ⟨hle, -⟩
    · omega
    · exact hle
  induction vmlist generalizing addr result with
  | nil =>
    rw [walk, minus_eq hstop hle] at hwalk
    split_ifs at hwalk with hwrap hend
    obtain rfl := some.inj hwalk
    simp only
    omega
  | cons tmp next ih =>
    -- where the search goes on
    have step : ∀ {addr' : ℕ}, addr' < 2 ^ 64 →
        (addr' = addr ∨ addr' = align tmp.stop mult ∧ tmp.addr < addr + size) →
        (addr ≤ tmp.addr → align tmp.stop mult + size ≤ stop) →
        (walk mult size stop area addr' next).map (fun found => (tmp :: found.1, found.2)) =
          some result → result.2 + size ≤ stop := by
      intro addr' haddr' hmoved hopen hwalk
      obtain ⟨found, hfound, rfl⟩ := map_eq_some_iff.mp hwalk
      change found.2 + size ≤ stop
      refine ih (hordered.sublist (sublist_cons_self _ _))
        (fun other hother => hround other (mem_cons_of_mem tmp hother)) haddr' ?_ hfound
      rcases hwindow with ⟨place, hdvd, hlower, hroom, hfree⟩ | ⟨-, hbelow | ⟨close, hclose⟩⟩
      · refine .inl ⟨place, hdvd, ?_, hroom, fun other hother =>
          hfree other (mem_cons_of_mem tmp hother)⟩
        rcases hmoved with rfl | ⟨rfl, hnear⟩
        · exact hlower
        · have htmp := hfree tmp mem_cons_self
          exact align_le hmult (hround tmp mem_cons_self) hdvd (by omega)
      · exact .inr ⟨hle, .inl fun other hother => hbelow other (mem_cons_of_mem tmp hother)⟩
      · have hfull := hclose.full
        rcases mem_cons.mp hclose.mem with rfl | hmem
        · exact absurd (hopen hclose.lower) (not_le.mpr hfull)
        refine .inr ⟨hle, .inr ⟨close, hmem, ?_, hclose.upper, hfull, fun other hother =>
          hclose.before other (mem_cons_of_mem tmp hother)⟩⟩
        rcases hmoved with rfl | ⟨rfl, -⟩
        · exact hclose.lower
        · exact hclose.before tmp mem_cons_self ((pairwise_cons.mp hordered.apart).1 close hmem)
    rw [walk, add_comm tmp.addr, hordered.word_stop, minus_eq hstop hle] at hwalk
    simp only at hwalk
    split_ifs at hwalk with hbefore hreach hwrap hroom hend
    · exact step (align_lt _ _) (.inr ⟨rfl, by omega⟩) (fun hnot => by omega) hwalk
    · exact step haddr (.inl rfl) (fun hnot => by omega) hwalk
    · obtain rfl := some.inj hwalk
      rw [word_add_of_le haddr hsize (not_lt.mp hwrap)] at hroom
      simp only
      rcases hwindow with ⟨place, -, hlower, hplace, -⟩ | ⟨-, hbelow | ⟨close, hclose⟩⟩
      · omega
      · have htmp := hbelow tmp mem_cons_self
        omega
      have hupper := hclose.upper
      rcases mem_cons.mp hclose.mem with rfl | hmem
      · omega
      · have hacross := (pairwise_cons.mp hordered.apart).1 close hmem
        rw [VmStruct.stop] at hacross
        omega
    · rw [word] at hwrap hroom
      exact step (align_lt _ _) (.inr ⟨rfl, by omega⟩) (fun _ => by omega) hwalk

end

end Walk

theorem alignOf_pos (size flags : ℕ) : 0 < alignOf size flags := by
  rw [alignOf]
  split_ifs
  · exact Nat.two_pow_pos _
  · exact one_pos

theorem Ordered.insert {before behind : List VmStruct} {area : VmStruct}
    (hordered : Ordered (before ++ behind)) (hsize : 0 < area.size) (hstop : area.stop < 2 ^ 64)
    (hbefore : ∀ tmp ∈ before, tmp.stop ≤ area.addr)
    (hbehind : ∀ tmp ∈ behind, area.stop ≤ tmp.addr) : Ordered (before ++ area :: behind) := by
  have hmem : ∀ tmp ∈ before ++ area :: behind, tmp = area ∨ tmp ∈ before ++ behind := by
    intro tmp htmp
    simp only [mem_append, mem_cons] at htmp ⊢
    tauto
  obtain ⟨hfront, hback, hacross⟩ := pairwise_append.mp hordered.apart
  refine ⟨fun tmp htmp => ?_, fun tmp htmp => ?_, ?_⟩
  · rcases hmem tmp htmp with rfl | hold
    · exact hsize
    · exact hordered.size_pos tmp hold
  · rcases hmem tmp htmp with rfl | hold
    · exact hstop
    · exact hordered.stop_lt tmp hold
  · refine pairwise_append.mpr
      ⟨hfront, pairwise_cons.mpr ⟨hbehind, hback⟩, fun left hleft right hright => ?_⟩
    rcases mem_cons.mp hright with rfl | hold
    · exact hbefore left hleft
    · exact hacross left hleft right hold

variable (size flags start stop : ℕ)

/-- What a request gets: an aligned area of the size asked for and a guard page, with the list as it
was around it. -/
structure Granted (vmlist' : List VmStruct) (area : VmStruct) : Prop where
  split : ∃ before behind, vmlist = before ++ behind ∧ vmlist' = before ++ area :: behind
  size_eq : area.size = pageAlign size + pageSize
  aligned : alignOf size flags ∣ area.addr

/-- Rounding up the start does not overflow, and the search in the window cannot leave it. -/
structure Fits : Prop where
  stop_lt : stop < 2 ^ 64
  start_round : start + (alignOf size flags - 1) < 2 ^ 64
  window : Window vmlist (alignOf size flags) (guarded size) (align start (alignOf size flags)) stop

/-- How `__get_vm_area_node` ends. -/
inductive GetOutcome : List VmStruct × Option VmStruct → Prop
  | failed : GetOutcome (vmlist, none)
  | granted {vmlist' : List VmStruct} {area : VmStruct} (hordered : Ordered vmlist')
      (hgranted : Granted vmlist size flags vmlist' area)
      (hinside : Fits vmlist size flags start stop → start ≤ area.addr ∧ area.stop ≤ stop) :
      GetOutcome (vmlist', some area)

variable {vmlist : List VmStruct}

theorem Ordered.getVmAreaNode (hordered : Ordered vmlist) {size flags : ℕ}
    (hnowrap : pageAlign size ≠ 0 → NoWrap vmlist size flags) (start stop : ℕ) (kmalloc : Bool)
    (caller : ℕ) :
    GetOutcome vmlist size flags start stop
      (getVmAreaNode kmalloc vmlist size flags start stop caller) := by
  rw [Vmalloc.getVmAreaNode]
  simp only
  split_ifs with hzero halloc
  · exact .failed
  · exact .failed
  obtain ⟨hguard, hround⟩ := hnowrap hzero
  have hmult := alignOf_pos size flags
  cases hwalk : walk (alignOf size flags) (guarded size) stop
      (fun addr => ⟨addr, guarded size, flags, none, 0, 0, caller⟩)
      (align start (alignOf size flags)) vmlist with
  | none => exact .failed
  | some result =>
    have hplaced := walk_placed hmult hordered hround (word_lt _) (align_lt _ _) (align_dvd _ _)
      hwalk
    obtain ⟨before, behind, hlist, hresult, hleft, hright⟩ := hplaced.split
    have hguarded : guarded size = pageAlign size + pageSize := word_eq hguard
    have hpos : 0 < guarded size := by
      rw [hguarded]
      exact Nat.add_pos_right _ (by decide)
    simp only at hresult ⊢
    rw [hresult]
    refine .granted ((hlist ▸ hordered).insert hpos hplaced.stop_lt hleft hright)
      ⟨⟨before, behind, hlist, rfl⟩, hguarded, hplaced.aligned⟩ fun hfits => ⟨?_, ?_⟩
    · exact (le_align hmult hfits.start_round).trans hplaced.lower
    · exact walk_inside hmult hordered hround hfits.stop_lt (word_lt _) (align_lt _ _)
        hfits.window hwalk

theorem removeVmArea_sublist (addr : ℕ) (vmlist : List VmStruct) :
    (removeVmArea addr vmlist).1.Sublist vmlist := by
  induction vmlist with
  | nil => exact Sublist.refl _
  | cons tmp next ih =>
    rw [removeVmArea]
    split_ifs
    · exact sublist_cons_self tmp next
    · exact ih.cons_cons tmp

/-! ## Whole runs -/

/-- A call of one of the two functions. -/
inductive Op
  | get (kmalloc : Bool) (size flags start stop caller : ℕ)
  | remove (addr : ℕ)

def perform (vmlist : List VmStruct) : Op → List VmStruct × Option VmStruct
  | .get kmalloc size flags start stop caller =>
    getVmAreaNode kmalloc vmlist size flags start stop caller
  | .remove addr => removeVmArea addr vmlist

/-- A request for some size does not overflow. -/
def Allowed (vmlist : List VmStruct) : Op → Prop
  | .get _ size flags _ _ _ => pageAlign size ≠ 0 → NoWrap vmlist size flags
  | .remove _ => True

/-- The lists of the runs in which every request is allowed. -/
inductive Reach : List VmStruct → Prop
  | init : Reach []
  | step {vmlist : List VmStruct} {op : Op} (hreach : Reach vmlist)
      (hallowed : Allowed vmlist op) : Reach (perform vmlist op).1

theorem ordered_of_reach (hreach : Reach vmlist) : Ordered vmlist := by
  induction hreach with
  | init =>
    refine ⟨?_, ?_, Pairwise.nil⟩
    · intro area harea
      cases harea
    · intro area harea
      cases harea
  | @step vmlist op _ hallowed ih =>
    cases op with
    | get kmalloc size flags start stop caller =>
      have houtcome := ih.getVmAreaNode hallowed start stop kmalloc caller
      rw [perform]
      generalize getVmAreaNode kmalloc vmlist size flags start stop caller = result at houtcome ⊢
      cases houtcome with
      | failed => exact ih
      | granted hordered => exact hordered
    | remove addr => exact ih.sublist (removeVmArea_sublist addr vmlist)

/-- In every run of allowed requests the list is in order and its areas with their guard pages do
not meet; what the next allowed request gets is aligned, and inside its window if it fits. -/
theorem vmlist_ordered {vmlist : List VmStruct} (hreach : Reach vmlist) :
    Ordered vmlist ∧ ∀ kmalloc size flags start stop caller,
      Allowed vmlist (.get kmalloc size flags start stop caller) →
      ∀ area, (getVmAreaNode kmalloc vmlist size flags start stop caller).2 = some area →
        Granted vmlist size flags (getVmAreaNode kmalloc vmlist size flags start stop caller).1
            area ∧
          (Fits vmlist size flags start stop → start ≤ area.addr ∧ area.stop ≤ stop) := by
  have hordered := ordered_of_reach hreach
  refine ⟨hordered, fun kmalloc size flags start stop caller hallowed area harea => ?_⟩
  have houtcome := hordered.getVmAreaNode hallowed start stop kmalloc caller
  generalize getVmAreaNode kmalloc vmlist size flags start stop caller = result at houtcome harea ⊢
  cases houtcome with
  | failed => cases harea
  | granted _ hgranted hinside =>
    obtain rfl := some.inj harea
    exact ⟨hgranted, hinside⟩

/-- The list after a run of requests. -/
def runOf : List VmStruct → List Op → List VmStruct
  | vmlist, [] => vmlist
  | vmlist, op :: ops => runOf (perform vmlist op).1 ops

/-- An area behind the window of the next two, which stay in their window. -/
theorem vmlist_ordered_behind :
    let vmlist := runOf [] [.get true 1 0 (20 * pageSize) (30 * pageSize) 0,
      .get true 1 vmIoremap pageSize (9 * pageSize) 0]
    Ordered vmlist ∧
      (getVmAreaNode true vmlist 1 vmIoremap pageSize (9 * pageSize) 0).2 =
        some ⟨3 * pageSize, 2 * pageSize, vmIoremap, none, 0, 0, 0⟩ ∧
      pageSize ≤ 3 * pageSize ∧ 3 * pageSize + 2 * pageSize ≤ 9 * pageSize := by
  have hfirst : Allowed [] (.get true 1 0 (20 * pageSize) (30 * pageSize) 0) :=
    fun _ => ⟨by decide +kernel, by decide +kernel⟩
  obtain ⟨hordered, hgets⟩ := vmlist_ordered (.step (.step .init hfirst)
    (show Allowed _ (.get true 1 vmIoremap pageSize (9 * pageSize) 0) from
      fun _ => ⟨by decide +kernel, by decide +kernel⟩))
  refine ⟨hordered, by decide +kernel, (hgets true 1 vmIoremap pageSize (9 * pageSize) 0
    (fun _ => ⟨by decide +kernel, by decide +kernel⟩)
    ⟨3 * pageSize, 2 * pageSize, vmIoremap, none, 0, 0, 0⟩ (by decide +kernel)).2 ?_⟩
  exact ⟨by decide +kernel, by decide +kernel, .inl ⟨3 * pageSize, by decide +kernel⟩⟩

/-! ## Requests that go wrong -/

/-- An area outside its window, because an area behind the window stopped the search; an area at
address zero for a start whose rounding overflows; and two areas that meet, because rounding the
end of the last area overflows. -/
theorem vmlist_out_of_order :
    (perform (runOf [] [.get true 1 0 (10 * pageSize) (20 * pageSize) 0])
        (.get true 1 0 pageSize (2 * pageSize) 0)).2.map (fun area => (area.addr, area.stop)) =
        some (pageSize, 3 * pageSize) ∧
      (perform [] (.get true 1 vmIoremap (2 ^ 64 - 1) (2 ^ 64 - 1) 0)).2.map VmStruct.addr =
        some 0 ∧
      (runOf [] [.get true 1 0 0 (2 * pageSize) 0, .get true 1 0 (2 ^ 64 - 2 ^ 21) (2 ^ 64 - 1) 0,
          .get true (2 ^ 20) vmIoremap (2 ^ 64 - 2 ^ 21) (2 ^ 64 - 1) 0]).map
          (fun area => (area.addr, area.size)) =
        [(0, 2 * pageSize), (2 ^ 64 - 2 ^ 21, 2 * pageSize), (0, 2 ^ 20 + pageSize)] := by
  decide +kernel

end KernelM5040.Vmalloc
