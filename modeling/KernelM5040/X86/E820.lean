import KernelM5040.Core.BubbleSort

/-!
# Sanitising the memory map: arch/x86/kernel/e820.c

`sanitize_e820_map` sorts the points where entries of the map start and end, a
start before an end at the same address, and goes through them with the list of
the entries that overlap there.  Where the largest type among these changes, it
closes an entry of the new map and opens another.
-/

namespace KernelM5040.E820

open Function List BubbleSort Nat

/-! ## The map and its change points -/

/-- `struct e820entry` -/
structure E820Entry where
  addr : ℕ
  size : ℕ
  type : ℕ
  deriving DecidableEq, Repr

/-- Arithmetic on `unsigned long long`. -/
def wrap (value : ℕ) : ℕ := value % 2 ^ 64

/-- `struct change_member`, with the index of the entry that `pbios` points to. -/
structure ChangeMember where
  pbios : ℕ
  addr : ℕ
  deriving DecidableEq, Repr

variable (biosmap : ℕ → E820Entry)

def startPoint (i : ℕ) : ChangeMember := ⟨i, (biosmap i).addr⟩

def endPoint (i : ℕ) : ChangeMember :=
  ⟨i, wrap ((biosmap i).addr + (biosmap i).size)⟩

/-- The change points of the first entries, without those of empty ranges. -/
def changePoints (biosmap : ℕ → E820Entry) : ℕ → List ChangeMember
  | 0 => []
  | i + 1 =>
    changePoints biosmap i ++
      if (biosmap i).size ≠ 0 then [startPoint biosmap i, endPoint biosmap i] else []

/-- When the sort exchanges two neighbours. -/
def precedes (cur last : ChangeMember) : Bool :=
  decide (cur.addr < last.addr) ||
    (cur.addr == last.addr && cur.addr == (biosmap cur.pbios).addr &&
      last.addr != (biosmap last.pbios).addr)

/-! ## The new map -/

/-- The variables of the loop over the change points. -/
structure Sweep where
  overlapList : List ℕ
  newBios : ℕ → E820Entry
  newBiosEntry : ℕ
  lastType : ℕ
  lastAddr : ℕ

variable (overlapList : List ℕ)

/-- Every entry of the list that is `pbios` is replaced by the last one, and the last one
dropped. -/
def removeOverlap (pbios : ℕ) : List ℕ :=
  (overlapList.map fun entry => if entry = pbios then overlapList.getLastD 0 else entry).dropLast

/-- The entries that overlap behind a change point. -/
def trackOverlap (point : ChangeMember) : List ℕ :=
  if point.addr = (biosmap point.pbios).addr then overlapList ++ [point.pbios]
  else removeOverlap overlapList point.pbios

/-- The largest type of the overlapping entries, 0 if there are none. -/
def currentType : ℕ :=
  overlapList.foldl
    (fun current entry => if current < (biosmap entry).type then (biosmap entry).type else current) 0

/-- The size is written and the entry kept if it is not empty. -/
def closeEntry (s : Sweep) (size : ℕ) : Sweep :=
  { s with
    newBios :=
      Function.update s.newBios s.newBiosEntry { s.newBios s.newBiosEntry with size := size }
    newBiosEntry := if size ≠ 0 then s.newBiosEntry + 1 else s.newBiosEntry }

/-- An entry starts, unless the type is 0. -/
def openEntry (s : Sweep) (addr type : ℕ) : Sweep :=
  if type ≠ 0 then
    { s with
      newBios := Function.update s.newBios s.newBiosEntry
          { s.newBios s.newBiosEntry with addr := addr, type := type }
      lastAddr := addr
      lastType := type }
  else { s with lastType := type }

/-- The loop over the change points; it ends early when there is no space for another entry. -/
def sweep (biosmap : ℕ → E820Entry) (maxNrMap : ℕ) : List ChangeMember → Sweep → Sweep
  | [], s => s
  | point :: points, s =>
    let overlapList := trackOverlap biosmap s.overlapList point
    let current := currentType biosmap overlapList
    let s := { s with overlapList := overlapList }
    if current = s.lastType then sweep biosmap maxNrMap points s
    else if s.lastType = 0 then
      sweep biosmap maxNrMap points (openEntry s point.addr current)
    else
      let size := wrap (point.addr + 2 ^ 64 - s.lastAddr)
      let closed := closeEntry s size
      if size ≠ 0 ∧ maxNrMap ≤ closed.newBiosEntry then closed
      else sweep biosmap maxNrMap points (openEntry closed point.addr current)

/-- How `sanitize_e820_map` ends: in a `BUG`, still sorting, or with a return value, the map and
the number of its entries. -/
inductive Outcome where
  | bug
  | sorting
  | returned (ret : ℤ) (biosmap : ℕ → E820Entry) (nrMap : ℕ)

/-- `sanitize_e820_map`, with at most so many passes of the sort; `stale` is what the static
array of the new map holds before.  The static arrays have `E820_X_MAX` entries, those of the
change points twice as many, which is enough as no caller passes a larger `max_nr_map`. -/
def sanitizeE820Map (stale : ℕ → E820Entry) (passes : ℕ) (biosmap : ℕ → E820Entry)
    (maxNrMap nrMap : ℕ) : Outcome :=
  if nrMap < 2 then .returned (-1) biosmap nrMap
  else if maxNrMap < nrMap then .bug
  else if ∃ i < nrMap, wrap ((biosmap i).addr + (biosmap i).size) < (biosmap i).addr then
    .returned (-1) biosmap nrMap
  else
    match sort (precedes biosmap) passes (changePoints biosmap nrMap) with
    | none => .sorting
    | some points =>
      let s := sweep biosmap maxNrMap points ⟨[], stale, 0, 0, 0⟩
      .returned 0 (fun i => if i < s.newBiosEntry then s.newBios i else biosmap i) s.newBiosEntry

/-! ## What the new map is for -/

def E820Entry.stop (entry : E820Entry) : ℕ := entry.addr + entry.size

/-- An address is in the range of an entry. -/
def E820Entry.Contains (entry : E820Entry) (address : ℕ) : Prop :=
  entry.addr ≤ address ∧ address < entry.stop

variable {address : ℕ} {entry : E820Entry}

theorem E820Entry.Contains.size_ne (hcontains : entry.Contains address) : entry.size ≠ 0 := by
  obtain ⟨hlow, hhigh⟩ := hcontains
  rw [stop] at hhigh
  omega

/-- The entries of a map with this address. -/
def Containing (nrMap address i : ℕ) : Prop :=
  i < nrMap ∧ (biosmap i).Contains address

/-- A map of ranges that do not overlap and have at each address the largest type that the
old map has there. -/
structure Sanitized (nrMap : ℕ) (newMap : ℕ → E820Entry) (newNr : ℕ) : Prop where
  nonempty : ∀ i < newNr, 0 < (newMap i).size
  ascending : ∀ i j, i < j → j < newNr → (newMap i).stop ≤ (newMap j).addr
  typed : ∀ address type, (∃ i, Containing newMap newNr address i ∧ (newMap i).type = type) ↔
      IsGreatest { type | ∃ i, Containing biosmap nrMap address i ∧ (biosmap i).type = type } type
  covered : ∀ address,
    (¬∃ i, Containing newMap newNr address i) ↔ ¬∃ i, Containing biosmap nrMap address i

section Highest

variable {biosmap : ℕ → E820Entry} {entries others : ℕ → Prop} {type type' : ℕ}

/-- The largest type of some entries, or 0. -/
structure Highest (biosmap : ℕ → E820Entry) (entries : ℕ → Prop) (type : ℕ) : Prop where
  upper : ∀ i, entries i → (biosmap i).type ≤ type
  attained : type = 0 ∨ ∃ i, entries i ∧ (biosmap i).type = type

/-- The type that a map gives to an address, 0 for none. -/
abbrev TypeAt (biosmap : ℕ → E820Entry) (nrMap address type : ℕ) : Prop :=
  Highest biosmap (Containing biosmap nrMap address) type

section

variable (hhighest : Highest biosmap entries type)
include hhighest

theorem Highest.mono (hothers : Highest biosmap others type') (hsub : ∀ i, entries i → others i) :
    type ≤ type' := by
  rcases hhighest.attained with rfl | ⟨i, hi, rfl⟩
  · exact Nat.zero_le _
  · exact hothers.upper i (hsub i hi)

theorem Highest.unique (hother : Highest biosmap entries type') : type = type' :=
  le_antisymm (hhighest.mono hother fun _ hi => hi) (hother.mono hhighest fun _ hi => hi)

theorem Highest.congr (hsame : ∀ i, entries i ↔ others i) : Highest biosmap others type := by
  have : entries = others := funext fun i => propext (hsame i)
  rwa [← this]

end

theorem highest_currentType (biosmap : ℕ → E820Entry) (overlapList : List ℕ) :
    Highest biosmap (· ∈ overlapList) (currentType biosmap overlapList) := by
  induction overlapList using reverseRecOn with
  | nil => exact ⟨by simp, Or.inl rfl⟩
  | append_singleton init last ih =>
    rw [currentType, foldl_append]
    change Highest biosmap _ (if currentType biosmap init < (biosmap last).type
      then (biosmap last).type else currentType biosmap init)
    have hinit := ih.upper
    split_ifs with hlarger
    · refine ⟨?_, Or.inr ⟨last, by simp, rfl⟩⟩
      rw [forall_mem_append, forall_mem_singleton]
      exact ⟨fun i hi => (hinit i hi).trans hlarger.le, le_rfl⟩
    constructor
    · rw [forall_mem_append, forall_mem_singleton]
      exact ⟨hinit, not_lt.mp hlarger⟩
    · refine ih.attained.imp_right ?_
      rintro ⟨i, hi, htype⟩
      exact ⟨i, mem_append_left _ hi, htype⟩

end Highest

/-! ## The written part of the new map -/

/-- An entry that is kept ends at the frontier or before it, and cannot be continued. -/
structure Kept (nrMap frontier : ℕ) (entry : E820Entry) : Prop where
  nonempty : 0 < entry.size
  type : entry.type ≠ 0
  below : entry.stop ≤ frontier
  maximal : ¬TypeAt biosmap nrMap entry.stop entry.type

/-- The entries that are kept give the types up to a frontier. -/
structure Written (nrMap frontier : ℕ) (newBios : ℕ → E820Entry) (count : ℕ) : Prop where
  kept : ∀ i < count, Kept biosmap nrMap frontier (newBios i)
  ascending : ∀ i j, i < j → j < count → (newBios i).stop ≤ (newBios j).addr
  typed : ∀ address < frontier, ∀ type, type ≠ 0 →
    (TypeAt biosmap nrMap address type ↔
      ∃ i, Containing newBios count address i ∧ (newBios i).type = type)

section Written

variable {biosmap newBios newBios' : ℕ → E820Entry} {nrMap frontier frontier' count : ℕ}

theorem Kept.mono (hkept : Kept biosmap nrMap frontier entry)
    (hle : frontier ≤ frontier') : Kept biosmap nrMap frontier' entry :=
  ⟨hkept.nonempty, hkept.type, hkept.below.trans hle, hkept.maximal⟩

theorem written_zero : Written biosmap nrMap 0 newBios 0 := ⟨by simp, by simp, by simp⟩

theorem Written.congr (hwritten : Written biosmap nrMap frontier newBios count)
    (hsame : ∀ i < count, newBios' i = newBios i) :
    Written biosmap nrMap frontier newBios' count where
  kept := by
    intro i hi
    rw [hsame i hi]
    exact hwritten.kept i hi
  ascending := by
    intro i j hij hj
    rw [hsame i (hij.trans hj), hsame j hj]
    exact hwritten.ascending i j hij hj
  typed := by
    intro address haddress type htype
    rw [hwritten.typed address haddress type htype]
    simp only [Containing, and_assoc]
    refine exists_congr fun i => and_congr_right fun hi => ?_
    rw [hsame i hi]

theorem Written.extend (hwritten : Written biosmap nrMap frontier newBios count)
    (hle : frontier ≤ frontier') (hfree : ∀ address, frontier ≤ address → address < frontier' →
      TypeAt biosmap nrMap address 0) :
    Written biosmap nrMap frontier' newBios count where
  kept := fun i hi => (hwritten.kept i hi).mono hle
  ascending := hwritten.ascending
  typed := by
    intro address haddress type htype
    rcases lt_or_ge address frontier with hlt | hge
    · exact hwritten.typed address hlt type htype
    constructor
    · intro hhighest
      exact absurd (hhighest.unique (hfree address hge haddress)) htype
    · rintro ⟨i, ⟨hi, -, hhigh⟩, -⟩
      have := (hwritten.kept i hi).below
      omega

theorem Written.close (hwritten : Written biosmap nrMap (newBios count).addr newBios count)
    (hsize : 0 < (newBios count).size) (htype : (newBios count).type ≠ 0)
    (hinside : ∀ address, (newBios count).Contains address →
      TypeAt biosmap nrMap address (newBios count).type)
    (hmaximal : ¬TypeAt biosmap nrMap (newBios count).stop (newBios count).type) :
    Written biosmap nrMap (newBios count).stop newBios (count + 1) where
  kept := forall_lt_succ_right.mpr
    ⟨fun i hi => (hwritten.kept i hi).mono (Nat.le_add_right _ _), hsize, htype, le_rfl, hmaximal⟩
  ascending := by
    intro i j hij hj
    rcases Nat.lt_succ_iff_lt_or_eq.mp hj with hlt | rfl
    · exact hwritten.ascending i j hij hlt
    · exact (hwritten.kept i hij).below
  typed := by
    intro address haddress type htype'
    rcases lt_or_ge address (newBios count).addr with hlt | hge
    · rw [hwritten.typed address hlt type htype']
      refine exists_congr fun i => and_congr_left fun _ => and_congr_left fun hcontains => ?_
      rw [Nat.lt_succ_iff_lt_or_eq]
      refine (or_iff_left ?_).symm
      rintro rfl
      exact absurd hcontains.1 (not_le.mpr hlt)
    · constructor
      · intro hhighest
        exact ⟨count, ⟨lt_succ_self count, hge, haddress⟩,
          (hinside address ⟨hge, haddress⟩).unique hhighest⟩
      rintro ⟨i, ⟨hi, hcontains⟩, rfl⟩
      rcases Nat.lt_succ_iff_lt_or_eq.mp hi with hlt | rfl
      · have := (hwritten.kept i hlt).below
        have := hcontains.2
        omega
      · exact hinside address hcontains

variable {other : ℕ → E820Entry} {otherNr type : ℕ}

theorem isGreatest_iff (htypes : ∀ i < nrMap, 1 ≤ (biosmap i).type) :
    IsGreatest { type | ∃ i, Containing biosmap nrMap address i ∧ (biosmap i).type = type } type ↔
      type ≠ 0 ∧ TypeAt biosmap nrMap address type := by
  constructor
  · rintro ⟨⟨i, hi, rfl⟩, hupper⟩
    have := htypes i hi.1
    exact ⟨by omega, fun j hj => hupper ⟨j, hj, rfl⟩, Or.inr ⟨i, hi, rfl⟩⟩
  · rintro ⟨hne, hhighest⟩
    refine ⟨hhighest.attained.resolve_left hne, ?_⟩
    rintro _ ⟨i, hi, rfl⟩
    exact hhighest.upper i hi

theorem exists_highest (biosmap : ℕ → E820Entry) (nrMap address : ℕ) :
    ∃ type, TypeAt biosmap nrMap address type := by
  classical
  refine ⟨_, (highest_currentType biosmap
    ((range nrMap).filter fun i => (biosmap i).Contains address)).congr fun i => ?_⟩
  simp [Containing]

section

variable (hwritten : Written biosmap nrMap frontier newBios count)
  (htypes : ∀ i < nrMap, 1 ≤ (biosmap i).type)
include hwritten htypes

/-- Where no type is left behind the frontier, the new map is complete. -/
theorem Written.sanitized (hrest : ∀ address, frontier ≤ address → ∀ type, type ≠ 0 →
      ¬TypeAt biosmap nrMap address type)
    (hsame : ∀ i < count, newBios' i = newBios i) : Sanitized biosmap nrMap newBios' count := by
  replace hwritten := hwritten.congr hsame
  have htyped : ∀ address type, type ≠ 0 →
      (TypeAt biosmap nrMap address type ↔
        ∃ i, Containing newBios' count address i ∧ (newBios' i).type = type) := by
    intro address type htype
    rcases lt_or_ge address frontier with hlt | hge
    · exact hwritten.typed address hlt type htype
    refine iff_of_false (hrest address hge type htype) ?_
    rintro ⟨i, ⟨hi, -, hhigh⟩, -⟩
    have := (hwritten.kept i hi).below
    omega
  refine ⟨fun i hi => (hwritten.kept i hi).nonempty, hwritten.ascending, ?_, ?_⟩
  · intro address type
    rw [isGreatest_iff htypes]
    constructor
    · rintro ⟨i, hi, rfl⟩
      have htype := (hwritten.kept i hi.1).type
      exact ⟨htype, (htyped address _ htype).mpr ⟨i, hi, rfl⟩⟩
    · rintro ⟨htype, hhighest⟩
      exact (htyped address type htype).mp hhighest
  · intro address
    rw [not_iff_not]
    constructor
    · rintro ⟨i, hi⟩
      have htype := (hwritten.kept i hi.1).type
      have hhighest := (htyped address _ htype).mpr ⟨i, hi, rfl⟩
      obtain ⟨j, hj, -⟩ := hhighest.attained.resolve_left htype
      exact ⟨j, hj⟩
    · rintro ⟨i, hi⟩
      obtain ⟨type, hhighest⟩ := exists_highest biosmap nrMap address
      have htype : type ≠ 0 := by
        have := hhighest.upper i hi
        have := htypes i hi.1
        omega
      obtain ⟨j, hj, -⟩ := (htyped address type htype).mp hhighest
      exact ⟨j, hj⟩

/-- A correct map has no fewer entries than are kept, and more if there is a type behind the
frontier: the starts of the kept entries and an address behind them are in different ranges. -/
theorem Written.exhausted (hother : Sanitized biosmap nrMap other otherNr)
    (hcount : otherNr ≤ count) (hbehind : frontier ≤ address) (htype : type ≠ 0) :
    ¬TypeAt biosmap nrMap address type := by
  intro hhighest
  have hfound : ∀ {address type}, type ≠ 0 →
      TypeAt biosmap nrMap address type →
      ∃ k, Containing other otherNr address k ∧ (other k).type = type := by
    intro address type htype hhighest
    exact (hother.typed address type).mpr ((isGreatest_iff htypes).mpr ⟨htype, hhighest⟩)
  have hstart : ∀ i < count, TypeAt biosmap nrMap (newBios i).addr (newBios i).type := by
    intro i hi
    have hsize := (hwritten.kept i hi).nonempty
    have hbelow := (hwritten.kept i hi).below
    have hcontains : (newBios i).Contains (newBios i).addr := by
      refine ⟨le_rfl, ?_⟩
      rw [E820Entry.stop]
      omega
    exact (hwritten.typed _ (hcontains.2.trans_le hbelow) _ (hwritten.kept i hi).type).mpr
      ⟨i, ⟨hi, hcontains⟩, rfl⟩
  -- the kept entries' starts, and the address behind them
  let probe : ℕ → ℕ := fun i => if i < count then (newBios i).addr else address
  have hprobe : ∀ i, ∃ k, Containing other otherNr (probe i) k ∧
      (i < count → (other k).type = (newBios i).type) := by
    intro i
    by_cases hi : i < count
    · obtain ⟨k, hk, hsame⟩ := hfound (hwritten.kept i hi).type (hstart i hi)
      exact ⟨k, by simpa [probe, hi] using hk, fun _ => hsame⟩
    · obtain ⟨k, hk, -⟩ := hfound htype hhighest
      exact ⟨k, by simpa [probe, hi] using hk, fun hlt => absurd hlt hi⟩
  choose place hplace hsame using hprobe
  obtain ⟨i, hi, j, hj, hne, heq⟩ := Finset.exists_ne_map_eq_of_card_lt_of_maps_to
    (s := Finset.range (count + 1)) (t := Finset.range otherNr) (f := place)
    (by rw [Finset.card_range, Finset.card_range]; omega)
    (fun i _ => Finset.mem_coe.mpr (Finset.mem_range.mpr (hplace i).1))
  wlog hlt : i < j generalizing i j
  · exact this j hj i hi hne.symm heq.symm (by omega)
  have hjle : j ≤ count := by simpa [Nat.lt_succ_iff] using hj
  have hicount : i < count := by omega
  -- the end of entry `i` lies in the same range of the other map
  have hstop : (newBios i).stop ≤ probe j := by
    by_cases hjlt : j < count
    · simpa [probe, hjlt] using hwritten.ascending i j hlt hjlt
    · simpa [probe, hjlt] using (hwritten.kept i hicount).below.trans hbehind
  have hlow : (other (place i)).addr ≤ (newBios i).stop := by
    have := (hplace i).2.1
    simp only [probe, if_pos hicount] at this
    exact this.trans (Nat.le_add_right _ _)
  have hhigh : (newBios i).stop < (other (place i)).stop := by
    rw [heq]
    exact hstop.trans_lt (hplace j).2.2
  apply (hwritten.kept i hicount).maximal
  rw [← hsame i hicount]
  exact ((isGreatest_iff htypes).mp ((hother.typed _ _).mp
    ⟨place i, ⟨(hplace i).1, hlow, hhigh⟩, rfl⟩)).2

end

end Written

section Points

variable {biosmap : ℕ → E820Entry} {nrMap i j : ℕ} {point cur last : ChangeMember}

@[simp] theorem startPoint_addr : (startPoint biosmap i).addr = (biosmap i).addr := rfl

@[simp] theorem endPoint_pbios : (endPoint biosmap i).pbios = i := rfl

theorem mem_changePoints : point ∈ changePoints biosmap nrMap ↔
    ∃ i < nrMap, (biosmap i).size ≠ 0 ∧
      (point = startPoint biosmap i ∨ point = endPoint biosmap i) := by
  induction nrMap with
  | zero => simp [changePoints]
  | succ nrMap ih =>
    rw [changePoints, mem_append, ih, exists_lt_succ_right]
    refine or_congr_right ?_
    split_ifs with hsize <;> simp [hsize]

/-- Ranges that do not wrap. -/
def Bounded (biosmap : ℕ → E820Entry) (nrMap : ℕ) : Prop :=
  ∀ i < nrMap, (biosmap i).addr + (biosmap i).size < 2 ^ 64

section

variable (hbounded : Bounded biosmap nrMap)
include hbounded

theorem Bounded.endPoint_addr (hi : i < nrMap) : (endPoint biosmap i).addr = (biosmap i).stop :=
  mod_eq_of_lt (hbounded i hi)

theorem Bounded.startPoint_ne_endPoint (hi : i < nrMap)
    (hsize : (biosmap i).size ≠ 0) : startPoint biosmap j ≠ endPoint biosmap i := by
  intro heq
  have hpbios : j = i := congrArg ChangeMember.pbios heq
  have haddr : (biosmap j).addr = (endPoint biosmap i).addr := congrArg ChangeMember.addr heq
  rw [hbounded.endPoint_addr hi, hpbios, E820Entry.stop] at haddr
  omega

theorem Bounded.nodup_changePoints : (changePoints biosmap nrMap).Nodup := by
  induction nrMap with
  | zero => exact nodup_nil
  | succ nrMap ih =>
    rw [changePoints]
    split_ifs with hsize
    · have hlast := lt_succ_self nrMap
      refine Nodup.append (ih fun i hi => hbounded i (hi.trans hlast)) ?_ ?_
      · simpa using hbounded.startPoint_ne_endPoint hlast hsize
      intro point hleft hright
      obtain ⟨i, hi, -, hpoint⟩ := mem_changePoints.mp hleft
      have hold : point.pbios = i := by rcases hpoint with rfl | rfl <;> rfl
      have hnew : point.pbios = nrMap := by
        rcases mem_pair.mp hright with rfl | rfl <;> rfl
      omega
    · rw [append_nil]
      exact ih fun i hi => hbounded i (hi.trans (lt_succ_self nrMap))

end

theorem precedes_iff : precedes biosmap cur last ↔ cur.addr < last.addr ∨
    cur.addr = last.addr ∧ cur.addr = (biosmap cur.pbios).addr ∧
      last.addr ≠ (biosmap last.pbios).addr := by
  simp [precedes, and_assoc]

theorem precedes_asymm (cur last : ChangeMember) (hprecedes : precedes biosmap cur last) :
    precedes biosmap last cur = false := by
  rw [Bool.eq_false_iff, ne_eq, precedes_iff]
  rw [precedes_iff] at hprecedes
  omega

theorem precedes_trans (left middle right : ChangeMember)
    (hfirst : precedes biosmap middle left = false)
    (hsecond : precedes biosmap right middle = false) : precedes biosmap right left = false := by
  rw [Bool.eq_false_iff, ne_eq, precedes_iff] at *
  omega

end Points

section Overlap

variable {overlapList : List ℕ} {pbios : ℕ}

theorem removeOverlap_append (init : List ℕ) (last pbios : ℕ) :
    removeOverlap (init ++ [last]) pbios =
      init.map fun entry => if entry = pbios then last else entry := by
  rw [removeOverlap, map_append, map_singleton, dropLast_concat]
  simp

theorem mem_removeOverlap (hnodup : overlapList.Nodup) (hmem : pbios ∈ overlapList) {entry : ℕ} :
    entry ∈ removeOverlap overlapList pbios ↔ entry ∈ overlapList ∧ entry ≠ pbios := by
  rcases eq_nil_or_concat overlapList with rfl | ⟨init, last, rfl⟩
  · cases hmem
  rw [concat_eq_append] at *
  obtain ⟨-, -, hfresh⟩ := nodup_append.mp hnodup
  rw [removeOverlap_append, mem_map]
  constructor
  · rintro ⟨original, horiginal, hentry⟩
    split_ifs at hentry with heq
    · subst hentry heq
      exact ⟨by simp, (hfresh original horiginal last (by simp)).symm⟩
    · subst hentry
      exact ⟨mem_append_left _ horiginal, heq⟩
  · rintro ⟨hentry, hne⟩
    rcases mem_append.mp hentry with hinit | hlast
    · exact ⟨entry, hinit, if_neg hne⟩
    obtain rfl : entry = last := mem_singleton.mp hlast
    refine ⟨pbios, ?_, if_pos rfl⟩
    rcases mem_append.mp hmem with hpbios | hpbios
    · exact hpbios
    · exact absurd (mem_singleton.mp hpbios).symm hne

theorem nodup_removeOverlap (hnodup : overlapList.Nodup) (pbios : ℕ) :
    (removeOverlap overlapList pbios).Nodup := by
  rcases eq_nil_or_concat overlapList with rfl | ⟨init, last, rfl⟩
  · exact nodup_nil
  rw [concat_eq_append] at *
  obtain ⟨hinit, -, hfresh⟩ := nodup_append.mp hnodup
  rw [removeOverlap_append]
  refine hinit.map_on ?_
  intro left hleft right hright heq
  have hleft' := hfresh left hleft last (by simp)
  have hright' := hfresh right hright last (by simp)
  split_ifs at heq <;> omega

end Overlap

/-! ## The sweep -/

/-- The change points in the order of the sort: those that are done, and those to come. -/
structure InOrder (nrMap : ℕ) (done todo : List ChangeMember) : Prop where
  bounded : Bounded biosmap nrMap
  points : (done ++ todo).Perm (changePoints biosmap nrMap)
  sorted : (done ++ todo).Pairwise fun left right => precedes biosmap right left = false

section InOrder

variable {biosmap : ℕ → E820Entry} {nrMap i : ℕ} {done todo : List ChangeMember}
  {point left right : ChangeMember}

theorem InOrder.mem (horder : InOrder biosmap nrMap done todo) (hi : i < nrMap)
    (hsize : (biosmap i).size ≠ 0) :
    (startPoint biosmap i ∈ done ∨ startPoint biosmap i ∈ todo) ∧
      (endPoint biosmap i ∈ done ∨ endPoint biosmap i ∈ todo) := by
  rw [← mem_append, ← mem_append, horder.points.mem_iff, horder.points.mem_iff]
  exact ⟨mem_changePoints.mpr ⟨i, hi, hsize, Or.inl rfl⟩,
    mem_changePoints.mpr ⟨i, hi, hsize, Or.inr rfl⟩⟩

section

variable (horder : InOrder biosmap nrMap done todo)
include horder

theorem InOrder.start_mem (hmem : startPoint biosmap i ∈ done ++ todo) :
    i < nrMap ∧ (biosmap i).size ≠ 0 := by
  rw [horder.points.mem_iff] at hmem
  obtain ⟨j, hj, hsize, heq | heq⟩ := mem_changePoints.mp hmem
  · obtain rfl : i = j := congrArg ChangeMember.pbios heq
    exact ⟨hj, hsize⟩
  · exact absurd heq (horder.bounded.startPoint_ne_endPoint hj hsize)

theorem InOrder.not_precedes (hleft : left ∈ done) (hright : right ∈ todo) :
    ¬precedes biosmap right left := by
  rw [(pairwise_append.mp horder.sorted).2.2 left hleft right hright]
  exact Bool.false_ne_true

theorem InOrder.fresh (hleft : left ∈ done) (hright : right ∈ todo) : left ≠ right :=
  (nodup_append.mp (horder.points.nodup_iff.mpr horder.bounded.nodup_changePoints)).2.2
    left hleft right hright

end

theorem InOrder.next (horder : InOrder biosmap nrMap done (point :: todo)) :
    InOrder biosmap nrMap (done ++ [point]) todo := by
  obtain ⟨hbounded, hpoints, hsorted⟩ := horder
  rw [append_cons] at hpoints hsorted
  exact ⟨hbounded, hpoints, hsorted⟩

theorem start_precedes_end (hbounded : Bounded biosmap nrMap) (hi : i < nrMap)
    (hsize : (biosmap i).size ≠ 0) :
    precedes biosmap (startPoint biosmap i) (endPoint biosmap i) := by
  rw [precedes_iff, hbounded.endPoint_addr hi]
  refine Or.inl ?_
  rw [startPoint_addr, E820Entry.stop]
  omega

/-- Between two change points, the entries that have started and not ended are those with the
address. -/
theorem InOrder.containing_iff (horder : InOrder biosmap nrMap done todo)
    (hpassed : ∀ point ∈ done, point.addr ≤ address)
    (hahead : ∀ point ∈ todo, address < point.addr) :
    (startPoint biosmap i ∈ done ∧ endPoint biosmap i ∉ done) ↔
      Containing biosmap nrMap address i := by
  constructor
  · rintro ⟨hstart, hend⟩
    obtain ⟨hi, hsize⟩ := horder.start_mem (mem_append_left _ hstart)
    have hlow := hpassed _ hstart
    have hhigh := hahead _ ((horder.mem hi hsize).2.resolve_left hend)
    rw [horder.bounded.endPoint_addr hi] at hhigh
    exact ⟨hi, hlow, hhigh⟩
  · rintro ⟨hi, hlow, hhigh⟩
    have hsize := E820Entry.Contains.size_ne ⟨hlow, hhigh⟩
    constructor
    · refine (horder.mem hi hsize).1.resolve_right fun htodo => ?_
      have hlater : address < (biosmap i).addr := hahead _ htodo
      omega
    · intro hdone
      have hearlier := hpassed _ hdone
      rw [horder.bounded.endPoint_addr hi] at hearlier
      omega

end InOrder

/-- The overlap list of the change points that are done. -/
structure Tracked (done : List ChangeMember) (overlapList : List ℕ) : Prop where
  nodup : overlapList.Nodup
  overlap : ∀ i, i ∈ overlapList ↔ startPoint biosmap i ∈ done ∧ endPoint biosmap i ∉ done

section Tracked

variable {biosmap : ℕ → E820Entry} {nrMap i : ℕ} {done todo : List ChangeMember}
  {point : ChangeMember} {overlapList : List ℕ}

theorem InOrder.point_cases (horder : InOrder biosmap nrMap done (point :: todo)) :
    ∃ i < nrMap, (biosmap i).size ≠ 0 ∧
      (point = startPoint biosmap i ∨ point = endPoint biosmap i) := by
  rw [← mem_changePoints, ← horder.points.mem_iff]
  simp

theorem trackOverlap_start :
    trackOverlap biosmap overlapList (startPoint biosmap i) = overlapList ++ [i] :=
  if_pos rfl

theorem trackOverlap_end (hbounded : Bounded biosmap nrMap) (hi : i < nrMap)
    (hsize : (biosmap i).size ≠ 0) :
    trackOverlap biosmap overlapList (endPoint biosmap i) = removeOverlap overlapList i := by
  refine if_neg ?_
  rw [hbounded.endPoint_addr hi, E820Entry.stop, endPoint_pbios]
  omega

section

variable (htracked : Tracked biosmap done overlapList)
  (horder : InOrder biosmap nrMap done (point :: todo))
include htracked horder

theorem Tracked.next :
    Tracked biosmap (done ++ [point]) (trackOverlap biosmap overlapList point) := by
  have hbounded := horder.bounded
  obtain ⟨i, hi, hsize, rfl | rfl⟩ := horder.point_cases
  · have hnew : startPoint biosmap i ∉ done :=
      fun hdone => horder.fresh hdone mem_cons_self rfl
    have hend : endPoint biosmap i ∉ done := fun hdone =>
      horder.not_precedes hdone mem_cons_self (start_precedes_end hbounded hi hsize)
    rw [trackOverlap_start]
    constructor
    · refine Nodup.append htracked.nodup (nodup_singleton i) ?_
      rw [disjoint_singleton, htracked.overlap]
      exact fun hmem => hnew hmem.1
    intro j
    simp only [mem_append, mem_singleton, htracked.overlap]
    by_cases hj : j = i
    · subst hj
      have hne := (hbounded.startPoint_ne_endPoint (j := j) hi hsize).symm
      simp [hend, hne]
    · have hstart : startPoint biosmap j ≠ startPoint biosmap i :=
        fun heq => hj (congrArg ChangeMember.pbios heq)
      have hother : endPoint biosmap j ≠ startPoint biosmap i :=
        fun heq => hj (congrArg ChangeMember.pbios heq)
      simp [hj, hstart, hother]
  · have hnew : endPoint biosmap i ∉ done :=
      fun hdone => horder.fresh hdone mem_cons_self rfl
    have hstarted : startPoint biosmap i ∈ done := by
      refine (horder.mem hi hsize).1.resolve_right fun htodo => ?_
      rcases mem_cons.mp htodo with heq | hlater
      · exact hbounded.startPoint_ne_endPoint hi hsize heq
      · exact horder.next.not_precedes (by simp) hlater (start_precedes_end hbounded hi hsize)
    have hmem : i ∈ overlapList := (htracked.overlap i).mpr ⟨hstarted, hnew⟩
    rw [trackOverlap_end hbounded hi hsize]
    refine ⟨nodup_removeOverlap htracked.nodup i, ?_⟩
    intro j
    have hstart := hbounded.startPoint_ne_endPoint (j := j) hi hsize
    have hother : endPoint biosmap j = endPoint biosmap i ↔ j = i :=
      ⟨congrArg ChangeMember.pbios, congrArg (endPoint biosmap)⟩
    rw [mem_removeOverlap htracked.nodup hmem, htracked.overlap]
    simp [hstart, hother, and_assoc]

/-- Where the type changes, the old type does not go on: at a start the new entry is larger, and
at an end no entry is still to start. -/
theorem Tracked.not_highest (hpassed : ∀ earlier ∈ done, earlier.addr ≤ point.addr)
    {lastType current : ℕ} (hlast : Highest biosmap (· ∈ overlapList) lastType)
    (hcurrent : Highest biosmap (· ∈ trackOverlap biosmap overlapList point) current)
    (hchange : current ≠ lastType) : ¬TypeAt biosmap nrMap point.addr lastType := by
  intro hhighest
  have hbounded := horder.bounded
  have hnext := htracked.next horder
  obtain ⟨i, hi, hsize, rfl | rfl⟩ := horder.point_cases
  · rw [trackOverlap_start] at hcurrent
    have hmono : lastType ≤ current :=
      hlast.mono hcurrent fun j hj => mem_append_left _ hj
    -- the larger type can only be the new entry's
    obtain ⟨j, hj, htype⟩ := hcurrent.attained.resolve_left (by omega)
    rcases mem_append.mp hj with hold | hnew
    · have := hlast.upper j hold
      omega
    obtain rfl : j = i := mem_singleton.mp hnew
    have := hhighest.upper j ⟨hi, le_rfl, by
      rw [E820Entry.stop, startPoint_addr]
      omega⟩
    omega
  · have hsub : ∀ j, Containing biosmap nrMap (endPoint biosmap i).addr j →
        j ∈ trackOverlap biosmap overlapList (endPoint biosmap i) := by
      rintro j ⟨hj, hlow, hhigh⟩
      have hjsize := E820Entry.Contains.size_ne ⟨hlow, hhigh⟩
      rw [hnext.overlap]
      constructor
      · refine (horder.next.mem hj hjsize).1.resolve_right fun htodo => ?_
        -- it would have come before the end at the same address
        refine horder.next.not_precedes (mem_append_right _ (mem_singleton_self _))
          htodo (precedes_iff.mpr ?_)
        have hstop := hbounded.endPoint_addr hi
        rcases Nat.lt_or_eq_of_le hlow with hlt | heq
        · exact Or.inl hlt
        · refine Or.inr ⟨heq, rfl, ?_⟩
          rw [hstop, E820Entry.stop, endPoint_pbios]
          omega
      · intro hdone
        have hended : (endPoint biosmap j).addr ≤ (endPoint biosmap i).addr := by
          rcases mem_append.mp hdone with hearlier | hsame
          · exact hpassed _ hearlier
          · rw [mem_singleton.mp hsame]
        rw [hbounded.endPoint_addr hj] at hended
        omega
    have hup : lastType ≤ current := hhighest.mono hcurrent hsub
    have hdown : current ≤ lastType := by
      refine hcurrent.mono hlast fun j hj => ?_
      rw [hnext.overlap] at hj
      rw [htracked.overlap]
      have hstart := hbounded.startPoint_ne_endPoint (j := j) hi hsize
      simp only [mem_append, mem_singleton, hstart, or_false, not_or] at hj
      exact ⟨hj.1, hj.2.1⟩
    omega

end

end Tracked

/-- Where the written part of the new map ends: at the start of the entry that is being built,
if there is one. -/
def frontier (s : Sweep) (address : ℕ) : ℕ := if s.lastType = 0 then address else s.lastAddr

/-- The entry that is being built, up to an address. -/
structure Building (nrMap address : ℕ) (s : Sweep) : Prop where
  started : s.lastAddr ≤ address
  addr : (s.newBios s.newBiosEntry).addr = s.lastAddr
  type : (s.newBios s.newBiosEntry).type = s.lastType
  inside : ∀ inner, s.lastAddr ≤ inner → inner < address →
    TypeAt biosmap nrMap inner s.lastType

/-- The state of the loop with the types up to an address settled. -/
structure Swept (nrMap : ℕ) (done todo : List ChangeMember) (address : ℕ) (s : Sweep) : Prop where
  order : InOrder biosmap nrMap done todo
  passed : ∀ point ∈ done, point.addr ≤ address
  ahead : ∀ point ∈ todo, address ≤ point.addr
  tracked : Tracked biosmap done s.overlapList
  last : Highest biosmap (· ∈ s.overlapList) s.lastType
  written : Written biosmap nrMap (frontier s address) s.newBios s.newBiosEntry
  building : s.lastType ≠ 0 → Building biosmap nrMap address s

section Sweep

variable {biosmap stale other newMap : ℕ → E820Entry} {nrMap otherNr maxNrMap address current : ℕ}
  {done todo points : List ChangeMember} {point : ChangeMember} {s : Sweep}

@[simp] theorem openEntry_newBiosEntry (s : Sweep) (addr type : ℕ) :
    (openEntry s addr type).newBiosEntry = s.newBiosEntry := by
  rw [openEntry]
  split_ifs <;> rfl

theorem Swept.todo_le (hswept : Swept biosmap nrMap done (point :: todo) address s) :
    ∀ later ∈ todo, point.addr ≤ later.addr := by
  intro later hlater
  have hnot := hswept.order.next.not_precedes (mem_append_right _ (mem_singleton_self _)) hlater
  rw [precedes_iff] at hnot
  omega

theorem Swept.advance (hswept : Swept biosmap nrMap done (point :: todo) address s) :
    Swept biosmap nrMap done (point :: todo) point.addr s := by
  have hle := hswept.ahead point mem_cons_self
  have htodo : ∀ later ∈ point :: todo, point.addr ≤ later.addr := by
    rw [forall_mem_cons]
    exact ⟨le_rfl, hswept.todo_le⟩
  have hbetween : ∀ inner, address ≤ inner → inner < point.addr →
      TypeAt biosmap nrMap inner s.lastType := by
    intro inner hlow hhigh
    refine hswept.last.congr fun i => ?_
    rw [hswept.tracked.overlap]
    exact hswept.order.containing_iff
      (fun earlier hearlier => (hswept.passed earlier hearlier).trans hlow)
      (fun later hlater => hhigh.trans_le (htodo later hlater))
  refine ⟨hswept.order, fun earlier hearlier => (hswept.passed earlier hearlier).trans hle, htodo,
    hswept.tracked, hswept.last, ?_, ?_⟩
  · have hwritten := hswept.written
    rw [frontier] at hwritten ⊢
    split_ifs at hwritten ⊢ with hzero
    · rw [hzero] at hbetween
      exact hwritten.extend hle hbetween
    · exact hwritten
  · intro hnonzero
    obtain ⟨hstarted, haddr, htype, hinside⟩ := hswept.building hnonzero
    refine ⟨hstarted.trans hle, haddr, htype, ?_⟩
    intro inner hlow hhigh
    rcases lt_or_ge inner address with hlt | hge
    · exact hinside inner hlow hlt
    · exact hbetween inner hge hhigh

section

variable (hswept : Swept biosmap nrMap done (point :: todo) point.addr s)
include hswept

theorem Swept.passed_next : ∀ earlier ∈ done ++ [point], earlier.addr ≤ point.addr := by
  intro earlier hearlier
  rcases mem_append.mp hearlier with hdone | hpoint
  · exact hswept.passed earlier hdone
  · rw [mem_singleton.mp hpoint]

theorem Swept.keep
    (hsame : currentType biosmap (trackOverlap biosmap s.overlapList point) = s.lastType) :
    Swept biosmap nrMap (done ++ [point]) todo point.addr
      { s with overlapList := trackOverlap biosmap s.overlapList point } where
  order := hswept.order.next
  passed := hswept.passed_next
  ahead := hswept.todo_le
  tracked := hswept.tracked.next hswept.order
  last := by
    change Highest biosmap _ s.lastType
    rw [← hsame]
    exact highest_currentType biosmap _
  written := hswept.written
  building := fun hnonzero =>
    ⟨(hswept.building hnonzero).started, (hswept.building hnonzero).addr,
      (hswept.building hnonzero).type, (hswept.building hnonzero).inside⟩

/-- The change point is done, the new map is written up to it, and the next entry starts. -/
theorem Swept.reopen {closed : Sweep}
    (hoverlap : closed.overlapList = trackOverlap biosmap s.overlapList point)
    (hwritten : Written biosmap nrMap point.addr closed.newBios closed.newBiosEntry) :
    Swept biosmap nrMap (done ++ [point]) todo point.addr
      (openEntry closed point.addr (currentType biosmap closed.overlapList)) := by
  have hlast := highest_currentType biosmap closed.overlapList
  have htracked := hswept.tracked.next hswept.order
  rw [← hoverlap] at htracked
  generalize currentType biosmap closed.overlapList = current at hlast
  rw [openEntry]
  split_ifs with hcurrent
  · refine ⟨hswept.order.next, hswept.passed_next, hswept.todo_le, htracked, hlast, ?_, fun _ => ?_⟩
    · rw [frontier, if_neg hcurrent]
      exact hwritten.congr fun i hi => update_of_ne (Nat.ne_of_lt hi) _ _
    · refine ⟨le_rfl, by simp, by simp, ?_⟩
      intro inner hlow hhigh
      exact absurd hhigh (not_lt.mpr hlow)
  · refine ⟨hswept.order.next, hswept.passed_next, hswept.todo_le, htracked, hlast, ?_, ?_⟩
    · rw [frontier, if_pos (not_not.mp hcurrent)]
      exact hwritten
    · intro hnonzero
      exact absurd hnonzero hcurrent

/-- Closing the entry that is being built writes the new map up to the change point. -/
theorem Swept.closed (hnonzero : s.lastType ≠ 0)
    (hchange : currentType biosmap (trackOverlap biosmap s.overlapList point) ≠ s.lastType)
    (overlapList : List ℕ) :
    Written biosmap nrMap point.addr
      (closeEntry { s with overlapList := overlapList }
        (wrap (point.addr + 2 ^ 64 - s.lastAddr))).newBios
      (closeEntry { s with overlapList := overlapList }
        (wrap (point.addr + 2 ^ 64 - s.lastAddr))).newBiosEntry := by
  obtain ⟨hstarted, haddr, htype, hinside⟩ := hswept.building hnonzero
  have hwritten := hswept.written
  rw [frontier, if_neg hnonzero, ← haddr] at hwritten
  have hpoint : point.addr < 2 ^ 64 := by
    obtain ⟨i, hi, -, rfl | rfl⟩ := hswept.order.point_cases
    · have := hswept.order.bounded i hi
      rw [startPoint_addr]
      omega
    · exact mod_lt _ (by positivity)
  have hsize : wrap (point.addr + 2 ^ 64 - s.lastAddr) = point.addr - s.lastAddr := by
    rw [wrap, show point.addr + 2 ^ 64 - s.lastAddr = point.addr - s.lastAddr + 2 ^ 64 by omega,
      add_mod_right]
    exact mod_eq_of_lt (by omega)
  rw [hsize]
  have hchanged : ∀ i < s.newBiosEntry, update s.newBios s.newBiosEntry
      { s.newBios s.newBiosEntry with size := point.addr - s.lastAddr } i = s.newBios i :=
    fun i hi => update_of_ne (Nat.ne_of_lt hi) _ _
  have hwritten' := hwritten.congr hchanged
  simp only [closeEntry]
  split_ifs with hsome
  · have hslot := update_self s.newBiosEntry
      { s.newBios s.newBiosEntry with size := point.addr - s.lastAddr } s.newBios
    generalize update s.newBios s.newBiosEntry
      { s.newBios s.newBiosEntry with size := point.addr - s.lastAddr } = newBios at hslot hwritten'
    have hslotAddr : (newBios s.newBiosEntry).addr = s.lastAddr := by rw [hslot, ← haddr]
    have hslotType : (newBios s.newBiosEntry).type = s.lastType := by rw [hslot, ← htype]
    have hslotSize : (newBios s.newBiosEntry).size = point.addr - s.lastAddr := by rw [hslot]
    have hstop : (newBios s.newBiosEntry).stop = point.addr := by
      rw [E820Entry.stop]
      omega
    rw [haddr, ← hslotAddr] at hwritten'
    rw [← hstop]
    apply hwritten'.close
    · omega
    · rwa [hslotType]
    · rintro inner ⟨hlow, hhigh⟩
      rw [hslotType]
      exact hinside inner (by omega) (by omega)
    · rw [hstop, hslotType]
      exact hswept.tracked.not_highest hswept.order hswept.passed hswept.last
        (highest_currentType biosmap _) hchange
  · refine hwritten'.extend (by omega) ?_
    intro inner hlow hhigh
    omega

end

theorem Swept.sanitized (hswept : Swept biosmap nrMap done [] address s)
    (htypes : ∀ i < nrMap, 1 ≤ (biosmap i).type)
    (hsame : ∀ i < s.newBiosEntry, newMap i = s.newBios i) :
    Sanitized biosmap nrMap newMap s.newBiosEntry := by
  have hnone : ∀ i inner, address ≤ inner → ¬Containing biosmap nrMap inner i := by
    intro i inner hinner hcontaining
    have hactive := (hswept.order.containing_iff
      (fun point hpoint => (hswept.passed point hpoint).trans hinner) (by simp)).mpr hcontaining
    obtain ⟨hi, hsize⟩ := hswept.order.start_mem (mem_append_left _ hactive.1)
    exact hactive.2 ((hswept.order.mem hi hsize).2.resolve_right (by simp))
  have hzero : s.lastType = 0 := by
    refine hswept.last.attained.resolve_right ?_
    rintro ⟨i, hi, -⟩
    rw [hswept.tracked.overlap, hswept.order.containing_iff hswept.passed (by simp)] at hi
    exact hnone i address le_rfl hi
  have hwritten := hswept.written
  rw [frontier, if_pos hzero] at hwritten
  refine hwritten.sanitized htypes ?_ hsame
  intro inner hinner type htype hhighest
  obtain ⟨i, hi, -⟩ := hhighest.attained.resolve_left htype
  exact hnone i inner hinner hi

/-- From every state of the loop, the new map becomes complete: in the end, or when there is no
space for another entry. -/
theorem Swept.sweep (hswept : Swept biosmap nrMap done todo address s)
    (htypes : ∀ i < nrMap, 1 ≤ (biosmap i).type)
    (hother : Sanitized biosmap nrMap other otherNr) (hfits : otherNr ≤ maxNrMap)
    (hroom : s.newBiosEntry < maxNrMap) (hsame : ∀ i < (sweep biosmap maxNrMap todo s).newBiosEntry,
      newMap i = (sweep biosmap maxNrMap todo s).newBios i) :
    Sanitized biosmap nrMap newMap (sweep biosmap maxNrMap todo s).newBiosEntry ∧
      (sweep biosmap maxNrMap todo s).newBiosEntry ≤ maxNrMap := by
  induction todo generalizing done address s with
  | nil => exact ⟨hswept.sanitized htypes hsame, hroom.le⟩
  | cons point todo ih =>
    have hadvanced := hswept.advance
    simp only [E820.sweep] at hsame ⊢
    split_ifs at hsame ⊢ with hkept hzero hstop
    · exact ih (hadvanced.keep hkept) hroom hsame
    · refine ih (hadvanced.reopen rfl ?_) ?_ hsame
      · have hwritten := hadvanced.written
        rw [frontier, if_pos hzero] at hwritten
        exact hwritten
      · rw [openEntry_newBiosEntry]
        exact hroom
    · -- no space is left: all other maps have at most as many entries
      have hwritten := hadvanced.closed hzero hkept (trackOverlap biosmap s.overlapList point)
      refine ⟨hwritten.sanitized htypes ?_ hsame, ?_⟩
      · intro inner hinner type htype
        exact hwritten.exhausted htypes hother (hfits.trans hstop.2) hinner htype
      · simp only [closeEntry, if_pos hstop.1]
        exact hroom
    · refine ih (hadvanced.reopen rfl (hadvanced.closed hzero hkept _)) ?_ hsame
      rw [openEntry_newBiosEntry]
      rw [not_and_or, not_not, not_le] at hstop
      rcases hstop with hempty | hless
      · simp only [closeEntry, hempty]
        exact hroom
      · exact hless

theorem swept_start (hbounded : Bounded biosmap nrMap)
    (hpoints : points.Perm (changePoints biosmap nrMap))
    (hsorted : points.Pairwise fun left right => precedes biosmap right left = false) :
    Swept biosmap nrMap [] points 0 ⟨[], stale, 0, 0, 0⟩ where
  order := ⟨hbounded, hpoints, hsorted⟩
  passed := by simp
  ahead := fun _ _ => Nat.zero_le _
  tracked := ⟨nodup_nil, by simp⟩
  last := highest_currentType biosmap []
  written := written_zero
  building := fun hnonzero => absurd rfl hnonzero

theorem length_changePoints_le (biosmap : ℕ → E820Entry) (nrMap : ℕ) :
    (changePoints biosmap nrMap).length ≤ 2 * nrMap := by
  induction nrMap with
  | zero => exact le_rfl
  | succ nrMap ih =>
    rw [changePoints, length_append]
    split_ifs <;> simp only [length_cons, length_nil] <;> omega

/-- For every map of at least two entries, with ranges that do not wrap and types from 1 on, in
an array with space for the entries and for a correct result, `sanitize_e820_map` ends, returns
0, and leaves a correct result. -/
theorem sanitize_e820_map_pointwise_max (stale biosmap : ℕ → E820Entry) {maxNrMap nrMap passes : ℕ}
    (htwo : 2 ≤ nrMap) (hspace : nrMap ≤ maxNrMap)
    (hbounded : ∀ i < nrMap, (biosmap i).addr + (biosmap i).size < 2 ^ 64)
    (htypes : ∀ i < nrMap, 1 ≤ (biosmap i).type)
    (hlarge : ∃ result resultNr, Sanitized biosmap nrMap result resultNr ∧ resultNr ≤ maxNrMap)
    (hpasses : 2 * nrMap * (2 * nrMap) < passes) :
    ∃ newMap newNr, sanitizeE820Map stale passes biosmap maxNrMap nrMap = .returned 0 newMap newNr ∧
      newNr ≤ maxNrMap ∧ Sanitized biosmap nrMap newMap newNr := by
  obtain ⟨other, otherNr, hother, hfits⟩ := hlarge
  have hshort := length_changePoints_le biosmap nrMap
  have hfew : inversions (precedes biosmap) (changePoints biosmap nrMap) < passes :=
    ((inversions_le _).trans (Nat.mul_le_mul hshort hshort)).trans_lt hpasses
  obtain ⟨points, hsort, hperm, hsorted⟩ := sort_spec precedes_asymm precedes_trans hfew
  obtain ⟨hsanitized, hcount⟩ := (@swept_start biosmap stale nrMap points hbounded hperm hsorted).sweep
    htypes hother hfits (by change 0 < maxNrMap; omega) fun i hi => if_pos hi
  have hvalid : ¬∃ i < nrMap, wrap ((biosmap i).addr + (biosmap i).size) < (biosmap i).addr := by
    rintro ⟨i, hi, hwrapped⟩
    rw [wrap, mod_eq_of_lt (hbounded i hi)] at hwrapped
    omega
  have hrun := show sanitizeE820Map stale passes biosmap maxNrMap nrMap = _ by
    rw [sanitizeE820Map, if_neg (by omega), if_neg (by omega), if_neg hvalid, hsort]
  exact ⟨_, _, hrun, hcount, hsanitized⟩

/-- Two ranges that overlap, the second with the larger type. -/
def overlapping (i : ℕ) : E820Entry := if i = 0 then ⟨0, 10, 1⟩ else ⟨5, 10, 2⟩

def separated (i : ℕ) : E820Entry := if i = 0 then ⟨0, 5, 1⟩ else ⟨5, 10, 2⟩

theorem containing_two {i : ℕ} :
    Containing biosmap 2 address i ↔
      i = 0 ∧ (biosmap 0).Contains address ∨ i = 1 ∧ (biosmap 1).Contains address := by
  rw [Containing, show i < 2 ↔ i = 0 ∨ i = 1 by omega, or_and_right]
  refine or_congr (and_congr_right ?_) (and_congr_right ?_) <;> rintro rfl <;> rfl

theorem sanitized_separated : Sanitized overlapping 2 separated 2 where
  nonempty := by decide
  ascending := by
    intro i j hij hj
    obtain ⟨rfl, rfl⟩ : i = 0 ∧ j = 1 := by omega
    decide
  typed := by
    intro address type
    simp only [containing_two, or_and_right, exists_or, and_assoc, exists_eq_left, IsGreatest,
      upperBounds, Set.mem_ofPred_eq, or_imp, forall_and, and_imp, forall_apply_eq_imp_iff]
    simp [overlapping, separated, E820Entry.Contains, E820Entry.stop]
    omega
  covered := by
    intro address
    simp only [containing_two, exists_or, exists_eq_left]
    simp [overlapping, separated, E820Entry.Contains, E820Entry.stop]
    omega

theorem sanitize_e820_map_pointwise_max_two :
    ∃ newMap newNr,
      sanitizeE820Map overlapping 17 overlapping 2 2 = .returned 0 newMap newNr ∧
        newNr ≤ 2 ∧ Sanitized overlapping 2 newMap newNr :=
  sanitize_e820_map_pointwise_max overlapping overlapping (by decide) (by decide) (by decide)
    (by decide) ⟨separated, 2, sanitized_separated, by decide⟩ (by decide)

end Sweep

end KernelM5040.E820
