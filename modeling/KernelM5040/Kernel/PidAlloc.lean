import KernelM5040.Kernel.Pid

/-!
# What `alloc_pidmap` finds

The search covers the numbers behind the last one, and after the end of the range
those from `RESERVED_PIDS` on.  It leaves out the last number itself, unless that
one happens to be the first or the last of its page.
-/

namespace KernelM5040.Pid

open PidNamespace Finset Function FindNext

variable {offset map : ℕ}

namespace PidNamespace

variable (ns : PidNamespace) {pid : ℕ}

/-- `nr_free` counts the bits of the page that are clear. -/
def Consistent : Prop :=
  ∀ map, ns.nrFree map = ((Finset.range bitsPerPage).filter fun bit => ns.bits map bit = false).card

/-! ## The bits after a change -/

theorem bits_update (page : ℕ → Option (ℕ → Bool)) (nrFree : ℕ → ℕ) (lastPid map : ℕ)
    (bits : ℕ → Bool) :
    (mk (update page map (some bits)) nrFree lastPid).bits =
      update (mk page nrFree lastPid).bits map bits := by
  funext other
  simp only [PidNamespace.bits]
  simp only [update_apply]
  split_ifs
  · rw [Option.getD_some]
  · rfl

theorem bits_provide (map : ℕ) : (ns.provide map).bits = ns.bits := by
  rw [provide, bits_update]
  exact update_eq_self map ns.bits

theorem used_provide (map : ℕ) : (ns.provide map).used = ns.used := by
  funext pid
  rw [used, bits_provide, used]

theorem Consistent.provide {ns : PidNamespace} (hconsistent : ns.Consistent) (map : ℕ) :
    (ns.provide map).Consistent := by
  intro other
  rw [bits_provide]
  exact hconsistent other

theorem pid_eq_iff (hoffset : offset < bitsPerPage) :
    pid = map * bitsPerPage + offset ↔ pid / bitsPerPage = map ∧ pid % bitsPerPage = offset := by
  rw [bitsPerPage] at *
  omega

theorem used_eq (hoffset : offset < bitsPerPage) :
    ns.used (map * bitsPerPage + offset) = ns.bits map offset := by
  obtain ⟨hdiv, hmod⟩ := (pid_eq_iff hoffset).mp rfl
  rw [used, hdiv, hmod]

theorem used_update {after : PidNamespace} {map offset : ℕ} {value : Bool}
    (hoffset : offset < bitsPerPage)
    (hbits : after.bits = update ns.bits map (update (ns.bits map) offset value)) :
    after.used = update ns.used (map * bitsPerPage + offset) value := by
  funext pid
  simp only [used, hbits, update_apply, pid_eq_iff hoffset]
  by_cases hmap : pid / bitsPerPage = map
  · simp [hmap, update_apply]
  · simp [hmap]

theorem bits_take (map offset : ℕ) : (ns.take map offset).bits =
    update ns.bits map (update (ns.bits map) offset true) :=
  bits_update _ _ _ _ _

theorem bits_freePidmap (pid : ℕ) : (ns.freePidmap pid).bits = update ns.bits
    (pid / bitsPerPage) (update (ns.bits (pid / bitsPerPage)) (pid % bitsPerPage) false) :=
  bits_update _ _ _ _ _

theorem card_clear_update {bits : ℕ → Bool} {size : ℕ} (hoffset : offset < size)
    (hclear : bits offset = false) :
    ((range size).filter fun bit => bits bit = false).card =
      ((range size).filter fun bit => update bits offset true bit = false).card + 1 := by
  have herase : ((range size).filter fun bit => update bits offset true bit = false) =
      ((range size).filter fun bit => bits bit = false).erase offset := by
    ext bit
    rw [mem_erase, mem_filter, mem_filter, update_apply]
    split_ifs with hbit
    · simp [hbit]
    · simp [hbit]
  rw [herase]
  refine (card_erase_add_one ?_).symm
  rw [mem_filter, mem_range]
  exact ⟨hoffset, hclear⟩

theorem Consistent.take {ns : PidNamespace} (hconsistent : ns.Consistent)
    (hoffset : offset < bitsPerPage) (hclear : ns.bits map offset = false) :
    (ns.take map offset).Consistent := by
  intro other
  rw [bits_take]
  by_cases hother : other = map
  · have hcard := card_clear_update hoffset hclear
    rw [hother, update_self, PidNamespace.take]
    simp only [update_self]
    rw [hconsistent map, hcard, Nat.add_sub_cancel]
  · rw [update_of_ne hother, PidNamespace.take]
    simp only [update_of_ne hother]
    exact hconsistent other

theorem Consistent.freePidmap {ns : PidNamespace} (hconsistent : ns.Consistent)
    (hused : ns.used pid = true) : (ns.freePidmap pid).Consistent := by
  intro other
  rw [bits_freePidmap]
  have hoffset : pid % bitsPerPage < bitsPerPage := Nat.mod_lt _ (by decide)
  by_cases hother : other = pid / bitsPerPage
  · have hcard := card_clear_update hoffset
      (update_self (pid % bitsPerPage) false (ns.bits (pid / bitsPerPage)))
    have hback : update (ns.bits (pid / bitsPerPage)) (pid % bitsPerPage) true =
        ns.bits (pid / bitsPerPage) := by
      rw [update_eq_self_iff]
      exact hused.symm
    rw [update_idem, hback] at hcard
    rw [hother, update_self, PidNamespace.freePidmap]
    simp only [update_self]
    rw [hconsistent, hcard]
  · rw [update_of_ne hother, PidNamespace.freePidmap]
    simp only [update_of_ne hother]
    exact hconsistent other

/-! ## One page -/

/-- The loop may take this number: in the last turn, only one before the last number. -/
def Allowed (last : ℕ) (final : Bool) (pid : ℕ) : Prop :=
  final = false ∨ pid < last ∨ (last + 1) % bitsPerPage = 0

section

variable (used : ℕ → Bool) (pidMax last : ℕ) (final : Bool) (map start : ℕ)

/-- What the loop over one page finds from a number on. -/
inductive Searched : Option (Option ℕ) → Prop
  | found {offset : ℕ} (hoffset : offset < bitsPerPage) (hlower : start ≤ map * bitsPerPage + offset)
      (hclear : used (map * bitsPerPage + offset) = false)
      (hallowed : map * bitsPerPage + offset = start ∨ map * bitsPerPage + offset < pidMax ∧
        Allowed last final (map * bitsPerPage + offset)) :
      Searched (some (some offset))
  | full (hstart : used start = true)
      (hused : ∀ pid ∈ Set.Ico start ((map + 1) * bitsPerPage), pid < pidMax →
        Allowed last final pid → used pid = true) :
      Searched (some none)

end

theorem exists_bit (hpid : pid ∈ Set.Ico (map * bitsPerPage + offset) ((map + 1) * bitsPerPage)) :
    ∃ bit, offset ≤ bit ∧ bit < bitsPerPage ∧ pid = map * bitsPerPage + bit := by
  obtain ⟨hlower, hupper⟩ := hpid
  rw [add_mul, one_mul] at hupper
  exact ⟨pid - map * bitsPerPage, by omega, by omega, by omega⟩

theorem searched_searchPage (pidMax last map : ℕ) (final : Bool) (hoffset : offset < bitsPerPage) :
    Searched ns.used pidMax last final map (map * bitsPerPage + offset)
      (ns.searchPage pidMax last map final (bitsPerPage + 1) offset) := by
  have htwo : bitsPerPage + 1 = bitsPerPage - 1 + 1 + 1 := rfl
  rw [htwo, searchPage]
  cases hbit : ns.bits map offset with
  | false =>
    refine .found hoffset le_rfl ?_ (Or.inl rfl)
    rw [ns.used_eq hoffset, hbit]
  | true =>
    obtain ⟨next, hnext⟩ : ∃ next, ns.findNextOffset map offset = next := ⟨_, rfl⟩
    obtain ⟨hlower, hupper, hbefore, hfound⟩ :
        Found (ns.bits map) false bitsPerPage offset next := by
      rw [← hnext]
      exact found_findNext_not (ns.bits map) hoffset.le
    simp only [Bool.not_true, Bool.false_eq_true, if_false, hnext]
    have hstart : ns.used (map * bitsPerPage + offset) = true := by
      rw [ns.used_eq hoffset, hbit]
    split
    · rename_i hgo
      obtain ⟨hlt, hmax, hallowed⟩ := hgo
      have hclear := hfound hlt
      rw [searchPage, hclear]
      refine .found hlt (by omega) ?_ (Or.inr ⟨hmax, hallowed⟩)
      rw [ns.used_eq hlt, hclear]
    · rename_i hstop
      refine .full hstart fun pid hpid hmax hallowed => ?_
      obtain ⟨bit, hlower', hbit, rfl⟩ := exists_bit hpid
      rw [ns.used_eq hbit]
      by_cases hnear : bit < next
      · exact hbefore bit ⟨by omega, hnear⟩
      -- the loop would have gone on to the bit that it found
      refine absurd ⟨by omega, by omega, ?_⟩ hstop
      rcases hallowed with hfinal | hless | hedge
      · exact Or.inl hfinal
      · exact Or.inr (Or.inl (by omega))
      · exact Or.inr (Or.inr hedge)

theorem Consistent.searched {ns : PidNamespace} (hconsistent : ns.Consistent) (pidMax last map : ℕ)
    (final : Bool) (hoffset : offset < bitsPerPage) :
    Searched ns.used pidMax last final map (map * bitsPerPage + offset)
      (if ns.nrFree map ≠ 0 then ns.searchPage pidMax last map final (bitsPerPage + 1) offset
        else some none) := by
  split
  · exact ns.searched_searchPage pidMax last map final hoffset
  rename_i hzero
  have hall : ∀ bit < bitsPerPage, ns.bits map bit = true := by
    rw [not_not, hconsistent map, card_eq_zero, filter_eq_empty_iff] at hzero
    intro bit hbit
    exact Bool.eq_true_of_not_eq_false (hzero (mem_range.mpr hbit))
  refine .full ?_ fun pid hpid _ _ => ?_
  · rw [ns.used_eq hoffset]
    exact hall offset hoffset
  · obtain ⟨bit, -, hbit, rfl⟩ := exists_bit hpid
    rw [ns.used_eq hbit]
    exact hall bit hbit

end PidNamespace

/-! ## Going round the pages -/

/-- The search leaves out the last number. -/
def Skips (pidMax last : ℕ) : Prop :=
  reservedPids ≤ last ∧ last + 1 < pidMax ∧ (last + 1) % bitsPerPage ≠ 0 ∧ last % bitsPerPage ≠ 0

/-- The pages are there or there is memory for them. -/
def Ready (kzalloc : ℕ → Bool) (pidMax : ℕ) (ns : PidNamespace) : Prop :=
  ∀ map ≤ (pidMax - 1) / bitsPerPage, (ns.page map).isSome = true ∨ kzalloc map = true

/-- What comes out: a number that was free, or nothing but the number that is left out was. -/
inductive Outcome (used : ℕ → Bool) (pidMax last : ℕ) : Option (PidNamespace × Option ℕ) → Prop
  | allocated {after : PidNamespace} {pid : ℕ} (hfree : used pid = false) (hmax : pid < pidMax)
      (hlower : reservedPids ≤ pid ∨ last < pid) (hskips : Skips pidMax last → pid ≠ last)
      (hused : after.used = Function.update used pid true) (hlast : after.lastPid = pid)
      (hconsistent : after.Consistent) : Outcome used pidMax last (some (after, some pid))
  | failed {after : PidNamespace} (hused : after.used = used)
      (hfull : ∀ pid ∈ Set.Ico reservedPids pidMax,
        used pid = true ∨ pid = last ∧ Skips pidMax last)
      (hlast : after.lastPid = last) (hconsistent : after.Consistent) :
      Outcome used pidMax last (some (after, none))

section Loop

variable {kzalloc : ℕ → Bool} {pidMax last : ℕ} {ns : PidNamespace}

theorem Ready.provide (hready : Ready kzalloc pidMax ns) (map : ℕ) :
    Ready kzalloc pidMax (ns.provide map) := by
  intro other hother
  rw [PidNamespace.provide]
  by_cases heq : other = map
  · left
    simp [heq]
  · simp only [update_of_ne heq]
    exact hready other hother

theorem outcome_take (hconsistent : ns.Consistent) (hoffset : offset < bitsPerPage)
    (hclear : ns.used (map * bitsPerPage + offset) = false)
    (hmax : map * bitsPerPage + offset < pidMax)
    (hlower : reservedPids ≤ map * bitsPerPage + offset ∨ last < map * bitsPerPage + offset)
    (hskips : Skips pidMax last → map * bitsPerPage + offset ≠ last) :
    Outcome ns.used pidMax last (some (ns.take map offset, some (map * bitsPerPage + offset))) := by
  refine .allocated hclear hmax hlower hskips ?_ rfl ?_
  · exact ns.used_update hoffset (ns.bits_take map offset)
  · rw [ns.used_eq hoffset] at hclear
    exact hconsistent.take hoffset hclear

/-- One turn of the loop: a number of the page is taken, or the page is left behind. -/
theorem allocLoop_turn (hconsistent : ns.Consistent) (hready : Ready kzalloc pidMax ns) (left : ℕ)
    (hmap : map ≤ (pidMax - 1) / bitsPerPage) (hoffset : offset < bitsPerPage) :
    (∃ found < bitsPerPage, offset ≤ found ∧ ns.used (map * bitsPerPage + found) = false ∧
      (found = offset ∨ map * bitsPerPage + found < pidMax ∧
        Allowed last (left = 0) (map * bitsPerPage + found)) ∧
      allocLoop kzalloc pidMax last left ns map offset =
        some ((ns.provide map).take map found, some (map * bitsPerPage + found))) ∨
    (ns.used (map * bitsPerPage + offset) = true ∧
      (∀ pid ∈ Set.Ico (map * bitsPerPage + offset) ((map + 1) * bitsPerPage), pid < pidMax →
        Allowed last (left = 0) pid → ns.used pid = true) ∧
      allocLoop kzalloc pidMax last left ns map offset =
        if map < (pidMax - 1) / bitsPerPage then
          match left with
          | 0 => some (ns.provide map, none)
          | left + 1 => allocLoop kzalloc pidMax last left (ns.provide map) (map + 1) 0
        else if last = reservedPids then some (ns.provide map, none)
        else
          match left with
          | 0 => some (ns.provide map, none)
          | left + 1 => allocLoop kzalloc pidMax last left (ns.provide map) 0 reservedPids) := by
  have hpage : ¬((ns.page map).isNone = true ∧ kzalloc map = false) := by
    rintro ⟨hnone, hmemory⟩
    rcases hready map hmap with hsome | hmemory'
    · rw [Option.isNone_iff_eq_none] at hnone
      rw [hnone] at hsome
      cases hsome
    · rw [hmemory] at hmemory'
      cases hmemory'
  have hsearched := (hconsistent.provide map).searched pidMax last map (left = 0) hoffset
  rw [used_provide] at hsearched
  rw [allocLoop, if_neg hpage]
  simp only
  generalize (if (ns.provide map).nrFree map ≠ 0 then
    (ns.provide map).searchPage pidMax last map (decide (left = 0)) (bitsPerPage + 1) offset
      else some none) = searched at hsearched
  cases hsearched with
  | found hfound hlower hclear hallowed =>
    refine Or.inl ⟨_, hfound, by omega, hclear, ?_, rfl⟩
    exact hallowed.imp (fun heq => by omega) id
  | full hstart hused => exact Or.inr ⟨hstart, hused, rfl⟩

/-- The number at which the search begins. -/
structure Begins (pidMax last first : ℕ) : Prop where
  range : reservedPids < pidMax
  first : first = last + 1 ∧ last + 1 < pidMax ∨ first = reservedPids ∧ pidMax ≤ last + 1

/-- Where the search is on a page after the first one. -/
def entry (map : ℕ) : ℕ := if map = 0 then reservedPids else 0

/-- The search began with a whole page, on which it does not end then. -/
def edge (first : ℕ) : ℕ := if first % bitsPerPage = 0 then 1 else 0

theorem edge_cases (first : ℕ) :
    first % bitsPerPage = 0 ∧ edge first = 1 ∨ first % bitsPerPage ≠ 0 ∧ edge first = 0 := by
  rw [edge]
  split_ifs with hedge
  · exact Or.inl ⟨hedge, rfl⟩
  · exact Or.inr ⟨hedge, rfl⟩

theorem entry_lt (map : ℕ) : entry map < bitsPerPage := by
  rw [entry]
  split_ifs <;> decide

section Wrapped

variable {first left map : ℕ}

section

variable (hbegins : Begins pidMax last first) {found : ℕ}
include hbegins

/-- With the last page full everything is in use, but for the number that is left out. -/
theorem wrapped_full {used : ℕ → Bool} (hleft : edge first + map = first / bitsPerPage)
    (hbehind : ∀ pid ∈ Set.Ico first pidMax, used pid = true)
    (hbefore : ∀ pid ∈ Set.Ico reservedPids (map * bitsPerPage + entry map), used pid = true)
    (hstart : used (map * bitsPerPage + entry map) = true)
    (hused : ∀ pid ∈ Set.Ico (map * bitsPerPage + entry map) ((map + 1) * bitsPerPage),
      pid < pidMax → Allowed last true pid → used pid = true) :
    ∀ pid ∈ Set.Ico reservedPids pidMax, used pid = true ∨ pid = last ∧ Skips pidMax last := by
  rintro pid ⟨hlower, hupper⟩
  obtain ⟨hrange, hfirst⟩ := hbegins
  have hedge := edge_cases first
  by_cases hearly : pid < map * bitsPerPage + entry map
  · exact Or.inl (hbefore pid ⟨hlower, hearly⟩)
  by_cases hlate : first ≤ pid
  · exact Or.inl (hbehind pid ⟨hlate, hupper⟩)
  have hpage : pid ∈ Set.Ico (map * bitsPerPage + entry map) ((map + 1) * bitsPerPage) := by
    refine ⟨not_lt.mp hearly, ?_⟩
    simp only [bitsPerPage, reservedPids] at *
    omega
  by_cases hallowed : Allowed last true pid
  · exact Or.inl (hused pid hpage hupper hallowed)
  by_cases heq : pid = map * bitsPerPage + entry map
  · rw [heq]
    exact Or.inl hstart
  right
  simp only [Allowed, Skips, bitsPerPage, reservedPids] at *
  omega

theorem begins_map (hleft : left + edge first + map = first / bitsPerPage) :
    map ≤ (pidMax - 1) / bitsPerPage := by
  obtain ⟨hrange, hfirst⟩ := hbegins
  simp only [bitsPerPage, reservedPids] at *
  omega

/-- A number found after the end of the range, with `left` pages to come. -/
theorem wrapped_taken (hlast : last ≠ reservedPids) (hconsistent : ns.Consistent)
    (hleft : left + edge first + map = first / bitsPerPage) (hfound : found < bitsPerPage)
    (hlower : entry map ≤ found) (hclear : ns.used (map * bitsPerPage + found) = false)
    (hallowed : found = entry map ∨ map * bitsPerPage + found < pidMax ∧
      Allowed last (left = 0) (map * bitsPerPage + found)) :
    Outcome ns.used pidMax last
      (some ((ns.provide map).take map found, some (map * bitsPerPage + found))) := by
  have htaken : map * bitsPerPage + found < pidMax ∧ reservedPids ≤ map * bitsPerPage + found ∧
      (Skips pidMax last → map * bitsPerPage + found ≠ last) := by
    obtain ⟨hrange, hfirst⟩ := hbegins
    simp only [entry, Allowed, decide_eq_false_iff_not, Skips, bitsPerPage, reservedPids] at *
    split_ifs at hlower hallowed <;> omega
  rw [← ns.used_provide map] at hclear ⊢
  exact outcome_take (hconsistent.provide map) hfound hclear htaken.1 (Or.inl htaken.2.1) htaken.2.2

/-- After the end of the range the loop goes on from `RESERVED_PIDS` to the page it began on. -/
theorem outcome_wrapped (hlast : last ≠ reservedPids) (hconsistent : ns.Consistent)
    (hready : Ready kzalloc pidMax ns) (hpid : ns.lastPid = last)
    (hleft : left + edge first + map = first / bitsPerPage)
    (hbehind : ∀ pid ∈ Set.Ico first pidMax, ns.used pid = true)
    (hbefore : ∀ pid ∈ Set.Ico reservedPids (map * bitsPerPage + entry map), ns.used pid = true) :
    Outcome ns.used pidMax last (allocLoop kzalloc pidMax last left ns map (entry map)) := by
  induction left generalizing ns map with
  | zero =>
    rcases allocLoop_turn hconsistent hready 0 (begins_map hbegins hleft) (entry_lt map) with
      ⟨found, hfound, hlower, hclear, hallowed, hresult⟩ | ⟨hstart, hused, hresult⟩
    · rw [hresult]
      exact wrapped_taken hbegins hlast hconsistent hleft hfound hlower hclear hallowed
    rw [zero_add] at hleft
    have hfull := wrapped_full hbegins hleft hbehind hbefore hstart hused
    rw [hresult]
    split_ifs
    all_goals exact .failed (ns.used_provide map) hfull hpid (hconsistent.provide map)
  | succ left ih =>
    rcases allocLoop_turn hconsistent hready (left + 1) (begins_map hbegins hleft)
      (entry_lt map) with
      ⟨found, hfound, hlower, hclear, hallowed, hresult⟩ | ⟨hstart, hused, hresult⟩
    · rw [hresult]
      exact wrapped_taken hbegins hlast hconsistent hleft hfound hlower hclear hallowed
    have hmore : map < (pidMax - 1) / bitsPerPage := by
      have := begins_map hbegins (show left + edge first + (map + 1) = _ by omega)
      omega
    have hnext : entry (map + 1) = 0 := by rw [entry, if_neg (Nat.succ_ne_zero map)]
    rw [hresult, if_pos hmore, ← ns.used_provide map, ← hnext]
    refine ih (hconsistent.provide map) (hready.provide map) hpid (by omega) ?_ ?_
    · rw [ns.used_provide]
      exact hbehind
    rw [ns.used_provide, hnext, add_zero]
    rintro pid ⟨hlower, hupper⟩
    by_cases hearly : pid < map * bitsPerPage + entry map
    · exact hbefore pid ⟨hlower, hearly⟩
    refine hused pid ⟨not_lt.mp hearly, hupper⟩ ?_
      (Or.inl (decide_eq_false (Nat.succ_ne_zero left)))
    simp only [bitsPerPage, reservedPids] at *
    omega

end

end Wrapped

/-- Before the end of the range the loop goes from page to page. -/
theorem outcome_ahead {first left : ℕ} (hbegins : Begins pidMax last first)
    (hconsistent : ns.Consistent) (hready : Ready kzalloc pidMax ns) (hpid : ns.lastPid = last)
    (hleft : left + edge first + map = (pidMax - 1) / bitsPerPage + 1 + first / bitsPerPage)
    (hmap : map ≤ (pidMax - 1) / bitsPerPage) (hoffset : offset < bitsPerPage)
    (hfirst : first ≤ map * bitsPerPage + offset) (hstart : map * bitsPerPage + offset < pidMax)
    (hahead : ∀ pid ∈ Set.Ico first (map * bitsPerPage + offset), ns.used pid = true) :
    Outcome ns.used pidMax last (allocLoop kzalloc pidMax last left ns map offset) := by
  induction left generalizing ns map offset with
  | zero =>
    obtain ⟨hrange, hfirst⟩ := hbegins
    have hedge := edge_cases first
    simp only [bitsPerPage, reservedPids] at *
    omega
  | succ left ih =>
    have hopen : ∀ pid, Allowed last (decide (left + 1 = 0)) pid :=
      fun pid => Or.inl (decide_eq_false (Nat.succ_ne_zero left))
    rcases allocLoop_turn hconsistent hready (left + 1) hmap hoffset with
      ⟨found, hfound, hlower, hclear, hallowed, hresult⟩ | ⟨-, hused, hresult⟩
    · rw [hresult]
      rw [← ns.used_provide map] at hclear ⊢
      refine outcome_take (hconsistent.provide map) hfound hclear ?_ ?_ ?_
      · rcases hallowed with rfl | ⟨hmax, -⟩
        · exact hstart
        · exact hmax
      · obtain ⟨hrange, hbegin⟩ := hbegins
        omega
      · rintro ⟨-, hskip, -⟩
        obtain ⟨hrange, hbegin⟩ := hbegins
        omega
    · have hcovered : ∀ pid ∈ Set.Ico first ((map + 1) * bitsPerPage), pid < pidMax →
          ns.used pid = true := by
        rintro pid ⟨hlower, hupper⟩ hmax
        by_cases hearly : pid < map * bitsPerPage + offset
        · exact hahead pid ⟨hlower, hearly⟩
        · exact hused pid ⟨not_lt.mp hearly, hupper⟩ hmax (hopen pid)
      rw [hresult]
      by_cases hmore : map < (pidMax - 1) / bitsPerPage
      · have hnext : (map + 1) * bitsPerPage < pidMax := by
          obtain ⟨hrange, -⟩ := hbegins
          simp only [bitsPerPage, reservedPids] at *
          omega
        rw [if_pos hmore, ← ns.used_provide map]
        refine ih (hconsistent.provide map) (hready.provide map) hpid (by omega) (by omega)
          (by decide) ?_ (by rwa [add_zero]) ?_
        · rw [add_mul]
          omega
        · rw [ns.used_provide, add_zero]
          rintro pid ⟨hlower, hupper⟩
          exact hcovered pid ⟨hlower, hupper⟩ (hupper.trans hnext)
      · have hbehind : ∀ pid ∈ Set.Ico first pidMax, ns.used pid = true := by
          rintro pid ⟨hlower, hupper⟩
          refine hcovered pid ⟨hlower, ?_⟩ hupper
          simp only [bitsPerPage] at *
          omega
        rw [if_neg hmore]
        by_cases hreserved : last = reservedPids
        · rw [if_pos hreserved]
          refine .failed (ns.used_provide map) ?_ hpid (hconsistent.provide map)
          rintro pid ⟨hlower, hupper⟩
          by_cases hlate : first ≤ pid
          · exact Or.inl (hbehind pid ⟨hlate, hupper⟩)
          right
          obtain ⟨hrange, hbegin⟩ := hbegins
          simp only [Skips, bitsPerPage, reservedPids] at *
          omega
        · have hentry : reservedPids = entry 0 := rfl
          rw [if_neg hreserved, hentry, ← ns.used_provide map]
          refine outcome_wrapped hbegins hreserved (hconsistent.provide map)
            (hready.provide map) hpid ?_ ?_ ?_
          · omega
          · rw [ns.used_provide]
            exact hbehind
          · rw [ns.used_provide, zero_mul, zero_add, ← hentry, Set.Ico_self]
            exact fun pid hpid => absurd hpid (Set.notMem_empty pid)

theorem outcome_allocPidmap (hrange : reservedPids < pidMax) (hconsistent : ns.Consistent)
    (hready : Ready kzalloc pidMax ns) :
    Outcome ns.used pidMax ns.lastPid (allocPidmap kzalloc pidMax ns) := by
  have hbegins : ∃ first, first = (if ns.lastPid + 1 ≥ pidMax then reservedPids else ns.lastPid + 1)
      ∧ Begins pidMax ns.lastPid first := by
    refine ⟨_, rfl, hrange, ?_⟩
    split_ifs with hwrap
    · exact Or.inr ⟨rfl, hwrap⟩
    · exact Or.inl ⟨rfl, not_le.mp hwrap⟩
  obtain ⟨first, hfirst, hbegins⟩ := hbegins
  have hscan : (pidMax + bitsPerPage - 1) / bitsPerPage = (pidMax - 1) / bitsPerPage + 1 := by
    simp only [bitsPerPage, reservedPids] at *
    omega
  have hpages := Nat.div_add_mod' first bitsPerPage
  have hedge := edge_cases first
  have hedge' : (if first % bitsPerPage = 0 then 1 else 0) = edge first := rfl
  have hmod : first % bitsPerPage < bitsPerPage := Nat.mod_lt _ (by decide)
  simp only [allocPidmap, ← hfirst, hscan, hedge']
  obtain ⟨-, hbegin⟩ := id hbegins
  refine outcome_ahead hbegins hconsistent hready rfl ?_ ?_ hmod hpages.ge ?_ ?_
  case refine_4 =>
    rw [hpages, Set.Ico_self]
    exact fun pid hpid => absurd hpid (Set.notMem_empty pid)
  all_goals
    simp only [bitsPerPage, reservedPids] at *
    omega

end Loop

/-! ## Namespaces in use -/

/-- A namespace in which no number is in use. -/
def PidNamespace.fresh : PidNamespace where
  page := fun _ => none
  nrFree := fun _ => bitsPerPage
  lastPid := 0

/-- The namespaces that numbers are taken from and given back to, `pid_max` changing as it may. -/
inductive Reachable : PidNamespace → Prop
  | fresh : Reachable .fresh
  | alloc {ns after : PidNamespace} {kzalloc : ℕ → Bool} {pidMax : ℕ} {pid : Option ℕ}
      (hreachable : Reachable ns) (hrange : reservedPids < pidMax)
      (hready : Ready kzalloc pidMax ns)
      (halloc : allocPidmap kzalloc pidMax ns = some (after, pid)) : Reachable after
  | free {ns : PidNamespace} {pid : ℕ} (hreachable : Reachable ns) (hused : ns.used pid = true) :
      Reachable (ns.freePidmap pid)

theorem consistent_of_reachable {ns : PidNamespace} (hreachable : Reachable ns) :
    ns.Consistent := by
  induction hreachable with
  | fresh =>
    intro map
    have hall : ∀ bit ∈ range bitsPerPage, fresh.bits map bit = false :=
      fun _ _ => rfl
    rw [filter_true_of_mem hall, card_range]
    rfl
  | alloc hreachable hrange hready halloc hconsistent =>
    have houtcome := outcome_allocPidmap hrange hconsistent hready
    rw [halloc] at houtcome
    cases houtcome with
    | allocated hfree hmax hlower hskips hused hlast hafter | failed hused hfull hlast hafter =>
      exact hafter
  | free hreachable hused hconsistent => exact hconsistent.freePidmap hused

/-- A number that was free and in range is given out, or nothing changes where all numbers from
`RESERVED_PIDS` on are in use. -/
def ResultCorrect (pidMax : ℕ) (ns : PidNamespace) : Option (PidNamespace × Option ℕ) → Prop
  | none => False
  | some (after, some pid) =>
    ns.used pid = false ∧ pid < pidMax ∧ (reservedPids ≤ pid ∨ ns.lastPid < pid) ∧
      after.used = Function.update ns.used pid true
  | some (after, none) =>
    after.used = ns.used ∧ ∀ pid, reservedPids ≤ pid → pid < pidMax → ns.used pid = true

/-- The number given out last is the only one that is free, and it is neither the first nor the
last of its page nor of the range. -/
structure OnlyLastFree (pidMax : ℕ) (ns : PidNamespace) : Prop where
  skips : Skips pidMax ns.lastPid
  free : ns.used ns.lastPid = false
  others : ∀ pid, reservedPids ≤ pid → pid < pidMax → pid ≠ ns.lastPid → ns.used pid = true

/-- `alloc_pidmap` is right in just the states where it is not the last number that is left. -/
theorem allocPidmap_correct_iff {kzalloc : ℕ → Bool} {pidMax : ℕ} {ns : PidNamespace}
    (hrange : reservedPids < pidMax) (hconsistent : ns.Consistent)
    (hready : Ready kzalloc pidMax ns) :
    ResultCorrect pidMax ns (allocPidmap kzalloc pidMax ns) ↔ ¬OnlyLastFree pidMax ns := by
  have houtcome := outcome_allocPidmap hrange hconsistent hready
  generalize allocPidmap kzalloc pidMax ns = result at houtcome ⊢
  cases houtcome with
  | allocated hfree hmax hlower hskips hused hlast hafter =>
    refine iff_of_true ⟨hfree, hmax, hlower, hused⟩ fun honly => ?_
    have hreserved := honly.skips.1
    have htaken := honly.others _ (by omega) hmax (hskips honly.skips)
    rw [hfree] at htaken
    cases htaken
  | failed hused hfull hlast hafter =>
    constructor
    · rintro ⟨-, hall⟩ honly
      obtain ⟨hreserved, hbelow, -⟩ := honly.skips
      have hlastUsed := hall ns.lastPid hreserved (by omega)
      rw [honly.free] at hlastUsed
      cases hlastUsed
    · intro hnot
      refine ⟨hused, fun pid hlower hupper => ?_⟩
      by_contra hpid
      obtain ⟨rfl, hskips⟩ := (hfull pid ⟨hlower, hupper⟩).resolve_left hpid
      refine hnot ⟨hskips, Bool.eq_false_of_not_eq_true hpid, ?_⟩
      intro other hlower' hupper' hne
      exact (hfull other ⟨hlower', hupper'⟩).resolve_right fun heq => hne heq.1

/-- Two numbers above the reserved ones, the first of which was given out last and is free. -/
def lastFreed : PidNamespace where
  page := fun map => if map = 0 then some fun bit => decide (bit < 302 ∧ bit ≠ 300) else none
  nrFree := fun map => if map = 0 then 130771 else bitsPerPage
  lastPid := 300

theorem lastFreed_consistent : lastFreed.Consistent := by
  intro map
  by_cases hmap : map = 0
  · subst hmap
    have hfilter : ((range bitsPerPage).filter fun bit => lastFreed.bits 0 bit = false) =
        insert 300 (Ico 302 131072) := by
      ext bit
      rw [mem_filter, Finset.mem_insert, mem_range, mem_Ico]
      simp [lastFreed, PidNamespace.bits, bitsPerPage]
      omega
    rw [hfilter, card_insert_of_notMem (by simp), Nat.card_Ico]
    rfl
  · have hall : ∀ bit ∈ range bitsPerPage, lastFreed.bits map bit = false := by
      intro bit _
      simp [lastFreed, PidNamespace.bits, hmap]
    rw [filter_true_of_mem hall, card_range]
    simp [lastFreed, hmap]

/-- Where there are more numbers, the one behind those in use is given out. -/
theorem allocPidmap_correct_behind :
    (allocPidmap (fun _ => true) 32768 lastFreed).map Prod.snd = some (some 302) ∧
      ResultCorrect 32768 lastFreed (allocPidmap (fun _ => true) 32768 lastFreed) := by
  refine ⟨by decide +kernel, (allocPidmap_correct_iff (by decide) lastFreed_consistent
    fun _ _ => Or.inr rfl).mpr fun honly => ?_⟩
  exact absurd (honly.others 302 (by decide) (by decide) (by decide)) (by decide)

/-- The number that is free is not found. -/
theorem allocPidmap_misses_last :
    (allocPidmap (fun _ => true) 302 lastFreed).map Prod.snd = some none ∧
      lastFreed.used 300 = false ∧ reservedPids ≤ 300 ∧ lastFreed.Consistent :=
  ⟨by decide +kernel, by decide +kernel, by decide, lastFreed_consistent⟩

end KernelM5040.Pid
