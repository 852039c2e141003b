import KernelM5040.Kernel.PidAlloc

/-!
# Going through the process numbers: kernel/pid.c

`next_pidmap` looks for the first number in use behind one that its caller gives.
The page to begin with is that number divided as an unsigned long, so a negative
one leads far behind the array of pages.
-/

namespace KernelM5040.Pid

open FindNext PidNamespace Nat Option

/-- `PIDMAP_ENTRIES` with `PID_MAX_LIMIT` of a 64-bit machine -/
def pidmapEntries : ℕ := 32

/-- The loop of `next_pidmap` over so many entries from `map` on. -/
def nextLoop (ns : PidNamespace) : ℕ → ℕ → ℕ → Option ℕ
  | 0, _, _ => none
  | left + 1, map, offset =>
    match ns.page map with
    | none => nextLoop ns left (map + 1) 0
    | some page =>
      let offset := findNext page (bitsPerPage - offset) offset
      if offset < bitsPerPage then some (map * bitsPerPage + offset)
      else nextLoop ns left (map + 1) 0

/-- `next_pidmap`, nothing within for the result -1.  It forms `&pidmap[(last + 1) / BITS_PER_PAGE]`
first: an entry, or the end of the array; nothing at all stands for a place beyond that. -/
def nextPidmap (ns : PidNamespace) (last : BitVec 32) : Option (Option ℕ) :=
  let next := ((last + 1).signExtend 64).toNat
  let map := next / bitsPerPage
  if map ≤ pidmapEntries then some (nextLoop ns (pidmapEntries - map) map (next % bitsPerPage))
  else none

variable (ns : PidNamespace)

/-- The numbers in use of a range. -/
def usedWithin (low high : ℕ) : Set ℕ := {pid | pid ∈ Set.Ico low high ∧ ns.used pid}

/-- `next_pidmap` keeps to the array, and returns the first number in use behind the last one, if
there is one. -/
def NextExact (last : BitVec 32) : Prop :=
  ∃ result, nextPidmap ns last = some result ∧ ∀ pid, result = some pid ↔
    IsLeast {pid : ℕ | last.toInt < pid ∧ pid < pidmapEntries * bitsPerPage ∧ ns.used pid} pid

variable {ns} {map offset : ℕ}

/-- A page without further numbers in use is left for the next one. -/
theorem usedWithin_next_page (hoffset : offset < bitsPerPage) (high : ℕ)
    (hnone : ∀ bit ∈ Set.Ico offset bitsPerPage, ns.bits map bit = false) :
    usedWithin ns (map * bitsPerPage + offset) high =
      usedWithin ns ((map + 1) * bitsPerPage) high := by
  have hpage : (map + 1) * bitsPerPage = map * bitsPerPage + bitsPerPage := succ_mul ..
  ext pid
  refine and_congr_left fun hused => and_congr_left fun _ => ⟨fun hlow => ?_, fun hlow => ?_⟩
  · by_contra hhigh
    obtain ⟨bit, hlower, hupper, rfl⟩ := exists_bit ⟨hlow, not_le.mp hhigh⟩
    rw [used_eq ns hupper, hnone bit ⟨hlower, hupper⟩] at hused
    cases hused
  · omega

theorem nextLoop_eq_some_iff (left : ℕ) (hoffset : offset < bitsPerPage) {pid : ℕ} :
    nextLoop ns left map offset = some pid ↔
      IsLeast (usedWithin ns (map * bitsPerPage + offset) ((map + left) * bitsPerPage)) pid := by
  induction left generalizing map offset with
  | zero =>
    refine ⟨by simp [nextLoop], fun hleast => ?_⟩
    have hrange := hleast.1.1
    rw [Nat.add_zero, Set.mem_Ico] at hrange
    omega
  | succ left ih =>
    have hnext := @ih (map + 1) 0 (by decide)
    rw [Nat.add_zero ((map + 1) * bitsPerPage), Nat.add_right_comm, Nat.add_assoc] at hnext
    rw [nextLoop]
    cases hpage : ns.page map with
    | none =>
      have hbits : ns.bits map = fun _ => false := by rw [PidNamespace.bits, hpage, getD_none]
      rw [usedWithin_next_page hoffset _ fun bit _ => by rw [hbits]]
      exact hnext
    | some page =>
      have hbits : ns.bits map = page := by rw [PidNamespace.bits, hpage, getD_some]
      obtain ⟨hlower, hupper, hbefore, hfound⟩ := found_findNext page hoffset.le
      dsimp only
      split_ifs with hlt
      · have hleast : IsLeast
            (usedWithin ns (map * bitsPerPage + offset) ((map + (left + 1)) * bitsPerPage))
            (map * bitsPerPage + findNext page (bitsPerPage - offset) offset) := by
          refine ⟨⟨⟨by omega, ?_⟩, ?_⟩, fun other hother => ?_⟩
          · have hmap := Nat.mul_le_mul_right bitsPerPage (show map + 1 ≤ map + (left + 1) by omega)
            rw [succ_mul] at hmap
            omega
          · rw [used_eq ns hlt, hbits, hfound hlt]
          obtain ⟨hother, hused⟩ := hother
          by_contra hless
          obtain ⟨bit, hbit, hpage, rfl⟩ := @exists_bit offset map other
            ⟨hother.1, by rw [succ_mul]; omega⟩
          rw [used_eq ns hpage, hbits, hbefore bit ⟨hbit, by omega⟩] at hused
          cases hused
        exact ⟨fun h => some_inj.mp h ▸ hleast, fun h => congrArg some (hleast.unique h)⟩
      · rw [usedWithin_next_page hoffset _ fun bit hbit => ?_]
        · exact hnext
        · rw [hbits]
          exact hbefore bit ⟨hbit.1, by have := hbit.2; omega⟩

/-- `next_pidmap` is exact for those arguments, and only those, that lead to an entry of the
array or to its end. -/
theorem nextPidmap_exact_iff (ns : PidNamespace) (last : BitVec 32) :
    NextExact ns last ↔ -1 ≤ last.toInt ∧ last.toInt + 1 < (pidmapEntries + 1) * bitsPerPage := by
  have hlt := last.isLt
  have hlast := last.toInt_eq_toNat_cond
  have hnext : ((last + 1).signExtend 64).toNat = (last.toNat + 1) % 2 ^ 32 +
      if 2 ^ 31 ≤ (last.toNat + 1) % 2 ^ 32 then 2 ^ 64 - 2 ^ 32 else 0 := by
    rw [BitVec.toNat_signExtend, BitVec.toNat_setWidth, BitVec.msb_eq_decide, BitVec.toNat_add,
      show (1 : BitVec 32).toNat = 1 from rfl]
    simp only [decide_eq_true_eq]
    split_ifs <;> omega
  rw [NextExact, nextPidmap]
  generalize ((last + 1).signExtend 64).toNat = next at hnext ⊢
  split_ifs with hmap
  · have hinside : (next : ℤ) = last.toInt + 1 ∧ next < (pidmapEntries + 1) * bitsPerPage := by
      rw [bitsPerPage, pidmapEntries] at *
      split_ifs at hlast hnext <;> omega
    refine iff_of_true ⟨_, rfl, fun pid => ?_⟩ (by rw [bitsPerPage, pidmapEntries] at *; omega)
    rw [nextLoop_eq_some_iff _ (mod_lt _ (by decide)), Nat.add_sub_cancel' hmap, div_add_mod']
    have hset : usedWithin ns next (pidmapEntries * bitsPerPage) =
        {pid : ℕ | last.toInt < pid ∧ pid < pidmapEntries * bitsPerPage ∧ ns.used pid} := by
      ext other
      rw [usedWithin, Set.mem_ofPred_eq, Set.mem_ofPred_eq, Set.mem_Ico, and_assoc]
      exact and_congr_left fun _ => by omega
    rw [hset]
  · refine iff_of_false (by simp) fun hrange => hmap ?_
    rw [bitsPerPage, pidmapEntries] at *
    split_ifs at hlast hnext <;> omega

/-- A negative argument leads behind the array. -/
theorem nextPidmap_outside : ¬NextExact ⟨fun _ => none, fun _ => bitsPerPage, 0⟩ (-2) := by
  rintro ⟨_, hresult, _⟩
  cases hresult

end KernelM5040.Pid
