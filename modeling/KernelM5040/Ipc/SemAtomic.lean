import KernelM5040.Ipc.Sem

/-!
# Operations are all or nothing

The loop of `try_atomic_semop` keeps the values as they were plus the operations
that have been done, so that replaying these backwards restores the values.
-/

namespace KernelM5040.Semaphore

open List Function

variable {nsems : ℕ} {base : Base nsems} {un : Semadj nsems} {pid : ℤ} {i : Fin nsems}
  {counts : Sembuf (Fin nsems) → Bool} {sop : Sembuf (Fin nsems)} {sops done rest : Sops nsems}

/-! ## Sums of operations -/

/-- The sum of the operations on a semaphore, of those that count. -/
def total (counts : Sembuf (Fin nsems) → Bool) (i : Fin nsems) (sops : Sops nsems) : ℤ :=
  (sops.map fun sop => if sop.semNum = i ∧ counts sop then sop.semOp.toInt else 0).sum

/-- Every operation counts. -/
def every (_ : Sembuf (Fin nsems)) : Bool := true

@[simp]
theorem total_nil : total counts i [] = 0 := rfl

@[simp]
theorem total_cons : total counts i (sop :: sops) =
    (if sop.semNum = i ∧ counts sop then sop.semOp.toInt else 0) + total counts i sops := by
  rw [total, total, map_cons, sum_cons]

@[simp]
theorem total_append :
    total counts i (sops ++ rest) = total counts i sops + total counts i rest := by
  rw [total, total, total, map_append, sum_append]

@[simp]
theorem total_reverse : total counts i sops.reverse = total counts i sops := by
  rw [total, total, map_reverse, sum_reverse]

theorem total_eq_zero (hsops : ∀ sop ∈ sops, sop.semNum ≠ i) : total counts i sops = 0 := by
  refine sum_eq_zero fun value hvalue => ?_
  obtain ⟨sop, hsop, rfl⟩ := mem_map.mp hvalue
  exact if_neg fun h => hsops sop hsop h.1

/-! ## The loops -/

/-- The values after operations. -/
def applied (base : Base nsems) (sops : Sops nsems) : Base nsems := fun i =>
  { base i with semval := (base i).semval + total every i sops }

theorem applied_cons (base : Base nsems) (sop : Sembuf (Fin nsems)) (done : Sops nsems) :
    update (applied base done) sop.semNum
        { applied base done sop.semNum with
          semval := (applied base done sop.semNum).semval + sop.semOp.toInt } =
      applied base (sop :: done) := by
  funext i
  by_cases hi : i = sop.semNum
  · subst hi
    rw [update_self]
    simp only [applied, total_cons, every, and_self, if_true, Sem.mk.injEq, and_true]
    omega
  · rw [update_of_ne hi]
    simp only [applied, total_cons]
    rw [if_neg fun h => hi h.1.symm, zero_add]

theorem rollback_applied (base : Base nsems) (done : Sops nsems) :
    rollback done (applied base done) = base := by
  induction done with
  | nil =>
    funext i
    simp [rollback, applied]
  | cons sop done ih =>
    rw [rollback, ← applied_cons, update_idem, update_self]
    simp only [add_sub_cancel_right]
    rw [update_eq_self]
    exact ih

section

variable (pid : ℤ) (done : Sops nsems) (base : Base nsems) (un : Semadj nsems) (i : Fin nsems)

/-- The values are not changed by a commit, and only the semaphores of the operations
get the process id. -/
theorem commit_fst : (commit pid done base un).1 i =
      if ∃ sop ∈ done, sop.semNum = i then { base i with sempid := pid } else base i := by
  induction done generalizing base un with
  | nil => simp [commit]
  | cons sop done ih =>
    rw [commit, ih]
    by_cases hi : i = sop.semNum
    · subst hi
      rw [update_self, if_pos (⟨sop, by simp⟩ : ∃ s ∈ sop :: done, s.semNum = sop.semNum), ite_self]
    · rw [update_of_ne hi]
      simp [exists_eq_or_imp, Ne.symm hi]

/-- The adjustments are lowered by the operations with `SEM_UNDO`, as far as a `short`
can hold the result. -/
theorem commit_snd : (commit pid done base un).2 i =
      BitVec.ofInt 16 ((un i).toInt - total Sembuf.undo i done) := by
  induction done generalizing base un with
  | nil => simp [commit]
  | cons sop done ih =>
    have hshort : ∀ value : BitVec 16, ∀ sum : ℤ,
        BitVec.ofInt 16 (value.toInt - sum) = value - BitVec.ofInt 16 sum := by
      intro value sum
      rw [Int.sub_eq_add_neg, BitVec.ofInt_add, BitVec.ofInt_neg, BitVec.ofInt_toInt,
        BitVec.sub_eq_add_neg]
    rw [commit, ih, total_cons, hshort, hshort, BitVec.ofInt_add]
    by_cases hsop : sop.semNum = i ∧ sop.undo = true
    · rw [if_pos hsop, if_pos hsop.2, ← hsop.1, update_self, BitVec.ofInt_toInt]
      exact sub_sub _ _ _
    have hkept : (if sop.undo then update un sop.semNum (un sop.semNum - sop.semOp)
        else un) i = un i := by
      split
      · next hundo => exact update_of_ne (fun hi => hsop ⟨hi.symm, hundo⟩) _ _
      · rfl
    rw [if_neg hsop, hkept, show BitVec.ofInt 16 0 = 0 from rfl, zero_add]

end

/-! ## One operation after the other -/

/-- An operation can be done. -/
structure Passes (un : Semadj nsems) (base : Base nsems) (sop : Sembuf (Fin nsems)) : Prop where
  zero : sop.semOp = 0 → (base sop.semNum).semval = 0
  nonneg : 0 ≤ (base sop.semNum).semval + sop.semOp.toInt
  le : (base sop.semNum).semval + sop.semOp.toInt ≤ semvmx
  undo : sop.undo → -semaem - 1 ≤ (un sop.semNum).toInt - sop.semOp.toInt ∧
    (un sop.semNum).toInt - sop.semOp.toInt ≤ semaem

/-- The loop stops and rolls back, or goes on with the next operation. -/
theorem tryLoop_cons (un : Semadj nsems) (pid : ℤ) (done : Sops nsems) (sop : Sembuf (Fin nsems))
    (rest : Sops nsems) (base : Base nsems) :
    (∃ result, result ≠ .ok ∧
        tryLoop un pid done (sop :: rest) base = (result, rollback done base, un)) ∨
      Passes un base sop ∧
        tryLoop un pid done (sop :: rest) base =
          tryLoop un pid (sop :: done) rest (update base sop.semNum
            { base sop.semNum with semval := (base sop.semNum).semval + sop.semOp.toInt }) := by
  have hblock : (if sop.nowait then TryResult.eagain else .sleep) ≠ .ok := by
    split <;> decide
  rw [tryLoop]
  simp only
  split
  · exact .inl ⟨_, hblock, rfl⟩
  next hzero =>
    split
    · exact .inl ⟨_, hblock, rfl⟩
    next hnonneg =>
      split
      · exact .inl ⟨.erange, by decide, rfl⟩
      next hle =>
        split
        · exact .inl ⟨.erange, by decide, rfl⟩
        next hundo =>
          refine .inr ⟨⟨fun h => ?_, Int.not_lt.mp hnonneg, Int.not_lt.mp hle, fun h => ?_⟩, rfl⟩
          · by_contra hne
            exact hzero ⟨h, hne⟩
          · constructor
            · exact Int.not_lt.mp fun hlt => hundo ⟨h, .inl hlt⟩
            · exact Int.not_lt.mp fun hlt => hundo ⟨h, .inr hlt⟩

/-- How the loop ends: it restores the values it started with, or every operation
could be done after the ones before it. -/
theorem tryLoop_applied (un : Semadj nsems) (pid : ℤ) (base : Base nsems) (done rest : Sops nsems) :
    (∃ result, result ≠ .ok ∧ tryLoop un pid done rest (applied base done) = (result, base, un)) ∨
      (∀ before sop after, rest = before ++ sop :: after →
        Passes un (applied base (before.reverse ++ done)) sop) ∧
      tryLoop un pid done rest (applied base done) =
        (.ok, commit pid (rest.reverse ++ done) (applied base (rest.reverse ++ done)) un) := by
  induction rest generalizing done with
  | nil => exact .inr ⟨by simp, rfl⟩
  | cons sop rest ih =>
    rcases tryLoop_cons un pid done sop rest (applied base done) with
      ⟨result, hresult, hstop⟩ | ⟨hpasses, hnext⟩
    · rw [rollback_applied] at hstop
      exact .inl ⟨result, hresult, hstop⟩
    rw [applied_cons] at hnext
    rw [hnext]
    refine (ih (sop :: done)).imp_right fun ⟨hall, hend⟩ => ⟨?_, ?_⟩
    · intro before other after hsplit
      cases before with
      | nil =>
        obtain ⟨rfl, _⟩ := List.cons.inj hsplit
        exact hpasses
      | cons first before =>
        obtain ⟨rfl, hrest⟩ := List.cons.inj hsplit
        rw [reverse_cons, append_assoc, singleton_append]
        exact hall before other after hrest
    · rw [hend, reverse_cons, append_assoc, singleton_append]

section

variable (base : Base nsems) (sops : Sops nsems) (un : Semadj nsems) (pid : ℤ)

theorem applied_reverse : applied base (sops.reverse ++ []) = applied base sops := by
  funext i
  simp [applied]

/-- What `try_atomic_semop` does. -/
inductive Tried : TryResult × Base nsems × Semadj nsems → Prop
  | refused {result : TryResult} (hresult : result ≠ .ok) : Tried (result, base, un)
  | done {base' : Base nsems} {un' : Semadj nsems}
      (hpasses : ∀ before sop after, sops = before ++ sop :: after →
        Passes un (applied base before) sop)
      (hbase : ∀ i, base' i =
        if ∃ sop ∈ sops, sop.semNum = i then { applied base sops i with sempid := pid } else base i)
      (hun : ∀ i, un' i = BitVec.ofInt 16 ((un i).toInt - total Sembuf.undo i sops)) :
      Tried (.ok, base', un')

theorem tryAtomicSemop_spec : Tried base sops un pid (tryAtomicSemop base sops un pid) := by
  have hstart : applied base [] = base := by
    funext i
    simp [applied]
  have hloop := tryLoop_applied un pid base [] sops
  rw [hstart] at hloop
  rw [tryAtomicSemop]
  rcases hloop with ⟨result, hresult, hstop⟩ | ⟨hall, hend⟩
  · rw [hstop]
    exact .refused hresult
  rw [hend, applied_reverse]
  refine .done (fun before sop after hsplit => ?_) (fun i => ?_) (fun i => ?_)
  · rw [← applied_reverse]
    exact hall before sop after hsplit
  · rw [commit_fst]
    simp only [append_nil, mem_reverse]
    split
    · rfl
    next hnone =>
      have hzero : total every i sops = 0 :=
        total_eq_zero fun sop hsop hi => hnone ⟨sop, hsop, hi⟩
      rw [applied, hzero, add_zero]
  · rw [commit_snd, append_nil, total_reverse]

end

/-- A value that a semaphore may have. -/
def InRange (value : ℤ) : Prop := 0 ≤ value ∧ value ≤ semvmx

/-- After each operation the values of the semaphores are in range, those that were in
range before and those that have been operated on. -/
theorem inRange_of_passes (hpasses : ∀ before sop after, sops = before ++ sop :: after →
      Passes un (applied base before) sop)
    {before after : Sops nsems} (hsplit : sops = before ++ after)
    (hi : InRange (base i).semval ∨ ∃ sop ∈ before, sop.semNum = i) :
    InRange ((base i).semval + total every i before) := by
  induction before using reverseRecOn generalizing after with
  | nil =>
    rw [total_nil, add_zero]
    exact hi.resolve_right (by simp)
  | append_singleton before sop ih =>
    rw [append_assoc, singleton_append] at hsplit
    by_cases hsop : sop.semNum = i
    · obtain ⟨_, hnonneg, hle, _⟩ := hpasses before sop after hsplit
      subst hsop
      simp only [total_append, total_cons, total_nil, every, and_self, if_true, add_zero,
        ← add_assoc]
      exact ⟨hnonneg, hle⟩
    · rw [total_append, total_cons, total_nil, if_neg (fun h => hsop h.1), add_zero, add_zero]
      refine ih hsplit (hi.imp_right fun ⟨other, hother, hnum⟩ => ⟨other, ?_, hnum⟩)
      refine (mem_append.mp hother).resolve_right fun hlast => ?_
      rw [mem_singleton] at hlast
      exact hsop (hlast ▸ hnum)

/-- A list of operations that is not done leaves every semaphore and every adjustment
as it was.  A list that is done adds each operation to its semaphore, with all values
in range and every operation with zero at a value of zero on the way, and leaves the
other semaphores alone. -/
theorem tryAtomicSemop_all_or_nothing (base : Base nsems) (sops : Sops nsems) (un : Semadj nsems)
    (pid : ℤ) :
    ((tryAtomicSemop base sops un pid).1 ≠ .ok → (tryAtomicSemop base sops un pid).2 = (base, un)) ∧
      ((tryAtomicSemop base sops un pid).1 = .ok →
        (∀ i, ((tryAtomicSemop base sops un pid).2.1 i).semval =
          (base i).semval + total every i sops) ∧ (∀ before after, sops = before ++ after → ∀ i,
          (InRange (base i).semval ∨ ∃ sop ∈ before, sop.semNum = i) →
          InRange ((base i).semval + total every i before)) ∧
        (∀ before sop after, sops = before ++ sop :: after → sop.semOp = 0 →
          (base sop.semNum).semval + total every sop.semNum before = 0) ∧
        ∀ i, (∀ sop ∈ sops, sop.semNum ≠ i) → (tryAtomicSemop base sops un pid).2.1 i = base i ∧
            (tryAtomicSemop base sops un pid).2.2 i = un i) := by
  have htried := tryAtomicSemop_spec base sops un pid
  generalize tryAtomicSemop base sops un pid = result at htried ⊢
  cases htried with
  | refused hresult => exact ⟨fun _ => rfl, fun hok => absurd hok hresult⟩
  | done hpasses hbase hun =>
    refine ⟨fun hne => absurd rfl hne, fun _ => ⟨fun i => ?_, fun before after hsplit i hi => ?_,
      fun before sop after hsplit hzero => ?_, fun i hother => ⟨?_, ?_⟩⟩⟩
    · refine (congrArg Sem.semval (hbase i)).trans ?_
      split
      · rfl
      · next hnone =>
          rw [total_eq_zero fun sop hsop hi => hnone ⟨sop, hsop, hi⟩, add_zero]
    · exact inRange_of_passes hpasses hsplit hi
    · exact (hpasses before sop after hsplit).zero hzero
    · exact (hbase i).trans (if_neg fun ⟨sop, hsop, hi⟩ => hother sop hsop hi)
    · refine (hun i).trans ?_
      rw [total_eq_zero hother, sub_zero, BitVec.ofInt_toInt]

end KernelM5040.Semaphore
