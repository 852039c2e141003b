import KernelM5040.Lib.IdrTree

/-!
# The search for an empty slot

`sub_alloc` walks down from a layer and comes back when a layer is full behind
the id.  A search in a layer ends below the block of ids that the layer stands
for, and whatever it passes on the way is taken.
-/

namespace KernelM5040.Idr

open Function Nat Finset Fin

variable {Ptr : Type*} {id : Id} {level pos x start stop count free : ℕ} {bitmap : Bitmap}
  {ary : Fin idrSize → Slot Ptr} {p child p' : Slot Ptr} {n m : Fin idrSize} {result : SubAlloc Ptr}

/-! ## Blocks of ids -/

/-- Where the block of a layer that an id belongs to ends. -/
def blockEnd (level x : ℕ) : ℕ := (x / span (level + 1) + 1) * span (level + 1)

/-- The ids of a tree below this bound keep clear of the sign bit. -/
def limit : ℕ := 2 ^ 30

theorem limit_lt : limit < 2 ^ maxIdShift := by decide

theorem lt_blockEnd (level x : ℕ) : x < blockEnd level x := by
  have := lt_div_mul_add (span_pos (level + 1)) (a := x)
  rw [blockEnd, succ_mul]
  exact this

theorem blockEnd_congr (hblock : pos / span (level + 1) = x / span (level + 1)) :
    blockEnd level pos = blockEnd level x := by
  rw [blockEnd, blockEnd, hblock]

/-- Between an id and the end of its block there are only ids of the block. -/
theorem div_span_of_between (hle : x ≤ pos) (hlt : pos < blockEnd level x) :
    pos / span (level + 1) = x / span (level + 1) :=
  div_span_eq_iff.mpr ⟨(div_mul_le_self x _).trans hle, hlt⟩

theorem blockEnd_le_succ (level x : ℕ) : blockEnd level x ≤ blockEnd (level + 1) x := by
  have hlt : x / span (level + 1) < (x / span (level + 2) + 1) * idrSize := by
    rw [div_span_succ x (level + 1)]
    exact lt_mul_of_div_lt (lt_succ_self _) (by decide)
  calc blockEnd level x ≤ (x / span (level + 2) + 1) * idrSize * span (level + 1) :=
        Nat.mul_le_mul_right _ hlt
    _ = blockEnd (level + 1) x := by
        rw [blockEnd, span_succ (level + 1), mul_assoc, mul_comm idrSize]

theorem place_le_of_between (hle : x ≤ pos) (hlt : pos < blockEnd level x) :
    place x level ≤ place pos level := by
  have hblock := div_span_of_between hle hlt
  have hdiv : x / span level ≤ pos / span level := Nat.div_le_div_right hle
  have hx : x / span level = x / span (level + 1) * idrSize + place x level :=
    div_span_slot.mpr ⟨rfl, rfl⟩
  have hpos : pos / span level = x / span (level + 1) * idrSize + place pos level :=
    div_span_slot.mpr ⟨hblock, rfl⟩
  rw [hx, hpos] at hdiv
  exact Nat.le_of_add_le_add_left hdiv

/-- The id after the search in a bitmap lies below the slot that was found, and
the ids that were skipped lie below the slots before. -/
theorem nextId_spec (hend : blockEnd level id.toNat ≤ limit) (hle : digit id level ≤ m) :
    (nextId id level m).toNat / span level = id.toNat / span (level + 1) * idrSize + m ∧
      id.toNat ≤ (nextId id level m).toNat ∧
      ∀ pos, id.toNat ≤ pos → pos < (nextId id level m).toNat →
        digit id level ≤ place pos level ∧ place pos level < m := by
  have hid : id.toNat < 2 ^ maxIdShift := (lt_blockEnd level id.toNat).trans (hend.trans_lt limit_lt)
  have hplace := digit_eq_place hid level
  have hself : id.toNat / span level = id.toNat / span (level + 1) * idrSize + digit id level :=
    div_span_slot.mpr ⟨rfl, hplace.symm⟩
  by_cases hsame : m = digit id level
  · have hnext : nextId id level m = id := if_neg (not_not.mpr hsame)
    rw [hnext, hself, hsame]
    exact ⟨rfl, le_refl _, fun pos hge hlt => absurd hlt (not_lt.mpr hge)⟩
  have hnext : nextId id level m = moveTo id level (digit id level) m := if_pos hsame
  have hbound : (id.toNat / span (level + 1) * idrSize + m) * span level <
      blockEnd level id.toNat := by
    have hslot : id.toNat / span (level + 1) * idrSize + m <
        (id.toNat / span (level + 1) + 1) * idrSize := by
      rw [succ_mul]
      exact Nat.add_lt_add_left m.isLt _
    rw [blockEnd, span_succ level, mul_comm (span level), ← mul_assoc, mul_comm idrSize,
      ← span_succ]
    exact Nat.mul_lt_mul_of_pos_right hslot (span_pos level)
  have hvalue := @toNat_moveTo id level m hid
    (hbound.trans (hend.trans_lt (limit_lt.trans (by decide))))
  have hlt : (digit id level).val < m.val := lt_of_le_of_ne hle fun heq => hsame (Fin.ext heq.symm)
  rw [hnext, hvalue]
  refine ⟨Nat.mul_div_cancel _ (span_pos level), ?_, fun pos hge hless => ?_⟩
  · refine ((Nat.div_lt_iff_lt_mul (span_pos level)).mp ?_).le
    rw [hself]
    exact Nat.add_lt_add_left hlt _
  have hlow : id.toNat / span level ≤ pos / span level := Nat.div_le_div_right hge
  have hhigh := (Nat.div_lt_iff_lt_mul (span_pos level)).mpr hless
  rw [hself] at hlow
  have hoffset : pos / span level - id.toNat / span (level + 1) * idrSize < idrSize := by
    omega
  have hpos : pos / span level = id.toNat / span (level + 1) * idrSize +
      (⟨_, hoffset⟩ : Fin idrSize) := by
    rw [Nat.add_sub_cancel' (by omega)]
  rw [(div_span_slot.mp hpos).2, le_def, lt_def]
  change _ ≤ pos / span level - _ ∧ pos / span level - _ < _
  omega

theorem outOfRange_of_lt (hid : id.toNat < 2 ^ maxIdShift) : outOfRange id = false := by
  rw [outOfRange, Bool.or_eq_false_iff, decide_eq_false_iff_not, BitVec.not_le, BitVec.lt_def]
  refine ⟨hid, ?_⟩
  rw [BitVec.slt_eq_decide, decide_eq_false_iff_not,
    BitVec.toInt_eq_toNat_of_lt (Nat.mul_lt_mul_of_pos_left hid (by decide))]
  exact not_lt.mpr (Int.natCast_nonneg _)

/-! ## Trees with the same ids -/

/-- A tree is replaced by one that has the same ids. -/
structure Same (level : ℕ) (p p' : Slot Ptr) : Prop where
  ok : LayerOk level p'
  entry_eq : ∀ pos, entry pos level p' = entry pos level p

theorem LayerOk.same (hok : LayerOk level p) : Same level p p := ⟨hok, fun _ => rfl⟩

theorem Same.full_eq (hok : LayerOk level p) (hsame : Same level p p') : p'.full = p.full := by
  rw [Bool.eq_iff_iff]
  constructor
  · intro hfull
    refine @full_of_entries _ _ 0 _ hok fun pos _ => ?_
    rw [← hsame.entry_eq]
    exact entry_of_full hsame.ok hfull pos
  · intro hfull
    refine @full_of_entries _ _ 0 _ hsame.ok fun pos _ => ?_
    rw [hsame.entry_eq]
    exact entry_of_full hok hfull pos

/-- The layer below a slot, made if it is missing. -/
def fill (slot : Slot Ptr) : Slot Ptr := if slot.isNull then newLayer else slot

theorem newLayer_ok (level : ℕ) : LayerOk level (newLayer : Slot Ptr) := by
  cases level with
  | zero => exact ⟨by simp [weight], fun n => ⟨fun _ => rfl, rfl⟩⟩
  | succ level => exact ⟨by simp [used, Slot.isNull], fun n => ⟨rfl, .inl rfl⟩⟩

@[simp]
theorem entry_newLayer (pos level : ℕ) : entry pos level (newLayer : Slot Ptr) = none := by
  cases level with
  | zero => rfl
  | succ level => exact entry_null pos level

theorem newLayer_full : (newLayer : Slot Ptr).full = false := by
  rw [newLayer, Slot.full, isFull, decide_eq_false_iff_not]
  exact fun hall => Bool.false_ne_true (hall 0)

theorem fill_ok (hslot : p = .null ∨ LayerOk level p) : LayerOk level (fill p) := by
  rcases hslot with rfl | hok
  · exact newLayer_ok level
  · rwa [fill, if_neg (by simp [hok.isNull])]

theorem entry_fill (pos level : ℕ) (p : Slot Ptr) :
    entry pos level (fill p) = entry pos level p := by
  rw [fill]
  split
  · next hnull => rw [eq_null_of_isNull hnull, entry_newLayer, entry_null]
  · rfl

theorem fill_full (p : Slot Ptr) : (fill p).full = p.full := by
  rw [fill]
  split
  · next hnull =>
      rw [eq_null_of_isNull hnull, newLayer_full]
      rfl
  · rfl

theorem used_update (hchild : child.isNull = false) :
    used (update ary m child) = if (ary m).isNull then used ary + 1 else used ary := by
  have hfilter : (univ.filter fun n => (update ary m child n).isNull = false) =
      insert m (univ.filter fun n => (ary n).isNull = false) := by
    ext n
    by_cases hn : n = m
    · simp [hn, hchild]
    · simp [hn]
  rw [used, used, hfilter]
  cases hnull : (ary m).isNull with
  | false => rw [insert_eq_of_mem (by simpa using hnull)]; rfl
  | true => rw [card_insert_of_notMem (by simp [hnull])]; rfl

theorem LayerOk.update (hok : LayerOk (level + 1) (.layer bitmap ary count))
    (hsame : Same level (fill (ary m)) p') :
    Same (level + 1) (.layer bitmap ary count)
      (.layer bitmap (update ary m p') (if (ary m).isNull then count + 1 else count)) := by
  obtain ⟨hcount, hslots⟩ := hok
  have hfull := Same.full_eq (fill_ok (hslots m).2) hsame
  refine ⟨⟨?_, fun n => ?_⟩, fun pos => ?_⟩
  · rw [used_update hsame.ok.isNull, hcount]
  · by_cases hn : n = m
    · subst hn
      rw [update_self, hfull, fill_full]
      exact ⟨(hslots n).1, .inr hsame.ok⟩
    · rw [update_of_ne hn]
      exact hslots n
  · rw [entry_layer, entry_layer]
    by_cases hn : place pos (level + 1) = m
    · rw [hn, update_self, hsame.entry_eq, entry_fill]
    · rw [update_of_ne hn]

/-! ## The search below a layer -/

/-- All ids from one number up to another are taken. -/
def Taken (level : ℕ) (p : Slot Ptr) (start stop : ℕ) : Prop :=
  ∀ pos, start ≤ pos → pos < stop → entry pos level p ≠ none

theorem Taken.trans {middle : ℕ} (hfirst : Taken level p start middle)
    (hsecond : Taken level p middle stop) : Taken level p start stop := by
  intro pos hge hlt
  rcases lt_or_ge pos middle with hless | hmore
  · exact hfirst pos hge hless
  · exact hsecond pos hmore hlt

/-- The layers on the path of an id are there. -/
def Path (pos : ℕ) : ℕ → Slot Ptr → Prop
  | 0, .layer _ _ _ => True
  | level + 1, .layer _ ary _ => Path pos level (ary (place pos (level + 1)))
  | _, _ => False

/-- What a search from an id below a layer can come to. -/
inductive Outcome (level : ℕ) (p : Slot Ptr) (x free : ℕ) : SubAlloc Ptr → Prop
  | found {p' : Slot Ptr} {id : Id} {free' : ℕ} (hsame : Same level p p')
      (hpath : Path id.toNat level p') (hle : x ≤ id.toNat) (hlt : id.toNat < blockEnd level x)
      (hempty : entry id.toNat level p = none) (htaken : Taken level p x id.toNat)
      (hfree : free ≤ free' + level) : Outcome level p x free (.found p' id free')
  | up {oid id : Id} (hblock : oid.toNat / span (level + 1) = x / span (level + 1))
      (hend : id.toNat = blockEnd level x) (htaken : Taken level p x (blockEnd level x)) :
      Outcome level p x free (.up p oid id free)
  | restart {id : Id} (hlt : x < id.toNat) (hle : id.toNat ≤ blockEnd level x)
      (htaken : Taken level p x id.toNat)
      (hlast : id.toNat = blockEnd level x →
        ¬Taken level p (blockEnd level x - span level) (blockEnd level x)) :
      Outcome level p x free (.restart p id free)
  | failed {p' : Slot Ptr} {free' : ℕ} (hsame : Same level p p') (hfree : free < level) :
      Outcome level p x free (.failed p' .noMemory free')

/-- A search may start from an earlier id of the block if all ids between are taken. -/
theorem Outcome.of_later {later : ℕ} (houtcome : Outcome level p later free result)
    (hle : x ≤ later) (hblock : later / span (level + 1) = x / span (level + 1))
    (htaken : Taken level p x later) : Outcome level p x free result := by
  have hend := blockEnd_congr hblock
  cases houtcome with
  | found hsame hpath hge hlt hempty hbetween hfree =>
    exact .found hsame hpath (hle.trans hge) (hend ▸ hlt) hempty (htaken.trans hbetween) hfree
  | up hblock' hnext hbetween =>
    exact .up (hblock'.trans hblock) (hnext.trans hend) (htaken.trans (hend ▸ hbetween))
  | restart hlt hge hbetween hlast =>
    exact .restart (hle.trans_lt hlt) (hend ▸ hge) (htaken.trans hbetween) (hend ▸ hlast)
  | failed hsame hfree => exact .failed hsame hfree

section

variable (hok : LayerOk level (.layer bitmap ary count))
include hok

theorem LayerOk.entry_of_bit (hbit : bitmap (place pos level) = true) :
    entry pos level (.layer bitmap ary count) ≠ none := by
  cases level with
  | zero =>
    rw [entry_bottom, if_pos hbit]
    exact Option.some_ne_none _
  | succ level =>
    obtain ⟨hfull, hchild⟩ := hok.2 (place pos (level + 1))
    rw [hbit] at hfull
    rcases hchild with hnull | hchild
    · rw [hnull] at hfull
      exact absurd hfull.symm Bool.false_ne_true
    · exact entry_of_full hchild hfull.symm pos

/-- A bitmap that has no zero bit from the id on: its block is taken up to the end. -/
theorem taken_of_findNextZero_none (hid : id.toNat < 2 ^ maxIdShift)
    (hfind : findNextZero bitmap (digit id level) = none) :
    Taken level (.layer bitmap ary count) id.toNat (blockEnd level id.toNat) := by
  intro pos hge hlt
  refine hok.entry_of_bit (findNextZero_eq_none.mp hfind _ ?_)
  rw [digit_eq_place hid]
  exact place_le_of_between hge hlt

theorem taken_of_findNextZero_some (hend : blockEnd level id.toNat ≤ limit)
    (hfind : findNextZero bitmap (digit id level) = some m) :
    Taken level (.layer bitmap ary count) id.toNat (nextId id level m).toNat := by
  intro pos hge hlt
  obtain ⟨hle, _, hbefore⟩ := findNextZero_eq_some hfind
  obtain ⟨hlow, hhigh⟩ := (nextId_spec hend hle).2.2 pos hge hlt
  exact hok.entry_of_bit (hbefore _ hlow hhigh)

end

/-- At the bottom the search ends with the first id that is not taken. -/
theorem subAllocFrom_zero_spec (hok : LayerOk 0 p) (hend : blockEnd 0 id.toNat ≤ limit) :
    Outcome 0 p id.toNat free (subAllocFrom 0 p id free) := by
  have hid : id.toNat < 2 ^ maxIdShift := (lt_blockEnd 0 id.toNat).trans (hend.trans_lt limit_lt)
  obtain ⟨bitmap, ary, count, rfl⟩ := hok.exists_layer
  rw [subAllocFrom]
  split
  · next hnone =>
      exact .up rfl (toNat_roundUp (by decide) (hend.trans_lt (limit_lt.trans (by decide))))
        (taken_of_findNextZero_none hok hid hnone)
  next m hsome =>
    obtain ⟨hle, hzero, _⟩ := findNextZero_eq_some hsome
    obtain ⟨hslot, hge, _⟩ := nextId_spec hend hle
    obtain ⟨hblock, hplace⟩ := div_span_slot.mp hslot
    have hlt : (nextId id 0 m).toNat < blockEnd 0 id.toNat := (div_span_eq_iff.mp hblock).2
    rw [outOfRange_of_lt (hlt.trans (hend.trans_lt limit_lt)), if_neg Bool.false_ne_true]
    refine .found hok.same trivial hge hlt ?_ (taken_of_findNextZero_some hok hend hsome)
      (le_refl _)
    rw [entry_bottom, hplace, hzero, if_neg Bool.false_ne_true]

/-- A layer that is left because its ids are taken was there before. -/
theorem isNull_of_taken (htaken : Taken level (fill p) start stop) (hlt : start < stop) :
    p.isNull = false := by
  by_contra hnull
  rw [Bool.not_eq_false] at hnull
  apply htaken start (le_refl _) hlt
  rw [entry_fill, eq_null_of_isNull hnull, entry_null]

theorem fill_eq (hnull : p.isNull = false) : fill p = p := by
  rw [fill, hnull, if_neg Bool.false_ne_true]

theorem Taken.lift (htaken : Taken level (fill (ary m)) x stop) (hstop : stop ≤ blockEnd level x)
    (hplace : place x (level + 1) = m) : Taken (level + 1) (.layer bitmap ary count) x stop := by
  intro pos hge hlt
  have hpos : place pos (level + 1) = m := by
    rw [← hplace, place, place, div_span_of_between hge (hlt.trans_le hstop)]
  rw [entry_layer, hpos, ← entry_fill]
  exact htaken pos hge hlt

section

variable (hok : LayerOk (level + 1) (.layer bitmap ary count)) (hzero : bitmap m = false)
  (hplace : place x (level + 1) = m)
include hok hzero hplace

/-- The last slot of a layer is not full if a search went below it. -/
theorem not_taken_last (hnull : (ary m).isNull = false)
    (hlast : blockEnd level x = blockEnd (level + 1) x) :
    ¬Taken (level + 1) (.layer bitmap ary count) (blockEnd (level + 1) x - span (level + 1))
      (blockEnd (level + 1) x) := by
  intro htaken
  obtain ⟨hbit, hchild⟩ := hok.2 m
  have hchild : LayerOk level (ary m) := hchild.resolve_left fun heq => by
    rw [heq] at hnull
    exact Bool.false_ne_true hnull.symm
  have hfull : (ary m).full = true := by
    refine full_of_entries hchild fun pos (hpos : _ = x / span (level + 1)) => ?_
    have hslot : place pos (level + 1) = m := by rw [← hplace, place, place, hpos]
    obtain ⟨hge, hlt⟩ := div_span_eq_iff.mp hpos
    have hentry := htaken pos (by rw [← hlast, blockEnd, succ_mul]; omega) (hlast ▸ hlt)
    rwa [entry_layer, hslot] at hentry
  rw [hzero, hfull] at hbit
  exact Bool.false_ne_true hbit

theorem comeBack_spec {again : Slot Ptr → Id → ℕ → SubAlloc Ptr} {below : ℕ}
    (hend : blockEnd (level + 1) x ≤ limit)
    (hfree : free = if (ary m).isNull then below + 1 else below)
    (hresult : Outcome level (fill (ary m)) x below result)
    (hagain : ∀ id : Id, x < id.toNat → id.toNat / span (level + 2) = x / span (level + 2) →
      m < place id.toNat (level + 1) → Outcome (level + 1) (.layer bitmap ary count) id.toNat free
        (again (.layer bitmap ary count) id free)) :
    Outcome (level + 1) (.layer bitmap ary count) x free
      (comeBack again (level + 1) (fun child => .layer bitmap (update ary m child)
        (if (ary m).isNull then count + 1 else count)) result) := by
  have hlink : (ary m).isNull = false → Slot.layer bitmap (update ary m (fill (ary m)))
      (if (ary m).isNull then count + 1 else count) = .layer bitmap ary count := by
    intro hnull
    rw [fill_eq hnull, update_eq_self, hnull, if_neg Bool.false_ne_true]
  have hfree' : (ary m).isNull = false → below = free := by
    intro hnull
    rw [hfree, hnull, if_neg Bool.false_ne_true]
  have hbound := (blockEnd_le_succ level x).trans hend
  cases hresult with
  | @found p' id free' hsame hpath hle hlt hempty htaken hmemory =>
    have hslot : place id.toNat (level + 1) = m := by
      rw [← hplace, place, place, div_span_of_between hle hlt]
    refine .found (hok.update hsame) ?_ hle (hlt.trans_le (blockEnd_le_succ level x)) ?_
      (htaken.lift hlt.le hplace) ?_
    · rwa [Path, hslot, update_self]
    · rwa [entry_layer, hslot, ← entry_fill]
    · rw [hfree]
      split <;> omega
  | @up oid id hblock hnext htaken =>
    have hnull := isNull_of_taken htaken (lt_blockEnd level x)
    have hid : id.toNat < 2 ^ maxIdShift := by
      rw [hnext]
      exact hbound.trans_lt limit_lt
    have hoid : oid.toNat < 2 ^ maxIdShift :=
      (div_span_eq_iff.mp hblock).2.trans (hbound.trans_lt limit_lt)
    have hshift : oid.sshiftRight (idrBits * (level + 2)) = id.sshiftRight (idrBits * (level + 2)) ↔
        id.toNat / span (level + 2) = x / span (level + 2) := by
      rw [← BitVec.toNat_inj, toNat_sshiftRight hid, toNat_sshiftRight hoid]
      change oid.toNat / span (level + 2) = id.toNat / span (level + 2) ↔ _
      rw [div_span_succ oid.toNat (level + 1), hblock, ← div_span_succ, eq_comm]
    have hlift : Taken (level + 1) (.layer bitmap ary count) x id.toNat := by
      rw [hnext]
      exact htaken.lift (le_refl _) hplace
    have hlt : x < id.toNat := hnext ▸ lt_blockEnd level x
    rw [comeBack, hlink hnull, hfree' hnull]
    split
    · next hsame =>
        have hblock := hshift.mp hsame
        refine Outcome.of_later (hagain id hlt hblock ?_) hlt.le hblock hlift
        have hid : id.toNat / span (level + 1) = x / span (level + 2) * idrSize +
            place id.toNat (level + 1) := div_span_slot.mpr ⟨hblock, rfl⟩
        have hx : x / span (level + 1) = x / span (level + 2) * idrSize + m :=
          div_span_slot.mpr ⟨rfl, hplace⟩
        rw [hnext, blockEnd, Nat.mul_div_cancel _ (span_pos _), ← blockEnd, ← hnext] at hid
        rw [lt_def]
        omega
    · next hother =>
        have hlast : blockEnd level x = blockEnd (level + 1) x := by
          refine le_antisymm (blockEnd_le_succ level x) ?_
          by_contra hless
          rw [not_le, ← hnext] at hless
          exact hother (hshift.mpr (div_span_of_between hlt.le hless))
        refine .restart hlt (hnext.trans hlast).le hlift fun _ => ?_
        exact not_taken_last hok hzero hplace hnull hlast
  | @restart id hlt hle htaken hlast =>
    have hnull := isNull_of_taken htaken hlt
    rw [comeBack, hlink hnull, hfree' hnull]
    refine .restart hlt (hle.trans (blockEnd_le_succ level x)) (htaken.lift hle hplace) ?_
    intro heq
    refine not_taken_last hok hzero hplace hnull (le_antisymm (blockEnd_le_succ level x) ?_)
    rw [← heq]
    exact hle
  | failed hsame hmemory =>
    refine .failed (hok.update hsame) ?_
    rw [hfree]
    split <;> omega

end

/-- The loop of a layer comes back with a later slot each time. -/
theorem allocLoop_spec {below : Slot Ptr → Id → ℕ → SubAlloc Ptr} (hlevel : level < 4)
    (hbelow : ∀ child id free, LayerOk level child → blockEnd level id.toNat ≤ limit →
      Outcome level child id.toNat free (below child id free))
    {rounds : ℕ} (hok : LayerOk (level + 1) p) (hend : blockEnd (level + 1) id.toNat ≤ limit)
    (hrounds : idrSize ≤ rounds + place id.toNat (level + 1)) :
    Outcome (level + 1) p id.toNat free (allocLoop below (level + 1) rounds p id free) := by
  induction rounds generalizing id with
  | zero =>
    omega
  | succ rounds ih =>
    have hid : id.toNat < 2 ^ maxIdShift := (lt_blockEnd _ id.toNat).trans (hend.trans_lt limit_lt)
    obtain ⟨bitmap, ary, count, rfl⟩ := hok.exists_layer
    rw [allocLoop]
    split
    · next hnone =>
        refine .up rfl (toNat_roundUp ?_ (hend.trans_lt (limit_lt.trans (by decide))))
          (taken_of_findNextZero_none hok hid hnone)
        change 6 * (level + 1 + 1) < 32
        omega
    next m hsome =>
      obtain ⟨hle, hzero, _⟩ := findNextZero_eq_some hsome
      obtain ⟨hslot, hge, _⟩ := nextId_spec hend hle
      obtain ⟨hblock, hplace⟩ := div_span_slot.mp hslot
      have hnext := blockEnd_congr hblock
      have hlt : (nextId id (level + 1) m).toNat < blockEnd (level + 1) id.toNat :=
        (div_span_eq_iff.mp hblock).2
      refine Outcome.of_later ?_ hge hblock (taken_of_findNextZero_some hok hend hsome)
      rw [outOfRange_of_lt (hlt.trans (hend.trans_lt limit_lt)), if_neg Bool.false_ne_true]
      split
      · next hfail =>
          rw [Bool.and_eq_true, beq_iff_eq] at hfail
          exact .failed hok.same (by omega)
      next hmemory =>
        refine comeBack_spec hok hzero hplace (hnext ▸ hend) ?_
          (hbelow _ _ _ (fill_ok (hok.2 m).2) ((blockEnd_le_succ _ _).trans (hnext ▸ hend))) ?_
        · cases hnull : (ary m).isNull with
          | false => simp
          | true =>
            simp only [hnull, Bool.true_and, beq_iff_eq] at hmemory
            simp
            omega
        · intro later hless hlater hafter
          refine ih ?_ ?_
          · rw [blockEnd_congr hlater, hnext]
            exact hend
          rw [← digit_eq_place hid] at hrounds
          rw [le_def] at hle
          rw [lt_def] at hafter
          omega

theorem subAllocFrom_spec (hlevel : level < 5) (hok : LayerOk level p)
    (hend : blockEnd level id.toNat ≤ limit) :
    Outcome level p id.toNat free (subAllocFrom level p id free) := by
  induction level generalizing p id free with
  | zero => exact subAllocFrom_zero_spec hok hend
  | succ level ih =>
    rw [subAllocFrom]
    exact allocLoop_spec (by omega) (fun child id free hchild hbelow =>
      ih (by omega) hchild hbelow) hok hend (Nat.le_add_right _ _)

end KernelM5040.Idr
