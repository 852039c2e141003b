import KernelM5040.Lib.IdrWalk

/-!
# First-free allocation

The runs in which all ids are taken with `idr_get_new`.  The tree then tells exactly
which ids are allocated, at every layer.  The least id that is not allocated is
found as long as there is one that a tree can have.
-/

namespace KernelM5040.Idr

open Option Ascending Machine Nat BitVec

variable {Ptr Data : Type*} {idp : Handle Ptr} {allocated : Allocated Ptr} {level pos : ℕ}

/-! ## Layers -/

/-- Every layer counts its slots in use, and a bit is set if and only if all ids
below the slot are allocated; at the bottom this is a single one. -/
def LayersExact (idp : Handle Ptr) (allocated : Allocated Ptr) : Prop :=
  ∀ pos < span idp.layers, ∀ level bitmap ary count paa,
    Way idp.top idp.layers pos (level + 1) (.layer bitmap ary count) paa →
      count = (if level = 0 then weight bitmap else used ary) ∧
      ∀ n, bitmap n = true ↔
        ∀ other, other / span (level + 1) = pos / span (level + 1) → place other level = n →
          allocated other ≠ none

theorem Way.entry_eq {p : Slot Ptr} {paa : List (Slot Ptr)} {layers : ℕ} {top : Slot Ptr}
    (hway : Way top (layers + 1) pos (level + 1) p paa) :
    entry pos layers top = entry pos level p := by
  generalize hupper : layers + 1 = upper at hway
  generalize hlower : level + 1 = lower at hway
  induction hway generalizing level with
  | top =>
    obtain rfl : layers = level := by omega
    rfl
  | down hway ih =>
    subst hlower
    rw [ih rfl, entry_layer]

theorem layersExact_of_ok (hok : HandleOk idp) : LayersExact idp idp.ids := by
  obtain ⟨top, layers, free⟩ := idp
  intro pos hpos level bitmap ary count paa hway
  have hslot := (hway.ok hok.slotOk).resolve_left (by simp)
  obtain ⟨upper, rfl⟩ : ∃ upper, layers = upper + 1 :=
    ⟨layers - 1, (Nat.sub_add_cancel (Nat.le_trans (succ_pos level) hway.le)).symm⟩
  have hids : ∀ other, other / span (level + 1) = pos / span (level + 1) →
      (⟨top, upper + 1, free⟩ : Handle Ptr).ids other =
        entry other level (.layer bitmap ary count) := by
    intro other hblock
    have hlt : other < span (upper + 1) := by
      have htop := div_span_congr hway.le hblock
      rwa [div_eq_of_lt hpos, div_eq_zero_iff_lt (span_pos _)] at htop
    rw [Handle.ids, lookup_of_lt hlt]
    exact (hway.congr hblock).entry_eq
  refine ⟨?_, fun n => ⟨fun hbit other hblock hplace => ?_, fun hall => ?_⟩⟩
  · cases level with
    | zero | succ level => exact hslot.1
  · rw [hids other hblock]
    exact hslot.entry_of_bit (hplace ▸ hbit)
  refine bit_of_entries hslot fun other (hother : _ = pos / span (level + 1) * idrSize + n) => ?_
  obtain ⟨hblock, hplace⟩ := div_span_slot.mp hother
  rw [← hids other hblock]
  exact hall other hblock hplace

/-! ## The full tree -/

section

variable (hkeeps : Keeps idp allocated) (hfull : ∀ pos < limit, allocated pos ≠ none)
include hkeeps hfull

theorem layers_eq_of_full :
    idp.layers = maxLayers ∧ ∃ bitmap ary count, idp.top = .layer bitmap ary count ∧
      ∀ n, bitmap n = true := by
  obtain ⟨hok, rfl⟩ := hkeeps
  rcases hok with ⟨hnull, _⟩ | ⟨level, hlevel, hlayers, hok⟩
  · refine absurd ?_ (hfull 0 (by decide))
    rw [Handle.ids, hnull, lookup_null]
  have htop : level + 1 = maxLayers := by
    by_contra hne
    have hless : level + 1 ≤ 4 := le_of_lt_succ (lt_of_le_of_ne hlevel hne)
    refine hfull (span 4) (by decide) ?_
    rw [Handle.ids, hlayers]
    exact lookup_of_ge (span_mono hless)
  have hall : ∀ pos, pos / span (level + 1) = 0 → entry pos level idp.top ≠ none := by
    intro pos hpos
    rw [div_eq_zero_iff_lt (span_pos _)] at hpos
    have hids := hfull pos (by rwa [← span_maxLayers, ← htop])
    rwa [Handle.ids, hlayers, lookup_of_lt hpos] at hids
  have hbits := full_of_entries hok hall
  refine ⟨hlayers.trans htop, ?_⟩
  cases hcase : idp.top with
  | null | ptr _ => simp [hcase, Slot.full] at hbits
  | layer bitmap ary count =>
    rw [hcase, Slot.full, isFull_iff] at hbits
    exact ⟨bitmap, ary, count, rfl, hbits⟩

theorem idrGetNewAbove_of_full (ptr : Option Ptr) (startingId : Id)
    (rounds : ℕ) : idrGetNewAbove idp ptr startingId rounds = none := by
  obtain ⟨hlayers, bitmap, ary, count, htop, hbits⟩ := layers_eq_of_full hkeeps hfull
  obtain ⟨top, layers, free⟩ := idp
  obtain rfl : layers = maxLayers := hlayers
  obtain rfl : top = .layer bitmap ary count := htop
  have hnone : ∀ n, findNextZero bitmap n = none := fun n =>
    findNextZero_eq_none.mpr fun m _ => hbits m
  have hnext : ∀ label id, ∃ label' id',
      (slotStep ⟨label, ⟨.layer bitmap ary count, maxLayers, free⟩, id⟩).control =
        .next ⟨label', ⟨.layer bitmap ary count, maxLayers, free⟩, id'⟩ := by
    intro label id
    cases label with
    | buildUp => exact ⟨.restart, id, rfl⟩
    | restart =>
      refine ⟨.buildUp, roundUp id maxLayers, ?_⟩
      have hup : subAllocFrom 4 (.layer bitmap ary count) id free =
          .up (.layer bitmap ary count) id (roundUp id maxLayers) free := by
        rw [subAllocFrom, show idrSize = 63 + 1 from rfl, allocLoop, hnone]
        rfl
      simp [slotStep, show maxLayers - 1 = 4 from rfl, hup]
  have hrun : ∀ label id, ∃ search,
      runFor slotStep rounds ⟨label, ⟨.layer bitmap ary count, maxLayers, free⟩, id⟩ =
        .next search := by
    induction rounds with
    | zero => exact fun label id => ⟨_, rfl⟩
    | succ rounds ih =>
      intro label id
      obtain ⟨label', id', hcontrol⟩ := hnext label id
      rw [runFor_succ_of_next hcontrol]
      exact ih label' id'
  obtain ⟨search, hsearch⟩ := hrun .buildUp startingId
  rw [idrGetNewAbove, idrGetNewAboveInt, idrGetEmptySlot, hsearch]
  rfl

end

/-! ## First-free runs -/

/-- All calls start with the id zero. -/
def FromZero (_ : Handle Ptr) (_ : Allocated Ptr) (startingId : Id) : Prop := startingId = 0

/-- From zero on the search meets every id that a tree can have. -/
theorem safe_of_free (hkeeps : Keeps idp allocated) (hfree : ∃ pos < limit, allocated pos = none) :
    Safe idp allocated 0 := by
  refine ⟨by decide, ?_⟩
  have hcapacity : span (height idp.layers 0) ≤ limit := by
    rw [← span_maxLayers]
    refine span_mono (max_le ?_ (by decide))
    rcases hkeeps.ok with ⟨_, hzero⟩ | ⟨level, hlevel, hlayers, _⟩
    · rw [hzero]
      exact Nat.zero_le _
    · rw [hlayers]
      exact hlevel
  by_cases hroom : ∃ pos, 0 ≤ pos ∧ pos < span (height idp.layers 0) ∧ allocated pos = none
  · exact .inl hroom
  obtain ⟨free, hlt, hnone⟩ := hfree
  have hall : ∀ pos, pos < span (height idp.layers 0) → allocated pos ≠ none :=
    fun pos hpos hnone => hroom ⟨pos, Nat.zero_le pos, hpos, hnone⟩
  refine .inr ⟨lt_of_le_of_ne hcapacity fun heq => ?_, fun pos _ hpos => hall pos hpos⟩
  exact hall free (heq ▸ hlt) hnone

theorem Run.keeps_fromZero (hrun : Run FromZero idp allocated) : Keeps idp allocated := by
  refine hrun.keeps fun {idp allocated ptr startingId rounds result} hkeeps hzero hget => ?_
  obtain rfl : startingId = 0 := hzero
  refine safe_of_free hkeeps ?_
  by_contra hfull
  rw [idrGetNewAbove_of_full hkeeps (fun pos hpos hnone => hfull ⟨pos, hpos, hnone⟩)] at hget
  exact some_ne_none _ hget.symm

theorem mem_items {ids : Allocated Ptr} {id : Id} {ptr : Ptr}
    (hids : ∀ pos, ids pos ≠ none → pos < limit) :
    (id, ptr) ∈ items ids ↔ ids id.toNat = some (some ptr) := by
  rw [items, mem_collect]
  constructor
  · rintro ⟨pos, _, hlt, hitem⟩
    obtain ⟨found, hfound, hpair⟩ := map_eq_some_iff.mp hitem
    obtain ⟨rfl, rfl⟩ := Prod.mk.inj hpair
    rw [toNat_ofNat, mod_eq_of_lt (hlt.trans (by decide))]
    exact join_eq_some_iff.mp hfound
  · intro hid
    refine ⟨id.toNat, Nat.zero_le _, hids _ (by simp [hid]), ?_⟩
    rw [hid, ofNat_toNat, setWidth_eq]
    rfl

theorem items_ascending (ids : Allocated Ptr) :
    (items ids).Pairwise fun first second => first.1.toNat < second.1.toNat := by
  refine pairwise_collect fun {first second _ _} hlt hstop hfirst hsecond => ?_
  obtain ⟨_, _, rfl⟩ := map_eq_some_iff.mp hfirst
  obtain ⟨_, _, rfl⟩ := map_eq_some_iff.mp hsecond
  have hlimit : limit < 2 ^ 32 := by decide
  rw [toNat_ofNat, toNat_ofNat, mod_eq_of_lt (by omega), mod_eq_of_lt (by omega)]
  exact hlt

/-- What `idr_get_new` is for: the least id that is not allocated, or an error if there
are not enough layers. -/
def LeastOrRefused (idp : Handle Ptr) (allocated : Allocated Ptr) : Except Errno Id → Prop
  | .ok id => IsLeast {pos | allocated pos = none} id.toNat
  | .error errno => errno = .eagain ∧ idp.idFreeCnt < idrFreeMax

theorem idrGetNew_of_free (hkeeps : Keeps idp allocated)
    (hfree : ∃ pos < limit, allocated pos = none) (ptr : Option Ptr) :
    ∃ idp' result, idrGetNew idp ptr enough = some (idp', result) ∧
      LeastOrRefused idp allocated result := by
  obtain ⟨hstart, hclear⟩ := safe_of_free hkeeps hfree
  obtain ⟨hok, rfl⟩ := hkeeps
  have hnew := idrGetNewAbove_spec ptr hok hstart hclear (le_refl enough)
  rw [idrGetNew]
  generalize idrGetNewAbove idp ptr 0 enough = result at hnew ⊢
  cases hnew with
  | got _ _ _ hempty htaken _ =>
    refine ⟨_, _, rfl, hempty, fun pos hnone => ?_⟩
    exact not_lt.mp fun hless => htaken pos (Nat.zero_le pos) hless hnone
  | refused _ _ hless => exact ⟨_, _, rfl, rfl, hless⟩

/-- In every state of a first-free run the layers are exact, lookup and iteration see
the allocated ids with their pointers, and `idr_get_new` returns the least id that is
not allocated if and only if there is one among those that a tree can have. -/
theorem idrGetNew_exact (hrun : Run FromZero idp allocated) :
    LayersExact idp allocated ∧
      (∀ id, idrFind idp id = some (.ofPtr (allocated (id &&& maxIdMask).toNat).join)) ∧
      (∃ items : List (Id × Ptr),
        (items.Pairwise fun first second => first.1.toNat < second.1.toNat) ∧
        (∀ id ptr, (id, ptr) ∈ items ↔ allocated id.toNat = some (some ptr)) ∧
        ∀ (garbage : Slot Ptr) (fn : Id → Ptr → Data → Data × BitVec 32) (data : Data) (rounds : ℕ),
          enough ≤ rounds → idrForEach idp garbage fn data rounds = some (visit fn items data)) ∧
      ∀ ptr : Option Ptr, (∃ pos < limit, allocated pos = none) ↔
        ∃ rounds idp' result, idrGetNew idp ptr rounds = some (idp', result) ∧
          LeastOrRefused idp allocated result := by
  have hkeeps := hrun.keeps_fromZero
  have hok := hkeeps.ok
  obtain rfl := hkeeps.ids_eq
  refine ⟨layersExact_of_ok hok, idrFind_eq hok, ⟨items idp.ids, items_ascending _,
    fun id ptr => mem_items fun pos hids => (lt_span_of_ids hids).trans_le hok.span_le,
    fun garbage fn data rounds hrounds => idrForEach_eq hok garbage fn data hrounds⟩,
    fun ptr => ⟨fun hfree => ⟨enough, idrGetNew_of_free hkeeps hfree ptr⟩, ?_⟩⟩
  rintro ⟨rounds, idp', result, hget, _⟩
  by_contra hfull
  have hnone := idrGetNewAbove_of_full hkeeps
    (fun pos hpos hnone => hfull ⟨pos, hpos, hnone⟩) ptr 0 rounds
  rw [idrGetNew, hnone] at hget
  exact some_ne_none _ hget.symm

theorem idFreeCnt_preGet (idp : Handle Ptr) :
    idrFreeMax ≤ (idrPreGet idp idrFreeMax).2.idFreeCnt := by
  rw [idrPreGet]
  split
  · rw [if_neg (not_lt.mpr (Nat.le_add_left _ _))]
  · next hmany => exact not_lt.mp hmany

theorem LeastOrRefused.exists_ok {result : Except Errno Id} {count : ℕ}
    (hresult : LeastOrRefused idp allocated result) (hfree : idrFreeMax ≤ idp.idFreeCnt)
    (hallocated : ∀ pos, allocated pos = none ↔ count ≤ pos) :
    ∃ id : Id, result = .ok id ∧ id.toNat = count := by
  cases result with
  | error errno => exact absurd hresult.2 (not_lt.mpr hfree)
  | ok id =>
    exact ⟨id, rfl, le_antisymm (hresult.2 ((hallocated count).mpr (le_refl count)))
      ((hallocated _).mp hresult.1)⟩

theorem exists_run_of_le {count : ℕ} (hcount : count ≤ limit) :
    ∃ (idp : Handle Unit) (allocated : Allocated Unit), Run FromZero idp allocated ∧
      idrFreeMax ≤ idp.idFreeCnt ∧ ∀ pos, allocated pos = none ↔ count ≤ pos := by
  induction count with
  | zero =>
    exact ⟨_, _, .preGet idrFreeMax .init, idFreeCnt_preGet _, fun pos => by simp⟩
  | succ count ih =>
    obtain ⟨idp, allocated, hrun, hfree, hallocated⟩ := ih (le_of_succ_le hcount)
    obtain ⟨idp', result, hget, hresult⟩ := idrGetNew_of_free hrun.keeps_fromZero
      ⟨count, hcount, (hallocated count).mpr (le_refl count)⟩ (some ())
    obtain ⟨id, rfl, hid⟩ := hresult.exists_ok hfree hallocated
    refine ⟨_, _, .preGet idrFreeMax (.got hrun rfl hget), idFreeCnt_preGet _, fun pos => ?_⟩
    rw [hid]
    by_cases hpos : pos = count
    · rw [hpos, Function.update_self]
      simp
    · rw [Function.update_of_ne hpos, hallocated]
      omega

/-- With 65 ids taken, which need a second layer, the next one is 65. -/
theorem idrGetNew_exact_second_layer :
    ∃ (idp : Handle Unit) (allocated : Allocated Unit), Run FromZero idp allocated ∧
      LayersExact idp allocated ∧ ∃ rounds idp' id,
        idrGetNew idp (some ()) rounds = some (idp', .ok id) ∧ id.toNat = 65 := by
  obtain ⟨idp, allocated, hrun, hfree, hallocated⟩ := exists_run_of_le (show 65 ≤ limit by decide)
  obtain ⟨hexact, -, -, hnew⟩ := @idrGetNew_exact Unit Unit idp allocated hrun
  obtain ⟨rounds, idp', result, hget, hresult⟩ :=
    (hnew (some ())).mp ⟨65, by decide, (hallocated 65).mpr le_rfl⟩
  obtain ⟨id, rfl, hid⟩ := hresult.exists_ok hfree hallocated
  exact ⟨idp, allocated, hrun, hexact, rounds, idp', id, hget, hid⟩

/-- When all ids that a tree can have are allocated, `idr_get_new` does not return. -/
theorem idrGetNew_never_returns :
    ∃ (idp : Handle Unit) (allocated : Allocated Unit), Run FromZero idp allocated ∧
      idrFreeMax ≤ idp.idFreeCnt ∧ (∃ pos < 2 ^ maxIdShift, allocated pos = none) ∧
      ∀ ptr rounds, idrGetNew idp ptr rounds = none := by
  obtain ⟨idp, allocated, hrun, hfree, hallocated⟩ := exists_run_of_le (le_refl limit)
  refine ⟨idp, allocated, hrun, hfree, ⟨limit, limit_lt, (hallocated limit).mpr (le_refl _)⟩,
    fun ptr rounds => ?_⟩
  exact idrGetNewAbove_of_full hrun.keeps_fromZero
    (fun pos hpos hnone => absurd ((hallocated pos).mp hnone) (not_le.mpr hpos)) ptr 0 rounds

end KernelM5040.Idr
