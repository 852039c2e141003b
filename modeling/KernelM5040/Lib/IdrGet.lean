import KernelM5040.Lib.IdrAlloc

/-!
# Allocation of an id

The tree grows at the top until it has room for the id, and the search goes on
from there.  The pointer is then stored and the layers that have become full are
marked.
-/

namespace KernelM5040.Idr

open Bool Finset Function Machine Digits BitVec

variable {Ptr : Type*} {id : Id} {level layers pos x start stop count free : ℕ} {bitmap : Bitmap}
  {ary : Fin idrSize → Slot Ptr} {p p' child : Slot Ptr} {n m : Fin idrSize}
  {result : Option (Slot Ptr × ℕ × ℕ)} {idp : Handle Ptr}

/-! ## Handles -/

/-- The number of layers that a tree may have. -/
def maxLayers : ℕ := maxLevel - 1

/-- A handle has no layers or a well-formed tree. -/
def HandleOk (idp : Handle Ptr) : Prop :=
  (idp.top = .null ∧ idp.layers = 0) ∨
    ∃ level < maxLayers, idp.layers = level + 1 ∧ LayerOk level idp.top

/-- What a tree of so many layers has for an id. -/
def lookup (layers : ℕ) (p : Slot Ptr) (pos : ℕ) : Option (Option Ptr) :=
  if pos < span layers then entry pos (layers - 1) p else none

/-- What is registered for an id. -/
def Handle.ids (idp : Handle Ptr) (pos : ℕ) : Option (Option Ptr) := lookup idp.layers idp.top pos

theorem span_mono {small large : ℕ} (hle : small ≤ large) : span small ≤ span large :=
  Nat.pow_le_pow_right (by decide) (Nat.mul_le_mul_left _ hle)

theorem span_lt_succ (level : ℕ) : span level < span (level + 1) := by
  rw [span_succ]
  exact lt_mul_of_one_lt_right (span_pos level) (by decide)

theorem span_maxLayers : span maxLayers = limit := rfl

theorem lookup_of_lt (hlt : pos < span layers) : lookup layers p pos = entry pos (layers - 1) p :=
  if_pos hlt

theorem lookup_of_ge (hge : span layers ≤ pos) : lookup layers p pos = none :=
  if_neg (not_lt.mpr hge)

theorem lookup_null (layers pos : ℕ) : lookup layers (.null : Slot Ptr) pos = none := by
  rw [lookup, entry_null, ite_self]

/-! ## More layers -/

theorem sle_iff (hshift : layers ≤ maxLayers) (hid : id.toNat < 2 ^ maxIdShift) :
    ((1 : Id) <<< (layers * idrBits)).sle id = true ↔ span layers ≤ id.toNat := by
  have hbits : layers * idrBits ≤ 30 := by
    change layers * 6 ≤ 30
    have : maxLayers = 5 := rfl
    omega
  have hvalue : ((1 : Id) <<< (layers * idrBits)).toNat = span layers := by
    rw [toNat_one_shiftLeft (by omega), span, mul_comm]
  have hsmall : span layers < 2 ^ maxIdShift := by
    rw [span, mul_comm]
    exact Nat.pow_lt_pow_right (by decide) (by change _ < 31; omega)
  rw [sle_eq_decide, decide_eq_true_iff,
    toInt_eq_toNat_of_lt (Nat.mul_lt_mul_of_pos_left hid (by decide)),
    toInt_eq_toNat_of_lt (by rw [hvalue]; exact Nat.mul_lt_mul_of_pos_left hsmall (by decide)),
    hvalue, Int.ofNat_le]

theorem LayerOk.eq_newLayer (hok : LayerOk level p) (hcount : p.count = 0) : p = newLayer := by
  obtain ⟨bitmap, ary, count, rfl⟩ := hok.exists_layer
  have hempty : ∀ n, bitmap n = false ∧ ary n = .null := by
    intro n
    cases level with
    | zero =>
      obtain ⟨hweight, hslots⟩ := hok
      rw [show count = 0 from hcount, eq_comm, weight, card_eq_zero, filter_eq_empty_iff] at hweight
      have hbit := eq_false_iff.mpr (hweight (mem_univ n))
      exact ⟨hbit, (hslots n).1 hbit⟩
    | succ level =>
      obtain ⟨hused, hslots⟩ := hok
      rw [show count = 0 from hcount, eq_comm, used, card_eq_zero, filter_eq_empty_iff] at hused
      have hnull := eq_null_of_isNull (eq_true_of_not_eq_false (hused (mem_univ n)))
      refine ⟨?_, hnull⟩
      rw [(hslots n).1, hnull]
      rfl
  have hbitmap : bitmap = fun _ => false := funext fun n => (hempty n).1
  have hary : ary = fun _ => .null := funext fun n => (hempty n).2
  rw [Slot.count] at hcount
  rw [newLayer, hbitmap, hary, hcount]

theorem addTop_ok (hok : LayerOk level p) : LayerOk (level + 1) (addTop p) := by
  refine ⟨?_, fun n => ?_⟩
  · rw [used_update hok.isNull]
    simp [used, Slot.isNull]
  rw [update_apply]
  split_ifs with hn
  · rw [hn]
    exact ⟨by simp, .inr hok⟩
  · exact ⟨by simp [hn, Slot.full], .inl rfl⟩

theorem lookup_addTop (level pos : ℕ) (p : Slot Ptr) :
    lookup (level + 2) (addTop p) pos = lookup (level + 1) p pos := by
  by_cases hlt : pos < span (level + 2)
  · have hplace : place pos (level + 1) = 0 ↔ pos < span (level + 1) := by
      rw [Fin.ext_iff]
      exact digit_eq_zero_iff hlt
    rw [lookup_of_lt hlt, addTop]
    change entry pos level (update (fun _ => Slot.null) 0 p (place pos (level + 1))) = _
    by_cases hsmall : pos < span (level + 1)
    · rw [hplace.mpr hsmall, update_self, lookup_of_lt hsmall]
      rfl
    · rw [update_of_ne (mt hplace.mp hsmall), entry_null, lookup_of_ge (not_lt.mp hsmall)]
  · have hge : span (level + 2) ≤ pos := not_lt.mp hlt
    rw [lookup_of_ge hge, lookup_of_ge ((span_mono (Nat.le_succ _)).trans hge)]

theorem lookup_newLayer (layers pos : ℕ) : lookup layers (newLayer : Slot Ptr) pos = none := by
  rw [lookup, entry_newLayer, ite_self]

/-- What becomes of a tree that has to have room for an id. -/
inductive Grown (x : ℕ) (p : Slot Ptr) (level free : ℕ) : Option (Slot Ptr × ℕ × ℕ) → Prop
  | failed (hfree : free + level + 1 < maxLayers) : Grown x p level free none
  | done {p' : Slot Ptr} {level' free' : ℕ} (hok : LayerOk level' p') (hlevel : level' < maxLayers)
      (hroom : x < span (level' + 1))
      (hheight : level' = level ∨ level < level' ∧ span level' ≤ x)
      (hlookup : ∀ pos, lookup (level' + 1) p' pos = lookup (level + 1) p pos)
      (hfree : free + level ≤ free' + level') : Grown x p level free (some (p', level' + 1, free'))

theorem Grown.of_layer {free' : ℕ} (hgrown : Grown x p' (level + 1) free' result)
    (hspan : span (level + 1) ≤ x)
    (hlookup : ∀ pos, lookup (level + 2) p' pos = lookup (level + 1) p pos)
    (hfree : free ≤ free' + 1) : Grown x p level free result := by
  cases hgrown with
  | failed hless => exact .failed (by omega)
  | done hok hlevel hroom hheight hsame hmemory =>
    refine .done hok hlevel hroom (.inr ?_) (fun pos => (hsame pos).trans (hlookup pos)) (by omega)
    rcases hheight with rfl | ⟨hless, hspan'⟩
    · exact ⟨Nat.lt_succ_self level, hspan⟩
    · exact ⟨(Nat.lt_succ_self level).trans hless, hspan'⟩

theorem growTop_spec (hid : id.toNat < limit) {more : ℕ} (hok : LayerOk level p)
    (hmore : level + 1 + more = maxLayers) :
    Grown id.toNat p level free (growTop id more p (level + 1) free) := by
  induction more generalizing p level free with
  | zero =>
    refine .done hok (by omega) ?_ (.inl rfl) (fun _ => rfl) (le_refl _)
    rw [show level + 1 = maxLayers from hmore, span_maxLayers]
    exact hid
  | succ more ih =>
    rw [growTop]
    split
    · next hsle =>
        rw [sle_iff (by omega) (hid.trans limit_lt)] at hsle
        split
        · next hcount =>
            have hnew := hok.eq_newLayer hcount
            subst hnew
            refine (ih (newLayer_ok _) (by omega)).of_layer hsle (fun pos => ?_) (Nat.le_succ _)
            rw [lookup_newLayer, lookup_newLayer]
        · split
          · next hfree => exact .failed (by omega)
          · exact (ih (addTop_ok hok) (by omega)).of_layer hsle (fun pos => lookup_addTop level pos p)
              (by omega)
    · next hsle =>
        rw [sle_iff (by omega) (hid.trans limit_lt), not_le] at hsle
        exact .done hok (by omega) hsle (.inl rfl) (fun _ => rfl) (le_refl _)

/-- The number of layers of a tree that has got room for an id. -/
def height (layers x : ℕ) : ℕ := max layers (Nat.log idrSize x + 1)

theorem span_eq_pow (level : ℕ) : span level = idrSize ^ level := Nat.pow_mul 2 idrBits level

theorem log_lt_of_lt_span (hlt : x < span (level + 1)) : Nat.log idrSize x < level + 1 := by
  rw [span_eq_pow] at hlt
  exact Nat.log_lt_of_lt_pow' (Nat.succ_ne_zero level) hlt

theorem log_eq_of_between (hge : span level ≤ x) (hlt : x < span (level + 1)) :
    Nat.log idrSize x = level := by
  refine le_antisymm (Nat.le_of_lt_succ (log_lt_of_lt_span hlt)) ?_
  rw [span_eq_pow] at hge
  exact Nat.le_log_of_pow_le (by decide) hge

theorem height_eq {level' : ℕ}
    (hheight : level' = level ∨ level < level' ∧ span level' ≤ x) (hroom : x < span (level' + 1)) :
    height (level + 1) x = level' + 1 := by
  have hlog := log_lt_of_lt_span hroom
  rcases hheight with rfl | ⟨hless, hspan⟩
  · exact max_eq_left (by omega)
  · rw [height, log_eq_of_between hspan hroom]
    exact max_eq_right (by omega)

/-- `build_up` leaves the ids alone and makes room for the new one. -/
inductive Built (idp : Handle Ptr) (x : ℕ) : Option (Handle Ptr) → Prop
  | failed (hfree : idp.idFreeCnt + idp.layers < maxLayers) : Built idp x none
  | done {idp' : Handle Ptr} {level : ℕ} (hlayers : idp'.layers = level + 1)
      (hlevel : level < maxLayers) (hok : LayerOk level idp'.top)
      (hheight : height idp.layers x = level + 1) (hroom : x < span (level + 1))
      (hids : ∀ pos, idp'.ids pos = idp.ids pos)
      (hfree : idp.idFreeCnt + idp.layers ≤ idp'.idFreeCnt + idp'.layers) :
      Built idp x (some idp')

theorem Grown.built (hgrown : Grown x p level free result)
    (hlookup : ∀ pos, lookup (level + 1) p pos = idp.ids pos)
    (hheight : height idp.layers x = height (level + 1) x)
    (hfree : idp.idFreeCnt + idp.layers ≤ free + (level + 1)) :
    Built idp x (result.map fun (p, layers, free) => ⟨p, layers, free⟩) := by
  cases hgrown with
  | failed hless => exact .failed (by omega)
  | done hok hlevel hroom hgrew hsame hmemory =>
    exact .done rfl hlevel hok (hheight.trans (height_eq hgrew hroom)) hroom
      (fun pos => (hsame pos).trans (hlookup pos)) (hfree.trans (by simp only; omega))

theorem buildUp_spec (hok : HandleOk idp) (hid : id.toNat < limit) :
    Built idp id.toNat (buildUp idp id) := by
  obtain ⟨top, layers, free⟩ := idp
  rw [buildUp]
  rcases hok with ⟨hnull, hzero⟩ | ⟨level, hlevel, hlayers, hok⟩
  · obtain rfl : top = .null := hnull
    obtain rfl : layers = 0 := hzero
    simp only [Slot.isNull, if_true]
    split
    · next hfree =>
        refine .failed ?_
        rw [show free = 0 from hfree]
        exact (by decide : 0 + 0 < maxLayers)
    · next hfree =>
        refine (growTop_spec hid (newLayer_ok 0) rfl).built (fun pos => ?_) ?_ ?_
        · rw [lookup_newLayer, Handle.ids, lookup_null]
        · rw [height, height, zero_add, max_eq_right (Nat.zero_le _),
            max_eq_right (Nat.le_add_left 1 _)]
        · change free + 0 ≤ free - 1 + (0 + 1)
          omega
  · obtain rfl : layers = level + 1 := hlayers
    simp only [hok.isNull, false_eq_true, if_false]
    refine (growTop_spec hid hok ?_).built (fun pos => rfl) rfl (le_refl _)
    exact Nat.add_sub_cancel' hlevel

/-! ## The search from the top -/

/-- From the start on there is an id below the capacity that is not taken, or the
tree can grow and the last of its slots is full. -/
def Clear (ids : ℕ → Option (Option Ptr)) (capacity start : ℕ) : Prop :=
  (∃ pos, start ≤ pos ∧ pos < capacity ∧ ids pos = none) ∨
    capacity < limit ∧ ∀ pos, capacity - capacity / idrSize ≤ pos → pos < capacity → ids pos ≠ none

/-- The number of layers that the search is about. -/
def Search.height (search : Search Ptr) : ℕ :=
  match search.label with
  | .buildUp => Idr.height search.idp.layers search.id.toNat
  | .restart => search.idp.layers

/-- What holds in a search that was started with an id. -/
structure SearchOk (idp : Handle Ptr) (start : ℕ) (search : Search Ptr) : Prop where
  ok : HandleOk search.idp
  ids_eq : ∀ pos, search.idp.ids pos = idp.ids pos
  le : start ≤ search.id.toNat
  taken : ∀ pos, start ≤ pos → pos < search.id.toNat → idp.ids pos ≠ none
  lt_limit : search.id.toNat < limit
  clear : Clear idp.ids (span search.height) start
  room : search.label = .restart → search.idp.layers ≠ 0 ∧ search.id.toNat < span search.idp.layers
  free_le : idp.idFreeCnt + idp.layers ≤ search.idp.idFreeCnt + search.idp.layers

/-- What the search for an empty slot comes to: the first id that is not taken,
or an error when there have not been enough layers. -/
inductive EmptySlot (idp : Handle Ptr) (start : ℕ) :
    Option (Handle Ptr × Except AllocError Id) → Prop
  | found {idp' : Handle Ptr} {id : Id} {level : ℕ} (hlayers : idp'.layers = level + 1)
      (hlevel : level < maxLayers) (hok : LayerOk level idp'.top)
      (hids : ∀ pos, idp'.ids pos = idp.ids pos) (hpath : Path id.toNat level idp'.top)
      (hroom : id.toNat < span (level + 1)) (hle : start ≤ id.toNat)
      (hempty : idp.ids id.toNat = none)
      (htaken : ∀ pos, start ≤ pos → pos < id.toNat → idp.ids pos ≠ none) :
      EmptySlot idp start (some (idp', .ok id))
  | noMemory {idp' : Handle Ptr} (hok : HandleOk idp') (hids : ∀ pos, idp'.ids pos = idp.ids pos)
      (hfree : idp.idFreeCnt < idrFreeMax) : EmptySlot idp start (some (idp', .error .noMemory))

/-- One step of the search goes on to a larger id or to the other label. -/
def Search.measure (search : Search Ptr) : ℕ :=
  2 * (limit - search.id.toNat) +
    match search.label with
    | .buildUp => 1
    | .restart => 0

/-- What a step of the search does. -/
def StepOk (idp : Handle Ptr) (start : ℕ) (search : Search Ptr) :
    Control (Search Ptr) (Option (Handle Ptr × Except AllocError Id)) → Prop
  | .next search' => SearchOk idp start search' ∧ search'.measure < search.measure
  | .exit result => EmptySlot idp start result

variable {idp : Handle Ptr} {search : Search Ptr} {startingId : Id} {rounds : ℕ}

theorem stepOk_buildUp (hsearch : SearchOk idp start search) (hlabel : search.label = .buildUp) :
    StepOk idp start search (slotStep search).control := by
  obtain ⟨label, idp', id⟩ := search
  obtain rfl : label = .buildUp := hlabel
  have hbuilt := buildUp_spec hsearch.ok hsearch.lt_limit
  simp only [slotStep]
  split
  · next hnone =>
      rw [hnone] at hbuilt
      cases hbuilt with
      | failed hless =>
        refine .noMemory hsearch.ok hsearch.ids_eq ?_
        have hfree := hsearch.free_le.trans_lt hless
        exact lt_of_le_of_lt (Nat.le_add_right _ _) (hfree.trans (by decide))
  · next idp'' hsome =>
      rw [hsome] at hbuilt
      cases hbuilt with
      | done hlayers hlevel hok hheight hroom hids hfree =>
        refine ⟨⟨.inr ⟨_, hlevel, hlayers, hok⟩, fun pos => (hids pos).trans (hsearch.ids_eq pos),
          hsearch.le, hsearch.taken, hsearch.lt_limit, ?_, fun _ => ?_,
          hsearch.free_le.trans hfree⟩, Nat.lt_succ_self _⟩
        · have hclear := hsearch.clear
          simp only [Search.height] at hclear ⊢
          rwa [hlayers, ← hheight]
        · exact ⟨by rw [hlayers]; exact Nat.succ_ne_zero _, hlayers ▸ hroom⟩

/-- In a tree with room for the id its block is the whole tree. -/
theorem blockEnd_top (hroom : x < span (level + 1)) : blockEnd level x = span (level + 1) := by
  rw [blockEnd, Nat.div_eq_of_lt hroom, zero_add, one_mul]

theorem span_div (level : ℕ) : span (level + 1) / idrSize = span level := by
  rw [span_succ, Nat.mul_div_cancel _ (by decide)]

/-- No id from the start up to the capacity is free: the tree can grow, and the
search has not left it by its last slot. -/
theorem Clear.of_taken {ids : ℕ → Option (Option Ptr)} (hclear : Clear ids (span (level + 1)) start)
    (htaken : ∀ pos, start ≤ pos → pos < span (level + 1) → ids pos ≠ none) :
    span (level + 1) < limit ∧
      ∀ pos, span (level + 1) - span level ≤ pos → pos < span (level + 1) → ids pos ≠ none := by
  rcases hclear with ⟨pos, hge, hlt, hnone⟩ | hclear
  · exact absurd hnone (htaken pos hge hlt)
  · rwa [span_div] at hclear

theorem stepOk_restart (hsearch : SearchOk idp start search) (hlabel : search.label = .restart) :
    StepOk idp start search (slotStep search).control := by
  obtain ⟨label, ⟨top, layers, free⟩, id⟩ := search
  obtain rfl : label = .restart := hlabel
  obtain ⟨hnonzero, hroom⟩ := hsearch.room rfl
  obtain ⟨_, hzero⟩ | ⟨level, hlevel, hlayers, hok⟩ := hsearch.ok
  · exact absurd hzero hnonzero
  obtain rfl : layers = level + 1 := hlayers
  have hend := blockEnd_top hroom
  have hlimit : span (level + 1) ≤ limit := span_mono hlevel
  have hids : ∀ pos, pos < span (level + 1) → idp.ids pos = entry pos level top := by
    intro pos hlt
    rw [← hsearch.ids_eq, Handle.ids, lookup_of_lt hlt]
    rfl
  have hclear : Clear idp.ids (span (level + 1)) start := hsearch.clear
  -- what the search has passed, from the start on
  have hpassed : ∀ {stop}, Taken level top id.toNat stop → stop ≤ span (level + 1) →
      ∀ pos, start ≤ pos → pos < stop → idp.ids pos ≠ none := by
    intro stop htaken hstop pos hge hlt
    rcases lt_or_ge pos id.toNat with hless | hmore
    · exact hsearch.taken pos hge hless
    · rw [hids pos (hlt.trans_le hstop)]
      exact htaken pos hmore hlt
  have hsame : ∀ {top' free'}, Same level top top' →
      ∀ pos, (⟨top', level + 1, free'⟩ : Handle Ptr).ids pos = idp.ids pos := by
    intro top' free' hsame pos
    rw [← hsearch.ids_eq, Handle.ids, Handle.ids, lookup, lookup]
    change (if _ then entry pos level top' else _) = if _ then entry pos level top else _
    rw [hsame.entry_eq]
  have houtcome := @subAllocFrom_spec _ id level free top hlevel hok (hend ▸ hlimit)
  simp only [slotStep, Nat.add_sub_cancel]
  generalize subAllocFrom level top id free = result at houtcome ⊢
  cases houtcome with
  | found hnew hpath hle hlt hempty htaken hmemory =>
    have hlt := hend ▸ hlt
    refine .found rfl hlevel hnew.ok (hsame hnew) hpath hlt (hsearch.le.trans hle) ?_
      (hpassed htaken hlt.le)
    rw [hids _ hlt]
    exact hempty
  | @up oid id' hblock hnext htaken =>
    rw [hend] at hnext htaken
    have hall := hpassed htaken (le_refl _)
    obtain ⟨hless, _⟩ := hclear.of_taken hall
    have hlt : id.toNat < id'.toNat := hnext ▸ hroom
    have hheight : height (level + 1) id'.toNat = level + 2 := by
      refine height_eq (.inr ⟨Nat.lt_succ_self level, hnext.ge⟩) ?_
      rw [hnext]
      exact span_lt_succ (level + 1)
    refine ⟨⟨hsearch.ok, hsearch.ids_eq, hsearch.le.trans hlt.le, hnext ▸ hall, hnext ▸ hless,
      .inl ⟨id'.toNat, hsearch.le.trans hlt.le, ?_, ?_⟩, nofun, hsearch.free_le⟩, ?_⟩
    · simp only [Search.height]
      rw [hheight, hnext]
      exact span_lt_succ (level + 1)
    · rw [← hsearch.ids_eq]
      exact lookup_of_ge hnext.ge
    · simp only [Search.measure]
      omega
  | @restart id' hlt hle htaken hlast =>
    rw [hend] at hle hlast
    have hbelow : id'.toNat < span (level + 1) := by
      refine lt_of_le_of_ne hle fun heq => hlast heq fun pos hge hless => ?_
      rw [← hids pos hless]
      exact (hclear.of_taken (heq ▸ hpassed htaken hle)).2 pos hge hless
    refine ⟨⟨hsearch.ok, hsearch.ids_eq, hsearch.le.trans hlt.le, hpassed htaken hle,
      hbelow.trans_le hlimit, hclear, fun _ => ⟨hnonzero, hbelow⟩, hsearch.free_le⟩, ?_⟩
    simp only [Search.measure]
    omega
  | failed hnew hless =>
    refine .noMemory (.inr ⟨level, hlevel, rfl, hnew.ok⟩) (hsame hnew) ?_
    have hfree : idp.idFreeCnt + idp.layers ≤ free + (level + 1) := hsearch.free_le
    change idp.idFreeCnt < 12
    change level < 5 at hlevel
    omega

theorem slotStep_ok (hsearch : SearchOk idp start search) :
    StepOk idp start search (slotStep search).control := by
  cases hlabel : search.label with
  | buildUp => exact stepOk_buildUp hsearch hlabel
  | restart => exact stepOk_restart hsearch hlabel

/-- The search never takes more labels than this. -/
def enough : ℕ := 2 * limit + 1

/-- An empty slot is found if the condition on the starting id holds. -/
theorem idrGetEmptySlot_spec (hok : HandleOk idp) (hstart : startingId.toNat < limit)
    (hclear : Clear idp.ids (span (height idp.layers startingId.toNat)) startingId.toNat)
    (hrounds : enough ≤ rounds) :
    EmptySlot idp startingId.toNat (idrGetEmptySlot idp startingId rounds) := by
  have hsearch : SearchOk idp startingId.toNat ⟨.buildUp, idp, startingId⟩ :=
    ⟨hok, fun _ => rfl, le_refl _, fun pos hge hlt => absurd hlt (not_lt.mpr hge), hstart, hclear,
      nofun, le_refl _⟩
  have hmeasure : (⟨.buildUp, idp, startingId⟩ : Search Ptr).measure ≤ rounds := by
    refine le_trans ?_ hrounds
    simp only [Search.measure, enough]
    omega
  have hstep : ∀ search control, SearchOk idp startingId.toNat search →
      (slotStep search).control = control → StepOk idp startingId.toNat search control := by
    rintro search control hsearch rfl
    exact slotStep_ok hsearch
  obtain ⟨result, hrun, hresult⟩ := exists_exit_of_measure (SearchOk idp startingId.toNat)
    (EmptySlot idp startingId.toNat) Search.measure
    (fun search hsearch => by
      have := hsearch.lt_limit
      simp only [Search.measure]
      omega)
    (fun search search' hsearch hnext => hstep search _ hsearch hnext)
    (fun search result hsearch hexit => hstep search _ hsearch hexit) hsearch hmeasure
  rw [idrGetEmptySlot, hrun]
  exact hresult

/-! ## The pointer is stored -/

theorem weight_update_true (hbit : bitmap n = false) :
    weight (update bitmap n true) = weight bitmap + 1 := by
  have hfilter : (univ.filter fun m => update bitmap n true m = true) =
      insert n (univ.filter fun m => bitmap m = true) := by
    ext m
    by_cases hm : m = n
    · simp [hm]
    · simp [hm]
  rw [weight, weight, hfilter, card_insert_of_notMem (by simp [hbit])]

theorem not_full_of_entry (hok : LayerOk level p) (hempty : entry pos level p = none) :
    p.full = false := by
  by_contra hfull
  exact entry_of_full hok (eq_true_of_not_eq_false hfull) pos hempty

theorem Path.ok_slot (hslot : p = .null ∨ LayerOk level p) (hpath : Path pos level p) :
    LayerOk level p := by
  refine hslot.resolve_left ?_
  rintro rfl
  cases level <;> exact hpath.elim

/-- The id is registered, and the flag says whether the layer has become full. -/
theorem install_spec (ptr : Option Ptr) (hid : id.toNat < 2 ^ maxIdShift) (hok : LayerOk level p)
    (hpath : Path id.toNat level p) (hempty : entry id.toNat level p = none) :
    LayerOk level (install id ptr level p).1 ∧
      (install id ptr level p).2 = (install id ptr level p).1.full ∧
      Changed level id.toNat (some ptr) p (install id ptr level p).1 := by
  have hdigit := digit_eq_place hid
  induction level generalizing p with
  | zero =>
    obtain ⟨bitmap, ary, count, rfl⟩ := hok.exists_layer
    obtain ⟨hcount, hslots⟩ := hok
    have hbit : bitmap (place id.toNat 0) = false := by
      by_contra hbit
      rw [entry_bottom, if_pos (eq_true_of_not_eq_false hbit)] at hempty
      exact Option.some_ne_none _ hempty
    simp only [install, hdigit]
    refine ⟨⟨?_, fun n => ?_⟩, rfl, .bottom ?_⟩
    · rw [weight_update_true hbit, hcount]
    · by_cases hn : n = place id.toNat 0
      · rw [hn, update_self, update_self]
        refine ⟨fun h => absurd h.symm Bool.false_ne_true, ?_⟩
        cases ptr <;> rfl
      · rw [update_of_ne hn, update_of_ne hn]
        exact hslots n
    · rw [if_pos rfl]
      cases ptr <;> rfl
  | succ level ih =>
    obtain ⟨bitmap, ary, count, rfl⟩ := hok.exists_layer
    obtain ⟨hcount, hslots⟩ := hok
    have hpath : Path id.toNat level (ary (place id.toNat (level + 1))) := hpath
    obtain ⟨hbit, hchild⟩ := hslots (place id.toNat (level + 1))
    have hchild := hpath.ok_slot hchild
    obtain ⟨hok', hup, hchanged⟩ := ih hchild hpath hempty
    rw [not_full_of_entry hchild hempty] at hbit
    -- the bit of the slot tells afterwards whether the layer below is full
    have hmark : (if (install id ptr level (ary (place id.toNat (level + 1)))).2 then
        update bitmap (place id.toNat (level + 1)) true else bitmap) =
        update bitmap (place id.toNat (level + 1))
          (install id ptr level (ary (place id.toNat (level + 1)))).1.full := by
      rw [hup]
      split
      · next hfull => rw [hfull]
      · next hfull =>
          rw [eq_false_of_not_eq_true hfull, ← hbit, update_eq_self]
    simp only [install, hdigit, hmark]
    refine ⟨⟨?_, fun n => ?_⟩, ?_, hchanged.layer⟩
    · rw [used_update hok'.isNull, hchild.isNull, if_neg Bool.false_ne_true, hcount]
    · by_cases hn : n = place id.toNat (level + 1)
      · rw [hn, update_self, update_self]
        exact ⟨rfl, .inr hok'⟩
      · rw [update_of_ne hn, update_of_ne hn]
        exact hslots n
    · rw [hup, Slot.full, and_eq_right_iff_imp]
      intro hfull
      rw [← isFull_iff.mp hfull (place id.toNat (level + 1)), update_self]

/-- The outcome of `idr_get_new_above`. -/
inductive NewId (idp : Handle Ptr) (ptr : Option Ptr) (start : ℕ) :
    Option (Handle Ptr × Except Errno Id) → Prop
  | got {idp' : Handle Ptr} {id : Id} (hok : HandleOk idp') (hlt : id.toNat < limit)
      (hle : start ≤ id.toNat) (hempty : idp.ids id.toNat = none)
      (htaken : ∀ pos, start ≤ pos → pos < id.toNat → idp.ids pos ≠ none)
      (hids : idp'.ids = Function.update idp.ids id.toNat (some ptr)) :
      NewId idp ptr start (some (idp', .ok id))
  | refused {idp' : Handle Ptr} (hok : HandleOk idp') (hids : idp'.ids = idp.ids)
      (hfree : idp.idFreeCnt < idrFreeMax) : NewId idp ptr start (some (idp', .error .eagain))

theorem Changed.lookup {value : Option (Option Ptr)} (hchanged : Changed level x value p p')
    (hroom : x < span (level + 1)) :
    lookup (level + 1) p' = update (lookup (level + 1) p) x value := by
  funext pos
  by_cases hlt : pos < span (level + 1)
  · have hagree : Agree idrBits (level + 1) pos x ↔ pos = x := agree_iff_eq hlt hroom
    rw [lookup_of_lt hlt, Nat.add_sub_cancel]
    rw [update_apply]
    split_ifs with hpos
    · rw [hpos, ← hpos]
      exact hchanged.at_id pos (hagree.mpr hpos)
    · rw [lookup_of_lt hlt]
      exact hchanged.elsewhere pos (mt hagree.mp hpos)
  · have hge := not_lt.mp hlt
    rw [lookup_of_ge hge, update_of_ne (by omega), lookup_of_ge hge]

theorem idrGetNewAbove_spec (ptr : Option Ptr) (hok : HandleOk idp)
    (hstart : startingId.toNat < limit)
    (hclear : Clear idp.ids (span (height idp.layers startingId.toNat)) startingId.toNat)
    (hrounds : enough ≤ rounds) :
    NewId idp ptr startingId.toNat (idrGetNewAbove idp ptr startingId rounds) := by
  have hslot := idrGetEmptySlot_spec hok hstart hclear hrounds
  rw [idrGetNewAbove, idrGetNewAboveInt]
  generalize idrGetEmptySlot idp startingId rounds = result at hslot ⊢
  cases hslot with
  | @found idp' id level hlayers hlevel hok hids hpath hroom hle hempty htaken =>
    have hlimit : id.toNat < limit := hroom.trans_le (span_mono hlevel)
    have hentry : entry id.toNat level idp'.top = none := by
      rw [← hempty, ← hids, Handle.ids, hlayers, lookup_of_lt hroom, Nat.add_sub_cancel]
    obtain ⟨hok', _, hchanged⟩ := install_spec ptr (hlimit.trans limit_lt) hok hpath hentry
    simp only [Option.map_some, hlayers, Nat.add_sub_cancel, Except.mapError]
    refine .got (.inr ⟨level, hlevel, rfl, hok'⟩) hlimit hle hempty htaken ?_
    have hids : lookup (level + 1) idp'.top = idp.ids := by
      rw [← funext hids]
      funext pos
      rw [Handle.ids, hlayers]
    rw [← hids]
    exact hchanged.lookup hroom
  | noMemory hok hids hfree => exact .refused hok (funext hids) hfree

end KernelM5040.Idr
