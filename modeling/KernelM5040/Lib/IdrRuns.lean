import KernelM5040.Lib.IdrGet

/-!
# Ids along a run

Lookup, removal, and the histories of a handle: which ids have been handed out
and not been removed since, and with which pointers.
-/

namespace KernelM5040.Idr

open Option Function Digits Nat BitVec Finset

variable {Ptr : Type*} {id : Id} {level layers pos x count rounds : ℕ} {bitmap : Bitmap}
  {ary : Fin idrSize → Slot Ptr} {p child : Slot Ptr} {n : Fin idrSize} {idp idp' : Handle Ptr}
  {startingId : Id} {result : Handle Ptr × Except Errno Id} {ptr : Option Ptr}

/-! ## Lookup -/

theorem findFrom_eq (hid : id.toNat < 2 ^ maxIdShift) (hok : LayerOk level p) :
    findFrom id (level + 1) p = some (.ofPtr (entry id.toNat level p).join) := by
  induction level generalizing p with
  | zero =>
    obtain ⟨bitmap, ary, count, rfl⟩ := hok.exists_layer
    obtain ⟨hempty, hslot⟩ := hok.2 (place id.toNat 0)
    rw [findFrom, findFrom, digit_eq_place hid, entry_bottom]
    split
    · rw [join_some]
      exact congrArg some hslot
    · next hbit => rw [hempty (Bool.eq_false_of_not_eq_true hbit)]; rfl
  | succ level ih =>
    obtain ⟨bitmap, ary, count, rfl⟩ := hok.exists_layer
    rw [findFrom, digit_eq_place hid, entry_layer]
    rcases (hok.2 (place id.toNat (level + 1))).2 with hnull | hchild
    · rw [hnull, entry_null]
      rfl
    · exact ih hchild

theorem toNat_and_mask (id : Id) : (id &&& maxIdMask).toNat = id.toNat % 2 ^ maxIdShift := by
  rw [toNat_and, maxIdMask, toNat_ofNat, mod_eq_of_lt (by decide), and_two_pow_sub_one_eq_mod]

theorem and_mask_of_lt (hid : id.toNat < 2 ^ maxIdShift) : id &&& maxIdMask = id := by
  apply eq_of_toNat_eq
  rw [toNat_and_mask, mod_eq_of_lt hid]

theorem idrFind_eq (hok : HandleOk idp) (id : Id) :
    idrFind idp id = some (.ofPtr (idp.ids (id &&& maxIdMask).toNat).join) := by
  have hid : (id &&& maxIdMask).toNat < 2 ^ maxIdShift := by
    rw [toNat_and_mask]
    exact mod_lt _ (Nat.two_pow_pos _)
  obtain ⟨top, layers, free⟩ := idp
  rcases hok with ⟨hnull, hzero⟩ | ⟨level, hlevel, hlayers, hok⟩
  · obtain rfl : top = .null := hnull
    obtain rfl : layers = 0 := hzero
    rw [idrFind, Handle.ids, lookup_null, findFrom, ite_self]
    rfl
  obtain rfl : layers = level + 1 := hlayers
  rw [idrFind]
  split
  · next hsle =>
      rw [sle_iff hlevel hid] at hsle
      rw [Handle.ids, lookup_of_ge hsle]
      rfl
  · next hsle =>
      rw [sle_iff hlevel hid, not_le] at hsle
      rw [findFrom_eq hid hok, Handle.ids, lookup_of_lt hsle]
      rfl

/-! ## Removal -/

theorem weight_update_false (hbit : bitmap n = true) :
    weight (update bitmap n false) = weight bitmap - 1 := by
  have hback : update (update bitmap n false) n true = bitmap := by
    rw [update_idem, ← hbit, update_eq_self]
  have hset := weight_update_true (update_self n false bitmap)
  rw [hback] at hset
  rw [hset, Nat.add_sub_cancel]

theorem used_update_null (hnull : (ary n).isNull = false) :
    used (update ary n .null) = used ary - 1 := by
  have hback : update (update ary n .null) n (ary n) = ary := by
    rw [update_idem, update_eq_self]
  have hfill := @used_update Ptr (update ary n .null) (ary n) n hnull
  rw [hback, update_self] at hfill
  rw [hfill, Slot.isNull, if_pos rfl, Nat.add_sub_cancel]

theorem LayerOk.clear_bit (hok : LayerOk 0 (.layer bitmap ary count)) (hbit : bitmap n = true) :
    LayerOk 0 (.layer (Function.update bitmap n false) (Function.update ary n .null)
      (count - 1)) := by
  refine ⟨by rw [weight_update_false hbit, hok.1], fun m => ?_⟩
  simp only [update_apply]
  split_ifs
  · exact ⟨fun _ => rfl, rfl⟩
  · exact hok.2 m

/-- The slots of a layer, with one of them replaced and marked as not full. -/
theorem LayerOk.exchange (hok : LayerOk (level + 1) (.layer bitmap ary count))
    (hfull : child.full = false) (hchild : child = .null ∨ LayerOk level child) (m : Fin idrSize) :
    Function.update bitmap n false m = (Function.update ary n child m).full ∧
      (Function.update ary n child m = .null ∨ LayerOk level (Function.update ary n child m)) := by
  simp only [update_apply]
  split_ifs
  · exact ⟨hfull.symm, hchild⟩
  · exact hok.2 m

theorem LayerOk.clear_slot (hok : LayerOk (level + 1) (.layer bitmap ary count))
    (hchild : LayerOk level (ary n)) :
    LayerOk (level + 1) (.layer (Function.update bitmap n false) (Function.update ary n .null)
      (count - 1)) :=
  ⟨by rw [used_update_null hchild.isNull, hok.1], hok.exchange rfl (.inl rfl)⟩

theorem Changed.freed (hchanged : Changed level x none p child) (hok : LayerOk level child)
    (hcount : child.count = 0) : Changed level x none p .null := by
  rw [hok.eq_newLayer hcount] at hchanged
  refine ⟨fun pos _ => entry_null pos level, fun pos hagree => ?_⟩
  rw [entry_null, ← hchanged.elsewhere pos hagree, entry_newLayer]

/-- What `sub_remove` leaves of a layer. -/
inductive Removed (level x : ℕ) (p : Slot Ptr) : Option (Slot Ptr × Bool) → Prop
  | freed (hchanged : Changed level x none p .null) : Removed level x p (some (.null, true))
  | kept {p' : Slot Ptr} (hok : LayerOk level p') (hchanged : Changed level x none p p') :
      Removed level x p (some (p', false))

theorem Removed.of_count {count' : ℕ} (hok : LayerOk level (.layer bitmap ary count'))
    (hchanged : Changed level x none p (.layer bitmap ary count')) :
    Removed level x p
      (some (if count' = 0 then (.null, true) else (.layer bitmap ary count', false))) := by
  split
  · next hzero => exact .freed (hchanged.freed hok hzero)
  · exact .kept hok hchanged

theorem entry_congr (hagree : Agree idrBits (level + 1) pos x) :
    entry pos level p = entry x level p := by
  induction level generalizing p with
  | zero =>
    cases p with
    | layer bitmap ary count => rw [entry_bottom, entry_bottom, (agree_layer.mp hagree).1]
    | _ => rfl
  | succ level ih =>
    obtain ⟨hplace, hagree⟩ := agree_layer.mp hagree
    cases p with
    | layer bitmap ary count => rw [entry_layer, entry_layer, hplace, ih hagree]
    | _ => rfl

theorem Changed.of_none (hentry : entry x level p = none) : Changed level x none p p :=
  ⟨fun _ hagree => (entry_congr hagree).trans hentry, fun _ _ => rfl⟩

theorem removeFrom_spec (hid : id.toNat < 2 ^ maxIdShift) (hok : LayerOk level p) :
    Removed level id.toNat p (removeFrom id level p) := by
  have hdigit := digit_eq_place hid
  induction level generalizing p with
  | zero =>
    obtain ⟨bitmap, ary, count, rfl⟩ := hok.exists_layer
    simp only [removeFrom, hdigit]
    split_ifs with hbit hcount
    · exact .freed (Changed.freed (.bottom rfl) (hok.clear_bit hbit) hcount)
    · exact .kept (hok.clear_bit hbit) (.bottom rfl)
    · exact .kept hok (.of_none (if_neg hbit))
  | succ level ih =>
    obtain ⟨bitmap, ary, count, rfl⟩ := hok.exists_layer
    obtain ⟨hbit, hnull | hchild⟩ := hok.2 (place id.toNat (level + 1))
    · -- the layer is left as it is: its bit for an empty slot is not set
      have hstay : removeFrom id (level + 1) (.layer bitmap ary count) =
          some (.layer bitmap ary count, false) := by
        have hbelow : removeFrom id level (.null : Slot Ptr) = some (.null, false) := by
          cases level <;> rfl
        have hunset : false = bitmap (place id.toNat (level + 1)) := by
          rw [hbit, hnull]
          rfl
        simp only [removeFrom, hdigit, hnull, hbelow, map_some, Bool.false_eq_true, if_false]
        rw [← hnull, update_eq_self, hunset, update_eq_self]
      rw [hstay]
      exact .kept hok (.of_none (by rw [entry_layer, hnull, entry_null]))
    · have hremoved := ih hchild
      simp only [removeFrom, hdigit]
      generalize removeFrom id level (ary (place id.toNat (level + 1))) = result at hremoved ⊢
      cases hremoved with
      | freed hchanged => exact .of_count (hok.clear_slot hchild) hchanged.layer
      | kept hok' hchanged =>
        have hfull := not_full_of_entry hok' (hchanged.at_id id.toNat fun _ _ => rfl)
        refine .kept ⟨?_, hok.exchange hfull (.inr hok')⟩ hchanged.layer
        rw [used_update hok'.isNull, hchild.isNull, if_neg Bool.false_ne_true, hok.1]

/-- The id stands for all ids with the same digits in the tree. -/
theorem Changed.mod {value : Option (Option Ptr)} (hchanged : Changed level x value p child) :
    Changed level (x % span (level + 1)) value p child := by
  have hsame : ∀ pos, Agree idrBits (level + 1) pos (x % span (level + 1)) ↔
      Agree idrBits (level + 1) pos x := by
    intro pos
    rw [agree_iff_mod_eq, agree_iff_mod_eq, span, mod_mod]
  exact ⟨fun pos hagree => hchanged.at_id pos ((hsame pos).mp hagree),
    fun pos hagree => hchanged.elsewhere pos fun h => hagree ((hsame pos).mpr h)⟩

/-- A top layer with a single child in its first slot stands for the same ids as
the child. -/
theorem lookup_first (hok : LayerOk (level + 1) (.layer bitmap ary 1))
    (hnull : (ary 0).isNull = false) (pos : ℕ) :
    lookup (level + 1) (ary 0) pos = lookup (level + 2) (.layer bitmap ary 1) pos := by
  have hsingle : ∀ n, n ≠ 0 → ary n = .null := by
    intro n hn
    have hused := hok.1
    rw [used, eq_comm, card_eq_one] at hused
    obtain ⟨only, honly⟩ := hused
    by_contra hne
    have hmem : ∀ m, (ary m).isNull = false → m = only := by
      intro m hm
      rw [← mem_singleton, ← honly, mem_filter]
      exact ⟨mem_univ m, hm⟩
    refine hn ((hmem n ?_).trans (hmem 0 hnull).symm)
    exact Bool.eq_false_of_not_eq_true fun h => hne (eq_null_of_isNull h)
  rw [← lookup_addTop level pos (ary 0), lookup, lookup]
  congr 1
  change entry pos level (update (fun _ => Slot.null) 0 (ary 0) _) = entry pos level (ary _)
  by_cases hplace : place pos (level + 1) = 0
  · rw [hplace, update_self]
  · rw [update_of_ne hplace, hsingle _ hplace]

theorem shrinkTop_spec (hok : HandleOk idp) :
    HandleOk (shrinkTop idp) ∧ (shrinkTop idp).ids = idp.ids := by
  obtain ⟨top, layers, free⟩ := idp
  rw [shrinkTop]
  split
  · next bitmap ary count htop =>
      obtain rfl : top = .layer bitmap ary count := htop
      split
      · next hshrink =>
          obtain ⟨rfl, hmany, hnull⟩ := hshrink
          rcases hok with ⟨hempty, _⟩ | ⟨level, hlevel, hlayers, hok⟩
          · exact absurd hempty (by simp)
          obtain rfl : layers = level + 1 := hlayers
          obtain ⟨level, rfl⟩ : ∃ below, level = below + 1 :=
            ⟨level - 1, (Nat.sub_add_cancel (lt_of_succ_lt_succ hmany)).symm⟩
          have hchild : LayerOk level (ary 0) := (hok.2 0).2.resolve_left fun h => by
            rw [h] at hnull
            exact Bool.false_ne_true hnull.symm
          exact ⟨.inr ⟨level, (lt_succ_self level).trans hlevel, rfl, hchild⟩,
            funext (lookup_first hok hnull)⟩
      · exact ⟨hok, rfl⟩
  · exact ⟨hok, rfl⟩

/-- `idr_remove` removes the id with the same digits in the tree. -/
theorem idrRemove_spec (hok : HandleOk idp) (hid : id.toNat < 2 ^ maxIdShift) :
    ∃ idp', idrRemove idp id = some idp' ∧ HandleOk idp' ∧
      idp'.ids = update idp.ids (id.toNat % span idp.layers) none := by
  obtain ⟨top, layers, free⟩ := idp
  -- the layers of the free list do not matter to the ids
  have hfinish : ∀ idp'' : Handle Ptr, HandleOk idp'' →
      ∃ idp', some { shrinkTop idp'' with
          idFreeCnt := min (shrinkTop idp'').idFreeCnt (idrFreeMax - 1) } = some idp' ∧
        HandleOk idp' ∧ idp'.ids = idp''.ids := by
    intro idp'' hok'
    obtain ⟨hshrunk, hsame⟩ := shrinkTop_spec hok'
    exact ⟨_, rfl, hshrunk, hsame⟩
  rw [idrRemove, and_mask_of_lt hid]
  rcases hok with ⟨hnull, hzero⟩ | ⟨level, hlevel, hlayers, hok⟩
  · obtain rfl : top = .null := hnull
    obtain rfl : layers = 0 := hzero
    obtain ⟨idp', hsome, hok', hids⟩ := hfinish ⟨.null, 0, free⟩ (.inl ⟨rfl, rfl⟩)
    refine ⟨idp', hsome, hok', hids.trans ?_⟩
    rw [eq_comm, update_eq_self_iff]
    exact (lookup_null _ _).symm
  · obtain rfl : layers = level + 1 := hlayers
    have hremoved := removeFrom_spec hid hok
    have hroom := mod_lt id.toNat (span_pos (level + 1))
    rw [Nat.add_sub_cancel]
    generalize removeFrom id level top = result at hremoved ⊢
    cases hremoved with
    | freed hchanged =>
      obtain ⟨idp', hsome, hok', hids⟩ := hfinish ⟨.null, 0, free⟩ (.inl ⟨rfl, rfl⟩)
      refine ⟨idp', hsome, hok', hids.trans (Eq.trans ?_ (hchanged.mod.lookup hroom))⟩
      funext pos
      exact (lookup_null _ _).trans (lookup_null _ _).symm
    | @kept top' hok hchanged =>
      obtain ⟨idp', hsome, hok', hids⟩ :=
        hfinish ⟨top', level + 1, free⟩ (.inr ⟨level, hlevel, rfl, hok⟩)
      exact ⟨idp', hsome, hok', hids.trans (hchanged.mod.lookup hroom)⟩

/-! ## Runs -/

/-- The ids that have been handed out and not been removed since, with the
pointers that were passed for them. -/
abbrev Allocated (Ptr : Type*) := ℕ → Option (Option Ptr)

variable (call : Handle Ptr → Allocated Ptr → Id → Prop)

/-- The states that a handle can come to, together with its allocated ids.  The
condition is one on the starting ids of the calls. -/
inductive Run : Handle Ptr → Allocated Ptr → Prop
  | init : Run idrInit fun _ => none
  | preGet {idp : Handle Ptr} {allocated : Allocated Ptr} (available : ℕ)
      (hrun : Run idp allocated) : Run (idrPreGet idp available).2 allocated
  | got {idp idp' : Handle Ptr} {allocated : Allocated Ptr} {ptr : Option Ptr} {startingId id : Id}
      {rounds : ℕ} (hrun : Run idp allocated) (hcall : call idp allocated startingId)
      (hget : idrGetNewAbove idp ptr startingId rounds = some (idp', .ok id)) :
      Run idp' (update allocated id.toNat (some ptr))
  | refused {idp idp' : Handle Ptr} {allocated : Allocated Ptr} {ptr : Option Ptr}
      {startingId : Id} {errno : Errno} {rounds : ℕ} (hrun : Run idp allocated)
      (hcall : call idp allocated startingId)
      (hget : idrGetNewAbove idp ptr startingId rounds = some (idp', .error errno)) :
      Run idp' allocated
  | removed {idp idp' : Handle Ptr} {allocated : Allocated Ptr} {id : Id}
      (hrun : Run idp allocated) (hallocated : allocated id.toNat ≠ none)
      (hremove : idrRemove idp id = some idp') :
      Run idp' (update allocated id.toNat none)

/-- The starting id is one that the tree can get room for, and from it on there is
an id in the tree that is not allocated, or the tree can grow and its last slot is
full. -/
def Safe (idp : Handle Ptr) (allocated : Allocated Ptr) (startingId : Id) : Prop :=
  startingId.toNat < limit ∧
    Clear allocated (span (height idp.layers startingId.toNat)) startingId.toNat

/-- The tree is well formed and has the allocated ids. -/
structure Keeps (idp : Handle Ptr) (allocated : Allocated Ptr) : Prop where
  ok : HandleOk idp
  ids_eq : idp.ids = allocated

theorem idrGetNewAbove_mono {more : ℕ}
    (hget : idrGetNewAbove idp ptr startingId rounds = some result) (hle : rounds ≤ more) :
    idrGetNewAbove idp ptr startingId more = some result := by
  rw [idrGetNewAbove, idrGetNewAboveInt, idrGetEmptySlot] at hget ⊢
  cases hrun : Machine.runFor slotStep rounds ⟨.buildUp, idp, startingId⟩ with
  | next search =>
    rw [hrun] at hget
    exact absurd hget (by simp)
  | exit _ =>
    rw [hrun] at hget
    rwa [Machine.runFor_exit_mono hrun hle]

variable {allocated : Allocated Ptr}

theorem Keeps.newId (hkeeps : Keeps idp allocated) (hsafe : Safe idp allocated startingId)
    (hget : idrGetNewAbove idp ptr startingId rounds = some result) :
    NewId idp ptr startingId.toNat (some result) := by
  obtain ⟨hok, rfl⟩ := hkeeps
  rw [← idrGetNewAbove_mono hget (Nat.le_add_right rounds enough)]
  exact idrGetNewAbove_spec ptr hok hsafe.1 hsafe.2 (Nat.le_add_left enough rounds)

theorem idrPreGet_keeps (available : ℕ) (hkeeps : Keeps idp allocated) :
    Keeps (idrPreGet idp available).2 allocated := by
  rw [idrPreGet]
  split
  · split <;> exact ⟨hkeeps.ok, hkeeps.ids_eq⟩
  · exact hkeeps

theorem lt_span_of_ids (hids : idp.ids pos ≠ none) : pos < span idp.layers := by
  by_contra hge
  exact hids (lookup_of_ge (not_lt.mp hge))

theorem HandleOk.span_le (hok : HandleOk idp) : span idp.layers ≤ limit := by
  rcases hok with ⟨_, hzero⟩ | ⟨level, hlevel, hlayers, _⟩
  · rw [hzero]
    decide
  · rw [hlayers]
    exact span_mono hlevel

/-- The tree has the allocated ids in every state of a run whose calls are safe if
they come to an end. -/
theorem Run.keeps {call : Handle Ptr → Allocated Ptr → Id → Prop} (hrun : Run call idp allocated)
    (hcall : ∀ {idp allocated ptr startingId rounds result}, Keeps idp allocated →
      call idp allocated startingId → idrGetNewAbove idp ptr startingId rounds = some result →
      Safe idp allocated startingId) : Keeps idp allocated := by
  induction hrun with
  | init => exact ⟨.inl ⟨rfl, rfl⟩, funext fun pos => lookup_null _ _⟩
  | preGet available _ ih => exact idrPreGet_keeps available ih
  | got _ hstart hget ih =>
    cases ih.newId (hcall ih hstart hget) hget with
    | got hok _ _ _ _ hids =>
      rw [ih.ids_eq] at hids
      exact ⟨hok, hids⟩
  | refused _ hstart hget ih =>
    cases ih.newId (hcall ih hstart hget) hget with
    | refused hok hids _ => exact ⟨hok, hids.trans ih.ids_eq⟩
  | removed _ hallocated hremove ih =>
    rw [← ih.ids_eq] at hallocated ⊢
    have hid := ((lt_span_of_ids hallocated).trans_le ih.ok.span_le).trans limit_lt
    obtain ⟨idp', hsome, hok, hids⟩ := idrRemove_spec ih.ok hid
    rw [mod_eq_of_lt (lt_span_of_ids hallocated)] at hids
    rw [hremove, some_inj] at hsome
    rw [hsome]
    exact ⟨hok, hids⟩

/-- In a run of safe calls a safe call comes to an end with the least id that is not
allocated, and registers the pointer for this id alone; without enough layers it
may be refused and then changes nothing. -/
theorem idrGetNewAbove_exact {allocated : Allocated Ptr} {startingId : Id}
    (hrun : Run Safe idp allocated) (hsafe : Safe idp allocated startingId) (ptr : Option Ptr)
    (hrounds : enough ≤ rounds) :
    ∃ idp' result, idrGetNewAbove idp ptr startingId rounds = some (idp', result) ∧
      (idrFreeMax ≤ idp.idFreeCnt → ∃ id, result = .ok id) ∧
      match result with
      | .ok id =>
        IsLeast {pos | startingId.toNat ≤ pos ∧ allocated pos = none} id.toNat ∧
          id.toNat < 2 ^ maxIdShift ∧ idrFind idp' id = some (.ofPtr ptr) ∧
          ∀ other, other &&& maxIdMask ≠ id → idrFind idp' other = idrFind idp other
      | .error errno => errno = .eagain ∧ ∀ other, idrFind idp' other = idrFind idp other := by
  obtain ⟨hok, rfl⟩ := hrun.keeps fun _ hcall _ => hcall
  have hnew := idrGetNewAbove_spec ptr hok hsafe.1 hsafe.2 hrounds
  generalize idrGetNewAbove idp ptr startingId rounds = result at hnew ⊢
  cases hnew with
  | @got idp' id hok' hlt hle hempty htaken hids =>
    refine ⟨idp', .ok id, rfl, fun _ => ⟨id, rfl⟩, ⟨⟨hle, hempty⟩, ?_⟩, hlt.trans limit_lt, ?_,
      fun other hother => ?_⟩
    · rintro pos ⟨hge, hnone⟩
      exact not_lt.mp fun hless => htaken pos hge hless hnone
    · rw [idrFind_eq hok', and_mask_of_lt (hlt.trans limit_lt), hids, update_self]
      rfl
    · rw [idrFind_eq hok', idrFind_eq hok, hids, update_of_ne]
      exact fun heq => hother (eq_of_toNat_eq heq)
  | @refused idp' hok' hids hfree =>
    refine ⟨idp', .error .eagain, rfl, fun hmany => absurd hfree (not_lt.mpr hmany), rfl,
      fun other => ?_⟩
    rw [idrFind_eq hok', idrFind_eq hok, hids]

/-- The first id of a new handle is its starting id. -/
theorem idrGetNewAbove_exact_first :
    ∃ idp', idrGetNewAbove (idrPreGet (idrInit : Handle Unit) idrFreeMax).2 (some ()) 70 enough =
      some (idp', .ok 70) := by
  have hrun : Run Safe (idrPreGet (idrInit : Handle Unit) idrFreeMax).2 fun _ => none :=
    .preGet idrFreeMax .init
  have hsafe : Safe (idrPreGet (idrInit : Handle Unit) idrFreeMax).2 (fun _ => none) 70 := by
    refine ⟨by decide, .inl ⟨70, le_refl _, ?_, rfl⟩⟩
    decide
  obtain ⟨idp', result, hget, hok, hresult⟩ :=
    idrGetNewAbove_exact hrun hsafe (some ()) (le_refl enough)
  obtain ⟨id, rfl⟩ := hok (by decide)
  obtain ⟨⟨hge, _⟩, hleast⟩ := hresult.1
  have hid : id = 70 := eq_of_toNat_eq (le_antisymm (hleast ⟨le_refl _, rfl⟩) hge)
  exact ⟨idp', hid ▸ hget⟩

/-- When the last ids of a tree are wanted and taken, the search starts from the
top with an id that the tree has no room for, and the pointer is stored for
another id. -/
theorem getNewAbove_stores_elsewhere :
    ∃ (idp idp' : Handle Unit) (allocated : Allocated Unit) (rounds : ℕ),
      Run (fun _ _ _ => True) idp allocated ∧ idrFreeMax ≤ idp.idFreeCnt ∧
        allocated 0 = none ∧ allocated 4096 = none ∧
        idrGetNewAbove idp (some ()) 4095 rounds = some (idp', .ok 4096) ∧
        idrFind idp' 4096 = some .null ∧ idrFind idp' 0 ≠ some .null := by
  have hfirst : ((idrGetNewAbove (idrPreGet (idrInit : Handle Unit) idrFreeMax).2 (some ()) 4095 3).map
      fun result => result.2.toOption) = some (some 4095) := by decide +kernel
  have hsecond : ((idrGetNewAbove (idrPreGet (idrInit : Handle Unit) idrFreeMax).2 (some ()) 4095 3).map
      fun result => (idrGetNewAbove (idrPreGet result.1 idrFreeMax).2 (some ()) 4095 4).map
        fun result' => (result'.2.toOption, (idrFind result'.1 4096).map Slot.isNull,
          (idrFind result'.1 0).map Slot.isNull, (idrPreGet result.1 idrFreeMax).2.idFreeCnt)) =
      some (some (some 4096, some true, some false, idrFreeMax)) := by decide +kernel
  obtain ⟨⟨idp, result⟩, hget, hid⟩ := map_eq_some_iff.mp hfirst
  rw [hget, map_some, some_inj] at hsecond
  obtain ⟨⟨idp', result'⟩, hget', hvalues⟩ := map_eq_some_iff.mp hsecond
  simp only [Prod.mk.injEq] at hvalues hid
  obtain ⟨hid', hfind, hother, hfree⟩ := hvalues
  obtain ⟨slot, hslot, hnull⟩ := map_eq_some_iff.mp hfind
  cases result with
  | error _ => exact absurd hid (by simp [Except.toOption])
  | ok id =>
    cases result' with
    | error _ => exact absurd hid' (by simp [Except.toOption])
    | ok id' =>
      obtain rfl : id = 4095 := some.inj hid
      obtain rfl : id' = 4096 := some.inj hid'
      refine ⟨_, idp', _, 4, .preGet idrFreeMax (.got (.preGet idrFreeMax .init) trivial hget),
        hfree.ge, rfl, rfl, hget', ?_, ?_⟩
      · rw [hslot, eq_null_of_isNull hnull]
      · intro hzero
        rw [hzero] at hother
        exact absurd hother (by decide)

end KernelM5040.Idr
