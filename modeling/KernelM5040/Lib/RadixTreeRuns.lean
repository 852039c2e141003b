import KernelM5040.Lib.RadixTreeTags

/-!
# Runs of a radix tree

The operations on the root: the tree grows, shrinks and turns into a single item
without a change of its map and of its tags.  Over every run the tree stands for the
finite map of the insertions and deletions that have been made.
-/

namespace KernelM5040.RadixTree

open Prod Option Function Digits List

variable {Item : Type*} {index key : Index} {tag : Fin maxTags} {level height nodes : ℕ}
  {slots : Fin mapSize → Slot Item} {tags : Tags} {slot : Slot Item}
  {above : Fin maxTags → Bool} {value : Item} {state : Bool} {root root' middle : Root Item}

/-- The map of a tree with the given height. -/
def mapAt (height : ℕ) (slot : Slot Item) (index : Index) : Option Item :=
  if index ≤ radixTreeMaxindex height then find index height slot else none

def Root.items (root : Root Item) : Index → Option Item := mapAt root.height root.rnode

/-- The tag of an item in a tree of the given height. -/
def tagAt (height : ℕ) (slot : Slot Item) (above : Fin maxTags → Bool) (key : Index)
    (tag : Fin maxTags) : Bool :=
  decide (key ≤ radixTreeMaxindex height) && carries key tag height slot above

def Root.carries (root : Root Item) : Index → Fin maxTags → Bool :=
  tagAt root.height root.rnode root.tags

structure RootOk (root : Root Item) : Prop where
  wellFormed : WellFormed root.height root.rnode
  height_le : root.height ≤ maxPath

/-- A well-formed tree with exact tags. -/
structure TaggedOk (root : Root Item) : Prop where
  ok : RootOk root
  tags : TagsOk root.height root.rnode root.tags

/-- A change of the root that the tags do not see. -/
structure SameRootTags (root root' : Root Item) : Prop where
  tags : TagsOk root'.height root'.rnode root'.tags
  carries : ∀ key tag, root'.carries key tag = root.carries key tag

/-- A change of the root that neither the map nor the tags see. -/
structure SameRoot (root root' : Root Item) : Prop extends SameRootTags root root' where
  ok : RootOk root'
  items : ∀ key, root'.items key = root.items key

theorem SameRootTags.trans (hfirst : SameRootTags root middle)
    (hsecond : SameRootTags middle root') : SameRootTags root root' :=
  ⟨hsecond.tags, fun key tag => (hsecond.carries key tag).trans (hfirst.carries key tag)⟩

theorem SameRoot.trans (hfirst : SameRoot root middle)
    (hsecond : SameRoot middle root') : SameRoot root root' :=
  ⟨hfirst.toSameRootTags.trans hsecond.toSameRootTags, hsecond.ok,
    fun key => (hsecond.items key).trans (hfirst.items key)⟩

theorem SameRoot.refl (hok : TaggedOk root) : SameRoot root root :=
  ⟨⟨hok.tags, fun _ _ => rfl⟩, hok.ok, fun _ => rfl⟩

theorem SameRoot.taggedOk (hsame : SameRoot root root') : TaggedOk root' := ⟨hsame.ok, hsame.tags⟩

theorem mapAt_null (height : ℕ) (key : Index) : mapAt height (.null : Slot Item) key = none := by
  rw [mapAt, find_null, ite_self]

theorem tagAt_null (hnull : TagsOk height (.null : Slot Item) above) (key : Index)
    (tag : Fin maxTags) : tagAt height (.null : Slot Item) above key tag = false := by
  rw [tagAt, carries_null hnull, Bool.and_false]

theorem carries_of_le (hkey : key ≤ radixTreeMaxindex root.height) (tag : Fin maxTags) :
    root.carries key tag = carries key tag root.height root.rnode root.tags := by
  rw [Root.carries, tagAt, decide_eq_true hkey, Bool.true_and]

theorem carries_of_not_le (hkey : ¬ key ≤ radixTreeMaxindex root.height) (tag : Fin maxTags) :
    root.carries key tag = false := by
  rw [Root.carries, tagAt, decide_eq_false hkey, Bool.false_and]

/-- Two indices of a tree that take the same path are the same. -/
theorem samePath_iff (hkey : key ≤ radixTreeMaxindex height)
    (hindex : index ≤ radixTreeMaxindex height) : SamePath height key index ↔ key = index := by
  rw [le_radixTreeMaxindex] at hkey hindex
  rw [SamePath, agree_iff_eq hkey hindex]
  exact BitVec.toNat_inj

/-! ## Height -/

/-- The indices of a tree that is one level lower go through the first slot. -/
theorem le_maxindex_iff : key ≤ radixTreeMaxindex level ↔
    key ≤ radixTreeMaxindex (level + 1) ∧ offset key level = 0 := by
  rw [le_radixTreeMaxindex, le_radixTreeMaxindex, Fin.ext_iff, offset_val]
  have hle : 2 ^ (mapShift * level) ≤ 2 ^ (mapShift * (level + 1)) :=
    Nat.pow_le_pow_right (by decide) (Nat.mul_le_mul_left mapShift (Nat.le_succ level))
  constructor
  · intro hkey
    exact ⟨hkey.trans_le hle, (digit_eq_zero_iff (hkey.trans_le hle)).mpr hkey⟩
  · rintro ⟨hkey, hzero⟩
    exact (digit_eq_zero_iff hkey).mp hzero

/-- A top node with a single child in its first slot does not matter. -/
theorem sameRoot_top (hok : TaggedOk (⟨level + 1, above, .node height 1 slots tags⟩ : Root Item))
    (hfirst : (slots 0).isNull = false) :
    SameRoot ⟨level + 1, above, .node height 1 slots tags⟩ ⟨level, above, slots 0⟩ := by
  obtain ⟨⟨hnode, hheight⟩, htags⟩ := hok
  obtain ⟨hunion, _, hslots⟩ := tagsOk_node.mp htags
  have hempty : ∀ place, place ≠ 0 → slots place = .null := fun place hplace =>
    eq_null_of_isNull (isNull_of_used_eq_one hnode.2.1.symm hfirst hplace)
  have habove : (fun tag => tags tag 0) = above := by
    funext tag
    rw [Bool.eq_iff_iff, hunion]
    refine ⟨fun hset => ⟨0, hset⟩, fun ⟨place, hset⟩ => ?_⟩
    by_cases hplace : place = 0
    · rw [← hplace]
      exact hset
    have hslot := hslots place
    rw [hempty place hplace, tagsOk_null] at hslot
    rw [hslot tag] at hset
    simp at hset
  have hzero := hslots 0
  rw [habove] at hzero
  refine ⟨⟨hzero, fun key tag => ?_⟩, ⟨hnode.2.2 0, Nat.le_of_succ_le hheight⟩, fun key => ?_⟩
  · rw [Root.carries, Root.carries, tagAt, tagAt, carries_node,
      decide_eq_decide.mpr le_maxindex_iff, Bool.decide_and]
    by_cases hplace : offset key level = 0
    · rw [decide_eq_true hplace, hplace, habove, Bool.and_true]
    · have hslot := hslots (offset key level)
      rw [hempty _ hplace] at hslot ⊢
      rw [carries_null hslot, decide_eq_false hplace, Bool.and_false, Bool.false_and]
  · rw [Root.items, Root.items, mapAt, mapAt, find_node, if_congr le_maxindex_iff rfl rfl]
    by_cases hplace : offset key level = 0
    · simp only [hplace, and_true]
    · rw [hempty _ hplace, find_null, ite_self, if_neg (hplace ∘ And.right)]

theorem shrinkFrom_spec (hok : TaggedOk (⟨level, above, slot⟩ : Root Item))
    (hnull : slot.isNull = false) :
    ∃ height slot', shrinkFrom level slot = some (height, slot') ∧
      SameRoot ⟨level, above, slot⟩ ⟨height, above, slot'⟩ := by
  induction level generalizing slot with
  | zero => exact ⟨0, slot, rfl, .refl hok⟩
  | succ level ih =>
    obtain ⟨count, slots, tags, rfl⟩ := hok.ok.wellFormed.exists_node hnull
    rw [shrinkFrom]
    split_ifs with hcount hfirst
    · exact ⟨_, _, rfl, .refl hok⟩
    · exact ⟨_, _, rfl, .refl hok⟩
    obtain rfl : count = 1 := not_not.mp hcount
    have hfirst : (slots 0).isNull = false := Bool.eq_false_of_not_eq_true hfirst
    have htop := sameRoot_top hok hfirst
    obtain ⟨height', slot', heq, hsame⟩ := ih htop.taggedOk hfirst
    exact ⟨height', slot', heq, htop.trans hsame⟩

theorem wellFormed_addLevel (hok : WellFormed root.height root.rnode)
    (hnull : root.rnode.isNull = false) : WellFormed (root.height + 1) (addLevel root).rnode := by
  refine ⟨rfl, ?_, wellFormed_update (fun _ => wellFormed_null _) hok 0⟩
  have hupdate := used_update (fun _ => (.null : Slot Item)) 0 root.rnode
  rw [hnull] at hupdate
  simpa [used, Slot.isNull] using hupdate.symm

theorem addLevel_spec (hok : TaggedOk root) (hnull : root.rnode.isNull = false)
    (hheight : root.height < maxPath) : SameRoot root (addLevel root) := by
  have htags : TagsOk (root.height + 1) (addLevel root).rnode root.tags := by
    refine tagsOk_node.mpr ⟨fun tag => by simp, fun tag place hset => ?_,
      tagsOk_update (fun other hother => ?_) ?_⟩
    · obtain ⟨rfl, _⟩ : place = 0 ∧ root.tags tag = true := by simpa using hset
      simp
    · simp [hother]
    · simpa using hok.tags
  have hok' : TaggedOk (addLevel root) :=
    ⟨⟨wellFormed_addLevel hok.ok.wellFormed hnull, hheight⟩, htags⟩
  have htop := sameRoot_top hok' (by rw [update_self]; exact hnull)
  rw [update_self] at htop
  exact ⟨⟨htags, fun key tag => (htop.carries key tag).symm⟩, hok'.ok,
    fun key => (htop.items key).symm⟩

theorem extendLevels_spec (levels nodes : ℕ) (hok : TaggedOk root)
    (hnull : root.rnode.isNull = false) (hheight : root.height + levels ≤ maxPath) :
    SameRoot root (extendLevels levels root nodes).2 ∧
      ((extendLevels levels root nodes).1 ≠ none →
        (extendLevels levels root nodes).2.height = root.height + levels) := by
  induction levels generalizing root nodes with
  | zero => exact ⟨.refl hok, fun _ => rfl⟩
  | succ levels ih =>
    cases nodes with
    | zero => exact ⟨.refl hok, fun h => absurd rfl h⟩
    | succ nodes =>
      have hlevel := addLevel_spec hok hnull (by omega)
      have hsum : (addLevel root).height + levels = root.height + (levels + 1) :=
        Nat.succ_add_eq_add_succ root.height levels
      obtain ⟨hsame, hheight'⟩ := ih nodes hlevel.taggedOk rfl (by rwa [hsum])
      exact ⟨hlevel.trans hsame, fun hsome => (hheight' hsome).trans hsum⟩

theorem le_maxindex_maxPath (index : Index) : index ≤ radixTreeMaxindex maxPath := by
  rw [le_radixTreeMaxindex]
  exact index.isLt.trans (by decide)

theorem growHeight_spec {fuel height : ℕ} (hfuel : maxPath ≤ height + fuel)
    (hheight : height ≤ maxPath) :
    height ≤ growHeight index fuel height ∧ growHeight index fuel height ≤ maxPath ∧
      index ≤ radixTreeMaxindex (growHeight index fuel height) := by
  induction fuel generalizing height with
  | zero =>
    obtain rfl : height = maxPath := by omega
    exact ⟨le_rfl, le_rfl, le_maxindex_maxPath index⟩
  | succ fuel ih =>
    rw [growHeight]
    split
    · rename_i hmore
      have hlt : height < maxPath := by
        refine lt_of_le_of_ne hheight ?_
        rintro rfl
        exact absurd (le_maxindex_maxPath index) (BitVec.not_le.mpr hmore)
      obtain ⟨hge, hle, hindex⟩ := @ih (height + 1) (by omega) hlt
      exact ⟨by omega, hle, hindex⟩
    · rename_i hfits
      exact ⟨le_rfl, hheight, BitVec.not_lt.mp hfits⟩

theorem growHeight_of_gt (hheight : root.height ≤ maxPath)
    (hindex : index > radixTreeMaxindex root.height) :
    root.height + 1 ≤ growHeight index maxPath (root.height + 1) ∧
      growHeight index maxPath (root.height + 1) ≤ maxPath ∧
      index ≤ radixTreeMaxindex (growHeight index maxPath (root.height + 1)) := by
  have hlt : root.height < maxPath := by
    refine lt_of_le_of_ne hheight fun heq => ?_
    rw [heq] at hindex
    exact absurd (le_maxindex_maxPath index) (BitVec.not_le.mpr hindex)
  exact @growHeight_spec index maxPath (root.height + 1) (by omega) hlt

theorem radixTreeExtend_spec (nodes : ℕ) (hok : TaggedOk root)
    (hindex : index > radixTreeMaxindex root.height) :
    SameRoot root (radixTreeExtend root index nodes).2 ∧
      ((radixTreeExtend root index nodes).1 ≠ none →
        index ≤ radixTreeMaxindex (radixTreeExtend root index nodes).2.height) := by
  obtain ⟨hge, hle, hfits⟩ := growHeight_of_gt hok.ok.height_le hindex
  rw [radixTreeExtend]
  generalize growHeight index maxPath (root.height + 1) = height at hge hle hfits ⊢
  cases hnull : root.rnode.isNull with
  | true =>
    obtain ⟨_, tags, rnode⟩ := root
    obtain rfl : rnode = .null := eq_null_of_isNull hnull
    have htags : ∀ level, TagsOk level (.null : Slot Item) tags := fun _ =>
      tagsOk_null.mpr (tagsOk_null.mp hok.tags)
    exact ⟨⟨⟨htags height, fun key tag =>
      (tagAt_null (htags _) key tag).trans (tagAt_null (htags _) key tag).symm⟩,
      ⟨wellFormed_null height, hle⟩, fun key => (mapAt_null _ key).trans (mapAt_null _ key).symm⟩,
      fun _ => hfits⟩
  | false =>
    have hheight : root.height + (height - root.height) = height := by omega
    obtain ⟨hsame, hheight'⟩ :=
      extendLevels_spec (height - root.height) nodes hok hnull (by omega)
    refine ⟨hsame, fun hsome => ?_⟩
    have htall := hheight' hsome
    rw [hheight] at htall
    simp only [Bool.false_eq_true, if_false]
    rw [htall]
    exact hfits

/-! ## The operations -/

theorem radixTreeLookup_eq (hok : RootOk root) (index : Index) :
    radixTreeLookup root index = some (.ofOption (root.items index)) := by
  obtain ⟨hroot, hheight⟩ := hok
  obtain ⟨height, tags, rnode⟩ := root
  dsimp only at hroot
  induction hroot using WellFormed.induction with
  | null =>
    rw [Root.items, mapAt_null]
    rfl
  | item =>
    have hzero : radixTreeMaxindex 0 = 0 := by decide
    simp only [radixTreeLookup, Root.items, mapAt, hzero]
    by_cases hindex : index > 0
    · rw [if_pos hindex, if_neg (BitVec.not_le.mpr hindex)]
      rfl
    · rw [if_neg hindex, if_pos (BitVec.not_lt.mp hindex)]
      rfl
  | node level _ _ _ _ hnode =>
    obtain rfl := hnode.1
    simp only [radixTreeLookup, Root.items, mapAt]
    by_cases hindex : index > radixTreeMaxindex (level + 1)
    · rw [if_pos hindex, if_neg (BitVec.not_le.mpr hindex)]
      rfl
    · rw [if_neg hindex, if_pos (BitVec.not_lt.mp hindex)]
      exact lookupFrom_eq hnode

/-- What `radix_tree_insert` has done to the map. -/
structure InsertStep (root : Root Item) (index : Index) (value : Item) (status : Status)
    (root' : Root Item) : Prop where
  ok : RootOk root'
  eexist_iff : status = .eexist ↔ root.items index ≠ none
  stored : status = .ok → root'.items index = some value
  kept : ∀ key, status ≠ .ok ∨ key ≠ index → root'.items key = root.items key

theorem insertInto_spec (value : Item) (nodes : ℕ) (hok : TaggedOk root)
    (hindex : index ≤ radixTreeMaxindex root.height) :
    ∃ status root', insertInto root index value nodes = some (status, root') ∧
      InsertStep root index value status root' ∧ SameRootTags root root' := by
  obtain ⟨status, rnode, heq, hinserted, htags, hcarries⟩ :=
    insertFrom_spec value nodes hok.ok.wellFormed hok.tags
  refine ⟨status, { root with rnode := rnode }, by rw [insertInto, heq]; rfl,
    ⟨⟨hinserted.wellFormed, hok.ok.height_le⟩, ?_, ?_, ?_⟩, htags, fun key tag => ?_⟩
  · rw [hinserted.eexist_iff, Root.items, mapAt, if_pos hindex]
  · intro hstatus
    rw [Root.items, mapAt, if_pos hindex]
    exact hinserted.stored hstatus index ((samePath_iff hindex hindex).mpr rfl)
  · intro key hkey
    simp only [Root.items, mapAt]
    by_cases hin : key ≤ radixTreeMaxindex root.height
    · rw [if_pos hin, if_pos hin]
      apply hinserted.kept
      rw [samePath_iff hin hindex]
      exact hkey
    · rw [if_neg hin, if_neg hin]
  · rw [Root.carries, Root.carries, tagAt, tagAt, hcarries]

theorem radixTreeInsert_spec (index : Index) (value : Item) (nodes : ℕ) (hok : TaggedOk root) :
    ∃ status root', radixTreeInsert root index value nodes = some (status, root') ∧
      InsertStep root index value status root' ∧ SameRootTags root root' := by
  rw [radixTreeInsert]
  by_cases hindex : index > radixTreeMaxindex root.height
  · rw [if_pos hindex]
    have hnone : root.items index = none := if_neg (BitVec.not_le.mpr hindex)
    obtain ⟨hsame, hfits⟩ := radixTreeExtend_spec nodes hok hindex
    generalize radixTreeExtend root index nodes = extended at hsame hfits ⊢
    obtain ⟨result, taller⟩ := extended
    cases result with
    | none =>
      exact ⟨.enomem, taller, rfl, ⟨hsame.ok, by simp [hnone], by simp,
        fun key _ => hsame.items key⟩, hsame.toSameRootTags⟩
    | some left =>
      obtain ⟨status, root', heq, hstep, htags⟩ :=
        insertInto_spec value left hsame.taggedOk (hfits (by simp))
      refine ⟨status, root', heq, ⟨hstep.ok, ?_, hstep.stored, fun key hkey => ?_⟩,
        hsame.toSameRootTags.trans htags⟩
      · rw [hstep.eexist_iff, hsame.items]
      · rw [hstep.kept key hkey, hsame.items]
  · rw [if_neg hindex]
    exact insertInto_spec value nodes hok (BitVec.not_lt.mp hindex)

/-- A root with the same map. -/
structure SameItems (root root' : Root Item) : Prop where
  height : root'.height = root.height
  retagged : Retagged root.height root.rnode root'.rnode

theorem SameItems.ok (hsame : SameItems root root') (hok : RootOk root) : RootOk root' := by
  obtain ⟨hheight, hretagged⟩ := hsame
  refine ⟨?_, ?_⟩
  · rw [hheight]
    exact hretagged.wellFormed
  · rw [hheight]
    exact hok.height_le

theorem SameItems.items (hsame : SameItems root root') (key : Index) :
    root'.items key = root.items key := by
  rw [Root.items, Root.items, mapAt, mapAt, hsame.height, hsame.retagged.find]

theorem SameItems.trans (hfirst : SameItems root middle)
    (hsecond : SameItems middle root') : SameItems root root' := by
  obtain ⟨hheight, hretagged⟩ := hsecond
  rw [hfirst.height] at hheight hretagged
  exact ⟨hheight, hretagged.wellFormed, hretagged.isNull.trans hfirst.retagged.isNull,
    fun key => (hretagged.find key).trans (hfirst.retagged.find key)⟩

/-- What setting or clearing a tag has done. -/
structure TagStep (root : Root Item) (index : Index) (tag : Fin maxTags) (state : Bool)
    (root' : Root Item) : Prop where
  items : SameItems root root'
  tags : TagsOk root'.height root'.rnode root'.tags
  changed : root'.carries index tag = state
  kept : ∀ key other, ¬ (key = index ∧ other = tag) →
    root'.carries key other = root.carries key other

theorem TagChanged.tagStep {rnode : Slot Item} {above' : Fin maxTags → Bool}
    (hchanged : TagChanged index tag state root.height root.rnode rnode root.tags above')
    (hindex : index ≤ radixTreeMaxindex root.height) :
    TagStep root index tag state { root with rnode := rnode, tags := above' } := by
  refine ⟨⟨rfl, hchanged.retagged⟩, hchanged.ok, ?_, fun key other hkept => ?_⟩
  · rw [Root.carries, tagAt, decide_eq_true hindex, Bool.true_and]
    exact hchanged.changed index ((samePath_iff hindex hindex).mpr rfl)
  rw [Root.carries, Root.carries, tagAt, tagAt]
  by_cases hkey : key ≤ radixTreeMaxindex root.height
  · rw [hchanged.kept key other (by rwa [samePath_iff hkey hindex])]
  · rw [decide_eq_false hkey, Bool.false_and, Bool.false_and]

theorem radixTreeTagSet_spec (tag : Fin maxTags) (hok : TaggedOk root)
    (hfound : root.items index = some value) :
    ∃ root', radixTreeTagSet root index tag = some (.item value, root') ∧
      TagStep root index tag true root' := by
  have hindex : index ≤ radixTreeMaxindex root.height := by
    by_contra hout
    rw [Root.items, mapAt, if_neg hout] at hfound
    simp at hfound
  rw [Root.items, mapAt, if_pos hindex] at hfound
  obtain ⟨rnode, heq, hchanged⟩ := tagSetFrom_spec tag hok.ok.wellFormed hok.tags hfound
  refine ⟨_, ?_, hchanged.tagStep hindex⟩
  have htags : (if (!(Slot.item value).isNull && !root.tags tag) = true then
      update root.tags tag true else root.tags) = update root.tags tag true := by
    cases hset : root.tags tag with
    | true =>
      rw [← hset, update_eq_self]
      exact ite_self _
    | false => rfl
  rw [radixTreeTagSet, if_neg (BitVec.not_lt.mpr hindex), heq, map_some]
  simp only [htags]

/-- A tag can be cleared where no item is: nothing happens then. -/
theorem radixTreeTagClear_spec (index : Index) (tag : Fin maxTags) (hok : TaggedOk root) :
    ∃ root', radixTreeTagClear root index tag = some root' ∧
      TagStep root index tag false root' := by
  rw [radixTreeTagClear]
  by_cases hindex : index > radixTreeMaxindex root.height
  · rw [if_pos hindex]
    exact ⟨root, rfl, ⟨rfl, hok.ok.wellFormed, rfl, fun _ => rfl⟩, hok.tags,
      carries_of_not_le (BitVec.not_le.mpr hindex) tag, fun _ _ _ => rfl⟩
  · obtain ⟨rnode, up, heq, hchanged⟩ :=
      @tagClearFrom_spec _ index _ _ _ tag hok.ok.wellFormed hok.tags
    rw [if_neg hindex, heq]
    exact ⟨_, rfl, hchanged.tagStep (BitVec.not_lt.mp hindex)⟩

theorem leafTag_eq (index : Index) (tag : Fin maxTags) (level : ℕ) (slot : Slot Item)
    (above : Fin maxTags → Bool) :
    leafTag index tag (level + 1) slot = carries index tag (level + 1) slot above := by
  induction level generalizing slot above with
  | zero => cases slot <;> rfl
  | succ level ih =>
    cases slot with
    | null | item _ => rfl
    | node _ _ slots tags => exact ih (slots (offset index (level + 1))) _

/-- What the loop over the tags in `radix_tree_delete` has done. -/
structure TagsCleared (root : Root Item) (index : Index) (list : List (Fin maxTags))
    (root' : Root Item) : Prop where
  items : SameItems root root'
  tags : TagsOk root'.height root'.rnode root'.tags
  cleared : ∀ tag ∈ list, root'.carries index tag = false
  kept : ∀ key tag, key ≠ index ∨ tag ∉ list → root'.carries key tag = root.carries key tag

theorem clearItemTag_spec (tag : Fin maxTags) (hok : TaggedOk root)
    (hindex : index ≤ radixTreeMaxindex root.height) (hheight : root.height ≠ 0) :
    ∃ root', clearItemTag index root tag = some root' ∧ TagStep root index tag false root' := by
  rw [clearItemTag]
  split
  · exact radixTreeTagClear_spec index tag hok
  rename_i hunset
  refine ⟨root, rfl, ⟨rfl, hok.ok.wellFormed, rfl, fun _ => rfl⟩, hok.tags, ?_, fun _ _ _ => rfl⟩
  obtain ⟨level, hlevel⟩ := Nat.exists_eq_succ_of_ne_zero hheight
  rw [carries_of_le hindex]
  rw [hlevel] at hunset ⊢
  rw [← leafTag_eq]
  simpa using hunset

theorem clearItemTags_spec (list : List (Fin maxTags)) (hok : TaggedOk root)
    (hindex : index ≤ radixTreeMaxindex root.height) (hheight : root.height ≠ 0) :
    ∃ root', list.foldlM (clearItemTag index) root = some root' ∧
      TagsCleared root index list root' := by
  induction list generalizing root with
  | nil =>
    exact ⟨root, rfl, ⟨rfl, hok.ok.wellFormed, rfl, fun _ => rfl⟩, hok.tags, by simp,
      fun _ _ _ => rfl⟩
  | cons tag rest ih =>
    obtain ⟨middle, hmiddle, hstep⟩ := clearItemTag_spec tag hok hindex hheight
    have hsame := hstep.items.height
    obtain ⟨root', hroot', hcleared⟩ := @ih middle ⟨hstep.items.ok hok.ok, hstep.tags⟩
      (by rw [hsame]; exact hindex) (by rw [hsame]; exact hheight)
    refine ⟨root', by rw [foldlM_cons, hmiddle]; exact hroot',
      hstep.items.trans hcleared.items, hcleared.tags, ?_, ?_⟩
    · intro other hother
      by_cases hrest : other ∈ rest
      · exact hcleared.cleared other hrest
      · obtain rfl : other = tag := by simpa [hrest] using hother
        rw [hcleared.kept index other (Or.inr hrest), hstep.changed]
    · intro key other hkept
      rw [mem_cons, not_or] at hkept
      rw [hcleared.kept key other (by tauto), hstep.kept key other (by tauto)]

/-- What `radix_tree_delete` has done to the map. -/
structure DeleteStep (root : Root Item) (index : Index) (root' : Root Item) : Prop where
  ok : RootOk root'
  removed : root'.items index = none
  kept : ∀ key, key ≠ index → root'.items key = root.items key

/-- The map once the item is gone, before the height is looked at. -/
theorem Deleted.mapAt {found slot' : Slot Item} (hdeleted : Deleted index height slot found slot')
    (hindex : index ≤ radixTreeMaxindex height) :
    mapAt height slot' index = none ∧
      ∀ key, key ≠ index → RadixTree.mapAt height slot' key = RadixTree.mapAt height slot key := by
  constructor
  · rw [RadixTree.mapAt, if_pos hindex]
    exact hdeleted.removed index ((samePath_iff hindex hindex).mpr rfl)
  intro key hkey
  rw [RadixTree.mapAt, RadixTree.mapAt]
  by_cases hin : key ≤ radixTreeMaxindex height
  · rw [if_pos hin, if_pos hin]
    exact hdeleted.kept key fun hpath => hkey ((samePath_iff hin hindex).mp hpath)
  · rw [if_neg hin, if_neg hin]

theorem removeItem_spec (hok : TaggedOk root) (hindex : index ≤ radixTreeMaxindex root.height)
    (huntagged : ∀ tag, root.carries index tag = false) :
    ∃ root', removeItem root index = some root' ∧ DeleteStep root index root' ∧
      SameRootTags root root' := by
  obtain ⟨found, rnode, heq, hdeleted, hsame⟩ := deleteFrom_spec index hok.ok.wellFormed hok.tags
  obtain ⟨hremoved, hkept⟩ := hdeleted.mapAt hindex
  obtain ⟨htags, hcarries⟩ := hsame fun tag => (carries_of_le hindex tag).symm.trans (huntagged tag)
  have hstep : DeleteStep root index { root with rnode := rnode } :=
    ⟨⟨hdeleted.wellFormed, hok.ok.height_le⟩, hremoved, hkept⟩
  have hstay : SameRootTags root { root with rnode := rnode } := by
    refine ⟨htags, fun key tag => ?_⟩
    rw [Root.carries, Root.carries, tagAt, tagAt, hcarries]
  have hchanged : rnode.isNull = false →
      ∃ root', (if (topSlot index root.height rnode).isNull then
          radixTreeShrink { root with rnode := rnode }
        else some { root with rnode := rnode }) = some root' ∧ DeleteStep root index root' ∧
        SameRootTags root root' := by
    intro hnull
    split
    · obtain ⟨height, slot, hshrink, hsame⟩ := shrinkFrom_spec ⟨hstep.ok, htags⟩ hnull
      refine ⟨{ root with height := height, rnode := slot }, ?_, ⟨hsame.ok,
        (hsame.items index).trans hremoved, fun key hkey => (hsame.items key).trans (hkept key hkey)⟩,
        hstay.trans hsame.toSameRootTags⟩
      rw [radixTreeShrink, hshrink]
      rfl
    · exact ⟨_, rfl, hstep, hstay⟩
  rw [removeItem, heq]
  cases rnode with
  | null =>
    refine ⟨⟨0, fun _ => false, .null⟩, rfl, ⟨⟨trivial, Nat.zero_le _⟩, mapAt_null 0 index,
      fun key hkey => ?_⟩, fun _ => rfl, fun key tag => ?_⟩
    · rw [Root.items, Root.items, ← hkept key hkey, mapAt_null, mapAt_null]
    · rw [← hstay.carries, Root.carries, Root.carries, tagAt_null htags,
        tagAt_null (tagsOk_null.mpr fun _ => rfl)]
  | item _ | node _ _ _ _ => exact hchanged rfl

/-- What `radix_tree_delete` has done to the tags. -/
structure UntagStep (root : Root Item) (index : Index) (root' : Root Item) : Prop where
  tags : TagsOk root'.height root'.rnode root'.tags
  removed : ∀ tag, root'.carries index tag = false
  kept : ∀ key tag, key ≠ index → root'.carries key tag = root.carries key tag

theorem carries_of_items_none (hok : TaggedOk root) (hnone : root.items key = none)
    (tag : Fin maxTags) : root.carries key tag = false := by
  by_cases hkey : key ≤ radixTreeMaxindex root.height
  · rw [Root.items, mapAt, if_pos hkey] at hnone
    rw [carries_of_le hkey]
    exact carries_of_find_none hok.ok.wellFormed hok.tags hnone
  · exact carries_of_not_le hkey tag

theorem radixTreeDelete_spec (index : Index) (hok : TaggedOk root) :
    ∃ root', radixTreeDelete root index = some (.ofOption (root.items index), root') ∧
      DeleteStep root index root' ∧ UntagStep root index root' := by
  have hstay : root.items index = none → DeleteStep root index root ∧ UntagStep root index root :=
    fun hnone => ⟨⟨hok.ok, hnone, fun _ _ => rfl⟩, hok.tags, carries_of_items_none hok hnone,
      fun _ _ _ => rfl⟩
  rw [radixTreeDelete]
  by_cases hindex : index > radixTreeMaxindex root.height
  · have hnone : root.items index = none := if_neg (BitVec.not_le.mpr hindex)
    rw [if_pos hindex, hnone]
    exact ⟨root, rfl, hstay hnone⟩
  rw [if_neg hindex]
  have hle := BitVec.not_lt.mp hindex
  have hitems : root.items index = find index root.height root.rnode := if_pos hle
  by_cases hzero : root.height = 0
  · rw [if_pos hzero]
    have hlookup := @lookupFrom_eq _ index _ _ hok.ok.wellFormed
    rw [← hitems, hzero, lookupFrom, some_inj] at hlookup
    have hnull : TagsOk root.height (.null : Slot Item) fun _ => false :=
      tagsOk_null.mpr fun _ => rfl
    have hfar : ∀ key, key ≠ index → ¬ key ≤ radixTreeMaxindex root.height := by
      intro key hkey hin
      apply hkey
      rw [← samePath_iff hin hle, hzero]
      exact agree_zero
    refine ⟨{ root with tags := fun _ => false, rnode := .null }, by rw [← hlookup],
      ⟨⟨wellFormed_null _, hok.ok.height_le⟩, mapAt_null _ index, fun key hkey => ?_⟩, hnull,
      fun tag => tagAt_null hnull index tag, fun key tag hkey => ?_⟩
    · rw [Root.items, Root.items, mapAt, mapAt, if_neg (hfar key hkey), if_neg (hfar key hkey)]
    · rw [carries_of_not_le (hfar key hkey)]
      exact tagAt_null hnull key tag
  rw [if_neg hzero, lookupFrom_eq hok.ok.wellFormed, ← hitems]
  cases hfound : root.items index with
  | none => exact ⟨root, rfl, hstay hfound⟩
  | some value =>
    obtain ⟨cleared, hcleared, hstep⟩ := clearItemTags_spec (finRange maxTags) hok hle hzero
    have huntagged : ∀ tag, cleared.carries index tag = false := fun tag =>
      hstep.cleared tag (mem_finRange tag)
    obtain ⟨root', hroot', hremove, htags, hcarries⟩ := removeItem_spec
      ⟨hstep.items.ok hok.ok, hstep.tags⟩ (by rw [hstep.items.height]; exact hle) huntagged
    refine ⟨root', ?_, ⟨hremove.ok, hremove.removed, fun key hkey => ?_⟩, htags,
      fun tag => (hcarries index tag).trans (huntagged tag), fun key tag hkey => ?_⟩
    · simp [Slot.ofOption, hcleared, bind_some, hroot', map_some]
    · rw [hremove.kept key hkey, hstep.items.items]
    · rw [hcarries, hstep.kept key tag (Or.inl hkey)]

/-! ## Runs -/

/-- A successful insertion, or a deletion. -/
inductive Event (Item : Type*)
  | inserted (index : Index) (value : Item)
  | deleted (index : Index)

/-- The item of the last insertion of a key that no deletion of this key has
followed.  The latest event comes first. -/
def current (key : Index) : List (Event Item) → Option Item
  | [] => none
  | .inserted index value :: earlier => if key = index then some value else current key earlier
  | .deleted index :: earlier => if key = index then none else current key earlier

/-- The trees that insertions and deletions lead to, with the history of those
that have changed something. -/
inductive RadixRun : List (Event Item) → Root Item → Prop
  | start : RadixRun [] initRadixTree
  | inserted {history : List (Event Item)} {root root' : Root Item} {index : Index}
      {value : Item} {nodes : ℕ} (hrun : RadixRun history root)
      (hinsert : radixTreeInsert root index value nodes = some (.ok, root')) :
      RadixRun (.inserted index value :: history) root'
  | refused {history : List (Event Item)} {root root' : Root Item} {index : Index}
      {value : Item} {nodes : ℕ} {status : Status} (hrun : RadixRun history root)
      (hinsert : radixTreeInsert root index value nodes = some (status, root'))
      (hstatus : status ≠ .ok) : RadixRun history root'
  | deleted {history : List (Event Item)} {root root' : Root Item} {index : Index}
      {found : Slot Item} (hrun : RadixRun history root)
      (hdelete : radixTreeDelete root index = some (found, root')) :
      RadixRun (.deleted index :: history) root'

variable {history : List (Event Item)}

theorem insertStep_of_eq {status : Status} (hok : TaggedOk root)
    (hinsert : radixTreeInsert root index value nodes = some (status, root')) :
    InsertStep root index value status root' ∧ SameRootTags root root' := by
  obtain ⟨_, _, heq, hstep⟩ := radixTreeInsert_spec index value nodes hok
  rw [hinsert, some_inj, mk.injEq] at heq
  obtain ⟨rfl, rfl⟩ := heq
  exact hstep

theorem deleteStep_of_eq {found : Slot Item} (hok : TaggedOk root)
    (hdelete : radixTreeDelete root index = some (found, root')) :
    DeleteStep root index root' ∧ UntagStep root index root' := by
  obtain ⟨_, heq, hstep⟩ := radixTreeDelete_spec index hok
  rw [hdelete, some_inj, mk.injEq] at heq
  obtain ⟨_, rfl⟩ := heq
  exact hstep

section

variable (hitems : ∀ key, root.items key = current key history) (key : Index)
include hitems

theorem InsertStep.items_eq (hstep : InsertStep root index value .ok root') :
    root'.items key = current key (.inserted index value :: history) := by
  rw [current]
  split_ifs with hkey
  · rw [hkey]
    exact hstep.stored rfl
  · rw [hstep.kept key (Or.inr hkey), hitems]

theorem DeleteStep.items_eq (hstep : DeleteStep root index root') :
    root'.items key = current key (.deleted index :: history) := by
  rw [current]
  split_ifs with hkey
  · rw [hkey]
    exact hstep.removed
  · rw [hstep.kept key hkey, hitems]

end

theorem RadixRun.items_eq (hrun : RadixRun history root) :
    TaggedOk root ∧ ∀ key, root.items key = current key history := by
  induction hrun with
  | start => exact ⟨⟨⟨trivial, Nat.zero_le _⟩, fun _ => rfl⟩, fun key => mapAt_null 0 key⟩
  | inserted _ hinsert ih =>
    obtain ⟨hstep, htags⟩ := insertStep_of_eq ih.1 hinsert
    exact ⟨⟨hstep.ok, htags.tags⟩, fun key => hstep.items_eq ih.2 key⟩
  | refused _ hinsert hstatus ih =>
    obtain ⟨hstep, htags⟩ := insertStep_of_eq ih.1 hinsert
    exact ⟨⟨hstep.ok, htags.tags⟩, fun key => (hstep.kept key (Or.inl hstatus)).trans (ih.2 key)⟩
  | deleted _ hdelete ih =>
    obtain ⟨hstep, htags⟩ := deleteStep_of_eq ih.1 hdelete
    exact ⟨⟨hstep.ok, htags.tags⟩, fun key => hstep.items_eq ih.2 key⟩

/-- After every run a lookup returns the item of the last insertion that is still
in force.  An insertion says `-EEXIST` exactly when there is such an item, and
one that fails changes no lookup.  A deletion returns the item and changes no
other lookup. -/
theorem radixTree_refines_map (hrun : RadixRun history root) :
    (∀ key, radixTreeLookup root key = some (.ofOption (current key history))) ∧
    (∀ index value nodes, ∃ status root',
      radixTreeInsert root index value nodes = some (status, root') ∧
        (status = .eexist ↔ current index history ≠ none) ∧
        (status ≠ .ok → ∀ key, radixTreeLookup root' key = radixTreeLookup root key)) ∧
    ∀ index, ∃ root',
      radixTreeDelete root index = some (.ofOption (current index history), root') ∧
        ∀ key, key ≠ index → radixTreeLookup root' key = radixTreeLookup root key := by
  obtain ⟨hok, hitems⟩ := hrun.items_eq
  refine ⟨fun key => ?_, fun index value nodes => ?_, fun index => ?_⟩
  · rw [radixTreeLookup_eq hok.ok, hitems]
  · obtain ⟨status, root', heq, hstep, _⟩ := radixTreeInsert_spec index value nodes hok
    refine ⟨status, root', heq, ?_, fun hstatus key => ?_⟩
    · rw [hstep.eexist_iff, hitems]
    · rw [radixTreeLookup_eq hstep.ok, radixTreeLookup_eq hok.ok, hstep.kept key (Or.inl hstatus)]
  · obtain ⟨root', heq, hstep, _⟩ := radixTreeDelete_spec index hok
    rw [hitems] at heq
    refine ⟨root', heq, fun key hkey => ?_⟩
    rw [radixTreeLookup_eq hstep.ok, radixTreeLookup_eq hok.ok, hstep.kept key hkey]

/-- The tree after one insertion, if it has been possible. -/
def insertOr (root : Root ℕ) (index : Index) (value nodes : ℕ) : Root ℕ :=
  match radixTreeInsert root index value nodes with
  | some (_, root') => root'
  | none => root

def twoItems : Root ℕ := insertOr (insertOr initRadixTree 0 7 0) (BitVec.allOnes 64) 8 30

theorem twoItems_run : RadixRun [.inserted (BitVec.allOnes 64) 8, .inserted 0 7] twoItems := by
  have hfirst : radixTreeInsert initRadixTree 0 7 0 =
      some (.ok, insertOr initRadixTree 0 7 0) := rfl
  have hsecond : radixTreeInsert (insertOr initRadixTree 0 7 0) (BitVec.allOnes 64) 8 30 =
      some (.ok, twoItems) := rfl
  exact .inserted (.inserted .start hfirst) hsecond

theorem twoItems_refines_map :
    radixTreeLookup twoItems (BitVec.allOnes 64) = some (.item 8) ∧
      radixTreeLookup twoItems 1 = some .null := by
  obtain ⟨hlookup, _⟩ := radixTree_refines_map twoItems_run
  exact ⟨hlookup (BitVec.allOnes 64), hlookup 1⟩

end KernelM5040.RadixTree
