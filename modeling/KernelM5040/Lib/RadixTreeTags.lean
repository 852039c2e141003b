import KernelM5040.Lib.RadixTreeMap

/-!
# Tags of a radix tree

The tags of a slot are kept in the node above it, and those of the top node or
of a single item in the root.  A place of the tree is looked at together with
these tags: they are the union of the tags of the slots below.  Each part of the
operations keeps this, does to the map what it should and changes the tags of one
item at most.
-/

namespace KernelM5040.RadixTree

open Prod Option Function Digits Bool

variable {Item : Type*} {index key : Index} {tag : Fin maxTags} {level height count nodes : ℕ}
  {slots : Fin mapSize → Slot Item} {tags : Tags} {slot child slot' found : Slot Item}
  {above : Fin maxTags → Bool} {place : Fin mapSize} {value : Item} {status : Status} {state : Bool}

/-- The tag of the item at an index, below a place whose own tags are given. -/
def carries (key : Index) (tag : Fin maxTags) : ℕ → Slot Item → (Fin maxTags → Bool) → Bool
  | 0, _, above => above tag
  | level + 1, .node _ _ slots tags, _ =>
    carries key tag level (slots (offset key level)) fun tag => tags tag (offset key level)
  | _ + 1, _, _ => false

/-- An empty place has no tags, and a node has those of its slots.  Only slots
that an index leads to are tagged. -/
def TagsOk : ℕ → Slot Item → (Fin maxTags → Bool) → Prop
  | _, .null, above => ∀ tag, above tag = false
  | level + 1, .node _ _ slots tags, above =>
    (∀ tag, above tag = true ↔ ∃ place, tags tag place = true) ∧
    (∀ tag place, tags tag place = true → place.val * 2 ^ (mapShift * level) < 2 ^ indexBits) ∧
    ∀ place, TagsOk level (slots place) fun tag => tags tag place
  | _, _, _ => True

@[simp]
theorem tagsOk_null : TagsOk level (.null : Slot Item) above ↔ ∀ tag, above tag = false := by
  cases level <;> rfl

theorem tagsOk_node : TagsOk (level + 1) (.node height count slots tags) above ↔
    (∀ tag, above tag = true ↔ ∃ place, tags tag place = true) ∧
      (∀ tag place, tags tag place = true → place.val * 2 ^ (mapShift * level) < 2 ^ indexBits) ∧
      ∀ place, TagsOk level (slots place) fun tag => tags tag place := Iff.rfl

@[simp]
theorem carries_node (key : Index) (tag : Fin maxTags) (level height count : ℕ)
    (slots : Fin mapSize → Slot Item) (tags : Tags) (above : Fin maxTags → Bool) :
    carries key tag (level + 1) (.node height count slots tags) above =
      carries key tag level (slots (offset key level)) fun tag => tags tag (offset key level) :=
  rfl

theorem carries_null (hnull : TagsOk level (.null : Slot Item) above) :
    carries key tag level (.null : Slot Item) above = false := by
  cases level with
  | zero => exact tagsOk_null.mp hnull tag
  | succ _ => rfl

theorem carries_of_find_none (hslot : WellFormed level slot) (hok : TagsOk level slot above)
    (hnone : find key level slot = none) : carries key tag level slot above = false := by
  induction hslot using WellFormed.induction generalizing above with
  | null => exact carries_null hok
  | item => simp [find] at hnone
  | node _ _ _ _ _ _ ih =>
    rw [find_node] at hnone
    exact ih _ (hok.2.2 _) hnone

theorem carries_congr (hpath : SamePath level key index) :
    carries key tag level slot above = carries index tag level slot above := by
  induction level generalizing slot above with
  | zero => rfl
  | succ level ih =>
    obtain ⟨hoffset, hrest⟩ := samePath_succ.mp hpath
    cases slot with
    | null | item _ => rfl
    | node _ _ slots _ =>
      rw [carries_node, carries_node, hoffset]
      exact ih hrest

theorem carries_update (slots : Fin mapSize → Slot Item) (child : Slot Item) (tags : Tags) :
    carries key tag (level + 1)
        (.node height count (update slots (offset index level) child) tags) above =
      if offset key level = offset index level then
        carries key tag level child fun tag => tags tag (offset index level)
      else carries key tag level (slots (offset key level)) fun tag => tags tag (offset key level) := by
  rw [carries_node]
  by_cases hoffset : offset key level = offset index level
  · rw [if_pos hoffset, hoffset, update_self]
  · rw [if_neg hoffset, update_of_ne hoffset]

theorem tagsOk_update
    (hslots : ∀ other, other ≠ place → TagsOk level (slots other) fun tag => tags tag other)
    (hchild : TagsOk level child fun tag => tags tag place) (other : Fin mapSize) :
    TagsOk level (update slots place child other) fun tag => tags tag other := by
  rw [update_apply]
  split_ifs with hother
  · rw [hother]
    exact hchild
  · exact hslots other hother

/-! ## Insertion -/

/-- A change that the tags do not see. -/
structure SameTags (level : ℕ) (slot slot' : Slot Item) (above : Fin maxTags → Bool) : Prop where
  ok : TagsOk level slot' above
  carries : ∀ key tag, carries key tag level slot' above = carries key tag level slot above

theorem SameTags.node {child' : Slot Item} {count' : ℕ}
    (hsame : SameTags level (slots (offset index level)) child'
      fun tag => tags tag (offset index level))
    (hok : TagsOk (level + 1) (.node height count slots tags) above) :
    SameTags (level + 1) (.node height count slots tags)
      (.node height count' (update slots (offset index level) child') tags) above := by
  obtain ⟨habove, hreal, hslots⟩ := tagsOk_node.mp hok
  refine ⟨tagsOk_node.mpr ⟨habove, hreal, tagsOk_update (fun other _ => hslots other) hsame.ok⟩,
    fun key tag => ?_⟩
  rw [carries_update, carries_node]
  split
  · rename_i hoffset
    rw [hsame.carries, hoffset]
  · rfl

theorem tagsOk_newNode (hnull : TagsOk (level + 1) (.null : Slot Item) above) :
    SameTags (level + 1) (.null : Slot Item) (newNode (level + 1)) above := by
  rw [tagsOk_null] at hnull
  refine ⟨tagsOk_node.mpr ⟨fun tag => by simp [hnull tag], by simp, fun _ => by simp⟩,
    fun key tag => ?_⟩
  exact carries_null (by simp)

theorem insertFrom_spec (value : Item) (nodes : ℕ) (hslot : WellFormed level slot)
    (hok : TagsOk level slot above) :
    ∃ status slot', insertFrom index value level slot nodes = some (status, slot') ∧
      Inserted index value level slot status slot' ∧ SameTags level slot slot' above := by
  induction level generalizing slot above nodes with
  | zero =>
    cases slot with
    | null =>
      refine ⟨.ok, .item value, rfl,
        ⟨trivial, by simp [Slot.isNull], by simp, fun _ _ _ => rfl, ?_⟩, trivial, fun _ _ => rfl⟩
      intro key hkey
      exact absurd hkey (by simp [SamePath, agree_zero])
    | item old =>
      exact ⟨.eexist, .item old, rfl, ⟨trivial, by simp, by simp [find], by simp, fun _ _ => rfl⟩,
        trivial, fun _ _ => rfl⟩
    | node _ _ _ _ => exact hslot.elim
  | succ level ih =>
    cases slot with
    | null =>
      cases nodes with
      | zero =>
        exact ⟨.enomem, .null, rfl, ⟨trivial, by simp, by simp, by simp, fun _ _ => rfl⟩, hok,
          fun _ _ => rfl⟩
      | succ nodes =>
        have hnew := tagsOk_newNode hok
        obtain ⟨status, child, heq, hinserted, hsame⟩ :=
          ih nodes (wellFormed_null level) (hnew.ok.2.2 (offset index level))
        have hlink := hinserted.link (wellFormed_newNode level)
        obtain ⟨hok', hcarries⟩ := hsame.node hnew.ok
        refine ⟨status, _, by rw [insertFrom, heq]; rfl,
          ⟨hlink.wellFormed, fun _ => rfl, ?_, hlink.stored, fun key hkey => ?_⟩, hok',
          fun key tag => (hcarries key tag).trans (hnew.carries key tag)⟩
        · rw [hlink.eexist_iff, find_node, find_null, find_null]
        · rw [find_null]
          exact (hlink.kept key hkey).trans (find_null key level)
    | item _ => exact hslot.elim
    | node height count slots tags =>
      obtain ⟨status, child, heq, hinserted, hsame⟩ :=
        ih nodes (hslot.2.2 (offset index level)) (hok.2.2 _)
      exact ⟨status, _, by rw [insertFrom, heq]; rfl, hinserted.link hslot, hsame.node hok⟩

/-! ## Setting and clearing a tag -/

/-- One tag of the item on a path is set or cleared, together with what this
does to the tags of the place. -/
structure TagChanged (index : Index) (tag : Fin maxTags) (state : Bool) (level : ℕ)
    (slot slot' : Slot Item) (above above' : Fin maxTags → Bool) : Prop where
  retagged : Retagged level slot slot'
  ok : TagsOk level slot' above'
  other : ∀ other, other ≠ tag → above' other = above other
  changed : ∀ key, SamePath level key index → carries key tag level slot' above' = state
  kept : ∀ key other, ¬ (SamePath level key index ∧ other = tag) →
    carries key other level slot' above' = carries key other level slot above

theorem TagChanged.node {state : Bool} {child' : Slot Item} {tags' : Tags}
    {above' : Fin maxTags → Bool}
    (hchanged : TagChanged index tag state level (slots (offset index level)) child'
      (fun tag => tags tag (offset index level)) fun tag => tags' tag (offset index level))
    (hnode : WellFormed (level + 1) (.node height count slots tags))
    (hok : TagsOk (level + 1) (.node height count slots tags) above)
    (htags : ∀ other place, place ≠ offset index level → tags' other place = tags other place)
    (hother : ∀ other, other ≠ tag → above' other = above other)
    (habove : above' tag = true ↔ ∃ place, tags' tag place = true) :
    TagChanged index tag state (level + 1) (.node height count slots tags)
      (.node height count (update slots (offset index level) child') tags') above above' := by
  obtain ⟨hunion, hreal, hslots⟩ := tagsOk_node.mp hok
  have hrow : ∀ place, place ≠ offset index level →
      (fun tag => tags' tag place) = fun tag => tags tag place := fun place hplace =>
    funext fun tag => htags tag place hplace
  have hsameTags : ∀ other, other ≠ tag → tags' other = tags other := by
    intro other hne
    funext place
    by_cases hplace : place = offset index level
    · rw [hplace]
      exact hchanged.other other hne
    · exact htags other place hplace
  refine ⟨hchanged.retagged.node hnode tags', tagsOk_node.mpr ⟨fun other => ?_,
    fun other place hset => ?_, tagsOk_update (fun other hne => ?_) hchanged.ok⟩, hother,
    fun key hpath => ?_, fun key other hkept => ?_⟩
  · by_cases hne : other = tag
    · rw [hne]
      exact habove
    · rw [hother other hne, hsameTags other hne]
      exact hunion other
  · by_cases hplace : place = offset index level
    · rw [hplace, offset_val, digit]
      have hdiv : index.toNat / 2 ^ (mapShift * level) % 2 ^ mapShift ≤
          index.toNat / 2 ^ (mapShift * level) := Nat.mod_le _ _
      exact ((Nat.mul_le_mul_right _ hdiv).trans (Nat.div_mul_le_self _ _)).trans_lt index.isLt
    · rw [htags other place hplace] at hset
      exact hreal other place hset
  · rw [hrow other hne]
    exact hslots other
  · obtain ⟨hoffset, hrest⟩ := samePath_succ.mp hpath
    rw [carries_update, if_pos hoffset]
    exact hchanged.changed key hrest
  · rw [samePath_succ] at hkept
    rw [carries_update, carries_node]
    by_cases hoffset : offset key level = offset index level
    · rw [if_pos hoffset, hoffset]
      exact hchanged.kept key other (by tauto)
    · rw [if_neg hoffset, hrow _ hoffset]

theorem TagChanged.of_item (tag : Fin maxTags) (state : Bool) :
    TagChanged index tag state 0 (.item value) (.item value) above (update above tag state) := by
  refine ⟨⟨trivial, rfl, fun _ => rfl⟩, trivial, fun other hother =>
    update_of_ne hother _ _, fun key _ => ?_, fun key other hkept => ?_⟩
  · rw [carries, update_self]
  · have hother : other ≠ tag := fun heq => hkept ⟨agree_zero, heq⟩
    exact update_of_ne hother _ _

theorem TagChanged.of_none (tag : Fin maxTags) (hslot : WellFormed level slot)
    (hok : TagsOk level slot above) (hnone : find index level slot = none) :
    TagChanged index tag false level slot slot above above := by
  refine ⟨⟨hslot, rfl, fun _ => rfl⟩, hok, fun _ _ => rfl, fun key hpath => ?_, fun _ _ _ => rfl⟩
  rw [carries_congr hpath]
  exact carries_of_find_none hslot hok hnone

theorem update_tags_self (tags : Tags) (tag : Fin maxTags) (place : Fin mapSize) (state : Bool) :
    (fun other => update tags tag (update (tags tag) place state) other place) =
      update (fun other => tags other place) tag state := by
  funext other
  by_cases hother : other = tag
  · rw [hother, update_self, update_self, update_self]
  · rw [update_of_ne hother, update_of_ne hother]

theorem update_tags_of_ne {other : Fin maxTags} {place' : Fin mapSize} (hplace : place' ≠ place) :
    update tags tag (update (tags tag) place state) other place' = tags other place' := by
  by_cases hother : other = tag
  · rw [hother, update_self, update_of_ne hplace]
  · rw [update_of_ne hother]

theorem tagSet_of_set (hset : tagGet tags tag place = true) : tagSet tags tag place = tags := by
  have hrow : update (tags tag) place true = tags tag := by
    rw [← hset]
    exact update_eq_self place (tags tag)
  rw [tagSet, hrow]
  exact update_eq_self tag tags

section

variable (tag : Fin maxTags) (hslot : WellFormed level slot) (hok : TagsOk level slot above)
include hslot hok

theorem tagSetFrom_spec (hfound : find index level slot = some value) :
    ∃ slot', tagSetFrom index tag level slot = some (slot', .item value) ∧
      TagChanged index tag true level slot slot' above (update above tag true) := by
  induction hslot using WellFormed.induction generalizing above with
  | null => simp at hfound
  | item old =>
    obtain rfl : old = value := by simpa [find] using hfound
    exact ⟨.item old, rfl, .of_item tag true⟩
  | node level height count slots tags hnode ih =>
    rw [find_node] at hfound
    have hnull : (slots (offset index level)).isNull = false := by
      rw [eq_false_iff]
      intro hempty
      rw [find_of_isNull hempty] at hfound
      simp at hfound
    obtain ⟨child, heq, hchanged⟩ := ih _ (hok.2.2 (offset index level)) hfound
    rw [← update_tags_self] at hchanged
    have hset : (if tagGet tags tag (offset index level) then tags
        else tagSet tags tag (offset index level)) = tagSet tags tag (offset index level) := by
      split
      · rename_i hset
        exact (tagSet_of_set hset).symm
      · rfl
    refine ⟨_, ?_, hchanged.node hnode hok (fun _ _ => update_tags_of_ne)
      (fun other hother => update_of_ne hother _ _) ?_⟩
    · simp only [tagSetFrom, hset, hnull, heq, false_eq_true, if_false, map_some]
      rfl
    · refine iff_of_true (update_self tag true above) ⟨offset index level, ?_⟩
      rw [update_self, update_self]

/-- A tag is cleared along a path, as far up as nothing else below has it. -/
theorem tagClearFrom_spec :
    ∃ slot' up, tagClearFrom index tag level slot = some (slot', up) ∧
      TagChanged index tag false level slot slot' above
        (if up then update above tag false else above) := by
  induction hslot using WellFormed.induction generalizing above with
  | null level =>
    exact ⟨.null, false, by cases level <;> rfl, .of_none tag (wellFormed_null _) hok (find_null _ _)⟩
  | item value => exact ⟨.item value, true, rfl, .of_item tag false⟩
  | node level height count slots tags hnode ih =>
    obtain ⟨child, up, heq, hchanged⟩ := ih (offset index level) (hok.2.2 _)
    obtain ⟨hunion, _, _⟩ := tagsOk_node.mp hok
    rw [tagClearFrom, heq]
    simp only [map_some]
    by_cases hclear : (up && tagGet tags tag (offset index level)) = true
    · rw [if_pos hclear]
      rw [and_eq_true] at hclear
      obtain ⟨hup, hset⟩ := hclear
      rw [if_pos hup, ← update_tags_self] at hchanged
      have hany : above tag = true := (hunion tag).mpr ⟨_, hset⟩
      refine ⟨_, _, rfl, hchanged.node hnode hok (fun _ _ => update_tags_of_ne) ?_ ?_⟩
      · intro other hother
        split
        · exact update_of_ne hother _ _
        · rfl
      · cases hrest : anyTagSet (tagClear tags tag (offset index level)) tag with
        | true => simpa [anyTagSet, tagClear, hany] using hrest
        | false => simpa [anyTagSet, tagClear] using hrest
    · rw [if_neg hclear]
      have hsame : (if up = true then
          update (fun other => tags other (offset index level)) tag false
          else fun other => tags other (offset index level)) =
          fun other => tags other (offset index level) := by
        split
        · rename_i hup
          have hunset : false = tags tag (offset index level) := by
            simpa [hup, tagGet] using hclear
          rw [hunset]
          exact update_eq_self tag fun other => tags other (offset index level)
        · rfl
      rw [hsame] at hchanged
      exact ⟨_, false, rfl, hchanged.node hnode hok (fun _ _ _ => rfl) (fun _ _ => rfl)
        (hunion tag)⟩

end

/-! ## Deletion -/

theorem SameTags.free (hsame : SameTags (level + 1) slot (.node height count slots tags) above)
    (hused : used slots = 0) : SameTags (level + 1) slot .null above := by
  obtain ⟨hok, hcarries⟩ := hsame
  obtain ⟨hunion, _, hslots⟩ := tagsOk_node.mp hok
  have hempty : ∀ place, slots place = .null := fun place =>
    eq_null_of_isNull (isNull_of_used_eq_zero hused place)
  have hclear : ∀ tag place, tags tag place = false := by
    intro tag place
    have hplace := hslots place
    rw [hempty, tagsOk_null] at hplace
    exact hplace tag
  have hnull : TagsOk (level + 1) (.null : Slot Item) above := by
    rw [tagsOk_null]
    intro tag
    rw [eq_false_iff, ne_eq, hunion]
    simp [hclear]
  refine ⟨hnull, fun key tag => ?_⟩
  have hslot := hslots (offset key level)
  rw [hempty] at hslot
  rw [← hcarries, carries_node, hempty, carries_null hslot]
  rfl

theorem deleteFrom_spec (index : Index) (hslot : WellFormed level slot)
    (hok : TagsOk level slot above) :
    ∃ found slot', deleteFrom index level slot = some (found, slot') ∧
      Deleted index level slot found slot' ∧
      ((∀ tag, carries index tag level slot above = false) → SameTags level slot slot' above) := by
  induction hslot using WellFormed.induction generalizing above with
  | null =>
    exact ⟨.null, .null, deleteFrom_null, .of_none (wellFormed_null _) (find_null _ _),
      fun _ => ⟨hok, fun _ _ => rfl⟩⟩
  | item value =>
    exact ⟨.item value, .null, rfl, ⟨trivial, rfl, fun key _ => find_null key 0,
      fun key hpath => absurd agree_zero hpath⟩, fun huntagged => ⟨huntagged, fun _ _ => rfl⟩⟩
  | node level height count slots tags hnode ih =>
    obtain ⟨found, child, heq, hdeleted, hsame⟩ := ih (offset index level) (hok.2.2 _)
    have hcount := hnode.2.1
    have hfound := hdeleted.found_eq
    have htags := fun count' huntagged =>
      @SameTags.node _ index level height count slots tags above child count' (hsame huntagged) hok
    rw [deleteFrom, heq]
    simp only [Option.map_some]
    cases hnull : found.isNull with
    | true =>
      rw [hfound, isNull_ofOption, Option.isNone_iff_eq_none] at hnull
      rw [hnull] at hfound
      subst hfound
      exact ⟨.null, .node height count slots tags, rfl, .of_none hnode hnull,
        fun _ => ⟨hok, fun _ _ => rfl⟩⟩
    | false =>
      -- the item was below this slot, so the slot was in use
      have hold := hdeleted.in_use hnull
      cases hchild : child.isNull with
      | false =>
        have hupdate := used_update slots (offset index level) child
        rw [hold, hchild] at hupdate
        refine ⟨found, _, rfl, hdeleted.node hnode ?_, htags count⟩
        simp only [if_true, Nat.add_right_cancel_iff] at hupdate
        rw [hcount, hupdate]
      | true =>
        have hused := used_of_emptied hold hchild
        have hchanged := @Deleted.node _ index level height count slots tags child found
          (count - 1) hdeleted hnode (by rw [hused, hcount])
        simp only [Bool.not_true, false_eq_true, if_false]
        split
        · exact ⟨found, _, rfl, hchanged, htags (count - 1)⟩
        · exact ⟨found, _, rfl, hchanged.free (by omega),
            fun huntagged => (htags 0 huntagged).free (by omega)⟩

end KernelM5040.RadixTree
