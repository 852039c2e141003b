import KernelM5040.Lib.RadixTreeTagRuns

/-!
# Nodes that go back to the cache

The constructor of the node cache zeroes a node once, so a node has to be zero again,
up to its height, when it is given back.  `radix_tree_delete` frees the nodes that
have become empty and, when the tree shrinks, nodes that still have their first slot;
`radix_tree_node_rcu_free` clears this slot.
-/

namespace KernelM5040.RadixTree

open List Function

variable {Item : Type*} {index : Index} {level height count : ℕ} {slots : Fin mapSize → Slot Item}
  {tags : Tags} {slot node : Slot Item} {above : Fin maxTags → Bool} {root : Root Item}

/-- `radix_tree_node_rcu_free`. -/
def nodeRcuFree : Slot Item → Slot Item
  | .node height _ slots tags =>
    .node height 0 (update slots 0 .null) (tagClear (tagClear tags 0 0) 1 0)
  | slot => slot

/-- The nodes on the path of `radix_tree_delete` that become empty, from the bottom
up. -/
def deleteFreed (index : Index) : ℕ → Slot Item → List (Slot Item)
  | level + 1, .node height count slots tags =>
    deleteFreed index level (slots (offset index level)) ++
      match deleteFrom index level (slots (offset index level)) with
      | some (found, child) =>
        if !found.isNull && child.isNull && count - 1 == 0 then
          [.node height (count - 1) (update slots (offset index level) child) tags]
        else []
      | none => []
  | _, _ => []

/-- The nodes that `radix_tree_shrink` frees. -/
def shrinkFreed : ℕ → Slot Item → List (Slot Item)
  | level + 1, .node height count slots tags =>
    if count ≠ 1 then []
    else if (slots 0).isNull then []
    else .node height count slots tags :: shrinkFreed level (slots 0)
  | _, _ => []

/-- The nodes that are freed once the item is found. -/
def removeFreed (root : Root Item) (index : Index) : List (Slot Item) :=
  deleteFreed index root.height root.rnode ++
    match deleteFrom index root.height root.rnode with
    | none => []
    | some (_, .null) => []
    | some (_, rnode) =>
      if (topSlot index root.height rnode).isNull then shrinkFreed root.height rnode else []

/-- The nodes that `radix_tree_delete` frees. -/
def radixTreeDeleteFreed (root : Root Item) (index : Index) : List (Slot Item) :=
  if index > radixTreeMaxindex root.height then []
  else if root.height = 0 then []
  else
    match lookupFrom index root.height root.rnode with
    | none => []
    | some .null => []
    | some _ =>
      match (List.finRange maxTags).foldlM (clearItemTag index) root with
      | some root => removeFreed root index
      | none => []

theorem nodeRcuFree_eq (hok : TagsOk (level + 1) (.node height count slots tags) above)
    (hempty : ∀ place, place ≠ 0 → (slots place).isNull = true) :
    nodeRcuFree (.node height count slots tags) = newNode height := by
  have hslots : update slots 0 .null = fun _ => .null := by
    funext place
    by_cases hplace : place = 0
    · rw [hplace, update_self]
    · rw [update_of_ne hplace, eq_null_of_isNull (hempty place hplace)]
  have htags : tagClear (tagClear tags 0 0) 1 0 = fun _ _ => false := by
    funext tag place
    by_cases hplace : place = 0
    · subst hplace
      fin_cases tag <;> simp [tagClear]
    · have hslot := hok.2.2 place
      rw [eq_null_of_isNull (hempty place hplace), tagsOk_null] at hslot
      rw [tagClear, update_tags_of_ne hplace, tagClear, update_tags_of_ne hplace, hslot]
  rw [nodeRcuFree, hslots, htags, newNode]

theorem deleteFreed_clean (hslot : WellFormed level slot) (hok : TagsOk level slot above)
    (huntagged : ∀ tag, carries index tag level slot above = false) :
    ∀ node ∈ deleteFreed index level slot, ∃ height, nodeRcuFree node = newNode height := by
  induction level generalizing slot above with
  | zero => simp [deleteFreed]
  | succ level ih =>
    cases slot with
    | null | item _ => simp [deleteFreed]
    | node height count slots tags =>
      intro node hnode
      rw [deleteFreed, mem_append] at hnode
      rcases hnode with hbelow | hnode
      · exact ih (hslot.2.2 _) (hok.2.2 _) huntagged node hbelow
      obtain ⟨found, child, heq, hdeleted, hsame⟩ :=
        deleteFrom_spec index (hslot.2.2 (offset index level)) (hok.2.2 _)
      simp only [heq] at hnode
      split at hnode
      · next hgone =>
          simp only [Bool.and_eq_true, Bool.not_eq_true', beq_iff_eq] at hgone
          obtain ⟨⟨hfound, hchild⟩, hcount⟩ := hgone
          have hused := used_of_emptied (hdeleted.in_use hfound) hchild
          rw [← hslot.2.1, hcount] at hused
          rw [mem_singleton.mp hnode]
          exact ⟨height, nodeRcuFree_eq ((hsame huntagged).node hok).ok fun place _ =>
            isNull_of_used_eq_zero hused place⟩
      · cases hnode

theorem shrinkFreed_clean (hok : TaggedOk (⟨level, above, slot⟩ : Root Item)) :
    ∀ node ∈ shrinkFreed level slot, ∃ height, nodeRcuFree node = newNode height := by
  induction level generalizing slot with
  | zero => simp [shrinkFreed]
  | succ level ih =>
    cases slot with
    | null | item _ => simp [shrinkFreed]
    | node height count slots tags =>
      intro node hnode
      rw [shrinkFreed] at hnode
      split_ifs at hnode with hcount hfirst
      · cases hnode
      · cases hnode
      obtain rfl : count = 1 := not_not.mp hcount
      have hfirst : (slots 0).isNull = false := Bool.eq_false_of_not_eq_true hfirst
      rcases mem_cons.mp hnode with rfl | hrest
      · exact ⟨height, nodeRcuFree_eq hok.tags fun place hplace =>
          isNull_of_used_eq_one hok.ok.wellFormed.2.1.symm hfirst hplace⟩
      · exact ih (sameRoot_top hok hfirst).taggedOk node hrest

theorem removeFreed_clean (hok : TaggedOk root) (hindex : index ≤ radixTreeMaxindex root.height)
    (huntagged : ∀ tag, root.carries index tag = false) :
    ∀ node ∈ removeFreed root index, ∃ height, nodeRcuFree node = newNode height := by
  have hcarried := fun tag => (carries_of_le hindex tag).symm.trans (huntagged tag)
  obtain ⟨found, rnode, heq, hdeleted, hsame⟩ := deleteFrom_spec index hok.ok.wellFormed hok.tags
  have hshrink : ∀ node ∈ if (topSlot index root.height rnode).isNull then
      shrinkFreed root.height rnode else [], ∃ height, nodeRcuFree node = newNode height := by
    split
    · exact shrinkFreed_clean ⟨⟨hdeleted.wellFormed, hok.ok.height_le⟩, (hsame hcarried).ok⟩
    · simp
  intro node hnode
  rw [removeFreed, mem_append, heq] at hnode
  rcases hnode with hnode | hnode
  · exact deleteFreed_clean hok.ok.wellFormed hok.tags hcarried node hnode
  · cases rnode with
    | null => cases hnode
    | item _ | node _ _ _ _ => exact hshrink node hnode

theorem radixTreeDeleteFreed_clean (hok : TaggedOk root) (index : Index) :
    ∀ node ∈ radixTreeDeleteFreed root index, ∃ height, nodeRcuFree node = newNode height := by
  rw [radixTreeDeleteFreed]
  split_ifs with hindex hzero
  · simp
  · simp
  have hle := BitVec.not_lt.mp hindex
  obtain ⟨cleared, hcleared, hstep⟩ := clearItemTags_spec (finRange maxTags) hok hle hzero
  rw [hcleared]
  split
  · simp
  · simp
  · exact removeFreed_clean ⟨hstep.items.ok hok.ok, hstep.tags⟩
      (by rw [hstep.items.height]; exact hle) fun tag => hstep.cleared tag (mem_finRange tag)

/-- The nodes in the cache: those that the constructor has zeroed, and those that some
tree has given back. -/
inductive Cached : Slot Item → Prop
  | constructed : Cached (newNode 0)
  | freed {history : List (TagEvent Item)} {root : Root Item} {index : Index} {node : Slot Item}
      (hrun : TagRun history root) (hfreed : node ∈ radixTreeDeleteFreed root index) :
      Cached (nodeRcuFree node)

/-- Every node that the cache has is zero, up to its height. -/
theorem cached_node_zero (hcached : Cached node) : ∃ height, node = newNode height := by
  cases hcached with
  | constructed => exact ⟨0, rfl⟩
  | freed hrun hfreed => exact radixTreeDeleteFreed_clean hrun.follows.ok _ _ hfreed

theorem cached_node_zero_tagged :
    ∃ node ∈ radixTreeDeleteFreed taggedItems (BitVec.allOnes 64),
      ∃ height, nodeRcuFree node = newNode height := by
  have hlength : (radixTreeDeleteFreed taggedItems (BitVec.allOnes 64)).length = 21 := by
    decide +kernel
  obtain ⟨node, hnode⟩ := exists_mem_of_length_pos (by rw [hlength]; decide)
  exact ⟨node, hnode, cached_node_zero (.freed taggedItems_run hnode)⟩

end KernelM5040.RadixTree
