import KernelM5040.Lib.RadixTreeRuns

/-!
# Preloaded nodes of a radix tree

`radix_tree_preload` fills a pool with `RADIX_TREE_MAX_PATH` nodes, and an
insertion whose mask has no `__GFP_WAIT` takes its nodes from the pool first.  A
path of new nodes fits into the pool.  A tree that grows also needs a node for
each level on top, and both together may not.
-/

namespace KernelM5040.RadixTree

open Function Prod

variable {Item : Type*} {index : Index} {level nodes : ℕ} {slot : Slot Item} {root : Root Item}

/-- The nodes of the pool, and the allocations from the cache that will succeed. -/
structure Pool where
  nr : ℕ
  cache : ℕ
  deriving DecidableEq

/-- `radix_tree_node_alloc` for a mask without `__GFP_WAIT`. -/
def Pool.nodeAlloc : Pool → Option Pool
  | ⟨nr + 1, cache⟩ => some ⟨nr, cache⟩
  | ⟨0, cache + 1⟩ => some ⟨0, cache⟩
  | ⟨0, 0⟩ => none

theorem nodeAlloc_add_one {pool rest : Pool} (halloc : pool.nodeAlloc = some rest) :
    rest.nr + rest.cache + 1 = pool.nr + pool.cache := by
  obtain ⟨nr, cache⟩ := pool
  cases nr with
  | succ nr =>
    cases halloc
    exact (Nat.succ_add nr cache).symm
  | zero =>
    cases cache <;> cases halloc
    rfl

/-- The allocations in a row that succeed. -/
def Pool.allocations (pool : Pool) : ℕ :=
  match halloc : pool.nodeAlloc with
  | none => 0
  | some rest => rest.allocations + 1
termination_by pool.nr + pool.cache
decreasing_by
  have := nodeAlloc_add_one halloc
  omega

theorem allocations_eq (pool : Pool) : pool.allocations = pool.nr + pool.cache := by
  fun_induction Pool.allocations pool with
  | case1 pool hnone =>
    obtain ⟨_ | nr, _ | cache⟩ := pool
    · rfl
    all_goals cases hnone
  | case2 pool rest halloc ih => rw [ih, nodeAlloc_add_one halloc]

/-- The loop of `radix_tree_preload` with so many nodes to go. -/
def preloadLoop : ℕ → Pool → Status × Pool
  | 0, pool => (.ok, pool)
  | _ + 1, ⟨nr, 0⟩ => (.enomem, ⟨nr, 0⟩)
  | levels + 1, ⟨nr, cache + 1⟩ => preloadLoop levels ⟨nr + 1, cache⟩

def radixTreePreload (pool : Pool) : Status × Pool := preloadLoop (maxPath - pool.nr) pool

theorem nr_of_preloadLoop {levels : ℕ} {pool filled : Pool}
    (hok : preloadLoop levels pool = (.ok, filled)) : filled.nr = pool.nr + levels := by
  induction levels generalizing pool with
  | zero =>
    cases hok
    rfl
  | succ levels ih =>
    obtain ⟨nr, cache⟩ := pool
    cases cache with
    | zero => cases hok
    | succ cache => exact (ih hok).trans (Nat.add_right_comm nr 1 levels)

/-- The nodes that are missing on a path. -/
def missing (index : Index) : ℕ → Slot Item → ℕ
  | 0, _ => 0
  | level + 1, .null => level + 1
  | level + 1, .node _ _ slots _ => missing index level (slots (offset index level))
  | _ + 1, .item _ => 0

theorem missing_null (level : ℕ) : missing index level (.null : Slot Item) = level := by
  cases level <;> rfl

theorem missing_le (level : ℕ) (slot : Slot Item) : missing index level slot ≤ level := by
  induction level generalizing slot with
  | zero => exact le_rfl
  | succ level ih =>
    cases slot with
    | null => exact le_rfl
    | item _ => exact Nat.zero_le _
    | node _ _ slots _ => exact (ih _).trans (Nat.le_succ level)

theorem insertFrom_enomem_iff (value : Item) (hslot : WellFormed level slot) :
    (insertFrom index value level slot nodes).map fst = some .enomem ↔
      nodes < missing index level slot := by
  induction level generalizing slot nodes with
  | zero =>
    cases slot with
    | null | item _ => simp [insertFrom, missing]
    | node _ _ _ _ => exact hslot.elim
  | succ level ih =>
    cases slot with
    | null =>
      cases nodes with
      | zero => simp [insertFrom, missing]
      | succ nodes =>
        rw [insertFrom, Option.map_map, missing, Nat.succ_lt_succ_iff]
        exact (ih (wellFormed_null level)).trans (by rw [missing_null])
    | item _ => exact hslot.elim
    | node height count slots tags =>
      rw [insertFrom, Option.map_map, missing]
      exact ih (hslot.2.2 _)

theorem extendLevels_eq (levels nodes : ℕ) (root : Root Item) :
    extendLevels levels root nodes =
      if levels ≤ nodes then (some (nodes - levels), addLevel^[levels] root)
      else (none, addLevel^[nodes] root) := by
  induction levels generalizing root nodes with
  | zero => simp [extendLevels]
  | succ levels ih =>
    cases nodes with
    | zero => rfl
    | succ nodes => simp [extendLevels, ih]

/-- An index that needs the top level leaves the first slot of its node. -/
theorem missing_addLevel (hlow : index > radixTreeMaxindex root.height)
    (hhigh : index ≤ radixTreeMaxindex (root.height + 1)) :
    missing index (root.height + 1) (addLevel root).rnode = root.height := by
  have hoffset : offset index root.height ≠ 0 := fun hzero =>
    absurd (le_maxindex_iff.mpr ⟨hhigh, hzero⟩) (BitVec.not_le.mpr hlow)
  rw [addLevel, missing, update_of_ne hoffset, missing_null]

theorem growHeight_least {fuel height lower : ℕ} (hge : height ≤ lower)
    (hlt : lower < growHeight index fuel height) : index > radixTreeMaxindex lower := by
  induction fuel generalizing height with
  | zero => exact absurd hge (not_le.mpr hlt)
  | succ fuel ih =>
    rw [growHeight] at hlt
    split at hlt
    · rename_i hmore
      rcases hge.eq_or_lt with rfl | hgt
      · exact hmore
      · exact ih hgt hlt
    · exact absurd hge (not_le.mpr hlt)

theorem height_iterate_addLevel (levels : ℕ) (root : Root Item) :
    (addLevel^[levels] root).height = root.height + levels := by
  induction levels with
  | zero => rfl
  | succ levels ih =>
    rw [iterate_succ_apply', addLevel, ih]
    rfl

theorem wellFormed_iterate_addLevel (levels : ℕ) (hok : WellFormed root.height root.rnode)
    (hnull : root.rnode.isNull = false) :
    WellFormed (addLevel^[levels] root).height (addLevel^[levels] root).rnode := by
  induction levels generalizing root with
  | zero => exact hok
  | succ levels ih => exact @ih (addLevel root) (wellFormed_addLevel hok hnull) rfl

theorem radixTreeMaxindex_mono {low high : ℕ} (hle : low ≤ high)
    (hindex : index ≤ radixTreeMaxindex low) : index ≤ radixTreeMaxindex high := by
  rw [le_radixTreeMaxindex] at *
  exact hindex.trans_le (Nat.pow_le_pow_right (by decide) (Nat.mul_le_mul_left mapShift hle))

/-- A tree with something in it that has to grow needs a node for each new level, and one for
each level but the top one on the path of the index. -/
theorem insert_grown_enomem_iff (hok : RootOk root) (hnull : root.rnode.isNull = false)
    (hindex : index > radixTreeMaxindex root.height) (value : Item) :
    (radixTreeInsert root index value nodes).map fst = some .enomem ↔
      nodes + root.height + 1 < 2 * growHeight index maxPath (root.height + 1) := by
  obtain ⟨hge, hle, hfits⟩ := growHeight_of_gt hok.height_le hindex
  have hleast : ∀ lower, root.height ≤ lower →
      lower < growHeight index maxPath (root.height + 1) → index > radixTreeMaxindex lower := by
    intro lower hge hlt
    rcases hge.eq_or_lt with rfl | hgt
    · exact hindex
    · exact growHeight_least hgt hlt
  rw [radixTreeInsert, if_pos hindex, radixTreeExtend, hnull, if_neg Bool.false_ne_true,
    extendLevels_eq]
  generalize growHeight index maxPath (root.height + 1) = height at *
  obtain ⟨levels, rfl⟩ : ∃ levels, height = root.height + (levels + 1) :=
    ⟨height - root.height - 1, by omega⟩
  rw [Nat.add_sub_cancel_left]
  by_cases hnodes : levels + 1 ≤ nodes
  · have hgrown := wellFormed_iterate_addLevel (levels + 1) hok.wellFormed hnull
    have hheight := height_iterate_addLevel levels root
    rw [iterate_succ_apply'] at hgrown
    rw [if_pos hnodes, iterate_succ_apply']
    generalize addLevel^[levels] root = lower at hgrown hheight ⊢
    have hmissing := missing_addLevel (hleast lower.height (by omega) (by omega)) (by rwa [hheight])
    show (insertInto (addLevel lower) index value _).map fst = _ ↔ _
    rw [insertInto, Option.map_map]
    refine (insertFrom_enomem_iff value hgrown).trans ?_
    rw [show (addLevel lower).height = lower.height + 1 from rfl, hmissing, hheight]
    omega
  · rw [if_neg hnodes]
    exact iff_of_true rfl (by omega)

theorem insertInto_not_enomem (hok : WellFormed root.height root.rnode)
    (hnodes : root.height ≤ nodes) (value : Item) :
    (insertInto root index value nodes).map fst ≠ some .enomem := by
  rw [insertInto, Option.map_map]
  exact fun henomem => absurd ((insertFrom_enomem_iff value hok).mp henomem)
    (not_lt.mpr ((missing_le _ _).trans hnodes))

/-- An insertion after a successful `radix_tree_preload` gets along without the cache if and
only if the tree is empty or does not have to grow too high for it. -/
theorem preload_suffices_iff (hok : RootOk root) (index : Index) (value : Item) {pool filled : Pool}
    (hnr : pool.nr ≤ maxPath) (hpreload : radixTreePreload pool = (.ok, filled)) :
    (radixTreeInsert root index value (Pool.mk filled.nr 0).allocations).map fst ≠
        some .enomem ↔
      root.rnode.isNull = true ∨
        index ≤ radixTreeMaxindex ((root.height + maxPath + 1) / 2) := by
  have hfilled : (Pool.mk filled.nr 0).allocations = maxPath := by
    rw [allocations_eq]
    exact (nr_of_preloadLoop hpreload).trans (by omega)
  have hheight := hok.height_le
  rw [hfilled]
  by_cases hindex : index > radixTreeMaxindex root.height
  · obtain ⟨hge, hle, hfits⟩ := growHeight_of_gt hheight hindex
    cases hnull : root.rnode.isNull with
    | true =>
      refine iff_of_true ?_ (Or.inl rfl)
      rw [radixTreeInsert, if_pos hindex, radixTreeExtend, hnull, if_pos rfl]
      refine insertInto_not_enomem ?_ hle value
      rw [eq_null_of_isNull hnull]
      exact wellFormed_null _
    | false =>
      rw [ne_eq, insert_grown_enomem_iff hok hnull hindex, or_iff_right (by simp), not_lt]
      constructor
      · exact fun hroom => radixTreeMaxindex_mono (by omega) hfits
      intro hhalf
      by_contra hroom
      have hleast := growHeight_least (by omega) (by omega :
        (root.height + maxPath + 1) / 2 < growHeight index maxPath (root.height + 1))
      exact absurd hhalf (BitVec.not_le.mpr hleast)
  · refine iff_of_true ?_ (Or.inr (radixTreeMaxindex_mono (by omega) (BitVec.not_lt.mp hindex)))
    rw [radixTreeInsert, if_neg hindex]
    exact insertInto_not_enomem hok.wellFormed hheight value

/-- A tree with one item, at index 0. -/
def lowItem : Root Unit := ⟨0, fun _ => false, .item ()⟩

theorem lowItem_ok : RootOk lowItem := ⟨trivial, by decide⟩

theorem preload_suffices_lowItem :
    (radixTreeInsert lowItem 63 () (Pool.mk 11 0).allocations).map fst ≠ some .enomem :=
  (preload_suffices_iff lowItem_ok 63 () (by decide : 0 ≤ maxPath)
    (rfl : radixTreePreload ⟨0, 11⟩ = (.ok, ⟨11, 0⟩))).mpr (Or.inr (by decide))

/-- An insertion at the highest index needs eleven levels on top and ten nodes of a new path. -/
theorem preload_runs_out :
    radixTreeInsert initRadixTree 0 () 0 = some (.ok, lowItem) ∧
      radixTreePreload ⟨0, 11⟩ = (.ok, ⟨11, 0⟩) ∧
      (radixTreeInsert lowItem (BitVec.allOnes 64) () (Pool.mk 11 0).allocations).map fst =
        some .enomem := by
  rw [allocations_eq]
  exact ⟨rfl, rfl, by decide +kernel⟩

end KernelM5040.RadixTree
