import KernelM5040.Core.StaticTree
import KernelM5040.Core.Tiling

/-!
# Device-mapper tables: drivers/md/dm-table.c

The last sectors of the targets, in the order of the targets, are the leaves
of a tree of nodes with `KEYS_PER_NODE` keys.  `dm_table_complete` adds the
levels above them: a key is the highest sector below a child, or the highest
number of all where the last leaf below the child does not exist.
`dm_table_find_target` goes down from the root.
-/

namespace KernelM5040.DmTable

open List Function StaticTree Tiling Nat

/-! ## The tables -/

/-- `(sector_t) -1` -/
def sectorMax : ℕ := 2 ^ 64 - 1

/-- `dm_div_up` -/
def divUp (n size : ℕ) : ℕ := (n + size - 1) / size

/-- `dm_round_up` -/
def roundUp (n size : ℕ) : ℕ := divUp n size * size

/-- The part of the device a target is responsible for. -/
structure Target where
  begin : ℕ
  len : ℕ
  deriving DecidableEq, Repr

/-- A table.  An entry of `targets` that holds no target is zeroed.  What a read behind the
end of an array finds is the value of the array's function there. -/
structure Table where
  depth : ℕ
  counts : ℕ → ℕ
  index : ℕ → ℕ → ℕ
  numTargets : ℕ
  numAllocated : ℕ
  highs : ℕ → ℕ
  targets : ℕ → Option Target

/-- What the memory behind freshly allocated arrays holds: behind the highs that are allocated
when there are so many targets, and around the index of a level. -/
structure Stray where
  highs : ℕ → ℕ → ℕ
  index : ℕ → ℕ → ℕ

/-- The table of `kzalloc`. -/
def empty (stray : Stray) : Table :=
  ⟨0, fun _ => 0, stray.index, 0, 0, fun _ => 0, fun _ => none⟩

def allocTargets (stray : Stray) (t : Table) (num : ℕ) : Table :=
  { t with
    numAllocated := num
    highs := fun i =>
      if i < t.numTargets then t.highs i
      else if i < num then sectorMax
      else stray.highs t.numTargets i
    targets := fun i => if i < t.numTargets then t.targets i else none }

variable (keys : ℕ)

/-- `dm_table_create`; `keys` is `KEYS_PER_NODE`. -/
def create (stray : Stray) (numTargets : ℕ) : Table :=
  allocTargets stray (empty stray) (roundUp (if numTargets = 0 then keys else numTargets) keys)

def checkSpace (stray : Stray) (t : Table) : Table :=
  if t.numAllocated ≤ t.numTargets then allocTargets stray t (t.numAllocated * 2) else t

variable (t : Table)

def adjoin (begin : ℕ) : Bool :=
  if t.numTargets = 0 then begin == 0
  else
    match t.targets (t.numTargets - 1) with
    | none => begin == 0
    | some prev => begin == prev.begin + prev.len

/-- `t->targets[t->num_targets] = tgt` and the key that goes with it. -/
def append (tgt : Target) : Table :=
  { t with
    highs := update t.highs t.numTargets (tgt.begin + tgt.len - 1)
    targets := update t.targets t.numTargets (some tgt)
    numTargets := t.numTargets + 1 }

/-- `dm_table_add_target` for a target whose constructor succeeds. -/
def addTarget (stray : Stray) (t : Table) (tgt : Target) : Option Table :=
  let t := checkSpace stray t
  if tgt.len = 0 then none
  else if adjoin t tgt.begin then some (append t tgt)
  else none

def addTargets (stray : Stray) : Table → List Target → Option Table
  | t, [] => some t
  | t, tgt :: tgts => (addTarget stray t tgt).bind fun t => addTargets stray t tgts

/-! ## The index -/

/-- `int_log`; the number gets smaller in every turn. -/
def intLog (base : ℕ) : ℕ → ℕ → ℕ
  | 0, _ => 0
  | fuel + 1, n => if 1 < n then intLog base fuel (divUp n base) + 1 else 0

def getChild (keys n k : ℕ) : ℕ := n * (keys + 1) + k

/-- `get_node(t, l, n)[k]` -/
def nodeKey (l n k : ℕ) : ℕ := t.index l (n * keys + k)

def high (l n : ℕ) : ℕ :=
  let last := (fun n => getChild keys n keys)^[t.depth - 1 - l] n
  if t.counts (t.depth - 1) ≤ last then sectorMax
  else nodeKey keys t (t.depth - 1) last (keys - 1)

def setupBtreeIndex (l : ℕ) : Table :=
  { t with
    index := update t.index l fun place =>
      if place < t.counts l * keys then
        high keys t (l + 1) (getChild keys (place / keys) (place % keys))
      else t.index l place }

/-- `t->counts[level]` for a level above the leaves. -/
def countLevel (level : ℕ) : Table :=
  { t with counts := update t.counts level (divUp (t.counts (level + 1)) (keys + 1)) }

/-- The first loop of `setup_indexes`, over the levels below `level` downwards. -/
def countLevels (keys : ℕ) : Table → ℕ → Table
  | t, 0 => t
  | t, level + 1 => countLevels keys (countLevel keys t level) level

/-- The second loop of `setup_indexes`. -/
def indexLevels (keys : ℕ) : Table → ℕ → Table
  | t, 0 => t
  | t, level + 1 => indexLevels keys (setupBtreeIndex keys t level) level

def setupIndexes : Table :=
  indexLevels keys (countLevels keys t (t.depth - 1)) (t.depth - 1)

/-- The leaf layer that `dm_table_complete` sets up. -/
def leafLayer : Table :=
  let leafNodes := divUp t.numTargets keys
  let depth := 1 + intLog (keys + 1) leafNodes leafNodes
  { t with
    depth := depth
    counts := update t.counts (depth - 1) leafNodes
    index := update t.index (depth - 1) t.highs }

/-- `dm_table_complete`, with enough memory for the indexes. -/
def complete : Table :=
  let t := leafLayer keys t
  if 2 ≤ t.depth then setupIndexes keys t else t

/-! ## Looking up -/

/-- The loop of `dm_table_find_target` from level `l` on: the nodes that it reads, by level and
number, and the position in `targets`. -/
def findLoop (keys : ℕ) (t : Table) (sector : ℕ) : ℕ → ℕ → ℕ → ℕ → List (ℕ × ℕ) × ℕ
  | 0, _, n, k => ([], keys * n + k)
  | levels + 1, l, n, k =>
    let child := getChild keys n k
    let rest := findLoop keys t sector levels (l + 1) child
      (firstAtLeast (nodeKey keys t l child) sector keys 0)
    ((l, child) :: rest.1, rest.2)

/-- `dm_table_find_target` -/
def findTarget (sector : ℕ) : List (ℕ × ℕ) × ℕ :=
  findLoop keys t sector t.depth 0 0 0

variable (tgts : List Target) {i : ℕ}

/-- A lookup reads nodes that exist on their level and finds the target that contains the
sector, or the zeroed entry after the last target. -/
structure Exact (sector : ℕ) : Prop where
  reads : ∀ read ∈ (findTarget keys t sector).1, read.2 < t.counts read.1
  inside : ∀ tgt ∈ tgts, tgt.begin ≤ sector → sector < tgt.begin + tgt.len →
    t.targets (findTarget keys t sector).2 = some tgt
  beyond : (∀ tgt ∈ tgts, tgt.begin + tgt.len ≤ sector) →
    (findTarget keys t sector).2 = tgts.length ∧ t.targets tgts.length = none

section Arithmetic

variable {n size m : ℕ}

theorem lt_divUp_iff (hsize : 0 < size) : m < divUp n size ↔ m * size < n := by
  rw [divUp, lt_iff_add_one_le, Nat.le_div_iff_mul_le hsize, add_mul, one_mul]
  omega

theorem le_roundUp (n : ℕ) (hsize : 0 < size) : n ≤ roundUp n size := by
  have hnot : ¬divUp n size * size < n := (lt_divUp_iff hsize).not.mp (lt_irrefl (divUp n size))
  rw [roundUp]
  omega

theorem divUp_lt (hsize : 2 ≤ size) (hn : 1 < n) : divUp n size < n := by
  rw [← not_le]
  intro hle
  have hlast : (n - 1) * size < n := (lt_divUp_iff (by omega)).mp (by omega : n - 1 < divUp n size)
  have : (n - 1) * 2 ≤ (n - 1) * size := Nat.mul_le_mul_left _ hsize
  omega

theorem le_pow_intLog (hsize : 2 ≤ size) {fuel : ℕ} (hfuel : n ≤ fuel) :
    n ≤ size ^ intLog size fuel n := by
  induction fuel generalizing n with
  | zero => omega
  | succ fuel ih =>
    rw [intLog]
    split_ifs with hmore
    · have hless := divUp_lt hsize hmore
      have hle : divUp n size ≤ size ^ intLog size fuel (divUp n size) := ih (by omega)
      calc n ≤ divUp n size * size := le_roundUp n (by omega)
        _ ≤ size ^ intLog size fuel (divUp n size) * size := Nat.mul_le_mul_right _ hle
        _ = size ^ (intLog size fuel (divUp n size) + 1) := (pow_succ _ _).symm
    · simpa using hmore

theorem divUp_mul_self (hsize : 0 < size) : divUp (m * size) size = m := by
  rw [divUp, show m * size + size - 1 = size - 1 + size * m by rw [mul_comm]; omega,
    add_mul_div_left _ _ hsize, div_eq_of_lt (by omega), zero_add]

theorem div_mod_place {k : ℕ} (hk : k < size) :
    (n * size + k) / size = n ∧ (n * size + k) % size = k :=
  (Nat.div_mod_unique (zero_lt_of_lt hk)).mpr ⟨by ring, hk⟩

theorem intLog_pow (hsize : 2 ≤ size) {fuel exponent : ℕ} (hfuel : exponent ≤ fuel) :
    intLog size fuel (size ^ exponent) = exponent := by
  induction exponent generalizing fuel with
  | zero =>
    cases fuel with
    | zero => rfl
    | succ fuel => simp [intLog]
  | succ exponent ih =>
    obtain ⟨fuel, rfl⟩ : ∃ rest, fuel = rest + 1 := ⟨fuel - 1, by omega⟩
    have hmore : 1 < size ^ (exponent + 1) := one_lt_pow (succ_ne_zero _) (by omega)
    rw [intLog, if_pos hmore, pow_succ, divUp_mul_self (by omega), ih (by omega)]

end Arithmetic

/-- A table with these targets: they tile the device from sector 0, the rest of the highs is
filled up, and the allocation is a whole number of nodes. -/
structure Loaded (total : ℕ) (t : Table) : Prop where
  tiles : Tiles Target.begin Target.len 0 tgts total
  positive : ∀ tgt ∈ tgts, 0 < tgt.len
  count : t.numTargets = tgts.length
  nodes : ∃ nodes, 0 < nodes ∧ t.numAllocated = nodes * keys
  room : tgts.length ≤ t.numAllocated
  highs : ∀ i tgt, tgts[i]? = some tgt → t.highs i = tgt.begin + tgt.len - 1
  filled : ∀ i, tgts.length ≤ i → i < t.numAllocated → t.highs i = sectorMax
  targets : ∀ i, t.targets i = tgts[i]?

section Loaded

variable {keys : ℕ} {stray : Stray} {t t' : Table} {tgts : List Target} {tgt : Target} {total : ℕ}

theorem allocTargets_highs {num : ℕ} (hge : t.numTargets ≤ i) (hlt : i < num) :
    (allocTargets stray t num).highs i = sectorMax := by
  simp only [allocTargets]
  rw [if_neg (by omega), if_pos hlt]

theorem loaded_create (hkeys : 0 < keys) (num : ℕ) : Loaded keys [] 0 (create keys stray num) where
  tiles := rfl
  positive := by simp
  count := rfl
  nodes := by
    refine ⟨divUp (if num = 0 then keys else num) keys, ?_, rfl⟩
    rw [lt_divUp_iff hkeys]
    split_ifs <;> omega
  room := Nat.zero_le _
  highs := by simp
  filled := by
    intro i _ hlt
    exact allocTargets_highs (Nat.zero_le i) hlt
  targets := by
    intro i
    simp [create, allocTargets, empty]

section

variable (hloaded : Loaded keys tgts total t)
include hloaded

theorem Loaded.checkSpace (hkeys : 0 < keys) (stray : Stray) :
    Loaded keys tgts total (checkSpace stray t) ∧
      tgts.length < (checkSpace stray t).numAllocated := by
  obtain ⟨nodes, hpos, hnodes⟩ := hloaded.nodes
  have halloc : 0 < t.numAllocated := by
    rw [hnodes]
    exact Nat.mul_pos hpos hkeys
  have hcount := hloaded.count
  have hroom := hloaded.room
  unfold DmTable.checkSpace
  split_ifs with hfull
  · refine ⟨⟨hloaded.tiles, hloaded.positive, hloaded.count, ⟨nodes * 2, by omega, ?_⟩, ?_, ?_, ?_,
      ?_⟩, ?_⟩
    · simp only [allocTargets, hnodes]
      ring
    · simp only [allocTargets]
      omega
    · intro i tgt htgt
      have hlt : i < t.numTargets := by
        rw [hcount]
        exact (List.getElem?_eq_some_iff.mp htgt).1
      simp only [allocTargets, if_pos hlt]
      exact hloaded.highs i tgt htgt
    · intro i hge hlt
      exact allocTargets_highs (by omega) hlt
    · intro i
      simp only [allocTargets]
      split_ifs with hlt
      · exact hloaded.targets i
      · rw [getElem?_eq_none (by omega)]
    · simp only [allocTargets]
      omega
  · exact ⟨hloaded, by omega⟩

theorem Loaded.begin_eq {begin : ℕ} (hadjoin : adjoin t begin = true) : begin = total := by
  unfold adjoin at hadjoin
  rcases eq_nil_or_concat tgts with rfl | ⟨init, last, rfl⟩
  · have hzero : t.numTargets = 0 := hloaded.count
    rw [if_pos hzero, beq_iff_eq] at hadjoin
    have htotal : 0 = total := hloaded.tiles
    omega
  rw [concat_eq_append] at hloaded
  have hcount := hloaded.count
  rw [length_append, length_singleton] at hcount
  have hlast : t.targets (t.numTargets - 1) = some last := by
    rw [hloaded.targets, hcount, Nat.add_sub_cancel]
    simp
  rw [if_neg (by omega), hlast] at hadjoin
  obtain ⟨middle, -, hbegin, htotal⟩ := tiles_append.mp hloaded.tiles
  have htotal' : middle + last.len = total := htotal
  have : begin = last.begin + last.len := by simpa using hadjoin
  omega

theorem Loaded.append (hbegin : tgt.begin = total) (hlen : 0 < tgt.len)
    (hroom : tgts.length < t.numAllocated) :
    Loaded keys (tgts ++ [tgt]) (total + tgt.len) (append t tgt) where
  tiles := tiles_append.mpr ⟨total, hloaded.tiles, hbegin, rfl⟩
  positive := by
    rw [forall_mem_append, forall_mem_singleton]
    exact ⟨hloaded.positive, hlen⟩
  count := by simp [DmTable.append, hloaded.count]
  nodes := hloaded.nodes
  room := by
    rw [length_append, length_singleton]
    exact hroom
  highs := by
    intro i other hother
    have hcount := hloaded.count
    simp only [DmTable.append]
    by_cases hlast : i = t.numTargets
    · rw [hlast, hcount, getElem?_concat_length, Option.some.injEq] at hother
      rw [hlast, update_self, hother]
    rw [update_of_ne hlast]
    apply hloaded.highs
    have hlt := (List.getElem?_eq_some_iff.mp hother).1
    rw [length_append, length_singleton] at hlt
    rwa [getElem?_append_left (by omega)] at hother
  filled := by
    intro i hge hlt
    rw [length_append, length_singleton] at hge
    simp only [DmTable.append] at hlt ⊢
    rw [update_of_ne (by rw [hloaded.count]; omega)]
    exact hloaded.filled i (by omega) hlt
  targets := by
    intro i
    simp only [DmTable.append]
    rw [update_apply]
    split_ifs with hlast
    · rw [hlast, hloaded.count, getElem?_concat_length]
    rw [hloaded.targets]
    rw [hloaded.count] at hlast
    rcases Nat.lt_or_gt_of_ne hlast with hlt | hgt
    · rw [getElem?_append_left hlt]
    · rw [getElem?_eq_none hgt.le, getElem?_eq_none]
      rw [length_append, length_singleton]
      exact hgt

theorem Loaded.addTarget (hkeys : 0 < keys) (hadd : addTarget stray t tgt = some t') :
    Loaded keys (tgts ++ [tgt]) (total + tgt.len) t' := by
  obtain ⟨hspace, hroom⟩ := hloaded.checkSpace hkeys stray
  simp only [DmTable.addTarget] at hadd
  split_ifs at hadd with hlen hadjoin
  cases hadd
  exact hspace.append (hspace.begin_eq hadjoin) (Nat.pos_of_ne_zero hlen) hroom

theorem Loaded.addTargets {more : List Target} (hkeys : 0 < keys)
    (hadd : addTargets stray t more = some t') :
    ∃ total', Loaded keys (tgts ++ more) total' t' := by
  induction more generalizing t tgts total with
  | nil =>
    cases hadd
    exact ⟨total, by simpa using hloaded⟩
  | cons tgt more ih =>
    rw [DmTable.addTargets, Option.bind_eq_some_iff] at hadd
    obtain ⟨middle, hfirst, hrest⟩ := hadd
    obtain ⟨total', hfinal⟩ := ih (hloaded.addTarget hkeys hfirst) hrest
    exact ⟨total', by simpa using hfinal⟩

end

end Loaded

/-! ## The levels above the leaves -/

/-- The last sector of a target; the highest sector for positions without one. -/
def lastSector (i : ℕ) : ℕ :=
  match tgts[i]? with
  | some tgt => tgt.begin + tgt.len - 1
  | none => sectorMax

/-- The leaf level holds the last sectors in full nodes. -/
structure Leaves (t : Table) : Prop where
  depth : 0 < t.depth
  count : t.counts (t.depth - 1) = divUp tgts.length keys
  key : ∀ n k, n < t.counts (t.depth - 1) → k < keys →
    nodeKey keys t (t.depth - 1) n k = lastSector tgts (n * keys + k)

/-- The levels from `level` on are as `dm_table_complete` leaves them. -/
structure Levels (t : Table) (level : ℕ) : Prop where
  leaves : Leaves keys tgts t
  counts : ∀ l, l + 1 < t.depth → t.counts l = divUp (t.counts (l + 1)) (keys + 1)
  key : ∀ l n k, level ≤ l → l + 1 < t.depth → n < t.counts l → k < keys →
    nodeKey keys t l n k =
      lastSector tgts ((n * (keys + 1) + k + 1) * ((keys + 1) ^ (t.depth - 2 - l) * keys) - 1)

variable {l : ℕ}

section Levels

variable {keys : ℕ} {tgts : List Target} {t : Table} {total : ℕ} {level : ℕ}

theorem lastSector_of_lt (hlt : i < tgts.length) :
    lastSector tgts i = tgts[i].begin + tgts[i].len - 1 := by
  rw [lastSector, getElem?_eq_getElem hlt]

theorem lastSector_of_length_le (hle : tgts.length ≤ i) : lastSector tgts i = sectorMax := by
  rw [lastSector, getElem?_eq_none hle]

theorem leaves_leafLayer (hloaded : Loaded keys tgts total t) (hkeys : 0 < keys) :
    Leaves keys tgts (leafLayer keys t) := by
  have hcount := hloaded.count
  obtain ⟨nodes, -, hnodes⟩ := hloaded.nodes
  have hfit : divUp tgts.length keys ≤ nodes := by
    rw [← not_lt, lt_divUp_iff hkeys, ← hnodes, not_lt]
    exact hloaded.room
  refine ⟨by simp [leafLayer], by simp [leafLayer, hcount], ?_⟩
  intro n k hn hk
  have hn' : n < divUp tgts.length keys := by simpa [leafLayer, hcount] using hn
  have hinside : n * keys + k < t.numAllocated := by
    rw [hnodes, ← Nat.div_lt_iff_lt_mul hkeys, (div_mod_place hk).1]
    exact hn'.trans_le hfit
  simp only [nodeKey, leafLayer, update_self]
  rw [lastSector]
  cases hget : tgts[n * keys + k]? with
  | some tgt => exact hloaded.highs _ _ hget
  | none => exact hloaded.filled _ (getElem?_eq_none_iff.mp hget) hinside

theorem iterate_getChild (levels n : ℕ) :
    (fun n => getChild keys n keys)^[levels] n + 1 = (n + 1) * (keys + 1) ^ levels := by
  induction levels generalizing n with
  | zero => simp
  | succ levels ih =>
    rw [iterate_succ_apply, ih, getChild, pow_succ]
    ring

theorem Leaves.high_eq (hleaves : Leaves keys tgts t) (hkeys : 0 < keys) (l n : ℕ) :
    high keys t l n = lastSector tgts ((n + 1) * ((keys + 1) ^ (t.depth - 1 - l) * keys) - 1) := by
  have hlast := @iterate_getChild keys (t.depth - 1 - l) n
  simp only [high]
  generalize (fun n => getChild keys n keys)^[t.depth - 1 - l] n = last at hlast
  have hplace : (n + 1) * ((keys + 1) ^ (t.depth - 1 - l) * keys) - 1 = last * keys + (keys - 1) := by
    rw [← mul_assoc, ← hlast, add_mul, one_mul]
    omega
  rw [hplace]
  split_ifs with hmissing
  · have hend : tgts.length ≤ last * keys := by
      rw [hleaves.count, ← not_lt, lt_divUp_iff hkeys, not_lt] at hmissing
      exact hmissing
    rw [lastSector_of_length_le (by omega)]
  · exact hleaves.key last (keys - 1) (by omega) (by omega)

theorem countLevel_counts_self (t : Table) (level : ℕ) :
    (countLevel keys t level).counts level = divUp (t.counts (level + 1)) (keys + 1) :=
  update_self _ _ _

theorem countLevel_counts_of_ne (t : Table) (hne : l ≠ level) :
    (countLevel keys t level).counts l = t.counts l :=
  update_of_ne hne _ _

theorem countLevels_spec (t : Table) (level : ℕ) :
    (countLevels keys t level).depth = t.depth ∧ (countLevels keys t level).index = t.index ∧
      (countLevels keys t level).targets = t.targets ∧
      (∀ l, level ≤ l → (countLevels keys t level).counts l = t.counts l) ∧
      ∀ l < level, (countLevels keys t level).counts l =
        divUp ((countLevels keys t level).counts (l + 1)) (keys + 1) := by
  induction level generalizing t with
  | zero => simp [countLevels]
  | succ level ih =>
    obtain ⟨hdepth, hindex, htargets, habove, hbelow⟩ := ih (countLevel keys t level)
    refine ⟨hdepth, hindex, htargets, ?_, ?_⟩
    · intro l hl
      rw [countLevels, habove l (by omega), countLevel_counts_of_ne t (by omega)]
    intro l hl
    rcases lt_or_ge l level with hlt | hge
    · exact hbelow l hlt
    · obtain rfl : l = level := by omega
      rw [countLevels, habove l le_rfl, habove (l + 1) (by omega), countLevel_counts_self,
        countLevel_counts_of_ne t (by omega)]

theorem Levels.setupBtreeIndex (hlevels : Levels keys tgts t (level + 1)) (hkeys : 0 < keys)
    (hlevel : level + 1 < t.depth) : Levels keys tgts (setupBtreeIndex keys t level) level := by
  have hother : ∀ l, l ≠ level → (DmTable.setupBtreeIndex keys t level).index l = t.index l := by
    intro l hne
    simp [DmTable.setupBtreeIndex, update_of_ne hne]
  refine ⟨⟨hlevels.leaves.depth, hlevels.leaves.count, ?_⟩, hlevels.counts, ?_⟩
  · intro n k hn hk
    rw [nodeKey, hother _ (by simp only [DmTable.setupBtreeIndex]; omega)]
    exact hlevels.leaves.key n k hn hk
  intro l n k hl hdepth hn hk
  rcases Nat.eq_or_lt_of_le hl with rfl | hlt
  · obtain ⟨hnode, hkey⟩ := @div_mod_place n keys k hk
    have hplace : n * keys + k < t.counts level * keys := by
      rw [← Nat.div_lt_iff_lt_mul hkeys, hnode]
      exact hn
    simp only [nodeKey, DmTable.setupBtreeIndex, update_self, if_pos hplace, hnode, hkey]
    rw [hlevels.leaves.high_eq hkeys, getChild, Nat.sub_sub, Nat.sub_sub, add_comm level 1,
      ← add_assoc]
  · rw [nodeKey, hother l (by omega)]
    exact hlevels.key l n k hlt hdepth hn hk

theorem Levels.indexLevels (hlevels : Levels keys tgts t level) (hkeys : 0 < keys)
    (hlevel : level < t.depth) :
    Levels keys tgts (indexLevels keys t level) 0 ∧
      (indexLevels keys t level).depth = t.depth ∧
      (indexLevels keys t level).targets = t.targets := by
  induction level generalizing t with
  | zero => exact ⟨hlevels, rfl, rfl⟩
  | succ level ih => exact ih (hlevels.setupBtreeIndex hkeys hlevel) (lt_of_succ_lt hlevel)

theorem levels_complete (hloaded : Loaded keys tgts total t) (hkeys : 0 < keys) :
    Levels keys tgts (complete keys t) 0 ∧
      (complete keys t).depth =
        1 + intLog (keys + 1) (divUp tgts.length keys) (divUp tgts.length keys) ∧
      (complete keys t).targets = t.targets := by
  have hleaves := leaves_leafLayer hloaded hkeys
  have hdepth : (leafLayer keys t).depth =
      1 + intLog (keys + 1) (divUp tgts.length keys) (divUp tgts.length keys) := by
    rw [← hloaded.count]
    rfl
  simp only [complete]
  split_ifs with hdeep
  · obtain ⟨hdepth', hindex, htargets, habove, hbelow⟩ :=
      @countLevels_spec keys (leafLayer keys t) ((leafLayer keys t).depth - 1)
    have hleaves' : Leaves keys tgts
        (countLevels keys (leafLayer keys t) ((leafLayer keys t).depth - 1)) := by
      refine ⟨by rw [hdepth']; exact hleaves.depth, ?_, ?_⟩
      · rw [hdepth', habove _ le_rfl]
        exact hleaves.count
      intro n k hn hk
      rw [hdepth', habove _ le_rfl] at hn
      rw [nodeKey, hdepth', hindex]
      exact hleaves.key n k hn hk
    have hlevels : Levels keys tgts
        (countLevels keys (leafLayer keys t) ((leafLayer keys t).depth - 1))
        ((leafLayer keys t).depth - 1) := by
      refine ⟨hleaves', ?_, ?_⟩
      · intro l hl
        rw [hdepth'] at hl
        exact hbelow l (by omega)
      · intro l n k hl hl' _ _
        rw [hdepth'] at hl'
        omega
    obtain ⟨hfinal, hfinalDepth, hfinalTargets⟩ := hlevels.indexLevels hkeys (by omega)
    exact ⟨hfinal, hfinalDepth.trans (hdepth'.trans hdepth), hfinalTargets.trans htargets⟩
  · refine ⟨⟨hleaves, ?_, ?_⟩, hdepth, rfl⟩
    · intro l hl
      omega
    · intro l n k _ hl _ _
      omega

theorem Levels.lt_counts_iff (hlevels : Levels keys tgts t level) (hl : l < t.depth) (n : ℕ) :
    n < t.counts l ↔ n * (keys + 1) ^ (t.depth - 1 - l) < divUp tgts.length keys := by
  induction hrest : t.depth - 1 - l generalizing l n with
  | zero =>
    obtain rfl : l = t.depth - 1 := by omega
    rw [pow_zero, mul_one, hlevels.leaves.count]
  | succ rest ih =>
    rw [hlevels.counts l (by omega), lt_divUp_iff (succ_pos keys), ih (by omega) _ (by omega),
      pow_succ', mul_assoc]

end Levels

section Search

variable {keys : ℕ} {tgts : List Target} {t : Table} {sector position : ℕ}

/-- The nodes that a lookup reads exist. -/
def ReadsExist (t : Table) (reads : List (ℕ × ℕ)) : Prop :=
  ∀ read ∈ reads, read.2 < t.counts read.1

/-- Where the position is below a node: after its first entry and not after its end. -/
structure Below (keys rest n position : ℕ) : Prop where
  low : n * ((keys + 1) ^ rest * keys) ≤ position
  high : position ≤ (n + 1) * ((keys + 1) ^ rest * keys)

variable (hlevels : Levels keys tgts t 0) (hkeys : 0 < keys)
  (hboundary : Boundary (lastSector tgts) sector position) {rest n k : ℕ}

section

include hlevels hkeys hboundary

theorem Below.child (hbelow : Below keys (rest + 1) n position) (hrest : t.depth - 1 - l = rest + 1)
    (hexists : n < t.counts l) :
    let child := getChild keys n (firstAtLeast (nodeKey keys t l n) sector keys 0)
    Below keys rest child position ∧ child < (n + 1) * (keys + 1) ∧
      (position < (n + 1) * ((keys + 1) ^ (rest + 1) * keys) →
        position < (child + 1) * ((keys + 1) ^ rest * keys)) := by
  have hwidth : 0 < (keys + 1) ^ rest * keys := by positivity
  have hsplit : (keys + 1) ^ (rest + 1) * keys = (keys + 1) * ((keys + 1) ^ rest * keys) := by
    rw [pow_succ']
    ring
  have hkey : firstAtLeast (nodeKey keys t l n) sector keys 0 =
      firstAtLeast (fun k => lastSector tgts
        ((n * (keys + 1) + k + 1) * ((keys + 1) ^ rest * keys) - 1)) sector keys 0 := by
    apply firstAtLeast_congr
    intro k _ hk
    rw [hlevels.key l n k (Nat.zero_le l) (by omega) hexists (by omega),
      show t.depth - 2 - l = rest by omega]
  obtain ⟨hlow, hhigh⟩ := hbelow
  rw [hsplit] at hlow hhigh ⊢
  obtain ⟨hlast, hfirst, hend, hstrict⟩ := descend hboundary hwidth hlow hhigh
  intro child
  have hchild : child = n * (keys + 1) + firstAtLeast (fun k => lastSector tgts
      ((n * (keys + 1) + k + 1) * ((keys + 1) ^ rest * keys) - 1)) sector keys 0 := by
    rw [← hkey]
    rfl
  rw [hchild]
  exact ⟨⟨hfirst, hend⟩, hlast, hstrict⟩

end

variable (hdepth : t.depth = l + rest + 1) (hbelow : Below keys rest (getChild keys n k) position)
include hlevels hkeys hboundary hdepth hbelow

/-- From a node that the position is below, the loop either reads a node that does not exist
or ends at the position. -/
theorem findLoop_eq (hreads : ReadsExist t (findLoop keys t sector (rest + 1) l n k).1) :
    (findLoop keys t sector (rest + 1) l n k).2 = position := by
  induction rest generalizing l n k with
  | zero =>
    have hexists : getChild keys n k < t.counts l := hreads _ mem_cons_self
    obtain rfl : l = t.depth - 1 := by omega
    have hkey : firstAtLeast (nodeKey keys t (t.depth - 1) (getChild keys n k)) sector keys 0 =
        firstAtLeast (fun i => lastSector tgts (getChild keys n k * keys + i)) sector keys 0 := by
      apply firstAtLeast_congr
      intro i _ hi
      exact hlevels.leaves.key _ i hexists (by omega)
    obtain ⟨hlow, hhigh⟩ := hbelow
    rw [pow_zero, one_mul] at hlow hhigh
    simp only [findLoop]
    rw [hkey, mul_comm keys]
    exact firstAtLeast_leaf hboundary hlow hhigh
  | succ rest ih =>
    have hexists : getChild keys n k < t.counts l := hreads _ mem_cons_self
    obtain ⟨hchild, -, -⟩ := hbelow.child hlevels hkeys hboundary (by omega) hexists
    rw [findLoop]
    apply ih (by omega) hchild
    intro read hread
    exact hreads read (mem_cons_of_mem _ hread)

/-- All nodes on the way exist if a property of nodes that goes on to the children ensures it. -/
theorem readsExist_of {P : ℕ → ℕ → Prop}
    (hexists : ∀ {l n rest}, t.depth = l + rest + 1 → Below keys rest n position → P l n →
      n < t.counts l)
    (hchild : ∀ {l n child}, P l n → child < (n + 1) * (keys + 1) → P (l + 1) child)
    (hnode : P l (getChild keys n k)) :
    ReadsExist t (findLoop keys t sector (rest + 1) l n k).1 := by
  have hfirst := hexists hdepth hbelow hnode
  induction rest generalizing l n k with
  | zero => exact forall_mem_cons.mpr ⟨hfirst, forall_mem_nil _⟩
  | succ rest ih =>
    obtain ⟨hbelow', hlast, -⟩ := hbelow.child hlevels hkeys hboundary (by omega) hfirst
    have hnode' := hchild hnode hlast
    have hdepth' : t.depth = l + 1 + rest + 1 := by omega
    exact forall_mem_cons.mpr ⟨hfirst, ih hdepth' hbelow' hnode' (hexists hdepth' hbelow' hnode')⟩

/-- The nodes on the way to a position in front of the end of the last leaf node exist. -/
theorem readsExist_of_lt (hlt : position < divUp tgts.length keys * keys) :
    ReadsExist t (findLoop keys t sector (rest + 1) l n k).1 := by
  refine readsExist_of hlevels hkeys hboundary hdepth hbelow (P := fun _ _ => True) ?_
    (fun _ _ => trivial) trivial
  intro l n rest hdepth hbelow _
  rw [hlevels.lt_counts_iff (by omega), show t.depth - 1 - l = rest by omega]
  have hlow := hbelow.low
  rw [← mul_assoc] at hlow
  exact Nat.lt_of_mul_lt_mul_right (hlow.trans_lt hlt)

/-- In a tree without missing leaves every node on the way exists. -/
theorem readsExist_of_full (hfull : divUp tgts.length keys = (keys + 1) ^ (t.depth - 1))
    (hnode : getChild keys n k < (keys + 1) ^ l) :
    ReadsExist t (findLoop keys t sector (rest + 1) l n k).1 := by
  refine readsExist_of hlevels hkeys hboundary hdepth hbelow (P := fun l n => n < (keys + 1) ^ l)
    ?_ ?_ hnode
  · intro l n rest hdepth _ hn
    rw [hlevels.lt_counts_iff (by omega), hfull, show t.depth - 1 = l + rest by omega,
      Nat.add_sub_cancel_left, pow_add]
    exact Nat.mul_lt_mul_of_pos_right hn (by positivity)
  · intro l n child hn hlast
    rw [pow_succ]
    exact hlast.trans_le (Nat.mul_le_mul_right _ hn)

/-- The way to the end of the last leaf node, where this is not the end of the tree, leads to
a leaf node that does not exist. -/
theorem not_readsExist (hend : position = divUp tgts.length keys * keys)
    (hstrict : position < (getChild keys n k + 1) * ((keys + 1) ^ rest * keys)) :
    ¬ReadsExist t (findLoop keys t sector (rest + 1) l n k).1 := by
  induction rest generalizing l n k with
  | zero =>
    intro hreads
    have hexists : getChild keys n k < t.counts l := hreads _ mem_cons_self
    rw [hlevels.lt_counts_iff (by omega), show t.depth - 1 - l = 0 by omega, pow_zero,
      mul_one] at hexists
    rw [hend, pow_zero, one_mul] at hstrict
    have := Nat.lt_of_mul_lt_mul_right hstrict
    omega
  | succ rest ih =>
    intro hreads
    have hexists : getChild keys n k < t.counts l := hreads _ mem_cons_self
    obtain ⟨hchild, -, hstrict'⟩ :=
      hbelow.child hlevels hkeys hboundary (by omega) hexists
    refine ih (l := l + 1) (by omega) hchild (hstrict' hstrict) fun read hread => ?_
    exact hreads read (mem_cons_of_mem _ hread)

end Search

section Exact

variable {keys : ℕ} {stray : Stray} {tgts : List Target} {t : Table} {total sector position : ℕ}

section

variable (hloaded : Loaded keys tgts total t)
include hloaded

theorem Loaded.total_eq :
    (∀ tgt ∈ tgts, tgt.begin + tgt.len ≤ total) ∧
      (∀ sector, (∀ tgt ∈ tgts, tgt.begin + tgt.len ≤ sector) → total ≤ sector) := by
  have harranged := hloaded.tiles.arranged hloaded.positive
  refine ⟨fun tgt htgt => (harranged.mem htgt).2.2, ?_⟩
  intro sector hbeyond
  by_contra hlt
  obtain ⟨i, hi, hlow, hhigh⟩ := hloaded.tiles.exists_getElem (Nat.zero_le sector) (not_le.mp hlt)
  have := hbeyond _ (getElem_mem hi)
  omega

/-- The first target whose last sector is not before a sector inside a target is that target. -/
theorem Loaded.boundary_inside (htotal : total ≤ sectorMax + 1) (hi : i < tgts.length)
    (hlow : tgts[i].begin ≤ sector) (hhigh : sector < tgts[i].begin + tgts[i].len) :
    Boundary (lastSector tgts) sector i := by
  have harranged := hloaded.tiles.arranged hloaded.positive
  have hpairwise := pairwise_iff_getElem.mp harranged.pairwise
  intro j
  rcases lt_or_ge j tgts.length with hj | hj
  · have hlen := hloaded.positive _ (getElem_mem hj)
    rw [lastSector_of_lt hj]
    rcases Nat.lt_trichotomy j i with hlt | rfl | hgt
    · have := hpairwise j i hj hi hlt
      constructor <;> intro _ <;> omega
    · constructor <;> intro _ <;> omega
    · have := hpairwise i j hi hj hgt
      constructor <;> intro _ <;> omega
  · have hend := (harranged.mem (getElem_mem hi)).2.2
    rw [lastSector_of_length_le hj]
    constructor <;> intro _ <;> omega

theorem Loaded.boundary_beyond (hbeyond : total ≤ sector) (hsector : sector ≤ sectorMax) :
    Boundary (lastSector tgts) sector tgts.length := by
  intro j
  rcases lt_or_ge j tgts.length with hj | hj
  · have hend := hloaded.total_eq.1 _ (getElem_mem hj)
    have hlen := hloaded.positive _ (getElem_mem hj)
    rw [lastSector_of_lt hj]
    constructor <;> intro _ <;> omega
  · rw [lastSector_of_length_le hj]
    exact ⟨fun _ => hj, fun _ => hsector⟩

/-- The tree is large enough for the leaves: every position up to the number of targets is
below the root. -/
theorem below_root (hkeys : 0 < keys) (hposition : position ≤ tgts.length) :
    Below keys ((complete keys t).depth - 1) (getChild keys 0 0) position := by
  obtain ⟨-, hdepth, -⟩ := levels_complete hloaded hkeys
  have hleaves : divUp tgts.length keys ≤ (keys + 1) ^ ((complete keys t).depth - 1) := by
    rw [hdepth, Nat.add_sub_cancel_left]
    exact le_pow_intLog (by omega) le_rfl
  constructor
  · simp [getChild]
  calc position ≤ tgts.length := hposition
    _ ≤ divUp tgts.length keys * keys := le_roundUp _ hkeys
    _ ≤ (keys + 1) ^ ((complete keys t).depth - 1) * keys := Nat.mul_le_mul_right _ hleaves
    _ = (getChild keys 0 0 + 1) * ((keys + 1) ^ ((complete keys t).depth - 1) * keys) := by
      simp [getChild]

end

/-- The number of targets fills whole nodes, but these do not fill the tree. -/
def Overrun (keys count : ℕ) : Prop :=
  keys ∣ count ∧ ∀ exponent, count ≠ keys * (keys + 1) ^ exponent

section

variable (hloaded : Loaded keys tgts total t) (hkeys : 0 < keys)
include hloaded hkeys

section

variable (hboundary : Boundary (lastSector tgts) sector position)
  (hposition : position ≤ tgts.length)
include hboundary hposition

theorem readsExist_findTarget (hsafe : position < tgts.length ∨ ¬Overrun keys tgts.length) :
    ReadsExist (complete keys t) (findTarget keys (complete keys t) sector).1 := by
  obtain ⟨hlevels, hdepth, -⟩ := levels_complete hloaded hkeys
  have hroot := below_root hloaded hkeys hposition
  have hshape : (complete keys t).depth = 0 + ((complete keys t).depth - 1) + 1 := by omega
  have hcover := le_roundUp tgts.length hkeys
  rw [roundUp] at hcover
  rw [findTarget, show (complete keys t).depth = (complete keys t).depth - 1 + 1 by omega]
  by_cases hlt : position < divUp tgts.length keys * keys
  · exact readsExist_of_lt hlevels hkeys hboundary hshape hroot hlt
  -- the position is the number of targets, and this fills whole nodes
  have hfull : tgts.length = divUp tgts.length keys * keys := by omega
  have hpower : ∃ exponent, tgts.length = keys * (keys + 1) ^ exponent := by
    rcases hsafe with hless | hnot
    · omega
    · by_contra hnone
      push Not at hnone
      exact hnot ⟨⟨divUp tgts.length keys, by rw [mul_comm]; exact hfull⟩, hnone⟩
  obtain ⟨exponent, hexponent⟩ := hpower
  have hnodes : divUp tgts.length keys = (keys + 1) ^ exponent := by
    apply Nat.eq_of_mul_eq_mul_left hkeys
    rw [← hexponent, mul_comm]
    exact hfull.symm
  have hexact : divUp tgts.length keys = (keys + 1) ^ ((complete keys t).depth - 1) := by
    rw [hdepth, Nat.add_sub_cancel_left, hnodes, intLog_pow (by omega)]
    exact (Nat.lt_pow_self (by omega)).le
  exact readsExist_of_full hlevels hkeys hboundary hshape hroot hexact (by simp [getChild])

theorem findTarget_position
    (hreads : ReadsExist (complete keys t) (findTarget keys (complete keys t) sector).1) :
    (findTarget keys (complete keys t) sector).2 = position := by
  obtain ⟨hlevels, -, -⟩ := levels_complete hloaded hkeys
  have hroot := below_root hloaded hkeys hposition
  have hdepth := hlevels.leaves.depth
  have hshape : (complete keys t).depth = (complete keys t).depth - 1 + 1 := by omega
  rw [findTarget] at hreads ⊢
  rw [hshape] at hreads ⊢
  exact findLoop_eq hlevels hkeys hboundary (by omega) hroot hreads

end

theorem exact_of_not_overrun (htotal : total ≤ sectorMax + 1) (hsector : sector ≤ sectorMax)
    (hsafe : sector < total ∨ ¬Overrun keys tgts.length) :
    Exact keys (complete keys t) tgts sector := by
  obtain ⟨-, -, htargets⟩ := levels_complete hloaded hkeys
  by_cases hinside : sector < total
  · obtain ⟨i, hi, hlow, hhigh⟩ := hloaded.tiles.exists_getElem (Nat.zero_le sector) hinside
    have hboundary := hloaded.boundary_inside htotal hi hlow hhigh
    have hreads := readsExist_findTarget hloaded hkeys hboundary hi.le (Or.inl hi)
    have hfound := findTarget_position hloaded hkeys hboundary hi.le hreads
    refine ⟨hreads, ?_, ?_⟩
    · intro tgt htgt htgtLow htgtHigh
      obtain ⟨j, hj, rfl⟩ := getElem_of_mem htgt
      -- the target with this sector is the one at the boundary
      have hsame : i = j := by
        have hother := hloaded.boundary_inside htotal hj htgtLow htgtHigh
        exact le_antisymm ((hboundary j).mp ((hother j).mpr le_rfl))
          ((hother i).mp ((hboundary i).mpr le_rfl))
      rw [hfound, htargets, hloaded.targets, hsame, getElem?_eq_getElem hj]
    · intro hbeyond
      have := hloaded.total_eq.2 sector hbeyond
      omega
  · have hnot : ¬Overrun keys tgts.length := hsafe.resolve_left hinside
    have hboundary := hloaded.boundary_beyond (not_lt.mp hinside) hsector
    have hreads := readsExist_findTarget hloaded hkeys hboundary le_rfl (Or.inr hnot)
    have hfound := findTarget_position hloaded hkeys hboundary le_rfl hreads
    refine ⟨hreads, ?_, ?_⟩
    · intro tgt htgt _ hhigh
      have := hloaded.total_eq.1 tgt htgt
      omega
    · intro _
      exact ⟨hfound, by rw [htargets, hloaded.targets, getElem?_eq_none le_rfl]⟩

/-- A sector beyond the table is sought in a leaf node that does not exist. -/
theorem not_exact_of_overrun (hoverrun : Overrun keys tgts.length) (hbeyond : total ≤ sector)
    (hsector : sector ≤ sectorMax) : ¬Exact keys (complete keys t) tgts sector := by
  intro hexact
  obtain ⟨hlevels, hdepth, -⟩ := levels_complete hloaded hkeys
  have hboundary := hloaded.boundary_beyond hbeyond hsector
  have hroot := below_root hloaded hkeys (le_refl tgts.length)
  obtain ⟨⟨nodes, hnodes⟩, hpower⟩ := hoverrun
  have hleaves : divUp tgts.length keys = nodes := by
    rw [hnodes, mul_comm, divUp_mul_self hkeys]
  have hend : tgts.length = divUp tgts.length keys * keys := by
    rw [hleaves, hnodes, mul_comm]
  have hstrict : tgts.length <
      (getChild keys 0 0 + 1) * ((keys + 1) ^ ((complete keys t).depth - 1) * keys) := by
    refine lt_of_le_of_ne hroot.high ?_
    intro heq
    apply hpower ((complete keys t).depth - 1)
    rw [heq]
    simp only [getChild]
    ring
  have hreads := hexact.reads
  rw [findTarget, show (complete keys t).depth = (complete keys t).depth - 1 + 1 by omega] at hreads
  exact not_readsExist hlevels hkeys hboundary (by omega) hroot hend hstrict hreads

end

/-- For every table of targets that `dm_table_add_target` accepts, with any initial allocation,
all lookups are exact if and only if the number of targets leaves room in the last leaf node
or fills all leaf nodes of a tree, or no sector number is left beyond the table. -/
theorem dm_table_find_target_exact (hkeys : 0 < keys) {num : ℕ}
    (hload : addTargets stray (create keys stray num) tgts = some t)
    (hsectors : ∀ tgt ∈ tgts, tgt.begin + tgt.len ≤ sectorMax + 1) :
    (∀ sector ≤ sectorMax, Exact keys (complete keys t) tgts sector) ↔
      ¬keys ∣ tgts.length ∨ (∃ exponent, tgts.length = keys * (keys + 1) ^ exponent) ∨
        ∃ tgt ∈ tgts, tgt.begin + tgt.len = sectorMax + 1 := by
  obtain ⟨total, hloaded⟩ := (loaded_create hkeys num).addTargets hkeys hload
  rw [nil_append] at hloaded
  obtain ⟨hends, hleast⟩ := hloaded.total_eq
  have htotal : total ≤ sectorMax + 1 := hleast _ hsectors
  constructor
  · intro hexact
    by_contra hnone
    push Not at hnone
    obtain ⟨hdvd, hpower, hroom⟩ := hnone
    have hbeyond : total ≤ sectorMax := by
      apply hleast
      intro tgt htgt
      have := hsectors tgt htgt
      have := hroom tgt htgt
      omega
    exact not_exact_of_overrun hloaded hkeys ⟨hdvd, hpower⟩ hbeyond le_rfl (hexact _ le_rfl)
  · intro hcondition sector hsector
    refine exact_of_not_overrun hloaded hkeys htotal hsector ?_
    rcases hcondition with hroom | ⟨exponent, hpower⟩ | ⟨tgt, htgt, hlast⟩
    · exact Or.inr fun hover => hroom hover.1
    · exact Or.inr fun hover => hover.2 exponent hpower
    · have := hends tgt htgt
      exact Or.inl (by omega)

/-- Targets of one sector each. -/
def unitTargets (count : ℕ) : List Target := (range count).map fun begin => ⟨begin, 1⟩

def zeroStray : Stray := ⟨fun _ _ => 0, fun _ _ => 0⟩

theorem dm_table_find_target_exact_five :
    ∃ t, addTargets zeroStray (create 4 zeroStray 0) (unitTargets 5) = some t ∧
      ∀ sector ≤ sectorMax, Exact 4 (complete 4 t) (unitTargets 5) sector := by
  obtain ⟨t, hload⟩ : ∃ t, addTargets zeroStray (create 4 zeroStray 0) (unitTargets 5) = some t :=
    ⟨_, rfl⟩
  exact ⟨t, hload, (dm_table_find_target_exact (by decide) hload (by decide +kernel)).mpr
    (Or.inl (by decide +kernel))⟩

/-- With eight targets and nodes of four keys, sector 8 is sought in a third leaf node, of two. -/
theorem dm_table_find_target_overruns :
    ∃ t, addTargets zeroStray (create 4 zeroStray 8) (unitTargets 8) = some t ∧
      (findTarget 4 (complete 4 t) 8).1 = [(0, 0), (1, 2)] ∧ (complete 4 t).counts 1 = 2 ∧
      ¬Exact 4 (complete 4 t) (unitTargets 8) 8 := by
  refine ⟨_, rfl, by decide +kernel, by decide +kernel, ?_⟩
  intro hexact
  exact absurd (hexact.reads (1, 2) (by decide +kernel)) (by decide +kernel)

end Exact

end KernelM5040.DmTable
