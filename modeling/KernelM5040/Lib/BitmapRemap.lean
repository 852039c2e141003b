import KernelM5040.Core.FindNext

/-!
# Relabelling the bits of a bitmap: lib/bitmap.c

A bitmap gives the value of a bit for its position.
-/

namespace KernelM5040.BitmapRemap

open Function FindNext Nat

variable (buf : ℕ → Bool)

def findNextBit (bits start : ℕ) : ℕ := findNext buf (bits - start) start

theorem lt_findNextBit (bits i : ℕ) : i < findNextBit buf bits (i + 1) :=
  (found_findNext_add buf _ _).lower

/-- The number of bits that are set below a position; of all bits, `bitmap_weight`. -/
def rank (pos : ℕ) : ℕ := Nat.count (fun i => buf i) pos

/-- The loop of `bitmap_pos_to_ord`, with the `i` that the `BUG_ON` behind it compares with `pos`. -/
def ordLoop (pos bits i ord : ℕ) : ℕ × ℕ :=
  if i < pos then ordLoop pos bits (findNextBit buf bits (i + 1)) (ord + 1) else (i, ord)
termination_by pos - i
decreasing_by
  have := lt_findNextBit buf bits i
  omega

def bitmapPosToOrd (pos bits : ℕ) : ℤ :=
  if bits ≤ pos ∨ buf pos = false then -1
  else (ordLoop buf pos bits (findNextBit buf bits 0) 0).2

/-- The loop of `bitmap_ord_to_pos`. -/
def posLoop (bits : ℕ) : ℕ → ℕ → ℕ × ℕ
  | 0, i => (i, 0)
  | ord + 1, i =>
    if i < bits then posLoop bits ord (findNextBit buf bits (i + 1)) else (i, ord + 1)

def bitmapOrdToPos (ord bits : ℕ) : ℕ :=
  if ord < bits then
    let found := posLoop buf bits ord (findNextBit buf bits 0)
    if found.1 < bits ∧ found.2 = 0 then found.1 else 0
  else 0

variable {buf} {src old new : ℕ → Bool} {bits start pos ord i p : ℕ}

def bitmapBitremap (oldbit : ℕ) (old new : ℕ → Bool) (bits : ℕ) : ℕ :=
  let w := rank new bits
  let n := bitmapPosToOrd old oldbit bits
  if n < 0 ∨ w = 0 then oldbit else bitmapOrdToPos new (n % w).toNat bits

/-- The body of the loop of `bitmap_remap`. -/
def remapBit (old new : ℕ → Bool) (bits w oldbit : ℕ) (dst : ℕ → Bool) : ℕ → Bool :=
  let n := bitmapPosToOrd old oldbit bits
  if n < 0 ∨ w = 0 then update dst oldbit true
  else update dst (bitmapOrdToPos new (n % w).toNat bits) true

def remapLoop (src old new : ℕ → Bool) (bits w oldbit : ℕ) (dst : ℕ → Bool) : ℕ → Bool :=
  if oldbit < bits then
    remapLoop src old new bits w (findNextBit src bits (oldbit + 1))
      (remapBit old new bits w oldbit dst)
  else dst
termination_by bits - oldbit
decreasing_by
  have := lt_findNextBit src bits oldbit
  omega

/-- `bitmap_remap`, which does nothing where `dst` is `src`; `bitmap_zero` clears whole words. -/
def bitmapRemap (inPlace : Bool) (dst src old new : ℕ → Bool) (bits : ℕ) : ℕ → Bool :=
  if inPlace then src
  else remapLoop src old new bits (rank new bits) (findNextBit src bits 0)
    fun i => if i < (bits + 63) / 64 * 64 then false else dst i

/-- A bit outside `old` stays, and the bit number `n` of `old` goes to that of `new` whose number
is `n` modulo the weight of `new`. -/
def Target (old new : ℕ → Bool) (bits p q : ℕ) : Prop :=
  if old p = true ∧ rank new bits ≠ 0 then
    new q = true ∧ rank new q = rank old p % rank new bits
  else q = p

theorem rank_findNextBit (buf : ℕ → Bool) (hstart : start ≤ bits) :
    findNextBit buf bits start ≤ bits ∧
      (findNextBit buf bits start < bits → buf (findNextBit buf bits start) = true) ∧
      rank buf (findNextBit buf bits start) = rank buf start := by
  obtain ⟨hlower, hupper, hbefore, hfound⟩ := found_findNext buf hstart
  refine ⟨hupper, hfound, ?_⟩
  rw [findNextBit, ← Nat.add_sub_cancel' hlower, rank, rank, count_add, Nat.add_eq_left,
    count_eq_card_filter_range, Finset.card_eq_zero, Finset.filter_eq_empty_iff]
  intro bit hbit
  have hlt := Finset.mem_range.mp hbit
  simp [hbefore (start + bit) ⟨by omega, by omega⟩]

theorem findNextBit_le (hle : start ≤ pos) (hpos : pos < bits) (hset : buf pos = true) :
    findNextBit buf bits start ≤ pos := by
  refine not_lt.mp fun hless => ?_
  have hclear := (found_findNext buf (hle.trans hpos.le)).before pos ⟨hle, hless⟩
  simp [hset] at hclear

theorem rank_succ (hset : buf i = true) : rank buf (i + 1) = rank buf i + 1 := by
  rw [rank, count_succ, if_pos hset, rank]

theorem lt_of_rank_lt (hle : i ≤ bits) (hlt : rank buf i < rank buf bits) : i < bits :=
  lt_of_le_of_ne hle fun hend => hlt.ne (congrArg _ hend)

theorem ordLoop_eq (hpos : pos < bits) (hset : buf pos = true) (hle : i ≤ pos) (hi : buf i = true)
    (hord : ord = rank buf i) : ordLoop buf pos bits i ord = (pos, rank buf pos) := by
  fun_induction ordLoop buf pos bits i ord with
  | case1 i ord hless ih =>
    have hnext : findNextBit buf bits (i + 1) ≤ pos := findNextBit_le hless hpos hset
    obtain ⟨-, hfound, hrank⟩ := rank_findNextBit buf (show i + 1 ≤ bits by omega)
    exact ih hnext (hfound (by omega)) (by rw [hrank, rank_succ hi, hord])
  | case2 i ord hstop =>
    obtain rfl : i = pos := by omega
    rw [hord]

theorem bitmapPosToOrd_eq (hpos : pos < bits) (hset : buf pos = true) :
    bitmapPosToOrd buf pos bits = rank buf pos := by
  have hfirst := findNextBit_le (Nat.zero_le pos) hpos hset
  obtain ⟨-, hfound, hrank⟩ := rank_findNextBit buf (Nat.zero_le bits)
  have hloop := ordLoop_eq hpos hset hfirst (hfound (by omega)) hrank.symm
  rw [bitmapPosToOrd, if_neg (by simp [hpos, hset])]
  exact congrArg (fun found : ℕ × ℕ => (found.2 : ℤ)) hloop

theorem posLoop_spec (hle : i ≤ bits) (hi : i < bits → buf i = true)
    (hord : rank buf i + ord < rank buf bits) :
    ∃ q < bits, posLoop buf bits ord i = (q, 0) ∧ buf q = true ∧ rank buf q = rank buf i + ord := by
  have hlt := lt_of_rank_lt hle (lt_of_add_right_lt hord)
  induction ord generalizing i with
  | zero => exact ⟨i, hlt, rfl, hi hlt, rfl⟩
  | succ ord ih =>
    obtain ⟨hnext, hfound, hrank⟩ := rank_findNextBit buf (show i + 1 ≤ bits from hlt)
    rw [rank_succ (hi hlt)] at hrank
    have hmore : rank buf (findNextBit buf bits (i + 1)) + ord < rank buf bits := by omega
    obtain ⟨q, hq, hloop, hset, hcount⟩ := ih hnext hfound hmore
      (lt_of_rank_lt hnext (lt_of_add_right_lt hmore))
    exact ⟨q, hq, by rw [posLoop, if_pos hlt, hloop], hset, by omega⟩

theorem bitmapOrdToPos_spec (hord : ord < rank buf bits) :
    ∃ q < bits, bitmapOrdToPos buf ord bits = q ∧ buf q = true ∧ rank buf q = ord := by
  obtain ⟨hnext, hfound, hrank⟩ := rank_findNextBit buf (Nat.zero_le bits)
  rw [show rank buf 0 = 0 from rfl] at hrank
  obtain ⟨q, hq, hloop, hset, hcount⟩ := posLoop_spec hnext hfound (by rwa [hrank, zero_add])
  refine ⟨q, hq, ?_, hset, by omega⟩
  rw [bitmapOrdToPos, if_pos (hord.trans_le (count_le ..)), hloop]
  exact if_pos ⟨hq, rfl⟩

theorem bitmapBitremap_spec (old new : ℕ → Bool) (hp : p < bits) :
    bitmapBitremap p old new bits < bits ∧
      Target old new bits p (bitmapBitremap p old new bits) := by
  rw [Target]
  split_ifs with hmapped
  · have hmod := mod_lt (rank old p) (Nat.pos_of_ne_zero hmapped.2)
    obtain ⟨q, hlt, heq, htarget⟩ := bitmapOrdToPos_spec hmod
    rw [bitmapBitremap, bitmapPosToOrd_eq hp hmapped.1, if_neg (by omega), ← Int.natCast_mod,
      Int.toNat_natCast, heq]
    exact ⟨hlt, htarget⟩
  · have hsame : bitmapBitremap p old new bits = p := by
      refine if_pos (or_iff_not_imp_right.mpr fun hne => ?_)
      rw [bitmapPosToOrd, if_pos (.inr (by simpa [hne] using hmapped))]
      decide
    exact ⟨hsame.trans_lt hp, hsame⟩

/-- The loop does with a bit what `bitmap_bitremap` does. -/
theorem remapBit_eq (old new dst : ℕ → Bool) (bits oldbit : ℕ) :
    remapBit old new bits (rank new bits) oldbit dst =
      update dst (bitmapBitremap oldbit old new bits) true := by
  simp only [remapBit, bitmapBitremap]
  split_ifs <;> rfl

theorem remapLoop_iff (hi : i ≤ bits) (hset : i < bits → src i = true) (dst : ℕ → Bool) (q : ℕ) :
    remapLoop src old new bits (rank new bits) i dst q = true ↔ dst q = true ∨
      ∃ p, (i ≤ p ∧ p < bits ∧ src p = true) ∧ q = bitmapBitremap p old new bits := by
  fun_induction remapLoop src old new bits (rank new bits) i dst with
  | case1 i dst hlt ih =>
    obtain ⟨hnext, hfound, -⟩ := rank_findNextBit src (show i + 1 ≤ bits from hlt)
    have hfrom : ∀ p, i ≤ p ∧ p < bits ∧ src p = true ↔
        p = i ∨ findNextBit src bits (i + 1) ≤ p ∧ p < bits ∧ src p = true := by
      intro p
      have hgreater := lt_findNextBit src bits i
      constructor
      · rintro ⟨hle, hp, hone⟩
        rcases hle.eq_or_lt with rfl | hless
        · exact .inl rfl
        · exact .inr ⟨findNextBit_le hless hp hone, hp, hone⟩
      · rintro (rfl | ⟨hle, hrest⟩)
        · exact ⟨le_rfl, hlt, hset hlt⟩
        · exact ⟨by omega, hrest⟩
    rw [ih hnext hfound, remapBit_eq, update_apply]
    simp only [hfrom, or_and_right, exists_or, exists_eq_left]
    split_ifs with hself <;> simp [hself]
  | case2 i dst hend =>
    refine (or_iff_left ?_).symm
    rintro ⟨p, hp, -⟩
    omega

theorem bitmapRemap_iff (dst src old new : ℕ → Bool) {q : ℕ} (hq : q < bits) :
    bitmapRemap false dst src old new bits q = true ↔
      ∃ p < bits, src p = true ∧ bitmapBitremap p old new bits = q := by
  obtain ⟨hfirst, hfound, -⟩ := rank_findNextBit src (Nat.zero_le bits)
  rw [bitmapRemap, if_neg Bool.false_ne_true, remapLoop_iff hfirst hfound, if_pos (by omega)]
  constructor
  · rintro (hno | ⟨p, ⟨-, hp, hset⟩, heq⟩)
    · cases hno
    · exact ⟨p, hp, hset, heq.symm⟩
  · rintro ⟨p, hp, hset, heq⟩
    exact .inr ⟨p, ⟨findNextBit_le (Nat.zero_le p) hp hset, hp, hset⟩, heq.symm⟩

/-- An order-preserving bijection between the bits of two bitmaps. -/
structure OrderBijection (old new : ℕ → Bool) (bits : ℕ) (move : ℕ → ℕ) : Prop where
  into : ∀ p < bits, old p = true → move p < bits ∧ new (move p) = true
  onto : ∀ q < bits, new q = true → ∃ p < bits, old p = true ∧ move p = q
  order : ∀ p < bits, ∀ p' < bits, old p = true → old p' = true → (move p < move p' ↔ p < p')

section

variable (hweight : rank old bits = rank new bits) (hp : p < bits) (hset : old p = true)
include hweight hp hset

theorem bitmapBitremap_of_weight :
    bitmapBitremap p old new bits < bits ∧ new (bitmapBitremap p old new bits) = true ∧
      rank new (bitmapBitremap p old new bits) = rank old p := by
  obtain ⟨hlt, htarget⟩ := bitmapBitremap_spec old new hp
  have hless : rank old p < rank new bits := hweight ▸ count_strict_mono hset hp
  rw [Target, if_pos ⟨hset, by omega⟩, mod_eq_of_lt hless] at htarget
  exact ⟨hlt, htarget⟩

theorem bitmapBitremap_back : bitmapBitremap (bitmapBitremap p old new bits) new old bits = p := by
  obtain ⟨hlt, hnew, hrank⟩ := bitmapBitremap_of_weight hweight hp hset
  obtain ⟨-, hold, hrank'⟩ := bitmapBitremap_of_weight hweight.symm hlt hnew
  exact count_injective hold hset (hrank'.trans hrank)

end

theorem orderBijection_bitremap (hweight : rank old bits = rank new bits) :
    OrderBijection old new bits fun p => bitmapBitremap p old new bits := by
  refine ⟨fun p hp hset => ?_, fun q hq hset => ?_, fun p hp p' hp' hset hset' => ?_⟩
  · obtain ⟨hlt, hnew, -⟩ := bitmapBitremap_of_weight hweight hp hset
    exact ⟨hlt, hnew⟩
  · obtain ⟨hlt, hold, -⟩ := bitmapBitremap_of_weight hweight.symm hq hset
    exact ⟨_, hlt, hold, bitmapBitremap_back hweight.symm hq hset⟩
  have hrank := (bitmapBitremap_of_weight hweight hp hset).2
  have hrank' := (bitmapBitremap_of_weight hweight hp' hset').2
  have hiff : ∀ {buf : ℕ → Bool} {i j}, buf i = true → (i < j ↔ rank buf i < rank buf j) :=
    fun hi => ⟨count_strict_mono hi, lt_of_count_lt_count⟩
  rw [hiff hrank.1, hiff hset, hrank.2, hrank'.2]

/-- Every bit goes where it should, the result has the bits to which those of `src` go, and with
equal weights the bits of `old` are relabelled as those of `new`, in order, which can be undone. -/
theorem bitmapRemap_relabels (bits : ℕ) (dst dst' src old new : ℕ → Bool) :
    (∀ p < bits, Target old new bits p (bitmapBitremap p old new bits)) ∧
      (∀ q < bits, bitmapRemap false dst src old new bits q = true ↔
        ∃ p < bits, src p = true ∧ bitmapBitremap p old new bits = q) ∧
      (rank old bits = rank new bits → (∀ p < bits, src p = true → old p = true) →
        OrderBijection old new bits (fun p => bitmapBitremap p old new bits) ∧
          rank (bitmapRemap false dst src old new bits) bits = rank src bits ∧
          ∀ p < bits,
            bitmapRemap false dst' (bitmapRemap false dst src old new bits) new old bits p = src p) := by
  refine ⟨fun p hp => (bitmapBitremap_spec old new hp).2,
    fun q hq => bitmapRemap_iff dst src old new hq, fun hweight hsubset => ?_⟩
  have hback : ∀ p < bits, src p = true →
      bitmapBitremap (bitmapBitremap p old new bits) new old bits = p := fun p hp hsrc =>
    bitmapBitremap_back hweight hp (hsubset p hp hsrc)
  have hresult : ∀ p < bits, src p = true → bitmapBitremap p old new bits < bits ∧
      bitmapRemap false dst src old new bits (bitmapBitremap p old new bits) = true := by
    intro p hp hsrc
    have hlt := (bitmapBitremap_spec old new hp).1
    exact ⟨hlt, (bitmapRemap_iff dst src old new hlt).mpr ⟨p, hp, hsrc, rfl⟩⟩
  refine ⟨orderBijection_bitremap hweight, ?_, fun p hp => Bool.eq_iff_iff.mpr ?_⟩
  · rw [rank, rank, count_eq_card_filter_range, count_eq_card_filter_range]
    refine Finset.card_nbij' (fun q => bitmapBitremap q new old bits)
      (fun p => bitmapBitremap p old new bits) ?_ ?_ ?_ ?_ <;> intro i hi <;>
      simp only [Finset.coe_filter, Finset.mem_range, Set.mem_ofPred_eq] at hi ⊢
    · obtain ⟨p, hp, hsrc, rfl⟩ := (bitmapRemap_iff dst src old new hi.1).mp hi.2
      rw [hback p hp hsrc]
      exact ⟨hp, hsrc⟩
    · exact hresult i hi.1 hi.2
    · obtain ⟨p, hp, hsrc, rfl⟩ := (bitmapRemap_iff dst src old new hi.1).mp hi.2
      rw [hback p hp hsrc]
    · exact hback i hi.1 hi.2
  · rw [bitmapRemap_iff dst' _ new old hp]
    constructor
    · rintro ⟨q, hq, hset, rfl⟩
      obtain ⟨p, hlt, hsrc, rfl⟩ := (bitmapRemap_iff dst src old new hq).mp hset
      rwa [hback p hlt hsrc]
    · intro hsrc
      obtain ⟨hlt, hset⟩ := hresult p hp hsrc
      exact ⟨_, hlt, hset, hback p hp hsrc⟩

end KernelM5040.BitmapRemap
