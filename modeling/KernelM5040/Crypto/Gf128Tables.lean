import KernelM5040.Crypto.Gf128Ring

/-!
# What the multiplication functions compute

Over any ring of characteristic two in which the order's steps multiply by x
and by x^8: the plain multiplication adds a leftover to the product, the table
versions give the product.
-/

namespace KernelM5040.Gf128mul

open Be128 List Function XorLinear
open Finset (sum_congr)

/-- The order's steps multiply by x and by x^8, and its bits are a
rearrangement of the powers within a byte. -/
structure Sound {R : Type*} [CommRing R] (order : Order) (x : R) : Prop where
  mulX : ∀ value, eval order x (order.x value) = x * eval order x value
  mulX8 : ∀ value, eval order x (order.x8 value) = x ^ 8 * eval order x value
  power_lt : ∀ bit < 8, order.power bit < 8
  power_power : ∀ bit < 8, order.power (order.power bit) = bit

section Sums

variable {R : Type*} [CommRing R] {order : Order} {x : R}

theorem sum_range_mul (count width : ℕ) (f : ℕ → R) :
    ∑ n ∈ Finset.range (count * width), f n =
      ∑ i ∈ Finset.range count, ∑ k ∈ Finset.range width, f (width * i + k) := by
  induction count with
  | zero => simp
  | succ count ih =>
    rw [Nat.succ_mul, Finset.sum_range_add, ih, Finset.sum_range_succ]
    congr 1
    apply sum_congr rfl
    intro k _
    rw [mul_comm count width]

/-- The part of the polynomial that one byte holds. -/
def byteValue (order : Order) (x : R) (ch : BitVec 8) : R :=
  weigh (fun bit => x ^ order.power bit) ch

/-- The bytes of an element are the digits of its value in base x^8. -/
theorem eval_bytes (hsound : Sound order x) (value : Be128) :
    eval order x value =
      ∑ i ∈ Finset.range 16, x ^ (8 * i) * byteValue order x (value.byte (order.place i)) := by
  unfold eval
  rw [show 128 = 16 * 8 from rfl, sum_range_mul]
  apply sum_congr rfl
  intro i _
  unfold byteValue weigh
  rw [Finset.mul_sum]
  -- within a byte, sum over the bits instead of the powers
  have hmaps : ∀ k ∈ Finset.range 8, order.power k ∈ Finset.range 8 := by
    simpa using hsound.power_lt
  have hback : ∀ k ∈ Finset.range 8, order.power (order.power k) = k := by
    simpa using hsound.power_power
  refine Finset.sum_nbij' order.power order.power hmaps hmaps hback hback ?_
  intro k hk
  rw [Finset.mem_range] at hk
  rw [coefficient, Nat.mul_add_div (by decide), Nat.mul_add_mod, Nat.div_eq_of_lt hk,
    Nat.mod_eq_of_lt hk, add_zero]
  simp only [hsound.power_power k hk]
  split
  · exact pow_add x (8 * i) k
  · exact (mul_zero _).symm

theorem horner (base : R) (digit : ℕ → R) (count : ℕ) (start : R) :
    (range count).reverse.foldl (fun acc i => base * acc + digit i) start =
      base ^ count * start + ∑ i ∈ Finset.range count, base ^ i * digit i := by
  induction count generalizing start with
  | zero => simp
  | succ count ih =>
    rw [range_succ, reverse_append, reverse_singleton, singleton_append,
      foldl_cons, ih, Finset.sum_range_succ, pow_succ]
    ring

variable [CharP R 2]

theorem byteValue_xor (left right : BitVec 8) :
    byteValue order x (left ^^^ right) = byteValue order x left + byteValue order x right :=
  weigh_xor _ CharTwo.add_self_eq_zero left right

theorem eval_zero : eval order x zero = 0 := by
  have hself := eval_xor x order zero zero
  rw [xor_zero, CharTwo.add_self_eq_zero] at hself
  exact hself

end Sums

section Plain

variable {R : Type*} [CommRing R] {order : Order} {x : R}

theorem eval_powers (hsound : Sound order x) (r : Be128) (i : ℕ) :
    eval order x (powers order r i) = x ^ i * eval order x r := by
  induction i with
  | zero => rw [powers, pow_zero, one_mul]
  | succ i ih =>
    rw [powers, hsound.mulX, ih]
    ring

theorem eval_mulLoop (hsound : Sound order x) {round : ℕ → Be128 → Be128} {added : ℕ → R}
    (hround : ∀ i r, eval order x (round i r) = eval order x r + added i) (rest i : ℕ) (r : Be128) :
    eval order x (mulLoop order.x8 round rest i r) =
      x ^ (8 * rest) * eval order x r +
        ∑ m ∈ Finset.range (rest + 1), x ^ (8 * (rest - m)) * added (i + m) := by
  induction rest generalizing i r with
  | zero => simp [mulLoop, hround]
  | succ rest ih =>
    have hsum : ∑ m ∈ Finset.range (rest + 1), x ^ (8 * (rest + 1 - (m + 1))) * added (i + (m + 1)) =
        ∑ m ∈ Finset.range (rest + 1), x ^ (8 * (rest - m)) * added (i + 1 + m) := by
      apply sum_congr rfl
      intro m _
      rw [Nat.add_sub_add_right, add_assoc, add_comm 1 m]
    rw [mulLoop, ih, hsound.mulX8, hround, Finset.sum_range_succ' _ (rest + 1), hsum,
      Nat.sub_zero, add_zero i, Nat.mul_succ, pow_add]
    ring

variable [CharP R 2]

theorem eval_addBits_list (bits : List ℕ) (hbits : ∀ bit ∈ bits, bit < 8) (p : ℕ → Be128)
    (ch : BitVec 8) (r : Be128) :
    eval order x (bits.foldl (fun r bit =>
        if ch &&& BitVec.twoPow 8 bit ≠ 0 then r.xor (p (order.power bit)) else r) r) =
      eval order x r + (bits.map fun bit =>
        if ch.getLsbD bit then eval order x (p (order.power bit)) else 0).sum := by
  induction bits generalizing r with
  | nil => simp
  | cons bit bits ih =>
    have hbit := hbits bit mem_cons_self
    rw [foldl_cons, ih fun other hother => hbits other (mem_cons_of_mem _ hother),
      map_cons, sum_cons, ← add_assoc]
    congr 1
    simp only [and_twoPow_ne_zero_iff ch hbit]
    split
    · rw [eval_xor]
    · rw [add_zero]

theorem eval_addBits (hsound : Sound order x) (factor : Be128) (ch : BitVec 8) (r : Be128) :
    eval order x (addBits order (powers order factor) ch r) =
      eval order x r + byteValue order x ch * eval order x factor := by
  rw [addBits, eval_addBits_list _ (by decide)]
  congr 1
  simp only [map_cons, map_nil, sum_cons, sum_nil, eval_powers hsound, byteValue, weigh,
    Finset.sum_range_succ, Finset.sum_range_zero, add_mul, ite_mul, zero_mul, zero_add, add_zero]
  abel

theorem memset_sizeofPointer (r : Be128) : r.memset sizeofPointer = ⟨0, r.b⟩ := by
  have hhigh : BitVec.allOnes 64 >>> (8 * sizeofPointer) = 0 := by decide
  have hlow : BitVec.allOnes 64 >>> (8 * (sizeofPointer - 8)) = BitVec.allOnes 64 := by decide
  rw [memset, hhigh, hlow, BitVec.and_allOnes]
  congr 1
  exact BitVec.and_zero

/-- The accumulator starts with what `memset` leaves of the first factor. -/
theorem eval_gf128mul (hsound : Sound order x) (r b : Be128) :
    eval order x (gf128mul order r b) =
      x ^ 120 * eval order x ⟨0, r.b⟩ + eval order x r * eval order x b := by
  have hround : ∀ i acc, eval order x (addBits order (powers order r)
      (b.byte (order.place (15 - i))) acc) = eval order x acc +
        byteValue order x (b.byte (order.place (15 - i))) * eval order x r :=
    fun i acc => eval_addBits hsound r _ acc
  rw [gf128mul, eval_mulLoop hsound hround, memset_sizeofPointer, eval_bytes hsound b]
  congr 1
  rw [Finset.mul_sum, ← Finset.sum_range_reflect]
  apply sum_congr rfl
  intro m hm
  rw [Finset.mem_range] at hm
  rw [show 15 - (15 + 1 - 1 - m) = m by omega, show 15 - (0 + (15 + 1 - 1 - m)) = m by omega]
  ring

end Plain

section Tables

variable {R : Type*} [CommRing R] {order : Order} {x factor : R} {t : Table}

/-- The entry a table should have for a byte. -/
def entry (order : Order) (x factor : R) (i : ℕ) : R :=
  byteValue order x (BitVec.ofNat 8 i) * factor

/-- The entries below `2 ^ count` are right, and those of the single bits. -/
structure Filled (order : Order) (x factor : R) (count : ℕ) (t : Table) : Prop where
  below : ∀ i < 2 ^ count, eval order x (t i) = entry order x factor i
  single : ∀ bit < 8, eval order x (t (2 ^ bit)) = entry order x factor (2 ^ bit)

theorem fill_inner (t : Table) (j count i : ℕ) (hcount : count < j) :
    (range' 1 count).foldl (fun t k => update t (j + k) ((t j).xor (t k))) t i =
      if j < i ∧ i ≤ j + count then (t j).xor (t (i - j)) else t i := by
  induction count generalizing i with
  | zero =>
    rw [if_neg (by omega)]
    rfl
  | succ count ih =>
    rw [range'_1_concat, foldl_append, foldl_cons, foldl_nil]
    by_cases heq : i = j + (1 + count)
    · rw [heq, update_self, ih j (by omega), ih (1 + count) (by omega),
        if_neg (by omega), if_neg (by omega), if_pos (by omega), Nat.add_sub_cancel_left]
    rw [update_of_ne heq, ih i (by omega)]
    congr 1
    apply propext
    omega

theorem ofNat_add_single :
    ∀ bit < 8, ∀ k < 2 ^ bit,
      BitVec.ofNat 8 (2 ^ bit + k) = BitVec.ofNat 8 (2 ^ bit) ^^^ BitVec.ofNat 8 k := by
  decide

theorem ofNat_two_pow : ∀ bit < 8, BitVec.ofNat 8 (2 ^ bit) = BitVec.twoPow 8 bit := by
  decide

theorem Filled.eval_byte (hfilled : Filled order x factor 8 t) (ch : BitVec 8) :
    eval order x (t ch.toNat) = byteValue order x ch * factor := by
  rw [hfilled.below _ ch.isLt, entry, BitVec.ofNat_toNat, BitVec.setWidth_eq]

variable [CharP R 2]

theorem Filled.step {count j : ℕ} (hfilled : Filled order x factor count t)
    (hcount : count < 8) (hj : j = 2 ^ count) :
    Filled order x factor (count + 1) ((range' 1 (j - 1)).foldl
      (fun t k => update t (j + k) ((t j).xor (t k))) t) := by
  subst hj
  have hone : 0 < 2 ^ count := by positivity
  have hinner : ∀ i, (range' 1 (2 ^ count - 1)).foldl
      (fun t k => update t (2 ^ count + k) ((t (2 ^ count)).xor (t k))) t i =
      if 2 ^ count < i ∧ i < 2 ^ (count + 1) then (t (2 ^ count)).xor (t (i - 2 ^ count)) else t i := by
    intro i
    rw [fill_inner t (2 ^ count) (2 ^ count - 1) i (by omega), pow_succ]
    congr 1
    apply propext
    omega
  constructor
  · intro i hi
    rw [hinner]
    rcases lt_trichotomy i (2 ^ count) with hlt | rfl | hgt
    · rw [if_neg (by omega)]
      exact hfilled.below i hlt
    · rw [if_neg (by omega)]
      exact hfilled.single count hcount
    rw [if_pos ⟨hgt, hi⟩, eval_xor, hfilled.single count hcount,
      hfilled.below (i - 2 ^ count) (by rw [pow_succ] at hi; omega)]
    have hsplit := ofNat_add_single count hcount (i - 2 ^ count) (by rw [pow_succ] at hi; omega)
    rw [Nat.add_sub_cancel' hgt.le] at hsplit
    unfold entry
    rw [hsplit, byteValue_xor, add_mul]
  · intro bit hbit
    rw [hinner, if_neg]
    · exact hfilled.single bit hbit
    rintro ⟨hlow, hhigh⟩
    have hlow' := (Nat.pow_lt_pow_iff_right (by decide)).mp hlow
    have hhigh' := (Nat.pow_lt_pow_iff_right (by decide)).mp hhigh
    omega

theorem Filled.fillTable (hfilled : Filled order x factor 1 t) :
    Filled order x factor 8 (fillTable t) := by
  have h2 := hfilled.step (by decide) (show 2 = 2 ^ 1 from rfl)
  have h4 := h2.step (by decide) (show 4 = 2 ^ 2 from rfl)
  have h8 := h4.step (by decide) (show 8 = 2 ^ 3 from rfl)
  have h16 := h8.step (by decide) (show 16 = 2 ^ 4 from rfl)
  have h32 := h16.step (by decide) (show 32 = 2 ^ 5 from rfl)
  have h64 := h32.step (by decide) (show 64 = 2 ^ 6 from rfl)
  have h128 := h64.step (by decide) (show 128 = 2 ^ 7 from rfl)
  simp only [Gf128mul.fillTable, foldl_cons, foldl_nil]
  exact h128

/-- A table in which the single bits are set and entry 0 is zero. -/
theorem filled_one (hzero : t 0 = zero)
    (hsingle : ∀ bit < 8, eval order x (t (2 ^ bit)) = x ^ order.power bit * factor) :
    Filled order x factor 1 t := by
  have hentry : ∀ bit < 8, eval order x (t (2 ^ bit)) = entry order x factor (2 ^ bit) := by
    intro bit hbit
    rw [hsingle bit hbit, entry, byteValue, ofNat_two_pow bit hbit, weigh_twoPow _ hbit]
  refine ⟨?_, hentry⟩
  intro i hi
  interval_cases i
  · have hnone : byteValue order x (BitVec.ofNat 8 0) = 0 := weigh_zero _
    rw [hzero, eval_zero, entry, hnone, zero_mul]
  · exact hentry 0 (by decide)

/-! ### One table -/

section

variable (hsound : Sound order x) (hfilled : Filled order x factor 8 t) (a : Be128)
include hsound hfilled

theorem eval_mul4k_list (indices : List ℕ) (r : Be128) :
    eval order x ((indices.map order.place).foldl
        (fun r i => (order.x8 r).xor (t (a.byte i).toNat)) r) =
      indices.foldl (fun acc i =>
        x ^ 8 * acc + byteValue order x (a.byte (order.place i)) * factor) (eval order x r) := by
  induction indices generalizing r with
  | nil => rfl
  | cons index indices ih =>
    rw [map_cons, foldl_cons, ih, foldl_cons, eval_xor, hsound.mulX8, hfilled.eval_byte]

theorem eval_mul4k {others : List ℕ} (hothers : others = (range 15).reverse.map order.place) :
    eval order x (mul4k order.x8 (order.place 15) others a t) = eval order x a * factor := by
  rw [Gf128mul.mul4k, hothers, eval_mul4k_list hsound hfilled, hfilled.eval_byte, horner,
    eval_bytes hsound a, Finset.sum_range_succ _ 15, add_mul, Finset.sum_mul, add_comm]
  congr 1
  · apply sum_congr rfl
    intro i _
    rw [pow_mul]
    ring
  · ring

end

/-! ### One table for each byte -/

/-- Table `i` is for the factor times x^(8 i). -/
def Graded (order : Order) (x factor : R) (count i : ℕ) (t : Table) : Prop :=
  Filled order x (x ^ (8 * i) * factor) count t

theorem graded_next (hsound : Sound order x) {i : ℕ} (hfilled : Graded order x factor 8 i t)
    {next : Table} (hzero : next 0 = zero)
    (hnext : ∀ bit < 8, next (2 ^ bit) = order.x8 (t (2 ^ bit))) :
    Graded order x factor 1 (i + 1) next := by
  apply filled_one hzero
  intro bit hbit
  rw [hnext bit hbit, hsound.mulX8, hfilled.single bit hbit, entry, byteValue,
    ofNat_two_pow bit hbit, weigh_twoPow _ hbit, Nat.mul_succ, pow_add]
  ring

/-- The entries of the single bits, copied into an empty table. -/
theorem copy_single (value : ℕ → Be128) :
    let next := [128, 64, 32, 16, 8, 4, 2, 1].foldl
      (fun table j => update table j (value j)) (fun _ => zero)
    next 0 = zero ∧ ∀ bit < 8, next (2 ^ bit) = value (2 ^ bit) := by
  refine ⟨rfl, ?_⟩
  intro bit hbit
  interval_cases bit <;> rfl

theorem graded_init64kLoop (hsound : Sound order x) (rest i : ℕ) (t : ℕ → Table)
    (hdone : ∀ j < i, Graded order x factor 8 j (t j)) (hcurrent : Graded order x factor 1 i (t i))
    (hempty : ∀ j, i < j → t j = fun _ => zero) :
    ∀ j ≤ i + rest, Graded order x factor 8 j (init64kLoop order.x8 rest i t j) := by
  induction rest generalizing i t with
  | zero =>
    intro j hj
    rw [init64kLoop]
    rcases Nat.eq_or_lt_of_le hj with rfl | hlt
    · rw [update_self]
      exact Filled.fillTable hcurrent
    · rw [update_of_ne (by omega)]
      exact hdone j hlt
  | succ rest ih =>
    intro j hj
    rw [init64kLoop]
    obtain ⟨hzero, hcopy⟩ := copy_single fun j => order.x8 (fillTable (t i) j)
    apply ih (i + 1)
    · intro j hj
      rw [update_of_ne (by omega)]
      rcases Nat.eq_or_lt_of_le (Nat.le_of_lt_succ hj) with rfl | hlt
      · rw [update_self]
        exact Filled.fillTable hcurrent
      · rw [update_of_ne (by omega)]
        exact hdone j hlt
    · rw [update_self, update_self, update_of_ne (by omega), hempty (i + 1) (by omega)]
      exact graded_next hsound (Filled.fillTable hcurrent) hzero hcopy
    · intro j hj
      rw [update_of_ne (by omega), update_of_ne (by omega)]
      exact hempty j (by omega)
    · omega

theorem eval_sum_list (f : ℕ → Be128) (count : ℕ) (r : Be128) :
    eval order x ((range' 1 count).foldl (fun r i => r.xor (f i)) r) =
      eval order x r + ∑ i ∈ Finset.range count, eval order x (f (i + 1)) := by
  induction count with
  | zero => simp
  | succ count ih =>
    rw [range'_1_concat, foldl_append, foldl_cons, foldl_nil, eval_xor, ih,
      Finset.sum_range_succ, add_assoc, add_comm 1 count]

theorem eval_mul64k (hsound : Sound order x) {tables : ℕ → Table}
    (hgraded : ∀ i ≤ 15, Graded order x factor 8 i (tables i)) (a : Be128) :
    eval order x (mul64k order.place a tables) = eval order x a * factor := by
  have hentry : ∀ i ≤ 15, eval order x (tables i (a.byte (order.place i)).toNat) =
      x ^ (8 * i) * byteValue order x (a.byte (order.place i)) * factor := by
    intro i hi
    rw [Filled.eval_byte (hgraded i hi)]
    ring
  rw [mul64k, eval_sum_list, hentry 0 (by decide), eval_bytes hsound a,
    Finset.sum_range_succ' _ 15, add_mul, Finset.sum_mul, add_comm]
  congr 1
  apply sum_congr rfl
  intro i hi
  rw [Finset.mem_range] at hi
  exact hentry (i + 1) (by omega)

end Tables

section Orders

variable {R : Type*} [CommRing R] {order : Order} {x : R}

theorem sound [CharP R 2] (horder : order = lle ∨ order = bbe)
    (hroot : x ^ 128 = x ^ 7 + x ^ 2 + x + 1) : Sound order x where
  mulX := by
    intro value
    rw [eval_shift horder (by decide) hroot (fun p q => (steps_xor horder p q).1)
      (steps_monomial horder).1, pow_one]
  mulX8 := eval_shift horder le_rfl hroot (fun p q => (steps_xor horder p q).2)
    (steps_monomial horder).2
  power_lt := by rcases horder with rfl | rfl <;> decide
  power_power := by rcases horder with rfl | rfl <;> decide

theorem filled_single [CharP R 2] (hsound : Sound order x) {g : Be128} {single : Table}
    (hzero : single 0 = zero)
    (hsingle : ∀ bit < 8, single (2 ^ bit) = powers order g (order.power bit)) :
    Filled order x (eval order x g) 1 single :=
  filled_one hzero fun bit hbit => by rw [hsingle bit hbit, eval_powers hsound]

theorem singleLle_eq (g : Be128) :
    ∀ bit < 8, singleLle g (2 ^ bit) = powers lle g (lle.power bit) := by
  intro bit hbit
  interval_cases bit <;> rfl

theorem singleBbe_eq (g : Be128) :
    ∀ bit < 8, singleBbe g (2 ^ bit) = powers bbe g (bbe.power bit) := by
  intro bit hbit
  interval_cases bit <;> rfl

end Orders

end KernelM5040.Gf128mul
