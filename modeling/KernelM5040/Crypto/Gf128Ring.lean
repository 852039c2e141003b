import KernelM5040.Crypto.Gf128mul

/-!
# Field elements as values of polynomials

An element stands for the polynomial whose coefficients its bits are, in the
one or the other order.  Evaluated at an element of a ring of characteristic
two, exclusive or becomes addition; at a root of `x^128 + x^7 + x^2 + x + 1`
the functions that multiply by x and by x^8 do just that.
-/

namespace KernelM5040.Gf128mul

open Finset BitVec XorLinear

/-- The coefficient of `x^n`. -/
def coefficient (order : Order) (value : Be128) (n : ℕ) : Bool :=
  (value.byte (order.place (n / 8))).getLsbD (order.power (n % 8))

/-- The bit of the element, counted from the lowest, that holds it. -/
def Order.bit (order : Order) (n : ℕ) : ℕ :=
  8 * (15 - order.place (n / 8)) + order.power (n % 8)

/-- The polynomial of an element at a point. -/
def eval {R : Type*} [CommRing R] (order : Order) (x : R) (value : Be128) : R :=
  ∑ n ∈ Finset.range 128, if coefficient order value n then x ^ n else 0

variable {n : ℕ} {order : Order}

section Bits

theorem byte_xor (p q : Be128) (i : ℕ) : (p.xor q).byte i = p.byte i ^^^ q.byte i := by
  unfold Be128.byte Be128.xor
  split <;> simp only [ushiftRight_xor_distrib, setWidth_xor]

theorem coefficient_xor (order : Order) (p q : Be128) (n : ℕ) :
    coefficient order (p.xor q) n = (coefficient order p n ^^ coefficient order q n) := by
  unfold coefficient
  rw [byte_xor, getLsbD_xor]

theorem getLsbD_byte (value : Be128) (i : ℕ) {bit : ℕ} (hbit : bit < 8) :
    (value.byte i).getLsbD bit =
      if i < 8 then value.a.getLsbD (56 - 8 * i + bit) else value.b.getLsbD (120 - 8 * i + bit) := by
  unfold Be128.byte
  split <;> simp [hbit]

theorem bit_bit (horder : order = lle ∨ order = bbe) (hn : n < 128) :
    order.bit n < 128 ∧ order.bit (order.bit n) = n := by
  rcases horder with rfl | rfl <;> simp only [Order.bit, lle, bbe] <;> omega

theorem coefficient_eq (horder : order = lle ∨ order = bbe) (value : Be128)
    (hn : n < 128) : coefficient order value n =
      if order.bit n < 64 then value.b.getLsbD (order.bit n)
      else value.a.getLsbD (order.bit n - 64) := by
  have hbyte : order.place (n / 8) < 16 ∧ order.power (n % 8) < 8 := by
    rcases horder with rfl | rfl <;> simp only [lle, bbe] <;> omega
  rw [coefficient, getLsbD_byte value _ hbyte.2, Order.bit]
  split_ifs <;> first | omega | (congr 1; omega)

theorem xor_zero (p : Be128) : p.xor Be128.zero = p := by
  simp [Be128.xor, Be128.zero]

theorem Be128.xor_induction {motive : Be128 → Prop} (high : ∀ i < 64, motive ⟨twoPow 64 i, 0⟩)
    (low : ∀ i < 64, motive ⟨0, twoPow 64 i⟩) (xor : ∀ p q, motive p → motive q → motive (p.xor q))
    (value : Be128) : motive value := by
  have hzero : motive Be128.zero := by
    have hself := xor _ _ (high 0 (by decide)) (high 0 (by decide))
    exact hself
  have hwords : ∀ word, motive ⟨word, 0⟩ ∧ motive ⟨0, word⟩ := by
    intro word
    induction word using XorLinear.xor_induction with
    | zero => exact ⟨hzero, hzero⟩
    | bit i hi => exact ⟨high i hi, low i hi⟩
    | xor left right ihLeft ihRight =>
      have hhigh := xor _ _ ihLeft.1 ihRight.1
      have hlow := xor _ _ ihLeft.2 ihRight.2
      simp only [Be128.xor, BitVec.xor_self] at hhigh hlow
      exact ⟨hhigh, hlow⟩
  have hboth := xor _ _ (hwords value.a).1 (hwords value.b).2
  simpa [Be128.xor] using hboth

end Bits

section Additive

theorem xda_xor (constants : List (ℕ × BitVec 64)) (hbits : ∀ entry ∈ constants, entry.1 < 64)
    (left right : BitVec 64) :
    xda constants (left ^^^ right) = xda constants left ^^^ xda constants right := by
  induction constants with
  | nil => simp [xda]
  | cons entry rest ih =>
    have hentry := hbits entry List.mem_cons_self
    have hrest := ih fun other hother => hbits other (List.mem_cons_of_mem _ hother)
    unfold xda at hrest ⊢
    simp only [List.foldr_cons, and_twoPow_ne_zero_iff _ hentry, select_xor, hrest]
    ac_rfl

theorem tableLle_xor (left right : BitVec 64) :
    tableLle (left ^^^ right) = tableLle left ^^^ tableLle right :=
  xda_xor _ (by decide) left right

theorem tableBbe_xor (left right : BitVec 64) :
    tableBbe (left ^^^ right) = tableBbe left ^^^ tableBbe right :=
  xda_xor _ (by decide) left right

theorem and_xor_distrib (left right mask : BitVec 64) :
    (left ^^^ right) &&& mask = (left &&& mask) ^^^ (right &&& mask) := by
  apply eq_of_getLsbD_eq
  intro i _
  simp [getLsbD_and, getLsbD_xor, Bool.and_xor_distrib_right]

theorem steps_xor (horder : order = lle ∨ order = bbe) (p q : Be128) :
    order.x (p.xor q) = (order.x p).xor (order.x q) ∧
      order.x8 (p.xor q) = (order.x8 p).xor (order.x8 q) := by
  rcases horder with rfl | rfl <;>
    simp only [lle, bbe, xLle, x8Lle, xBbe, x8Bbe, shift_or_eq_xor _ _ (show 1 + 63 = 64 from rfl),
      shift_or_eq_xor _ _ (show 8 + 56 = 64 from rfl),
      shiftLeft_or_eq_xor _ _ (show 63 + 1 = 64 from rfl),
      shiftLeft_or_eq_xor _ _ (show 56 + 8 = 64 from rfl)] <;>
    simp only [Be128.xor, ushiftRight_xor_distrib, shiftLeft_xor_distrib, and_xor_distrib,
      tableLle_xor, tableBbe_xor, Be128.mk.injEq] <;>
    refine ⟨⟨?_, ?_⟩, ?_, ?_⟩ <;> exact xor_interchange _ _ _ _

end Additive

section Value

variable {R : Type*} [CommRing R] (x : R) {i : ℕ}

theorem eval_xor [CharP R 2] (order : Order) (p q : Be128) :
    eval order x (p.xor q) = eval order x p + eval order x q := by
  unfold eval
  rw [← sum_add_distrib]
  apply sum_congr rfl
  intro n _
  rw [coefficient_xor]
  cases coefficient order p n <;> cases coefficient order q n <;>
    simp [CharTwo.add_self_eq_zero]

theorem eval_single {value : Be128} (hn : n < 128)
    (hbits : ∀ m < 128, coefficient order value m = decide (m = n)) :
    eval order x value = x ^ n := by
  rw [eval, sum_congr rfl fun m hm => by rw [hbits m (mem_range.mp hm)]]
  simp [hn]

/-- The element that stands for `x^n`. -/
def monomial (order : Order) (n : ℕ) : Be128 :=
  if order.bit n < 64 then ⟨0, twoPow 64 (order.bit n)⟩ else ⟨twoPow 64 (order.bit n - 64), 0⟩

theorem eval_monomial (order : Order) (horder : order = lle ∨ order = bbe) (hn : n < 128) :
    eval order x (monomial order n) = x ^ n := by
  apply eval_single x hn
  intro m hm
  have hsame : order.bit m = order.bit n ↔ m = n := by
    refine ⟨fun heq => ?_, fun heq => by rw [heq]⟩
    rw [← (bit_bit horder hm).2, heq, (bit_bit horder hn).2]
  have := (bit_bit horder hm).1
  rw [coefficient_eq horder _ hm, Bool.eq_iff_iff, decide_eq_true_iff, ← hsame, monomial]
  split_ifs <;> simp <;> omega

/-- The element that stands for `x^128`, times `x^n`. -/
def tail (order : Order) (n : ℕ) : Be128 :=
  ((monomial order n).xor (monomial order (n + 1))).xor
    ((monomial order (n + 2)).xor (monomial order (n + 7)))

variable [CharP R 2] {x} {order : Order}

/-- A map that moves every bit by `count` powers multiplies by `x^count`. -/
theorem eval_shift {count : ℕ} {f : Be128 → Be128} (horder : order = lle ∨ order = bbe)
    (hcount : count ≤ 8) (hroot : x ^ 128 = x ^ 7 + x ^ 2 + x + 1)
    (hxor : ∀ p q, f (p.xor q) = (f p).xor (f q))
    (hmonomial : ∀ n < 128, f (monomial order n) =
      if n + count < 128 then monomial order (n + count) else tail order (n + count - 128))
    (value : Be128) : eval order x (f value) = x ^ count * eval order x value := by
  have hvalue : ∀ n < 128, eval order x (f (monomial order n)) =
      x ^ count * eval order x (monomial order n) := by
    intro n hn
    rw [hmonomial n hn, eval_monomial x order horder hn, ← pow_add]
    split
    · rw [eval_monomial x order horder ‹_›, add_comm]
    rw [tail, eval_xor, eval_xor, eval_xor, eval_monomial x order horder (by omega),
      eval_monomial x order horder (by omega), eval_monomial x order horder (by omega),
      eval_monomial x order horder (by omega),
      show count + n = n + count - 128 + 128 by omega, pow_add _ _ 128, hroot]
    ring
  have hunits : ∀ i < 64, (∃ n < 128, ⟨twoPow 64 i, 0⟩ = monomial order n) ∧
      ∃ n < 128, ⟨0, twoPow 64 i⟩ = monomial order n := by
    rcases horder with rfl | rfl <;> decide +kernel
  induction value using Be128.xor_induction with
  | high i hi =>
    obtain ⟨n, hn, heq⟩ := (hunits i hi).1
    rw [heq]
    exact hvalue n hn
  | low i hi =>
    obtain ⟨n, hn, heq⟩ := (hunits i hi).2
    rw [heq]
    exact hvalue n hn
  | xor p q ihp ihq =>
    rw [hxor, eval_xor, eval_xor, ihp, ihq]
    ring

theorem steps_monomial (horder : order = lle ∨ order = bbe) :
    (∀ n < 128, order.x (monomial order n) =
      if n + 1 < 128 then monomial order (n + 1) else tail order (n + 1 - 128)) ∧
    ∀ n < 128, order.x8 (monomial order n) =
      if n + 8 < 128 then monomial order (n + 8) else tail order (n + 8 - 128) := by
  rcases horder with rfl | rfl <;> decide +kernel

end Value

end KernelM5040.Gf128mul
