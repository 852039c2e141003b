import KernelM5040.Crypto.Gf128Tables

/-!
# The product in GF(2^128)

The polynomial of an element has degree below 128, so it is determined by its
class modulo `x^128 + x^7 + x^2 + x + 1`; the product of two elements is the
remainder of the product of their polynomials.
-/

namespace KernelM5040.Gf128mul

open Be128 Polynomial Finset Function

/-- The modulus of the field. -/
noncomputable def modulus : (ZMod 2)[X] := X ^ 128 + X ^ 7 + X ^ 2 + X + 1

/-- `r` is the product of `a` and `b` modulo the field polynomial. -/
def IsProduct (order : Order) (a b r : Be128) : Prop :=
  eval order X r = (eval order X a * eval order X b) %ₘ modulus

theorem modulus_natDegree : modulus.natDegree = 128 := by
  unfold modulus
  compute_degree!

theorem modulus_monic : modulus.Monic := by
  unfold modulus
  monicity!

theorem modulus_degree : modulus.degree = 128 :=
  degree_eq_natDegree modulus_monic.ne_zero ▸ congrArg Nat.cast modulus_natDegree

/-- The ring of polynomials modulo the field polynomial. -/
abbrev Field128 := AdjoinRoot modulus

instance : Nontrivial Field128 :=
  AdjoinRoot.nontrivial modulus (by rw [modulus_degree]; decide)

instance : CharP Field128 2 :=
  charP_of_injective_algebraMap (algebraMap (ZMod 2) Field128).injective 2

/-- The class of X. -/
noncomputable def root : Field128 := AdjoinRoot.root modulus

theorem modulus_eq : modulus = X ^ 128 + X ^ 7 + X ^ 2 + X + 1 := by
  unfold modulus
  with_reducible rfl

theorem root_relation : root ^ 128 = root ^ 7 + root ^ 2 + root + 1 := by
  have hzero : AdjoinRoot.mk modulus (X ^ 128 + X ^ 7 + X ^ 2 + X + 1) = 0 := by
    rw [← modulus_eq]
    exact AdjoinRoot.mk_self
  rw [map_add, map_add, map_add, map_add, map_pow, map_pow, map_pow, AdjoinRoot.mk_X, map_one,
    add_assoc, add_assoc, add_assoc] at hzero
  have hsum := CharTwo.add_eq_zero.mp hzero
  rw [← add_assoc, ← add_assoc] at hsum
  exact hsum

theorem root_isUnit : IsUnit root := by
  apply IsUnit.of_mul_eq_one (root ^ 127 + root ^ 6 + root + 1)
  calc root * (root ^ 127 + root ^ 6 + root + 1)
      = root ^ 128 + (root ^ 7 + root ^ 2 + root) := by ring
    _ = 1 + ((root ^ 7 + root ^ 2 + root) + (root ^ 7 + root ^ 2 + root)) := by
        rw [root_relation]
        ring
    _ = 1 := by rw [CharTwo.add_self_eq_zero, add_zero]

/-- A reduced polynomial is a remainder when the classes agree. -/
theorem eq_modByMonic_iff {f p q : (ZMod 2)[X]} (hmonic : f.Monic) (hreduced : p %ₘ f = p) :
    p = q %ₘ f ↔ AdjoinRoot.mk f p = AdjoinRoot.mk f q := by
  rw [AdjoinRoot.mk_eq_mk]
  constructor
  · intro heq
    rw [heq]
    exact dvd_modByMonic_sub q f
  · intro hdvd
    rw [← hreduced]
    exact modByMonic_eq_of_dvd_sub hmonic hdvd

section Classes

variable (order : Order)

theorem mk_eval (value : Be128) :
    AdjoinRoot.mk modulus (eval order X value) = eval order root value := by
  unfold eval
  rw [map_sum]
  apply sum_congr rfl
  intro n _
  split
  · rw [map_pow, AdjoinRoot.mk_X]
    rfl
  · exact map_zero _

theorem degree_eval_lt (value : Be128) : (eval order X value : (ZMod 2)[X]).degree < 128 := by
  have hmem : (eval order X value : (ZMod 2)[X]) ∈ degreeLT (ZMod 2) 128 := by
    apply Submodule.sum_mem
    intro n hn
    split
    · rw [mem_degreeLT]
      refine (degree_X_pow_le n).trans_lt ?_
      exact_mod_cast mem_range.mp hn
    · exact Submodule.zero_mem _
  exact mem_degreeLT.mp hmem

theorem eval_modByMonic (value : Be128) :
    (eval order X value : (ZMod 2)[X]) %ₘ modulus = eval order X value := by
  rw [modByMonic_eq_self_iff modulus_monic, modulus_degree]
  exact degree_eval_lt order value

theorem isProduct_iff (a b r : Be128) :
    IsProduct order a b r ↔ eval order root r = eval order root a * eval order root b := by
  unfold IsProduct
  rw [eq_modByMonic_iff modulus_monic (eval_modByMonic order r), map_mul, mk_eval, mk_eval, mk_eval]

theorem coefficient_of_eval_eq_zero {value : Be128} (hzero : eval order root value = 0) :
    ∀ n < 128, coefficient order value n = false := by
  have hpoly : (eval order X value : (ZMod 2)[X]) = 0 := by
    rw [← eval_modByMonic, modByMonic_eq_zero_iff_dvd modulus_monic,
      ← AdjoinRoot.mk_eq_zero, mk_eval]
    exact hzero
  intro n hn
  have hcoeff := congrArg (fun p => coeff p n) hpoly
  simp only [eval, finsetSum_coeff, coeff_zero] at hcoeff
  rw [sum_eq_single n] at hcoeff
  · cases hbit : coefficient order value n with
    | false => rfl
    | true => simp [hbit] at hcoeff
  · intro m _ hne
    split <;> simp [coeff_X_pow, hne.symm]
  · intro hnot
    exact absurd (mem_range.mpr hn) hnot

end Classes

variable {order : Order} {factor : Field128} {t : Table}

theorem low_eq_zero {value : Be128} (horder : order = lle ∨ order = bbe)
    (hzero : eval order root value = 0) : value.b = 0 := by
  have hbits := coefficient_of_eval_eq_zero order hzero
  apply BitVec.eq_of_getLsbD_eq
  intro i hi
  obtain ⟨hbit, hback⟩ := bit_bit horder (hi.trans (by decide : 64 < 128))
  have hcoefficient := hbits (order.bit i) hbit
  rw [coefficient_eq horder _ hbit, hback, if_pos hi] at hcoefficient
  simpa using hcoefficient

/-- The plain multiplication gives the product exactly when `memset` has
nothing left to clear. -/
theorem isProduct_gf128mul_iff (horder : order = lle ∨ order = bbe) (a b : Be128) :
    IsProduct order a b (gf128mul order a b) ↔ a.b = 0 := by
  rw [isProduct_iff, eval_gf128mul (sound horder root_relation), add_eq_right]
  constructor
  · intro hzero
    have hlow : (mk 0 a.b).b = 0 :=
      low_eq_zero horder ((root_isUnit.pow 120).mul_right_eq_zero.mp hzero)
    exact hlow
  · intro hb
    rw [hb, show mk 0 0 = zero from rfl, eval_zero, mul_zero]

theorem filled_singleLle (b : Be128) : Filled lle root (eval lle root b) 1 (singleLle b) :=
  filled_single (sound (.inl rfl) root_relation) rfl (singleLle_eq b)

theorem filled_singleBbe (b : Be128) : Filled bbe root (eval bbe root b) 1 (singleBbe b) :=
  filled_single (sound (.inr rfl) root_relation) rfl (singleBbe_eq b)

variable (a b : Be128)

theorem isProduct_4kLle : IsProduct lle a b (gf128mul4kLle a (init4kLle b)) := by
  rw [isProduct_iff]
  exact eval_mul4k (sound (.inl rfl) root_relation) (filled_singleLle b).fillTable a (by decide)

theorem isProduct_4kBbe : IsProduct bbe a b (gf128mul4kBbe a (init4kBbe b)) := by
  rw [isProduct_iff]
  exact eval_mul4k (sound (.inr rfl) root_relation) (filled_singleBbe b).fillTable a (by decide)

theorem eval_mul64k_init (hsound : Sound order root) (hfilled : Filled order root factor 1 t)
    (a : Be128) :
    eval order root (mul64k order.place a
      (init64kLoop order.x8 15 0 (update (fun _ _ => zero) 0 t))) = eval order root a * factor := by
  refine eval_mul64k hsound (fun i hi => ?_) a
  apply graded_init64kLoop hsound 15 0
  · intro j hj
    omega
  · rw [update_self, Graded, mul_zero, pow_zero, one_mul]
    exact hfilled
  · intro j hj
    rw [update_of_ne (by omega)]
  · omega

theorem isProduct_64kLle : IsProduct lle a b (gf128mul64kLle a (init64kLle b)) := by
  rw [isProduct_iff]
  exact eval_mul64k_init (sound (.inl rfl) root_relation) (filled_singleLle b) a

theorem isProduct_64kBbe : IsProduct bbe a b (gf128mul64kBbe a (init64kBbe b)) := by
  rw [isProduct_iff]
  exact eval_mul64k_init (sound (.inr rfl) root_relation) (filled_singleBbe b) a

/-- All six functions compute the product of `a` and `b`. -/
structure Agree : Prop where
  plainLle : IsProduct lle a b (gf128mulLle a b)
  plainBbe : IsProduct bbe a b (gf128mulBbe a b)
  table4kLle : IsProduct lle a b (gf128mul4kLle a (init4kLle b))
  table4kBbe : IsProduct bbe a b (gf128mul4kBbe a (init4kBbe b))
  table64kLle : IsProduct lle a b (gf128mul64kLle a (init64kLle b))
  table64kBbe : IsProduct bbe a b (gf128mul64kBbe a (init64kBbe b))

/-- The variants agree with the mathematical product exactly for the first
factors whose last eight bytes are zero. -/
theorem variants_agree_iff : Agree a b ↔ a.b = 0 := by
  constructor
  · intro hagree
    exact (isProduct_gf128mul_iff (Or.inl rfl) a b).mp hagree.plainLle
  intro hb
  exact ⟨(isProduct_gf128mul_iff (Or.inl rfl) a b).mpr hb,
    (isProduct_gf128mul_iff (Or.inr rfl) a b).mpr hb, isProduct_4kLle a b, isProduct_4kBbe a b,
    isProduct_64kLle a b, isProduct_64kBbe a b⟩

/-- `x^8` times zero: the last eight bytes of the first factor stay behind. -/
theorem gf128mul_not_product : ¬ ∀ a b, Agree a b := by
  intro hall
  have hzero := (isProduct_iff bbe ⟨0, 0x100⟩ ⟨0, 0⟩ _).mp (hall ⟨0, 0x100⟩ ⟨0, 0⟩).plainBbe
  have hresult : (gf128mulBbe ⟨0, 0x100⟩ ⟨0, 0⟩).b = 0 := by
    apply low_eq_zero (Or.inr rfl)
    rw [hzero, show mk 0 0 = zero from rfl, eval_zero, mul_zero]
  revert hresult
  decide +kernel

end KernelM5040.Gf128mul
