import Mathlib

/-!
# Kconfig expressions: scripts/kconfig/expr.c

`expr_transform` turns comparisons of a boolean symbol with a constant into the
symbol, and pushes each `!` down to the symbols.  It enters itself again on the
nodes it has rebuilt, so the model counts how deep it goes.  The values of
expressions are three: `expr_calc_value`.
-/

namespace KernelM5040.Kconfig

inductive Tristate
  | no
  | mod
  | yes
  deriving DecidableEq

/-- `EXPR_NOT`, the value taken from 2 -/
def exprNot : Tristate → Tristate
  | .no => .yes
  | .mod => .mod
  | .yes => .no

/-- `E_AND` and `E_OR` -/
inductive Connective
  | and
  | or

/-- `EXPR_AND` and `EXPR_OR`, the smaller and the greater value -/
def Connective.value : Connective → Tristate → Tristate → Tristate
  | and, val1, val2 => if val1.ctorIdx < val2.ctorIdx then val1 else val2
  | or, val1, val2 => if val1.ctorIdx > val2.ctorIdx then val1 else val2

def Connective.dual : Connective → Connective
  | and => or
  | or => and

/-- `E_EQUAL` and `E_UNEQUAL` -/
inductive Comparison
  | equal
  | unequal

def Comparison.dual : Comparison → Comparison
  | equal => unequal
  | unequal => equal

/-- The value of a comparison of texts. -/
def Comparison.value : Comparison → String → String → Tristate
  | equal, str1, str2 => if str1 = str2 then .yes else .no
  | unequal, str1, str2 => if str1 = str2 then .no else .yes

/-- `enum symbol_type` -/
inductive SymbolType
  | unknown
  | boolean
  | tristate
  | int
  | hex
  | string
  | other
  deriving DecidableEq

/-- `struct symbol`: the constants `symbol_yes`, `symbol_mod` and `symbol_no`, and the others -/
inductive Symbol
  | yes
  | mod
  | no
  | other (type : SymbolType) (name : String)

/-- The constants are given no type. -/
def Symbol.type : Symbol → SymbolType
  | other type _ => type
  | _ => .unknown

/-- The symbol is `y`, `m` or `n`. -/
def Symbol.Constant : Symbol → Prop
  | other _ _ => False
  | _ => True

/-- `struct expr`, without lists and ranges -/
inductive Expr
  | symbol (sym : Symbol)
  | comp (type : Comparison) (left right : Symbol)
  | not (left : Expr)
  | two (type : Connective) (left right : Expr)

/-- The values that `sym_calc_value` leaves in `curr`; a boolean symbol is never `m`. -/
structure Assignment where
  tri : Symbol → Tristate
  val : Symbol → String
  yes : tri .yes = .yes ∧ val .yes = "y"
  mod : tri .mod = .mod ∧ val .mod = "m"
  no : tri .no = .no ∧ val .no = "n"
  boolean : ∀ sym, sym.type = .boolean → tri sym ≠ .mod

namespace Assignment

variable (curr : Assignment)

def symGetStringValue (sym : Symbol) : String :=
  if sym.type = .boolean ∨ sym.type = .tristate then
    match curr.tri sym with
    | .no => "n"
    | .mod => "m"
    | .yes => "y"
  else curr.val sym

def exprCalcValue : Expr → Tristate
  | .symbol sym => curr.tri sym
  | .comp type left right =>
    type.value (curr.symGetStringValue left) (curr.symGetStringValue right)
  | .not left => exprNot (exprCalcValue left)
  | .two type left right => type.value (exprCalcValue left) (exprCalcValue right)

end Assignment

/-- `expr_transform` of a comparison of a boolean symbol -/
def transformBoolean (left : Symbol) : Comparison → Symbol → Expr
  | .equal, .no => .not (.symbol left)
  | .equal, .mod => .symbol .no
  | .equal, .yes => .symbol left
  | .unequal, .no => .symbol left
  | .unequal, .mod => .symbol .yes
  | .unequal, .yes => .not (.symbol left)
  | type, right => .comp type left right

/-- `expr_transform` of a comparison -/
def transformComp (type : Comparison) (left right : Symbol) : Expr :=
  if left.type ≠ .boolean then .comp type left right else transformBoolean left type right

/-- `!` before a symbol -/
def negateSymbol : Symbol → Expr
  | .yes => .symbol .no
  | .mod => .symbol .mod
  | .no => .symbol .yes
  | sym => .not (.symbol sym)

/-- `!` before an expression that is transformed already; `again` is `expr_transform`. -/
def negate (again : Expr → Option Expr) : Expr → Option Expr
  | .not tmp => again tmp
  | .comp type left right => some (.comp type.dual left right)
  | .two type left right => again (.two type.dual (.not left) (.not right))
  | .symbol sym => some (negateSymbol sym)

/-- `expr_transform`, nothing when it goes deeper than the number -/
def exprTransform : ℕ → Expr → Option Expr
  | 0, _ => none
  | _ + 1, .symbol sym => some (.symbol sym)
  | _ + 1, .comp type left right => some (transformComp type left right)
  | depth + 1, .not left => do negate (exprTransform depth) (← exprTransform depth left)
  | depth + 1, .two type left right => do
    return .two type (← exprTransform depth left) (← exprTransform depth right)

/-- `expr_transform` ends with the result: it does not go deeper than some number. -/
def Transforms (e result : Expr) : Prop :=
  ∀ᶠ depth in Filter.atTop, exprTransform depth e = some result

/-- `!` stands only before a symbol that is no constant, and no boolean symbol is compared with
a constant. -/
def Normal : Expr → Prop
  | .symbol _ => True
  | .comp _ left right => left.type = .boolean → ¬right.Constant
  | .not (.symbol sym) => ¬sym.Constant
  | .not _ => False
  | .two _ left right => Normal left ∧ Normal right

theorem exprNot_exprNot (val : Tristate) : exprNot (exprNot val) = val := by
  cases val <;> rfl

theorem Connective.value_dual (type : Connective) (val1 val2 : Tristate) :
    type.dual.value (exprNot val1) (exprNot val2) = exprNot (type.value val1 val2) := by
  cases type <;> cases val1 <;> cases val2 <;> rfl

theorem Comparison.value_dual (type : Comparison) (str1 str2 : String) :
    type.dual.value str1 str2 = exprNot (type.value str1 str2) := by
  cases type <;> rw [dual, value, value] <;> split_ifs <;> rfl

section Values

variable (curr : Assignment)

theorem exprCalcValue_transformComp (type : Comparison) (left right : Symbol) :
    curr.exprCalcValue (transformComp type left right) =
      curr.exprCalcValue (.comp type left right) := by
  rw [transformComp]
  split_ifs with htype
  · rfl
  have hbool := curr.boolean left (not_not.mp htype)
  have hleft : curr.symGetStringValue left = if curr.tri left = .no then "n" else "y" := by
    rw [Assignment.symGetStringValue, if_pos (.inl (not_not.mp htype))]
    cases htri : curr.tri left with
    | mod => exact absurd htri hbool
    | _ => rfl
  have hyes : curr.symGetStringValue .yes = "y" := curr.yes.2
  have hmod : curr.symGetStringValue .mod = "m" := curr.mod.2
  have hno : curr.symGetStringValue .no = "n" := curr.no.2
  cases right with
  | other _ _ => cases type <;> rfl
  | _ =>
    cases type <;> cases htri : curr.tri left <;>
      simp_all [transformBoolean, Assignment.exprCalcValue, Comparison.value, exprNot, curr.yes,
        curr.no]

theorem exprCalcValue_negateSymbol (sym : Symbol) :
    curr.exprCalcValue (negateSymbol sym) = exprNot (curr.tri sym) := by
  cases sym with
  | yes => exact curr.no.1.trans (congrArg exprNot curr.yes.1).symm
  | mod => exact curr.mod.1.trans (congrArg exprNot curr.mod.1).symm
  | no => exact curr.yes.1.trans (congrArg exprNot curr.no.1).symm
  | other type name => rfl

end Values

theorem normal_transformComp (type : Comparison) (left right : Symbol) :
    Normal (transformComp type left right) := by
  rw [transformComp]
  split_ifs with htype
  · exact fun hbool => absurd hbool htype
  · cases left with
    | other _ _ => cases right <;> cases type <;> simp [transformBoolean, Normal, Symbol.Constant]
    | _ => exact absurd nofun htype

variable {e result left left' right right' : Expr}

theorem Transforms.of_succ
    (hdepth : ∀ᶠ depth in Filter.atTop, exprTransform (depth + 1) e = some result) :
    Transforms e result := by
  rw [Transforms, ← Filter.map_add_atTop_eq_nat 1]
  exact Filter.eventually_map.mpr hdepth

theorem Transforms.two (type : Connective) (hleft : Transforms left left')
    (hright : Transforms right right') :
    Transforms (.two type left right) (.two type left' right') := by
  refine of_succ ?_
  filter_upwards [hleft, hright] with depth hleft hright
  rw [exprTransform, hleft, hright]
  rfl

theorem Transforms.not (hleft : Transforms left left')
    (hnegate : ∀ᶠ depth in Filter.atTop, negate (exprTransform depth) left' = some result) :
    Transforms (.not left) result := by
  refine of_succ ?_
  filter_upwards [hleft, hnegate] with depth hleft hnegate
  rw [exprTransform, hleft]
  exact hnegate

theorem Transforms.symbol (sym : Symbol) : Transforms (.symbol sym) (.symbol sym) :=
  of_succ (.of_forall fun _ => rfl)

theorem Transforms.of_normal (hnormal : Normal e) : Transforms e e := by
  induction e with
  | symbol sym => exact symbol sym
  | comp type left right =>
    refine of_succ (.of_forall fun _ => congrArg some ?_)
    rw [transformComp]
    split_ifs with htype
    · rfl
    have hconstant := hnormal (not_not.mp htype)
    cases right with
    | other _ _ => cases type <;> rfl
    | _ => exact absurd trivial hconstant
  | not left ih =>
    cases left with
    | symbol sym =>
      refine (symbol sym).not (.of_forall fun _ => congrArg some ?_)
      cases sym with
      | other _ _ => rfl
      | _ => exact absurd trivial hnormal
    | _ => exact hnormal.elim
  | two type left right ihleft ihright => exact (ihleft hnormal.1).two type (ihright hnormal.2)

theorem exists_negate (hnormal : Normal e) :
    ∃ result, (∀ᶠ depth in Filter.atTop, negate (exprTransform depth) e = some result) ∧
      Normal result ∧
      ∀ curr : Assignment, curr.exprCalcValue result = exprNot (curr.exprCalcValue e) := by
  induction e with
  | symbol sym =>
    refine ⟨_, .of_forall fun _ => rfl, ?_, fun curr => exprCalcValue_negateSymbol curr sym⟩
    cases sym with
    | other _ _ => exact id
    | _ => trivial
  | comp type left right =>
    exact ⟨_, .of_forall fun _ => rfl, hnormal, fun curr => type.value_dual _ _⟩
  | not left ih =>
    cases left with
    | symbol sym =>
      exact ⟨_, Transforms.symbol sym, trivial, fun curr => (exprNot_exprNot _).symm⟩
    | _ => exact hnormal.elim
  | two type left right ihleft ihright =>
    obtain ⟨left', hleft, hnleft, hvleft⟩ := ihleft hnormal.1
    obtain ⟨right', hright, hnright, hvright⟩ := ihright hnormal.2
    refine ⟨_, ((Transforms.of_normal hnormal.1).not hleft).two type.dual
      ((Transforms.of_normal hnormal.2).not hright), ⟨hnleft, hnright⟩, fun curr => ?_⟩
    rw [Assignment.exprCalcValue, hvleft, hvright]
    exact type.value_dual _ _

/-- `expr_transform` ends, keeps the value under every assignment, and leaves `!` only before
symbols that are no constants. -/
theorem exprTransform_preserves (e : Expr) :
    ∃ result, Transforms e result ∧ Normal result ∧
      ∀ curr : Assignment, curr.exprCalcValue result = curr.exprCalcValue e := by
  induction e with
  | symbol sym => exact ⟨_, .symbol sym, trivial, fun _ => rfl⟩
  | comp type left right =>
    exact ⟨_, .of_succ (.of_forall fun _ => rfl), normal_transformComp type left right,
      fun curr => exprCalcValue_transformComp curr type left right⟩
  | not left ih =>
    obtain ⟨left', hleft, hnormal, hvalue⟩ := ih
    obtain ⟨result, hresult, hnresult, hnot⟩ := exists_negate hnormal
    refine ⟨result, hleft.not hresult, hnresult, fun curr => ?_⟩
    rw [hnot, hvalue, Assignment.exprCalcValue]
  | two type left right ihleft ihright =>
    obtain ⟨left', hleft, hnleft, hvleft⟩ := ihleft
    obtain ⟨right', hright, hnright, hvright⟩ := ihright
    refine ⟨_, hleft.two type hright, ⟨hnleft, hnright⟩, fun curr => ?_⟩
    rw [Assignment.exprCalcValue, hvleft, hvright, Assignment.exprCalcValue]

/-- What `expr_eliminate_yn` makes of a connective: a constant operand decides it or goes. -/
def eliminateYn : Connective → Expr → Expr → Expr
  | .and, .symbol .no, _ => .symbol .no
  | .and, .symbol .yes, right => right
  | .and, _, .symbol .no => .symbol .no
  | .and, left, .symbol .yes => left
  | .or, .symbol .no, right => right
  | .or, .symbol .yes, _ => .symbol .yes
  | .or, left, .symbol .no => left
  | .or, _, .symbol .yes => .symbol .yes
  | type, left, right => .two type left right

def exprEliminateYn : Expr → Expr
  | .two type left right => eliminateYn type (exprEliminateYn left) (exprEliminateYn right)
  | e => e

theorem exprCalcValue_eliminateYn (curr : Assignment) (type : Connective) :
    curr.exprCalcValue (eliminateYn type left right) =
      curr.exprCalcValue (.two type left right) := by
  have hyes := curr.yes.1
  have hno := curr.no.1
  fun_cases eliminateYn type left right <;>
    simp only [Assignment.exprCalcValue, Connective.value, hyes, hno] <;>
    cases curr.exprCalcValue _ <;> rfl

/-- No operand of a connective outside `!` is `y` or `n`. -/
def Reduced : Expr → Prop
  | .two _ left right => (Reduced left ∧ left ≠ .symbol .yes ∧ left ≠ .symbol .no) ∧
      Reduced right ∧ right ≠ .symbol .yes ∧ right ≠ .symbol .no
  | _ => True

theorem reduced_eliminateYn (type : Connective) (hleft : Reduced left) (hright : Reduced right) :
    Reduced (eliminateYn type left right) := by
  fun_cases eliminateYn type left right <;> first | assumption | simp_all [Reduced]
  cases type <;> simp_all

/-- `expr_eliminate_yn` leaves no `y` or `n` beside `&&` and `||`, and keeps the value of an
expression under every assignment. -/
theorem exprEliminateYn_reduces (e : Expr) : Reduced (exprEliminateYn e) ∧
    ∀ curr : Assignment, curr.exprCalcValue (exprEliminateYn e) = curr.exprCalcValue e := by
  induction e with
  | two type left right ihleft ihright =>
    refine ⟨reduced_eliminateYn type ihleft.1 ihright.1, fun curr => ?_⟩
    rw [exprEliminateYn, exprCalcValue_eliminateYn, Assignment.exprCalcValue, ihleft.2, ihright.2,
      Assignment.exprCalcValue]
  | _ => exact ⟨trivial, fun _ => rfl⟩

end KernelM5040.Kconfig
