import Caster.Analyze.Expressions
import Caster.Emit.Expr
import Caster.CType

/-!
# The meaning of arithmetic

What a typed arithmetic expression means, and what C makes of the text emitted for it.  C
chooses the operation by the types of the operands it sees: a constant printed without a
point and an exponent is an integer, and an operation on two integers is an integer
operation.

The numbers themselves are parameters: two carriers with arbitrary operations on them, and
the conversion from the integers to the doubles.
-/

namespace Caster

/-- The arithmetic of C's integers and doubles.  A decimal constant of type `double` denotes
the binary64 number nearest to it. -/
structure CArithmetic (I F : Type) where
  ofConst : ℤ → I
  ofBinary64 : Magnitude → F
  toFlt : I → F
  negInt : I → I
  negFlt : F → F
  opInt : String → I → I → I
  opFlt : String → F → F → F

/-- The values of C expressions of number and pointer types. -/
inductive CVal (I F : Type) where
  | int (value : I)
  | flt (value : F)
  | ptr (target : CVal I F)
  /-- A value of any other type. -/
  | other

variable {I F : Type}

/-- The values that the variables of a type hold. -/
inductive HasType : CVal I F → Ty → Prop where
  | int (value : I) : HasType (.int value) .INT
  | flt (value : F) : HasType (.flt value) .FLT
  | ptr {target : CVal I F} {type : Ty} : HasType target type → HasType (.ptr target) (.REF type)
  | other {type : Ty} : isNumericType type = false → isRefType type = false → HasType .other type

theorem HasType.int_inv {v : CVal I F} (h : HasType v .INT) :
  ∃ i, v = .int i
  := by
  cases h with
  | int i => exact ⟨i, rfl⟩
  | other hnum => cases hnum

theorem HasType.flt_inv {v : CVal I F} (h : HasType v .FLT) :
  ∃ x, v = .flt x
  := by
  cases h with
  | flt x => exact ⟨x, rfl⟩
  | other hnum => cases hnum

theorem HasType.ref_inv {v : CVal I F} {type : Ty} (h : HasType v (.REF type)) :
  ∃ target, v = .ptr target ∧ HasType target type
  := by
  cases h with
  | ptr htarget => exact ⟨_, rfl, htarget⟩
  | other _ href => cases href

/-! ### The meaning C gives a text -/

section

variable (A : CArithmetic I F)

/-- A number converted to a double. -/
def asFlt : CVal I F → Option F
  | .int i => some (A.toFlt i)
  | .flt x => some x
  | _ => none

/-- C's negation: the operation of the operand's type. -/
def negate : CVal I F → Option (CVal I F)
  | .int i => some (.int (A.negInt i))
  | .flt x => some (.flt (A.negFlt x))
  | _ => none

/-- C's binary operation: of integers when both operands are, of doubles otherwise. -/
def operate (op : String) : CVal I F → CVal I F → Option (CVal I F)
  | .int i, .int j => some (.int (A.opInt op i j))
  | a, b =>
    if op = "%" then none
    else
      match asFlt A a, asFlt A b with
      | some x, some y => some (.flt (A.opFlt op x y))
      | _, _ => none

/-- The value of a constant printed with the format `%.17g`. -/
def constant : Magnitude → Option (CVal I F)
  | .infinite => none
  | .finite x =>
    if (Numeral.printG 17 x.toRat).isInteger then
      some (.int (A.ofConst (Numeral.printG 17 x.toRat).whole))
    else some (.flt (A.ofBinary64 (Binary64.ofRat (Numeral.printG 17 x.toRat).toRat)))

/-- The value of a C expression, where `env` gives those of the variables. -/
def CExpr.eval (env : CExpr → Option (CVal I F)) : CExpr → Option (CVal I F)
  | .intConst value => some (.int (A.ofConst value))
  | .fltConst value => constant A value
  | .deref e =>
    match e.eval env with
    | some (.ptr target) => some target
    | _ => none
  | .unary "-" e => (e.eval env).bind (negate A)
  | .binary op left right =>
    (left.eval env).bind fun a => (right.eval env).bind fun b => operate A op a b
  | e => env e

/-! ### The meaning of the typed tree -/

/-- A number as the integer it is. -/
def asInt : CVal I F → Option I
  | .int i => some i
  | _ => none

/-- The value of a typed expression: a node of type `FLT` is an operation on doubles. -/
def denote (env : CExpr → Option (CVal I F)) : Expr → Option (CVal I F)
  | .int info value =>
    some (if info.checkedType = .FLT then .flt (A.toFlt (A.ofConst value)) else .int (A.ofConst value))
  | .flt _ value => some (.flt (A.ofBinary64 value))
  | .name info name => CExpr.eval A env (info.cExpr.getD (.ident name))
  | .unary _ .deref e =>
    match denote env e with
    | some (.ptr target) => some target
    | _ => none
  | .unary info .neg e =>
    if info.checkedType = .FLT then
      ((denote env e).bind (asFlt A)).map fun x => .flt (A.negFlt x)
    else ((denote env e).bind asInt).map fun i => .int (A.negInt i)
  | .binary info op left right =>
    if info.checkedType = .FLT then
      ((denote env left).bind (asFlt A)).bind fun x =>
        ((denote env right).bind (asFlt A)).map fun y => .flt (A.opFlt op.text x y)
    else
      ((denote env left).bind asInt).bind fun i =>
        ((denote env right).bind asInt).map fun j => .int (A.opInt op.text i j)
  | _ => none

end

/-! ### Arithmetic trees -/

/-- The arithmetic expressions: numbers, names, and the operators over them. -/
def isArithmetic : Expr → Bool
  | .int _ _ | .flt _ _ | .name _ _ => true
  | .unary _ .neg e => isArithmetic e
  | .binary _ op left right => isArithmeticOp op && isArithmetic left && isArithmetic right
  | _ => false

/-- Arithmetic expressions are built from numbers and names. -/
theorem isArithmetic_induction {motive : (e : Expr) → isArithmetic e → Prop}
    (int : ∀ info value, motive (.int info value) rfl)
    (flt : ∀ info value, motive (.flt info value) rfl)
    (name : ∀ info name, motive (.name info name) rfl)
    (neg : ∀ info e (h : isArithmetic e), motive e h → motive (.unary info .neg e) h)
    (binary : ∀ info op left right (h : isArithmetic (.binary info op left right))
      (hleft : isArithmetic left) (hright : isArithmetic right),
      motive left hleft → motive right hright → motive (.binary info op left right) h) :
  (e : Expr) → (h : isArithmetic e) → motive e h
  | .int info value, _ => int info value
  | .flt info value, _ => flt info value
  | .name info original, _ => name info original
  | .unary info .neg e, h => neg info e h (isArithmetic_induction int flt name neg binary e h)
  | .binary info op left right, h => by
    have hparts := h
    simp only [isArithmetic, Bool.and_eq_true] at hparts
    exact binary info op left right h hparts.1.2 hparts.2
      (isArithmetic_induction int flt name neg binary left hparts.1.2)
      (isArithmetic_induction int flt name neg binary right hparts.2)

/-- The `FLT` literals of an expression. -/
def fltLiterals : Expr → List Magnitude
  | .flt _ value => [value]
  | .unary _ _ e => fltLiterals e
  | .binary _ _ left right => fltLiterals left ++ fltLiterals right
  | _ => []

/-- The nodes of an arithmetic expression. -/
def arithmeticNodes : Expr → List Expr
  | .unary info op e => .unary info op e :: arithmeticNodes e
  | .binary info op left right =>
    .binary info op left right :: (arithmeticNodes left ++ arithmeticNodes right)
  | e => [e]

/-- An `INT` literal, which C converts where a double is expected. -/
def isIntLiteral : Expr → Bool
  | .int _ _ => true
  | _ => false

section

variable (A : CArithmetic I F) (env : CExpr → Option (CVal I F)) (types : TypeTable)

/-- The text emitted for a node of type `FLT` is a double with the node's value. -/
def EmittedAsFlt (e : Expr) : Prop :=
  ∃ x, denote A env e = some (.flt x) ∧
    (CExpr.eval A env (emitExpr types e) = some (.flt x) ∨
      isIntLiteral e ∧ (CExpr.eval A env (emitExpr types e)).bind (asFlt A) = some x)

/-- Every node of type `FLT` is emitted as a double. -/
def FltMeaning (e : Expr) : Prop :=
  ∀ node ∈ arithmeticNodes e, node.checkedType = .FLT → EmittedAsFlt A env types node

/-- The C variables hold values of the types of the names they are emitted for. -/
def HoldsTypes (scope : Scope) : Prop :=
  ∀ info name e, analyzeName types scope info name = .ok e →
    ∃ v, CExpr.eval A env (emitExpr types e) = some v ∧ HasType v e.checkedType

end

/-- A literal whose text C reads as a double: it is finite and no whole number of at most
seventeen digits. -/
def PrintsAsFlt (value : Magnitude) : Prop :=
  ∃ x, value = .finite x ∧ ¬ ∃ n : ℕ, n < 10 ^ 17 ∧ x.toRat = n

end Caster
