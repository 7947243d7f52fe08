import Caster.Analyze.Scope

/-!
# Names and reference reads

How the analyzer types a name, which types it accepts at a position of an expected type,
and the dereference it wraps around a reference that is read as a value.
-/

namespace Caster

/-! ### Type rules -/

/-- A type of numbers. -/
def isNumericType (type : Ty) : Bool := type = .INT || type = .FLT

theorem numeric_cases {type : Ty} (h : isNumericType type) :
  type = .INT ∨ type = .FLT
  := by
  simpa [isNumericType] using h

/-- The types a position of an expected type accepts directly. -/
def typeAssignableToExpected (types : TypeTable) (actual expected : Ty) : Bool :=
  actual = expected ||
    actual = .NUL && isRefType expected ||
    actual = .NUL && isFnType expected ||
    actual = .OPEN && isStructType types expected

/-- The types that conform to an expected type: an `INT` stands for a `FLT` here. -/
def typeConformsToExpected (actual expected : Ty) : Bool :=
  actual = expected ||
    actual = .NUL && isRefType expected ||
    actual = .NUL && isFnType expected ||
    actual = .INT && expected = .FLT

/-- The type of an arithmetic operation. -/
def numericBinaryType (left right : Ty) : Option Ty :=
  if isNumericType left && isNumericType right then
    if left = .FLT || right = .FLT then some .FLT else some .INT
  else none

/-! ### Reading references -/

/-- The dereference written around a reference that is read as a value. -/
def wrapExprAsImplicitDeref (e : Expr) (refType : Ty) : Expr :=
  .unary { Info.ofType (refTargetType refType) with implicitDeref := true } .deref e

/-- A reference is read where its target can stand for the expected type. -/
def implicitRefReadIfAssignable (types : TypeTable) (e : Expr) (expected : Ty) : Expr :=
  if isRefType e.checkedType && e.checkedType ≠ expected &&
      (typeConformsToExpected (refTargetType e.checkedType) expected ||
        typeAssignableToExpected types (refTargetType e.checkedType) expected) then
    wrapExprAsImplicitDeref e e.checkedType
  else e

/-- A reference is read where a value is used. -/
def implicitRefReadValue (e : Expr) : Expr :=
  if isRefType e.checkedType then wrapExprAsImplicitDeref e e.checkedType else e

/-! ### Names -/

/-- A name is a symbol of the scope or a value declared under a type's name.  The parser
leaves no C expression on it. -/
def analyzeName (types : TypeTable) (scope : Scope) (info : Info) (name : String) :
    Except Stop Expr :=
  match scopeTryResolve scope name with
  | some sym =>
    if sym.isFunction then
      .error (.die ("nested function '" ++ name ++
        "' can only be called directly inside its owning function"))
    else if sym.ownership = .FREED then
      .error (.die ("use of freed value '" ++ name ++ "'"))
    else
      .ok (.name { info with checkedType := sym.type, cExpr := sym.cExpr } name)
  | none =>
    match typeFind types name with
    | some declared =>
      if typeHasCompleteNamedValue declared then
        .ok (.name { info with
          checkedType := match declared.kind with
            | .struct _ _ => .named declared.name
            | .alias target _ => target
          cExpr := some (.ident (namedValueStorageName declared.name)) } name)
      else
        .error (.die ("MAP '" ++ name ++ "' has no complete named value"))
    | none => .error (.die ("unknown name '" ++ name ++ "'"))

variable {types : TypeTable} {scope : Scope}

theorem analyzeName_isName {info : Info} {name : String} {e : Expr}
    (h : analyzeName types scope info name = .ok e) :
  ∃ info', e = .name info' name
  := by
  unfold analyzeName at h
  split at h
  · split at h
    · cases h
    · split at h
      · cases h
      · cases h
        exact ⟨_, rfl⟩
  · split at h
    · split at h
      · cases h
        exact ⟨_, rfl⟩
      · cases h
    · cases h

/-- The name a symbol gives. -/
theorem analyzeName_symbol {info : Info} {name : String} {e : Expr} {sym : Symbol}
    (hsym : scopeTryResolve scope name = some sym) (h : analyzeName types scope info name = .ok e) :
  e = .name { info with checkedType := sym.type, cExpr := sym.cExpr } name
  := by
  unfold analyzeName at h
  rw [hsym] at h
  simp only at h
  split at h
  · cases h
  · split at h
    · cases h
    · cases h
      rfl

end Caster
