import Caster.Analyze.Expressions

/-!
# The emission of expressions

`emit_expr` on constants, names, dots and operators.  What it prints for the other nodes,
and for the operators that print statement expressions or runtime calls, is not looked into
here: it has the type the analyzer recorded.
-/

namespace Caster

/-- The C operator of a binary node. -/
def BinaryOp.text : BinaryOp → String
  | .orElse => "else"
  | .add => "+"
  | .sub => "-"
  | .mul => "*"
  | .div => "/"
  | .mod => "%"
  | .pipe => "|"
  | .eq => "=="
  | .ne => "!="
  | .lt => "<"
  | .le => "<="
  | .gt => ">"
  | .ge => ">="
  | .and => "&&"
  | .or => "||"

/-- A value of a runtime-key map unboxed to a type. -/
def emitObjGetTyped (type : Ty) (object key : CExpr) : CExpr :=
  .call (.objAsFn type) [.call .flx_objmap_get [object, key]]

/-- The access of a field by its name. -/
def emitNameDot (types : TypeTable) (objectType : Ty) (object : CExpr) (name : String) : CExpr :=
  if objectType = .OPEN then .call .flx_objmap_get [object, .strLit name]
  else if isOpenStructType types objectType then
    match structField types objectType name with
    | some field => emitObjGetTyped field.declaredType object (.strLit name)
    | none => .member object name
  else .member object name

/-- The access of an element by its position. -/
def emitIndexDot (objectType : Ty) (object index : CExpr) : CExpr :=
  if objectType = .OBJ then .call .flx_objarr_get [.call .flx_obj_as_objarr [object], index]
  else if objectType = .STR then .call .flx_str_char_at [object, index]
  else .subscript (.member object "data") index

/-- The access by a computed key. -/
def emitTargetDot (types : TypeTable) (type objectType : Ty) (object target : CExpr) : CExpr :=
  if objectType = .OBJ then .call .flx_objmap_get [.call .flx_obj_as_objmap [object], target]
  else if isMapType objectType then .call (.mapGet objectType) [object, target]
  else if objectType = .OPEN then .call .flx_objmap_get [object, target]
  else if isOpenStructType types objectType then
    if type = .OBJ then .call .flx_objmap_get [object, target]
    else emitObjGetTyped type object target
  else .member object "(null)"

/-- The C expression of an expression. -/
def emitExpr (types : TypeTable) : Expr → CExpr
  | .int _ value => .intConst value
  | .flt _ value => .fltConst value
  | .bol _ value => .boolConst value
  | .str _ text => .strLit text
  | .nil _ => .null
  | .name info name => info.cExpr.getD (.ident name)
  | .dot info object name =>
    info.cExpr.getD (emitNameDot types object.checkedType (emitExpr types object) name)
  | .dotIndex info object index =>
    info.cExpr.getD (emitIndexDot object.checkedType (emitExpr types object) (emitExpr types index))
  | .dotTarget info object target =>
    info.cExpr.getD (emitTargetDot types info.checkedType object.checkedType
      (emitExpr types object) (emitExpr types target))
  | .unary _ .REF e => .addressOf (emitExpr types e)
  | .unary _ .deref e => .deref (emitExpr types e)
  | .unary _ .neg e => .unary "-" (emitExpr types e)
  | .unary _ .not e => .unary "!" (emitExpr types e)
  | .binary info op left right =>
    if op = .orElse ∨ op = .add ∧ (isArrayType info.checkedType ∨ isMapType info.checkedType ∨
        isStructType types info.checkedType ∨ info.checkedType = .OPEN) then
      .other op.text info.checkedType
    else if left.checkedType = .STR ∧ op = .add then
      .call .flx_str_concat [emitExpr types left, emitExpr types right]
    else if left.checkedType = .STR ∧ (op = .eq ∨ op = .ne) then .other op.text info.checkedType
    else .binary op.text (emitExpr types left) (emitExpr types right)
  | .ifExpr _ condition value (some right) =>
    .conditional (emitExpr types condition) (emitExpr types value) (emitExpr types right)
  | .ifExpr _ _ value none => emitExpr types value
  | e => .other "" e.checkedType

/-- Arithmetic is emitted as the C operator. -/
theorem emit_arithmetic {types : TypeTable} {info : Info} {op : BinaryOp} {left right : Expr}
    (hop : isArithmeticOp op)
    (hinfo : isNumericType info.checkedType) (hleft : isNumericType left.checkedType) :
  emitExpr types (.binary info op left right) =
    .binary op.text (emitExpr types left) (emitExpr types right)
  := by
  have hstr : left.checkedType ≠ .STR := by
    intro h
    rw [h] at hleft
    cases hleft
  have horElse : op ≠ .orElse := by
    rintro rfl
    cases hop
  rw [emitExpr]
  rcases numeric_cases hinfo with h | h <;>
    simp [h, hstr, horElse, isArrayType, isMapType, isStructType, structOf]

/-- Strings are joined by a runtime call. -/
theorem emit_concat {types : TypeTable} {info : Info} {left right : Expr}
    (hinfo : info.checkedType = .STR) (hleft : left.checkedType = .STR) :
  emitExpr types (.binary info .add left right) =
    .call .flx_str_concat [emitExpr types left, emitExpr types right]
  := by
  rw [emitExpr]
  simp [hinfo, hleft, isArrayType, isMapType, isStructType, structOf]

end Caster
