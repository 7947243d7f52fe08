import Caster.Conform.Literal

/-!
# The conformance check

What the analyzer checks where an open local stands for a fixed `MAP`: the keys and types it
knows of the local's literal against the fields of the type.
-/

namespace Caster

/-! ### The check -/

/-- A field whose literal value has another type. -/
def fieldTypeStop (field : Field) (actual : Ty) : Stop :=
  .die ("field '" ++ field.name ++ "' must be " ++ field.declaredType.text ++ ", got " ++ actual.text)

/-- The first key that is no field of a fixed `MAP`. -/
def unknownKey (types : TypeTable) (target : Ty) (keys : List String) : Option String :=
  keys.find? fun key => (structField types target key).isNone

/-- `validate_open_conforms_to_struct` with what is known of the open value: each field of the
type is known with a type that conforms, or its value is checked, or it has a default; a
closed type has every key as a field. -/
def validateOpenConformsToStruct (types : TypeTable) (keys : List String)
    (sourceType : String → Option Ty) (sourceConforms : String → Ty → Except Stop Bool)
    (target : Ty) : Except Stop Unit :=
  match structOf types target with
  | none => .error (.die ("expected fixed MAP type, got " ++ target.text))
  | some (fields, openRuntime) => do
    fields.forM fun field =>
      match sourceType field.name with
      | none =>
        if fieldHasDefault types field then .ok () else .error (missingFieldStop field target)
      | some actual =>
        if typeConformsToExpected actual field.declaredType then .ok ()
        else do
          if ← sourceConforms field.name field.declaredType then .ok ()
          else .error (fieldTypeStop field actual)
    match openRuntime, unknownKey types target keys with
    | false, some key => .error (.die ("type " ++ target.text ++ " has no field '" ++ key ++ "'"))
    | _, _ => .ok ()

mutual

/-- A literal's value can stand for a type. -/
def validateExprConformsToType (types : TypeTable) : Expr → Ty → Except Stop Bool
  | .recordLiteral info fields, target =>
    if typeConformsToExpected info.checkedType target then .ok true
    else if isStructType types target && info.checkedType = .OPEN then do
      let record := Expr.recordLiteral info fields
      validateOpenConformsToStruct types (collectSourceLiteralKeys types [] record [])
        (exprSourceLiteralKeyType types [] record)
        (fun key target => validateFirstConformsToType types fields key target) target
      .ok true
    else .ok false
  | .array info elements, target =>
    if typeConformsToExpected info.checkedType target then .ok true
    else match target with
      | .ARR elem =>
        if isArrayType info.checkedType then validateElementsConformToType types elements elem
        else .ok false
      | _ => .ok false
  | .mapLiteral info entries, target =>
    if typeConformsToExpected info.checkedType target then .ok true
    else match target with
      | .MAP key value =>
        if isMapType info.checkedType && key = .STR then
          validateEntriesConformToType types entries value
        else .ok false
      | _ => .ok false
  | e, target => .ok (typeConformsToExpected e.checkedType target)

/-- Each element of an array can stand for a type. -/
def validateElementsConformToType (types : TypeTable) : List Expr → Ty → Except Stop Bool
  | [], _ => .ok true
  | e :: elements, elem => do
    if ← validateExprConformsToType types e elem then
      validateElementsConformToType types elements elem
    else .ok false

/-- Each value of a map can stand for a type. -/
def validateEntriesConformToType (types : TypeTable) : List (Expr × Expr) → Ty → Except Stop Bool
  | [], _ => .ok true
  | (_, e) :: entries, value => do
    if ← validateExprConformsToType types e value then
      validateEntriesConformToType types entries value
    else .ok false

/-- The first value a record gives a key can stand for a type, when there is one. -/
def validateFirstConformsToType (types : TypeTable) :
    List (String × Expr) → String → Ty → Except Stop Bool
  | [], _, _ => .ok false
  | (name, e) :: fields, key, target =>
    if name = key then validateExprConformsToType types e target
    else validateFirstConformsToType types fields key target

end

/-- `conform_inferred_open_local` for an open local and a fixed `MAP`.  The local was declared
by a record, what is known of it is what its symbol keeps, and it is emitted as the call of
the type's decoder. -/
def conformInferredOpenLocal (types : TypeTable) (scope : Scope) (info : Info) (name : String)
    (record : List (String × Expr)) (target : Ty) : Except Stop Expr := do
  let e := Expr.name info name
  validateOpenConformsToStruct types (collectSourceLiteralKeys types scope e [])
    (exprSourceLiteralKeyType types scope e) (validateFirstConformsToType types record) target
  let source := match scopeTryResolve scope name with
    | some sym => sym.cExpr.getD (.ident name)
    | none => .ident name
  .ok (.name { info with
    checkedType := target
    declaredType := some target
    cExpr := some (.call (.jsonDecodeFn target) [source]) } name)

/-- The symbol of a local declared by a record. -/
def openLocal (types : TypeTable) (name : String) (record : Expr) : Symbol :=
  { Symbol.fresh name .OPEN with
    sourceLiteralKeys := collectSourceLiteralKeys types [] record []
    sourceLiteralKeyTypes := collectSourceLiteralKeyTypes types [] record [] }

end Caster
