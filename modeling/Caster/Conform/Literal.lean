import Caster.Analyze.Names
import Caster.Analyze.SourceKeys

/-!
# Literals

The analysis of literals, at a position of an expected type or at none, and the values the
text emitted for them makes.  The values are taken without the addresses of their blocks.
-/

namespace Caster

/-! ### Values -/

/-- A value of type `FLT`: a literal's, or an integer's after its conversion. -/
inductive FltValue where
  | literal (value : Magnitude)
  | ofInt (value : ℤ)
deriving DecidableEq, Repr

/-- A value without its addresses.  A boxed value is the value it boxes: its kind is the
constructor, with `nil` for the kind `NIL`, `objarr` for `ARR`, `objmap` for `MAP` and `box`
for `BOX`. -/
inductive Data where
  | int (value : ℤ)
  | flt (value : FltValue)
  | bol (value : Bool)
  | str (text : String)
  | nil
  /-- The null reference. -/
  | null
  | arr (elems : List Data)
  | map (entries : List (String × Data))
  /-- A fixed `MAP`: its fields in the order of their declaration. -/
  | struct (fields : List Data)
  | objarr (elems : List Data)
  | objmap (entries : List (String × Data))
  | box (contents : Data)
deriving Repr

/-- The boxed value `emit_obj_value` makes of a value of a type. -/
def objFrom (type : Ty) (v : Data) : Data :=
  if type = .NUL then .nil
  else if type = .OBJ || isObjScalarType type || type = .OPEN then v
  else .box v

/-! ### Analysis -/

/-- The element type expected in an array. -/
def expectedElement : Option Ty → Option Ty
  | some (.ARR elem) => some elem
  | _ => none

/-- The value type expected in a map. -/
def expectedValue : Option Ty → Option Ty
  | some (.MAP _ value) => some value
  | _ => none

/-- The first field of a fixed `MAP` that a literal leaves out and that has no default. -/
def missingField (types : TypeTable) (type : Ty) (present : List String) : Option Field :=
  match structOf types type with
  | some (fields, _) =>
    fields.find? fun field => field.name ∉ present && !fieldHasDefault types field
  | none => none

/-- The rejection of a literal that leaves out a required field. -/
def missingFieldStop (field : Field) (type : Ty) : Stop :=
  .die ("missing required field '" ++ field.name ++ "' for " ++ type.text)

mutual

/-- `analyze_expr_expected` on literals.  A map literal that opens a fixed `MAP` changes the
table and is left out, as are the other expressions. -/
def analyzeLiteral (types : TypeTable) : Expr → Option Ty → Except Stop Expr
  | .int info value, expected =>
    .ok (.int { info with checkedType := if expected = some .FLT then .FLT else .INT } value)
  | .flt info value, _ => .ok (.flt { info with checkedType := .FLT } value)
  | .bol info value, _ => .ok (.bol { info with checkedType := .BOL } value)
  | .str info text, _ => .ok (.str { info with checkedType := .STR } text)
  | .nil info, _ => .ok (.nil { info with checkedType := .NUL })
  | .array info elements, expected =>
    if expected = some .OBJ then do
      let elements ← analyzeEach types elements
      .ok (.array { info with checkedType := .OBJ } elements)
    else do
      let (elements, type) ← analyzeElements types elements (expectedElement expected) none
      match type, expected with
      | none, some (.ARR elem) => .ok (.array { info with checkedType := .ARR elem } elements)
      | none, _ => .ok (.array { info with checkedType := .ARR .unknown } elements)
      | some type, some (.ARR elem) =>
        if type = elem then .ok (.array { info with checkedType := .ARR type } elements)
        else
          .error (.die ("array literal must be " ++ (Ty.ARR elem).text ++ ", got " ++
            (Ty.ARR type).text))
      | some type, _ => .ok (.array { info with checkedType := .ARR type } elements)
  | .mapLiteral info entries, expected =>
    match expected with
    | some .OBJ => do
      let entries ← analyzeObjEntries types entries
      .ok (.mapLiteral { info with checkedType := .OBJ } entries)
    | expected =>
      match expected with
      | some type =>
        if isStructType types type then
          if entries.isEmpty then
            match missingField types type [] with
            | some field => .error (missingFieldStop field type)
            | none => .ok (.mapLiteral { info with checkedType := type } entries)
          else .error .beyond
        else
          match type with
          | .MAP key value =>
            if key = .STR then do
              let (entries, _) ← analyzeEntries types entries (some value) none
              .ok (.mapLiteral { info with checkedType := .MAP key value } entries)
            else
              .error (.die ("dynamic map literals currently require STR keys, got " ++ key.text))
          | type => .error (.die ("dynamic map literal cannot initialize " ++ type.text))
      | none => do
        let (entries, value) ← analyzeEntries types entries none none
        match value with
        | some value => .ok (.mapLiteral { info with checkedType := .MAP .STR value } entries)
        | none => .error (.die "empty map literal needs an expected MAP type")
  | .recordLiteral info fields, expected =>
    match expected with
    | some .OBJ => do
      let fields ← analyzeFields types fields
      .ok (.recordLiteral { info with checkedType := .OBJ } fields)
    | none => do
      let fields ← analyzeFields types fields
      .ok (.recordLiteral { info with checkedType := .OPEN } fields)
    | some type =>
      if isStructType types type then do
        let fields ← analyzeStructFields types type fields
        match missingField types type (Assoc.keys fields) with
        | some field => .error (missingFieldStop field type)
        | none => .ok (.recordLiteral { info with checkedType := type } fields)
      else .error (.die "fixed-map literal needs an expected fixed MAP type")
  | _, _ => .error .beyond

/-- Elements without an expected type. -/
def analyzeEach (types : TypeTable) : List Expr → Except Stop (List Expr)
  | [] => .ok []
  | e :: elements => do
    let e ← analyzeLiteral types e none
    let elements ← analyzeEach types elements
    .ok (e :: elements)

/-- The elements of an array: the first fixes the type of the others. -/
def analyzeElements (types : TypeTable) :
    List Expr → Option Ty → Option Ty → Except Stop (List Expr × Option Ty)
  | [], _, type => .ok ([], type)
  | e :: elements, expected, none => do
    let e ← analyzeLiteral types e expected
    let (elements, type) ← analyzeElements types elements expected (some e.checkedType)
    .ok (e :: elements, type)
  | e :: elements, expected, some type => do
    let e ← analyzeLiteral types e (expected.or (some type))
    if e.checkedType = type then
      let (elements, type) ← analyzeElements types elements expected (some type)
      .ok (e :: elements, type)
    else
      .error (.die ("array literal elements must all have type " ++ type.text ++ ", got " ++
        e.checkedType.text))

/-- The entries of a boxed map. -/
def analyzeObjEntries (types : TypeTable) : List (Expr × Expr) → Except Stop (List (Expr × Expr))
  | [] => .ok []
  | (key, value) :: entries => do
    let key ← analyzeLiteral types key none
    if key.checkedType = .STR then
      let value ← analyzeLiteral types value none
      let entries ← analyzeObjEntries types entries
      .ok ((key, value) :: entries)
    else
      .error (.die ("dynamic object literal keys currently must be STR, got " ++ key.checkedType.text))

/-- The entries of a map: the expected value type, or else the first value's, is that of
all. -/
def analyzeEntries (types : TypeTable) :
    List (Expr × Expr) → Option Ty → Option Ty → Except Stop (List (Expr × Expr) × Option Ty)
  | [], _, inferred => .ok ([], inferred)
  | (key, value) :: entries, expected, inferred => do
    let key ← analyzeLiteral types key (if expected.isSome then some .STR else none)
    if key.checkedType = .STR then
      let value ← analyzeLiteral types value expected
      match expected.or inferred with
      | some type =>
        if value.checkedType = type then
          let (entries, type) ← analyzeEntries types entries expected (some type)
          .ok ((key, value) :: entries, type)
        else if expected.isSome then
          .error (.die ("map value must be " ++ type.text ++ ", got " ++ value.checkedType.text))
        else
          .error (.die ("map literal values must all have type " ++ type.text ++ ", got " ++
            value.checkedType.text))
      | none =>
        let (entries, type) ← analyzeEntries types entries expected (some value.checkedType)
        .ok ((key, value) :: entries, type)
    else
      .error (.die ("dynamic map literal keys currently must be STR, got " ++ key.checkedType.text))

/-- The fields of a record of no expected type. -/
def analyzeFields (types : TypeTable) : List (String × Expr) → Except Stop (List (String × Expr))
  | [] => .ok []
  | (name, e) :: fields => do
    let e ← analyzeLiteral types e none
    let fields ← analyzeFields types fields
    .ok ((name, e) :: fields)

/-- The fields of a record of a fixed `MAP` type. -/
def analyzeStructFields (types : TypeTable) (type : Ty) :
    List (String × Expr) → Except Stop (List (String × Expr))
  | [] => .ok []
  | (name, e) :: fields =>
    match structField types type name with
    | some field => do
      let e ← analyzeLiteral types e (some field.declaredType)
      if typeAssignableToExpected types e.checkedType field.declaredType then
        let fields ← analyzeStructFields types type fields
        .ok ((name, e) :: fields)
      else
        .error (.die ("field '" ++ name ++ "' must be " ++ field.declaredType.text ++ ", got " ++
          e.checkedType.text))
    | none => .error (.die ("type " ++ type.text ++ " has no field '" ++ name ++ "'"))

end

/-! ### Emission -/

mutual

/-- The value of an analyzed literal.  An anonymous record is an open map of boxed values,
each boxed by its type. -/
def literalValue : Expr → Data
  | .int info value => if info.checkedType = .FLT then .flt (.ofInt value) else .int value
  | .flt _ value => .flt (.literal value)
  | .bol _ value => .bol value
  | .str _ text => .str text
  | .array _ elements => .arr (literalValues elements)
  | .mapLiteral _ entries => .map (mapEntries [] entries)
  | .recordLiteral _ fields => .objmap (recordEntries [] fields)
  | _ => .nil

/-- The values of the elements of an array. -/
def literalValues : List Expr → List Data
  | [] => []
  | e :: elements => literalValue e :: literalValues elements

/-- The entries of a map, set one after the other. -/
def mapEntries (m : List (String × Data)) : List (Expr × Expr) → List (String × Data)
  | [] => m
  | (.str _ key, e) :: entries => mapEntries (Assoc.set m key (literalValue e)) entries
  | _ :: entries => mapEntries m entries

/-- The entries of an open map, boxed and set one after the other. -/
def recordEntries (m : List (String × Data)) : List (String × Expr) → List (String × Data)
  | [] => m
  | (name, e) :: fields =>
    recordEntries (Assoc.set m name (objFrom e.checkedType (literalValue e))) fields

end

theorem recordEntries_eq (m : List (String × Data)) (fields : List (String × Expr)) :
  recordEntries m fields =
    Assoc.setAll m (fields.map fun field =>
      (field.1, objFrom field.2.checkedType (literalValue field.2)))
  := by
  induction fields generalizing m with
  | nil => rfl
  | cons field fields ih =>
    obtain ⟨name, e⟩ := field
    rw [recordEntries, ih]
    rfl

/-- A key of a record holds the boxed value that is given last. -/
theorem get_recordEntries (fields : List (String × Expr)) (name : String) :
  Assoc.get (recordEntries [] fields) name =
    (Assoc.last fields name).map fun e => objFrom e.checkedType (literalValue e)
  := by
  rw [recordEntries_eq, Assoc.get_setAll, Assoc.get, Option.or_none]
  exact Assoc.last_map (fun e : Expr => objFrom e.checkedType (literalValue e)) fields name

end Caster
