import Caster.Analyze.Expressions
import Caster.Library.Assoc

/-!
# The two lowerings of fixed maps

A fixed `MAP` is a C struct, or an open map once it is marked as open at runtime.  The code that
`emit_expr` prints for its literals, its named value and its overlays, and what the code gives.
-/

namespace Caster

/-! ### Values -/

/-- What a C value holds, without the blocks it is stored in.  A dynamic value of a scalar type is
the scalar. -/
inductive Content where
  | int (value : ℤ)
  | flt (bits : BitVec 64)
  | bol (value : Bool)
  | str (text : String)
  /-- The dynamic value `NIL`, or a null pointer. -/
  | nul
  | arr (elems : List Content)
  | map (entries : List (String × Content))
  /-- A C struct. -/
  | struct (members : List (String × Content))
  /-- An open map with its dynamic values. -/
  | objmap (entries : List (String × Content))
  /-- A dynamic value that boxes another value. -/
  | box (contents : Content)
  /-- A reference, a function or a task. -/
  | handle (id : ℕ)

/-- A use of an expression: the expression, and the number of the use. -/
structure Operand where
  use : ℕ
  expr : Expr

/-- The fields that a record literal writes, in their order. -/
abbrev Entries := List (String × Operand)

/-! ### Code -/

/-- The C expression of the initial value of a field. -/
inductive DefaultCode where
  /-- The call of the function of a named value. -/
  | namedValue (name : String)
  | expr (field : String) (value : Expr)
  | emptyArr
  | emptyMap
  | null
  | missing

/-- The C expression of the value of a field. -/
inductive FieldCode where
  /-- A written value, copied at a type if there is one. -/
  | entry (operand : Operand) (copy : Option Ty)
  | default (code : DefaultCode)
  /-- A member of the left side of an overlay, which is evaluated once more, copied at a type. -/
  | leftMember (evaluation : ℕ) (name : String) (copy : Ty)

/-- The C expression of a record. -/
inductive RecordCode where
  /-- The value `(T){ .f = v, .. }` with the types of the members. -/
  | structInit (type : Ty) (members : List (String × Ty × FieldCode))
  /-- The call of `flx_objmap_make` with keys, and values boxed at a type. -/
  | objmapMake (entries : List (String × Ty × FieldCode))
  /-- The left side of an overlay. -/
  | left
  /-- The call of `flx_objmap_add` with a key, and a value boxed at a type. -/
  | objmapAdd (object : RecordCode) (key : String) (type : Ty) (value : FieldCode)

/-- The first entry of a name. -/
def recordEntry (record : Entries) (name : String) : Option Operand := Assoc.get record name

/-- A value that is stored in a field is copied: it is a name, a dot or a dereference, or a
constructor call of one. -/
def fieldValueShouldCopy (types : TypeTable) : Expr → Bool
  | .name _ _ | .dot _ _ _ | .dotIndex _ _ _ | .dotTarget _ _ _ | .unary _ .deref _ => true
  | .call info _ [arg] =>
    (info.declaredType.map (isStructType types)).getD false && fieldValueShouldCopy types arg
  | .methodCall info _ _ [arg] _ =>
    (info.declaredType.map (isStructType types)).getD false && fieldValueShouldCopy types arg
  | _ => false

/-- The initial value of a field. -/
def emitFieldDefault (types : TypeTable) (field : Field) : DefaultCode :=
  match field.value with
  | some .INIT => .namedValue field.text
  | some (.expr value) => .expr field.name value
  | none =>
    if ((typeFind types field.text).map typeHasCompleteNamedValue).getD false then
      .namedValue field.text
    else
      match field.declaredType with
      | .ARR _ => .emptyArr
      | .MAP _ _ => .emptyMap
      | .REF _ | .FN _ _ => .null
      | _ => .missing

/-- A value that is copied at a type if it should be. -/
def emitCopied (types : TypeTable) (operand : Operand) (type : Ty) : FieldCode :=
  .entry operand (if fieldValueShouldCopy types operand.expr then some type else none)

/-- The value of a field of a literal: what is written, or the initial value. -/
def emitRecordFieldValue (types : TypeTable) (field : Field) : Option Operand → FieldCode
  | some entry => emitCopied types entry field.declaredType
  | none => .default (emitFieldDefault types field)

/-- The value of a field of an open literal. -/
def emitDynamicFieldValue (types : TypeTable) (value : Operand) : FieldCode :=
  emitCopied types value value.expr.checkedType

/-- A literal whose type is not expected. -/
def emitOpenAnonymousRecordLiteral (types : TypeTable) (record : Entries) : RecordCode :=
  .objmapMake (record.map fun entry =>
    (entry.1, entry.2.expr.checkedType, emitDynamicFieldValue types entry.2))

/-- The fields of a fixed `MAP` with the values of a literal. -/
def literalFields (types : TypeTable) (fields : List Field) (record : Entries) :
    List (String × Ty × FieldCode) :=
  fields.map fun field =>
    (field.name, field.declaredType, emitRecordFieldValue types field (recordEntry record field.name))

/-- The fields of a type. -/
def fieldsOf (types : TypeTable) (type : Ty) : List Field :=
  ((structOf types type).map Prod.fst).getD []

/-- A literal of a fixed `MAP` that is open. -/
def emitOpenRecordLiteral (types : TypeTable) (record : Entries) (type : Ty) : RecordCode :=
  .objmapMake (literalFields types (fieldsOf types type) record)

/-- A record literal with the type that the analyzer recorded. -/
def emitRecordLiteral (types : TypeTable) (checkedType : Ty) (record : Entries) : RecordCode :=
  if checkedType = .OBJ ∨ checkedType = .OPEN then emitOpenAnonymousRecordLiteral types record
  else if isOpenStructType types checkedType then emitOpenRecordLiteral types record checkedType
  else .structInit checkedType (literalFields types (fieldsOf types checkedType) record)

/-- The literal of no entries, whose braces are read as those of a map. -/
def emitEmptyLiteral (types : TypeTable) (checkedType : Ty) : RecordCode :=
  .structInit checkedType ((fieldsOf types checkedType).map fun field =>
    (field.name, field.declaredType, .default (emitFieldDefault types field)))

/-- The named value of a fixed `MAP`. -/
def emitNamedValue (types : TypeTable) (type : Ty) : RecordCode :=
  let fields := (fieldsOf types type).map fun field =>
    (field.name, field.declaredType, FieldCode.default (emitFieldDefault types field))
  if isOpenStructType types type then .objmapMake fields else .structInit type fields

/-- The entries of an overlay of an open map are added one after the other. -/
def emitOpenOverlay (types : TypeTable) (type : Ty) (out : RecordCode) : Entries → RecordCode
  | [] => out
  | (name, entry) :: record =>
    match structField types type name with
    | some field =>
      emitOpenOverlay types type (.objmapAdd out name field.declaredType
        (emitRecordFieldValue types field (some entry))) record
    -- not reached: the analyzer has looked the field up
    | none => out

/-- The left side with the fields that a literal writes over it. -/
def emitRecordOverlay (types : TypeTable) (record : Entries) (type : Ty) : RecordCode :=
  if isOpenStructType types type then emitOpenOverlay types type .left record
  else
    .structInit type ((fieldsOf types type).mapIdx fun i field =>
      (field.name, field.declaredType,
        match recordEntry record field.name with
        | some entry => emitRecordFieldValue types field (some entry)
        | none => .leftMember i field.name field.declaredType))

/-! ### Running the code -/

/-- The values of the program's expressions. -/
structure Env where
  value : Operand → Content
  namedValue : String → Content
  /-- The value of the expression that a field declares. -/
  default : String → Content
  /-- The left side of an overlay each time it is evaluated. -/
  left : ℕ → Content

section

-- the conversion of an integer to `double`
variable (ofInt : ℤ → BitVec 64)

/-- The value of a C object of a type that is initialised with a value. -/
def convert (type : Ty) (c : Content) : Content :=
  match type, c with
  | .FLT, .int i => .flt (ofInt i)
  | _, c => c

/-- The dynamic value of a value, by the function that `emit_obj_value` names.  There is none for a
reference, a function or a task. -/
def objFromFn (types : TypeTable) (type : Ty) (c : Content) : Option Content :=
  match type with
  | .INT | .FLT | .BOL | .STR | .OBJ => some (convert ofInt type c)
  | .NUL => some .nul
  | .OPEN => some c
  | .ARR _ | .MAP _ _ => some (.box c)
  | type => if isStructType types type then some (.box c) else none

/-- The value of a dynamic value, by the function that `obj_as_fn` names. -/
def objAsFn (types : TypeTable) (type : Ty) (c : Content) : Option Content :=
  match type, c with
  | .INT, .int i => some (.int i)
  | .FLT, .flt x => some (.flt x)
  | .FLT, .int i => some (.flt (ofInt i))
  | .BOL, .bol b => some (.bol b)
  | .BOL, .int i => some (.bol (i ≠ 0))
  | .STR, .str s => some (.str s)
  | .OPEN, .objmap entries => some (.objmap entries)
  | .ARR _, .box c => some c
  | .MAP _ _, .box c => some c
  | .named name, .box c => if isStructType types (.named name) then some c else none
  | _, _ => none

/-- The value of a field, by the code that is printed for a dot. -/
def readField (types : TypeTable) (type : Ty) (c : Content) (name : String) : Option Content :=
  match structField types type name, c with
  | some field, .objmap entries =>
    if isOpenStructType types type then
      (Assoc.get entries name).bind (objAsFn ofInt types field.declaredType)
    else none
  | some _, .struct members => if isOpenStructType types type then none else Assoc.get members name
  | _, _ => none

/-- The initial value of a field. -/
def DefaultCode.run (env : Env) : DefaultCode → Option Content
  | .namedValue name => some (env.namedValue name)
  | .expr field _ => some (env.default field)
  | .emptyArr => some (.arr [])
  | .emptyMap => some (.map [])
  | .null => some .nul
  | .missing => none

/-- The value of a field in a record of a type.  A copy has the value of what is copied. -/
def FieldCode.run (types : TypeTable) (env : Env) (type : Ty) : FieldCode → Option Content
  | .entry operand _ => some (env.value operand)
  | .default code => code.run env
  | .leftMember evaluation name _ => readField ofInt types type (env.left evaluation) name

/-- The members of a struct. -/
def runMembers (types : TypeTable) (env : Env) (type : Ty) (members : List (String × Ty × FieldCode)) :
    Option (List (String × Content)) :=
  Assoc.mapValues (fun member => (member.2.run ofInt types env type).map (convert ofInt member.1)) members

/-- The entries of an open map. -/
def runEntries (types : TypeTable) (env : Env) (type : Ty) (entries : List (String × Ty × FieldCode)) :
    Option (List (String × Content)) :=
  Assoc.mapValues (fun entry => (entry.2.run ofInt types env type).bind (objFromFn ofInt types entry.1)) entries

/-- The value of a record of a type, if the C compiler accepts the code: a struct has no two members
of one name, and the type of an open map is that of all open maps, which has no member that a field
may initialise. -/
def RecordCode.run (types : TypeTable) (env : Env) (type : Ty) : RecordCode → Option Content
  | .structInit name members =>
    match structOf types name with
    | some (_, false) =>
      if (Assoc.keys members).Nodup then (runMembers ofInt types env type members).map .struct
      else none
    | some (_, true) => if members.isEmpty then some (.objmap []) else none
    | none => none
  | .objmapMake entries =>
    (runEntries ofInt types env type entries).map fun entries => .objmap (Assoc.setAll [] entries)
  | .left => some (env.left 0)
  | .objmapAdd object key valueType value =>
    match object.run types env type with
    | some (.objmap entries) =>
      ((value.run ofInt types env type).bind (objFromFn ofInt types valueType)).map fun value =>
        .objmap (Assoc.set entries key value)
    | _ => none

end

end Caster
