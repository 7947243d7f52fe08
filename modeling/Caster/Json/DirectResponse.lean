import Caster.Emit.Expr
import Caster.Json.Canonical
import Caster.Web.Text

/-!
# The response body that is emitted for a record literal

The text of `emit_direct_json_body_expr`, which writes a record literal without boxing it, and the
text `JSON.stringify` makes of the boxed literal.
-/

namespace Caster

variable {F : Type}

/-! ### Literals with the values of their scalars -/

/-- A byte of a name. -/
def isNameByte (b : UInt8) : Bool :=
  48 ≤ b ∧ b ≤ 57 ∨ 65 ≤ b ∧ b ≤ 90 ∨ b = 95 ∨ 97 ≤ b ∧ b ≤ 122

/-- The name of a field. -/
structure FieldName where
  text : Bytes
  isName : text.all isNameByte = true

/-- A value of the response body: an expression with the value it has, or a literal. -/
inductive BodyValue (F : Type) where
  | int (value : ℤ)
  | flt (value : F)
  | bol (value : Bool)
  | str (text : Bytes)
  | nul
  | record (fields : List (FieldName × BodyValue F))
  | array (elements : List (BodyValue F))

/-- The values of a scalar expression, one for each type it may have. -/
structure Scalars (F : Type) where
  int : ℤ
  flt : F
  bol : Bool
  str : Bytes

/-- The types of the values that are written directly. -/
def isDirectScalar (type : Ty) : Bool :=
  type = .INT || type = .FLT || type = .BOL || type = .STR || type = .NUL

mutual

/-- A value is written without boxing it. -/
def canEmitDirectJsonValue : Expr → Bool
  | .recordLiteral info fields => isDirectScalar info.checkedType || canEmitFields fields
  | .array info elements => isDirectScalar info.checkedType || canEmitElements elements
  | e => isDirectScalar e.checkedType

def canEmitFields : List (String × Expr) → Bool
  | [] => true
  | (_, value) :: fields => canEmitDirectJsonValue value && canEmitFields fields

def canEmitElements : List Expr → Bool
  | [] => true
  | e :: elements => canEmitDirectJsonValue e && canEmitElements elements

end

/-- The name of a field in the program text. -/
def fieldName (name : String) : Option FieldName :=
  if h : (strLit name).all isNameByte = true then some ⟨strLit name, h⟩ else none

/-- The value of a scalar expression. -/
def scalarValue (scalars : Scalars F) (type : Ty) : Option (BodyValue F) :=
  if type = .STR then some (.str scalars.str)
  else if type = .INT then some (.int scalars.int)
  else if type = .FLT then some (.flt scalars.flt)
  else if type = .BOL then some (.bol scalars.bol)
  else if type = .NUL then some .nul
  else none

mutual

/-- The value of an expression, given the values of its scalar parts by their places in it. -/
def bodyValue (eval : List ℕ → Scalars F) (place : List ℕ) : Expr → Option (BodyValue F)
  | .recordLiteral _ fields => do
    let fields ← bodyFields eval place 0 fields
    some (.record fields)
  | .array _ elements => do
    let elements ← bodyElements eval place 0 elements
    some (.array elements)
  | e => scalarValue (eval place) e.checkedType

def bodyFields (eval : List ℕ → Scalars F) (place : List ℕ) (i : ℕ) :
    List (String × Expr) → Option (List (FieldName × BodyValue F))
  | [] => some []
  | (name, value) :: fields => do
    let name ← fieldName name
    let value ← bodyValue eval (i :: place) value
    let fields ← bodyFields eval place (i + 1) fields
    some ((name, value) :: fields)

def bodyElements (eval : List ℕ → Scalars F) (place : List ℕ) (i : ℕ) :
    List Expr → Option (List (BodyValue F))
  | [] => some []
  | e :: elements => do
    let value ← bodyValue eval (i :: place) e
    let elements ← bodyElements eval place (i + 1) elements
    some (value :: elements)

end

/-! ### The text that is written directly -/

/-- The order of two strings in C, which end at their first zero byte. -/
def strcmp : Bytes → Bytes → ℤ
  | [], [] => 0
  | [], b :: _ => -b.toNat
  | a :: _, [] => a.toNat
  | a :: left, b :: right =>
    if a = b then if a = 0 then 0 else strcmp left right
    else (a.toNat : ℤ) - b.toNat

/-- The fields of a record sorted as `qsort` does with `cmp_record_field_name`. -/
def sortFields {α : Type} (fields : List (FieldName × α)) : List (FieldName × α) :=
  fields.insertionSort fun left right => strcmp left.1.text right.1.text ≤ 0

/-- A field: the prefix `json_field_prefix_literal` with the text of the value. -/
def fieldText (field : FieldName × Bytes) : Bytes := 34 :: field.1.text ++ 34 :: 58 :: field.2

section

variable (printG17 : F → Bytes)

mutual

/-- The text that the statements of `emit_direct_json_value_statements` append. -/
def directText : BodyValue F → Bytes
  | .int value => JsonReader.integerText value
  | .flt value => printG17 value
  | .bol value => if value then JsonReader.trueText else JsonReader.falseText
  | .str text => jsonStringifyString text
  | .nul => JsonReader.nullText
  | .record fields => 123 :: commaSeparated ((sortFields (directFields fields)).map fieldText) ++ [125]
  | .array elements => 91 :: commaSeparated (directElements elements) ++ [93]

def directFields : List (FieldName × BodyValue F) → List (FieldName × Bytes)
  | [] => []
  | (name, value) :: fields => (name, directText value) :: directFields fields

def directElements : List (BodyValue F) → List Bytes
  | [] => []
  | value :: elements => directText value :: directElements elements

end

end

/-! ### The boxed literal -/

section

variable (T : KeyedTable (Bytes × Dyn F) SameObjKey)

mutual

/-- The dynamic value of `emit_obj_value`.  Records are open maps of boxed values; an array is
boxed as a value of its own type. -/
def boxedValue : BodyValue F → Dyn F
  | .int value => .int value
  | .flt value => .flt value
  | .bol value => .bol value
  | .str text => .str text
  | .nul => .nil
  | .record fields => objFromObjmap (some (objmapMake T (boxedFields fields)) : ObjMap T)
  | .array _ => .box

def boxedFields : List (FieldName × BodyValue F) → List (Bytes × Dyn F)
  | [] => []
  | (name, value) :: fields => (name.text, boxedValue value) :: boxedFields fields

end

end

/-! ### Conditions -/

mutual

/-- There is no array in a value, and no record in it has two fields of one name. -/
def BodyValue.Plain : BodyValue F → Prop
  | .record fields => (fields.map fun field => field.1.text).Nodup ∧ PlainFields fields
  | .array _ => False
  | _ => True

def PlainFields : List (FieldName × BodyValue F) → Prop
  | [] => True
  | (_, value) :: fields => value.Plain ∧ PlainFields fields

end

mutual

/-- There is no array in a literal, and no record in it has two fields of one name. -/
def PlainLiteral : Expr → Prop
  | .recordLiteral _ fields =>
    (fields.map fun field => strLit field.1).Nodup ∧ PlainLiteralFields fields
  | .array _ _ => False
  | _ => True

def PlainLiteralFields : List (String × Expr) → Prop
  | [] => True
  | (_, value) :: fields => PlainLiteral value ∧ PlainLiteralFields fields

end

mutual

/-- The fields of a literal have names, and its records and arrays have no scalar type. -/
def NamedLiteral : Expr → Prop
  | .recordLiteral info fields => isDirectScalar info.checkedType = false ∧ NamedFields fields
  | .array info elements => isDirectScalar info.checkedType = false ∧ NamedElements elements
  | _ => True

def NamedFields : List (String × Expr) → Prop
  | [] => True
  | (name, value) :: fields =>
    (strLit name).all isNameByte = true ∧ NamedLiteral value ∧ NamedFields fields

def NamedElements : List Expr → Prop
  | [] => True
  | e :: elements => NamedLiteral e ∧ NamedElements elements

end

end Caster
