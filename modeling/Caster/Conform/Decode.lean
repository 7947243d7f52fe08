import Caster.CType
import Caster.Conform.Literal

/-!
# Decoders

The decoder that is emitted for a fixed `MAP` reads an open map field by field into the
type's named value.  The named values' parts, which the emitter prints for the defaults of
fields, are a parameter.
-/

namespace Caster

/-! ### Emission -/

/-- A type is collected once. -/
def pushType (helpers : List Ty) (type : Ty) : List Ty :=
  if type ∈ helpers then helpers else helpers ++ [type]

/-- `add_json_decode_type`: the types decoders are printed for.  The recursion follows a type
again where it was collected before; it does not end on a type that contains itself. -/
def addJsonDecodeType (types : TypeTable) : ℕ → List Ty → Ty → Option (List Ty)
  | 0, _, _ => none
  | fuel + 1, helpers, type =>
    match structOf types type, type with
    | some (fields, _), type =>
      fields.foldlM (fun helpers field => addJsonDecodeType types fuel helpers field.declaredType)
        (pushType helpers type)
    | none, .MAP key value => addJsonDecodeType types fuel (pushType helpers (.MAP key value)) value
    | none, .ARR elem => addJsonDecodeType types fuel (pushType helpers (.ARR elem)) elem
    | none, _ => some helpers

/-- The conversions `emit_json_obj_as_type` prints for a type are declared, given the
decoders. -/
def readsFromObj (types : TypeTable) (type : Ty) : Bool := hasObjAs types type || isRefType type

/-- The decoder of a type calls declared functions only and assigns to members of its type.
The function of a fixed `MAP`'s named value is printed when all of its fields declare a
value, and a closed one's `struct` has no two members of one name. -/
def DecoderCompiles (types : TypeTable) (type : Ty) : Prop :=
  match structOf types type, type with
  | some (fields, openRuntime), _ =>
    (∀ field ∈ fields, field.value.isSome ∧ readsFromObj types field.declaredType ∧
      (openRuntime → hasObjAs types field.declaredType)) ∧
    (openRuntime ∨ (fields.map Field.name).Nodup)
  | none, .MAP key value => key = .STR ∧ readsFromObj types value
  | none, .ARR elem => readsFromObj types elem
  | none, _ => True

/-- The decoders for a type are emitted, and they compile. -/
def EmitsDecoder (types : TypeTable) (type : Ty) : Prop :=
  ∃ fuel helpers, addJsonDecodeType types fuel [] type = some helpers ∧
    ∀ helper ∈ helpers, DecoderCompiles types helper

/-! ### Decoding -/

/-- The unboxing functions: a value, or the message the program stops with. -/
def objAs : Ty → Data → Except String Data
  | .INT, .int n => .ok (.int n)
  | .INT, _ => .error "object value is not INT"
  | .FLT, .flt x => .ok (.flt x)
  | .FLT, .int n => .ok (.flt (.ofInt n))
  | .FLT, _ => .error "object value is not FLT"
  | .BOL, .bol b => .ok (.bol b)
  | .BOL, .int n => .ok (.bol (n ≠ 0))
  | .BOL, _ => .error "object value is not BOL"
  | .STR, .str text => .ok (.str text)
  | .STR, _ => .error "object value is not STR"
  | .OPEN, .objmap entries => .ok (.objmap entries)
  | .OPEN, _ => .error "object value is not MAP"
  | _, .box v => .ok v
  | _, _ => .error "object value is not boxed"

/-- The named value of a closed fixed `MAP` with the parts that were decoded. -/
def closedValue (default : Field → Data) (decode : Field → Except String (Option Data))
    (fields : List Field) : Except String Data := do
  let parts ← fields.mapM fun field => do
    let part ← decode field
    pure (part.getD (default field))
  .ok (.struct parts)

/-- The named value of a fixed `MAP` that is open at runtime: the boxed defaults. -/
def openNamedValue (default : Field → Data) (fields : List Field) : List (String × Data) :=
  Assoc.setAll [] (fields.map fun field => (field.name, objFrom field.declaredType (default field)))

/-- A decoded part replaces the default in an open fixed `MAP`. -/
def openStep (decode : Field → Except String (Option Data)) (out : List (String × Data))
    (field : Field) : Except String (List (String × Data)) := do
  match ← decode field with
  | some part => pure (Assoc.set out field.name (objFrom field.declaredType part))
  | none => pure out

/-- The named value of an open fixed `MAP` with the parts that were decoded. -/
def openValue (default : Field → Data) (decode : Field → Except String (Option Data))
    (fields : List Field) : Except String Data := do
  let out ← fields.foldlM (openStep decode) (openNamedValue default fields)
  .ok (.objmap out)

variable (types : TypeTable) (default : Field → Data)

mutual

/-- `emit_json_obj_as_type`: a boxed value is read as a value of a type. -/
def jsonObjAsType : Ty → Data → Except String Data
  | type, .objmap entries =>
    match structOf types type, type with
    | some (fields, true), _ =>
      openValue default (fun field => jsonFieldOf field.name field.declaredType entries) fields
    | some (fields, false), _ =>
      closedValue default (fun field => jsonFieldOf field.name field.declaredType entries) fields
    | none, .MAP _ value => do
      let entries ← jsonEntries value [] entries
      .ok (.map entries)
    | none, .ARR _ => .error "object value is not ARR"
    | none, .REF _ => .error "JSON null can only decode into REF values"
    | none, type => objAs type (.objmap entries)
  | type, .objarr elems =>
    match structOf types type, type with
    | some _, _ => .error "object value is not MAP"
    | none, .MAP _ _ => .error "object value is not MAP"
    | none, .ARR elem => do
      let elems ← jsonElements elem elems
      .ok (.arr elems)
    | none, .REF _ => .error "JSON null can only decode into REF values"
    | none, type => objAs type (.objarr elems)
  | type, v =>
    match structOf types type, type with
    | some _, _ => .error "object value is not MAP"
    | none, .MAP _ _ => .error "object value is not MAP"
    | none, .ARR _ => .error "object value is not ARR"
    | none, .REF _ =>
      match v with
      | .nil => .ok .null
      | _ => .error "JSON null can only decode into REF values"
    | none, type => objAs type v

/-- The value of a key is read as a value of a type, when the map has the key. -/
def jsonFieldOf (key : String) (type : Ty) : List (String × Data) → Except String (Option Data)
  | [] => .ok none
  | (name, v) :: entries =>
    if name = key then do
      let part ← jsonObjAsType type v
      .ok (some part)
    else jsonFieldOf key type entries

/-- The entries of a map are read one after the other. -/
def jsonEntries (value : Ty) (m : List (String × Data)) :
    List (String × Data) → Except String (List (String × Data))
  | [] => .ok m
  | (key, v) :: entries => do
    let v ← jsonObjAsType value v
    jsonEntries value (Assoc.set m key v) entries

/-- The elements of an array are read one after the other. -/
def jsonElements (elem : Ty) : List Data → Except String (List Data)
  | [] => .ok []
  | v :: elems => do
    let v ← jsonObjAsType elem v
    let elems ← jsonElements elem elems
    .ok (v :: elems)

end

variable {types : TypeTable} {default : Field → Data}

theorem jsonFieldOf_eq (key : String) (type : Ty) (entries : List (String × Data)) :
  jsonFieldOf types default key type entries =
    match Assoc.get entries key with
    | none => .ok none
    | some v => (jsonObjAsType types default type v).map some
  := by
  induction entries with
  | nil => rw [jsonFieldOf, Assoc.get]
  | cons entry entries ih =>
    obtain ⟨name, v⟩ := entry
    rw [jsonFieldOf, Assoc.get]
    by_cases h : name = key
    · simp only [h, if_true]
      cases jsonObjAsType types default type v <;> rfl
    · simp only [h, if_false]
      exact ih

end Caster
