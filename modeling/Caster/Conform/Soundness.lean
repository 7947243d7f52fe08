import Caster.Conform.Decodable
import Caster.Conform.Parts
import Caster.Conform.Validate

/-!
# The conformance boundary

Which open locals are decoded into a fixed `MAP` with the values their literal gave: those
none of whose fields is an array or a map, for types whose decoders compile.  The check of
the analyzer admits more.
-/

namespace Caster

attribute [local simp] jsonObjAsType

variable {types : TypeTable} {default : Field → Data}

/-! ### Analyzed literals -/

mutual

/-- A literal with the types the analyzer records where none is expected. -/
def IsTyped : Expr → Prop
  | .int info _ => info.checkedType = .INT
  | .flt info _ => info.checkedType = .FLT
  | .bol info _ => info.checkedType = .BOL
  | .str info _ => info.checkedType = .STR
  | .nil info => info.checkedType = .NUL
  | .array info _ => isArrayType info.checkedType
  | .mapLiteral info _ => isMapType info.checkedType
  | .recordLiteral info fields => info.checkedType = .OPEN ∧ AreTyped fields
  | _ => False

/-- The values of a record's fields are typed. -/
def AreTyped : List (String × Expr) → Prop
  | [] => True
  | (_, e) :: fields => IsTyped e ∧ AreTyped fields

end

theorem isTyped_of_mem {fields : List (String × Expr)} (h : AreTyped fields) {name : String}
    {e : Expr} (hmem : (name, e) ∈ fields) :
  IsTyped e
  := by
  induction fields with
  | nil => cases hmem
  | cons field fields ih =>
    obtain ⟨name', e'⟩ := field
    rw [List.mem_cons] at hmem
    obtain heq | hmem := hmem
    · cases heq
      exact h.1
    · exact ih h.2 hmem

theorem isArrayType_of_analyzeArray {info : Info} {elements : List Expr} {e' : Expr}
    (h : analyzeLiteral types (.array info elements) none = .ok e') :
  IsTyped e'
  := by
  rw [analyzeLiteral, if_neg (by simp)] at h
  obtain ⟨⟨elements', type⟩, _, h⟩ := Stop.bind_ok h
  cases type with
  | none =>
    cases h
    exact rfl
  | some type =>
    cases h
    exact rfl

theorem isMapType_of_analyzeMap {info : Info} {entries : List (Expr × Expr)} {e' : Expr}
    (h : analyzeLiteral types (.mapLiteral info entries) none = .ok e') :
  IsTyped e'
  := by
  rw [analyzeLiteral] at h
  obtain ⟨⟨entries', value⟩, _, h⟩ := Stop.bind_ok h
  cases value with
  | none => cases h
  | some value =>
    cases h
    exact rfl

mutual

/-- The analysis of a literal with no expected type records the type of its kind. -/
theorem isTyped_of_analyzeLiteral : ∀ {e e' : Expr},
    analyzeLiteral types e none = .ok e' → IsTyped e'
  | .int info value, e', h => by
    cases h
    exact rfl
  | .flt info value, e', h => by
    cases h
    exact rfl
  | .bol info value, e', h => by
    cases h
    exact rfl
  | .str info text, e', h => by
    cases h
    exact rfl
  | .nil info, e', h => by
    cases h
    exact rfl
  | .array info elements, e', h => isArrayType_of_analyzeArray h
  | .mapLiteral info entries, e', h => isMapType_of_analyzeMap h
  | .recordLiteral info fields, e', h => by
    rw [analyzeLiteral] at h
    obtain ⟨fields', hfields, h⟩ := Stop.bind_ok h
    cases h
    exact ⟨rfl, areTyped_of_analyzeFields hfields⟩
  | .name .., e', h => by cases h
  | .shape .., e', h => by cases h
  | .dot .., e', h => by cases h
  | .dotIndex .., e', h => by cases h
  | .dotTarget .., e', h => by cases h
  | .unary .., e', h => by cases h
  | .binary .., e', h => by cases h
  | .call .., e', h => by cases h
  | .methodCall .., e', h => by cases h
  | .decode .., e', h => by cases h
  | .ifExpr .., e', h => by cases h

theorem areTyped_of_analyzeFields : ∀ {fields fields' : List (String × Expr)},
    analyzeFields types fields = .ok fields' → AreTyped fields'
  | [], fields', h => by
    cases h
    trivial
  | (name, e) :: fields, fields', h => by
    rw [analyzeFields] at h
    obtain ⟨a, ha, h⟩ := Stop.bind_ok h
    obtain ⟨rest, hrest, h⟩ := Stop.bind_ok h
    cases h
    exact ⟨isTyped_of_analyzeLiteral ha, areTyped_of_analyzeFields hrest⟩

end

/-! ### Given values -/

variable (types default) in
mutual

/-- A decoded value is the one a literal gave at a type: an integer stands for a `FLT`, `NIL`
for a null reference, and a record at a fixed `MAP` gives its fields. -/
def IsGiven : Expr → Ty → Data → Prop
  | .int _ n, type, v => v = if type = .FLT then .flt (.ofInt n) else .int n
  | .nil _, _, v => v = .null
  | .recordLiteral info fields, type, v =>
    match structOf types type with
    | some (declared, openRuntime) =>
      HasParts openRuntime (fun field part => FieldIsGiven fields field part) declared v
    | none => v = literalValue (.recordLiteral info fields)
  | e, _, v => v = literalValue e

/-- A field holds the value a record gives it last, or else its default. -/
def FieldIsGiven : List (String × Expr) → Field → Data → Prop
  | [], field, part => part = default field
  | (name, e) :: fields, field, part =>
    if name = field.name ∧ field.name ∉ Assoc.keys fields then IsGiven e field.declaredType part
    else FieldIsGiven fields field part

end

theorem fieldIsGiven_iff (fields : List (String × Expr)) (field : Field) (part : Data) :
  FieldIsGiven types default fields field part ↔
    match Assoc.last fields field.name with
    | none => part = default field
    | some e => IsGiven types default e field.declaredType part
  := by
  induction fields with
  | nil => rfl
  | cons entry fields ih =>
    obtain ⟨name, e⟩ := entry
    rw [FieldIsGiven, Assoc.last]
    by_cases hkeys : field.name ∈ Assoc.keys fields
    · rw [if_neg (fun h => h.2 hkeys), ih]
      cases hlast : Assoc.last fields field.name with
      | none => exact absurd hkeys ((Assoc.last_eq_none_iff _ _).mp hlast)
      | some e' => rfl
    · rw [(Assoc.last_eq_none_iff _ _).mpr hkeys, Option.none_or]
      by_cases hname : name = field.name
      · rw [if_pos ⟨hname, hkeys⟩, if_pos hname]
      · rw [if_neg (fun h => hname h.1), if_neg hname, ih,
          (Assoc.last_eq_none_iff _ _).mpr hkeys]

variable (types) in
mutual

/-- A literal's value can be decoded at a type: it is no array and no map, and a record
stands for a fixed `MAP` whose fields have distinct names. -/
def Fits : Expr → Ty → Prop
  | .recordLiteral _ fields, type =>
    match structOf types type with
    | some (declared, _) =>
      (declared.map Field.name).Nodup ∧ ∀ field ∈ declared, FieldFits fields field
    | none => type = .OPEN
  | .array _ _, _ => False
  | .mapLiteral _ _, _ => False
  | e, type => typeConformsToExpected e.checkedType type

/-- The value a record gives a field last can be decoded at the field's type. -/
def FieldFits : List (String × Expr) → Field → Prop
  | [], _ => True
  | (name, e) :: fields, field =>
    if name = field.name ∧ field.name ∉ Assoc.keys fields then Fits e field.declaredType
    else FieldFits fields field

end

theorem fieldFits_iff (fields : List (String × Expr)) (field : Field) :
  FieldFits types fields field ↔
    match Assoc.last fields field.name with
    | none => True
    | some e => Fits types e field.declaredType
  := by
  induction fields with
  | nil => simp [FieldFits, Assoc.last]
  | cons entry fields ih =>
    obtain ⟨name, e⟩ := entry
    rw [FieldFits, Assoc.last]
    by_cases hkeys : field.name ∈ Assoc.keys fields
    · rw [if_neg (fun h => h.2 hkeys), ih]
      cases hlast : Assoc.last fields field.name with
      | none => exact absurd hkeys ((Assoc.last_eq_none_iff _ _).mp hlast)
      | some e' => rfl
    · rw [(Assoc.last_eq_none_iff _ _).mpr hkeys, Option.none_or]
      by_cases hname : name = field.name
      · rw [if_pos ⟨hname, hkeys⟩, if_pos hname]
      · rw [if_neg (fun h => hname h.1), if_neg hname, ih,
          (Assoc.last_eq_none_iff _ _).mpr hkeys]

/-! ### Decoding a literal -/

variable (types default) in
/-- The boxed value of a literal is decoded into the value the literal gave. -/
def IsDecoded (e : Expr) (type : Ty) : Prop :=
  ∃ v, jsonObjAsType types default type (objFrom e.checkedType (literalValue e)) = .ok v ∧
    IsGiven types default e type v

/-- A type a boxed value is read at is a scalar, a reference, an open map, or has a decoder. -/
theorem readsFromObj_cases {type : Ty} (h : readsFromObj types type) :
  type = .INT ∨ type = .FLT ∨ type = .BOL ∨ type = .STR ∨ type = .OPEN ∨
    (∃ target, type = .REF target) ∨ (∃ elem, type = .ARR elem) ∨
    (∃ key value, type = .MAP key value) ∨
    ∃ name fields openRuntime, type = .named name ∧
      structOf types (.named name) = some (fields, openRuntime)
  := by
  cases type with
  | named name =>
    cases hstruct : structOf types (.named name) with
    | some fieldsOpen =>
      iterate 8 apply Or.inr
      exact ⟨name, fieldsOpen.1, fieldsOpen.2, rfl, hstruct⟩
    | none => simp [readsFromObj, hasObjAs, isObjScalarType, isArrayType, isMapType, isRefType,
        isStructType, hstruct] at h
  | _ => simp [readsFromObj, hasObjAs, isObjScalarType, isArrayType, isMapType, isRefType,
      isStructType, structOf] at h ⊢

variable (default) in
/-- No decoder reads the content of a box. -/
theorem jsonObjAsType_box {type : Ty} (h : readsFromObj types type) (v : Data) :
  ∃ message, jsonObjAsType types default type (.box v) = .error message
  := by
  obtain rfl | rfl | rfl | rfl | rfl | ⟨target, rfl⟩ | ⟨elem, rfl⟩ | ⟨key, value, rfl⟩ |
    ⟨name, fields, openRuntime, rfl, hstruct⟩ := readsFromObj_cases h
  case inr.inr.inr.inr.inr.inr.inr.inr => simp [jsonObjAsType, hstruct]
  all_goals simp [jsonObjAsType, objAs, structOf]

/-- Arrays are boxed with their C type. -/
theorem objFrom_array {info : Info} (h : isArrayType info.checkedType) (v : Data) :
  objFrom info.checkedType v = .box v
  := by
  cases htype : info.checkedType with
  | ARR elem => simp [objFrom, isObjScalarType]
  | _ =>
    rw [htype] at h
    cases h

/-- Maps are boxed with their C type. -/
theorem objFrom_map {info : Info} (h : isMapType info.checkedType) (v : Data) :
  objFrom info.checkedType v = .box v
  := by
  cases htype : info.checkedType with
  | MAP key value => simp [objFrom, isObjScalarType]
  | _ =>
    rw [htype] at h
    cases h

theorem not_isDecoded_box {e : Expr} {type : Ty} {v : Data} (h : readsFromObj types type)
    (hbox : objFrom e.checkedType (literalValue e) = .box v) :
  ¬ IsDecoded types default e type
  := by
  rintro ⟨w, hw, _⟩
  obtain ⟨message, hmessage⟩ := jsonObjAsType_box default h v
  rw [hbox, hmessage] at hw
  cases hw

/-- A scalar literal. -/
def IsScalar : Expr → Prop
  | .int _ _ | .flt _ _ | .bol _ _ | .str _ _ | .nil _ => True
  | _ => False

/-- No decoder of a fixed `MAP` reads a scalar, and no scalar conforms to the type. -/
theorem isDecoded_scalar_struct {e : Expr} {name : String} {fields : List Field} {openRuntime : Bool}
    (htyped : IsTyped e) (hscalar : IsScalar e)
    (hstruct : structOf types (.named name) = some (fields, openRuntime)) :
  IsDecoded types default e (.named name) ↔ Fits types e (.named name)
  := by
  cases e with
  | int info n | flt info x | bol info b | str info text | nil info =>
    simp only [IsTyped] at htyped
    simp [IsDecoded, Fits, jsonObjAsType, objFrom, Expr.checkedType, Expr.info, isObjScalarType,
      literalValue, typeConformsToExpected, isRefType, isFnType, htyped, hstruct]
  | _ => exact hscalar.elim

/-- A scalar is decoded exactly at the types its own conforms to. -/
theorem isDecoded_scalar {e : Expr} {type : Ty} (htyped : IsTyped e) (hscalar : IsScalar e)
    (hreads : readsFromObj types type) :
  IsDecoded types default e type ↔ Fits types e type
  := by
  obtain rfl | rfl | rfl | rfl | rfl | ⟨target, rfl⟩ | ⟨elem, rfl⟩ | ⟨key, value, rfl⟩ |
    ⟨name, fields, openRuntime, rfl, hstruct⟩ := readsFromObj_cases hreads
  case inr.inr.inr.inr.inr.inr.inr.inr => exact isDecoded_scalar_struct htyped hscalar hstruct
  all_goals
    cases e with
    | int info n | flt info x | bol info b | str info text | nil info =>
      simp only [IsTyped] at htyped
      simp [IsDecoded, Fits, IsGiven, jsonObjAsType, objFrom, Expr.checkedType, Expr.info,
        isObjScalarType, objAs, structOf, literalValue, typeConformsToExpected, isRefType, isFnType,
        htyped]
    | _ => exact hscalar.elim

/-- The decoder of a field reads the value that the record gives last. -/
theorem partIs_iff (fields : List (String × Expr)) (field : Field) :
  PartIs default (fun field => jsonFieldOf types default field.name field.declaredType
      (recordEntries [] fields)) (fun field part => FieldIsGiven types default fields field part)
      field ↔
    match Assoc.last fields field.name with
    | none => True
    | some e => IsDecoded types default e field.declaredType
  := by
  unfold PartIs
  simp only [jsonFieldOf_eq, get_recordEntries, fieldIsGiven_iff]
  cases Assoc.last fields field.name with
  | none => simp
  | some e =>
    simp only [Option.map_some, IsDecoded]
    cases jsonObjAsType types default field.declaredType (objFrom e.checkedType (literalValue e)) with
    | error message => simp [Except.map]
    | ok v => simp [Except.map]

/-- What a decodable fixed `MAP` says of its fields. -/
theorem Decodable.struct_inv {type : Ty} {fields : List Field} {openRuntime : Bool}
    (h : Decodable types type) (hstruct : structOf types type = some (fields, openRuntime)) :
  (∀ field ∈ fields, Decodable types field.declaredType ∧ readsFromObj types field.declaredType ∧
      (openRuntime → hasObjAs types field.declaredType)) ∧
    (openRuntime ∨ (fields.map Field.name).Nodup)
  := by
  cases h with
  | leaf hleaf =>
    rw [hleaf.1] at hstruct
    cases hstruct
  | struct hstruct' hcompiles hfields =>
    rw [hstruct] at hstruct'
    cases hstruct'
    simp only [DecoderCompiles, hstruct] at hcompiles
    refine ⟨fun field hfield => ?_, hcompiles.2⟩
    obtain ⟨_, hreads, hobj⟩ := hcompiles.1 field hfield
    exact ⟨hfields field hfield, hreads, hobj⟩
  | map => cases hstruct
  | arr => cases hstruct

/-- A record is decoded at a fixed `MAP` when its last value of each field is. -/
theorem isDecoded_record_struct {info : Info} {fields : List (String × Expr)} {type : Ty}
    {declared : List Field} {openRuntime : Bool} (htype : info.checkedType = .OPEN)
    (hdecodable : Decodable types type)
    (hstruct : structOf types type = some (declared, openRuntime))
    (hfields : ∀ name e type, (name, e) ∈ fields → Decodable types type →
      readsFromObj types type → (IsDecoded types default e type ↔ Fits types e type)) :
  IsDecoded types default (.recordLiteral info fields) type ↔
    Fits types (.recordLiteral info fields) type
  := by
  obtain ⟨hdeclared, hnodup⟩ := hdecodable.struct_inv hstruct
  have hobj : objFrom (Expr.recordLiteral info fields).checkedType
      (literalValue (.recordLiteral info fields)) = .objmap (recordEntries [] fields) := by
    simp [objFrom, Expr.checkedType, Expr.info, htype, literalValue, isObjScalarType]
  have hparts : ∀ field ∈ declared, PartIs default (fun field => jsonFieldOf types default field.name
      field.declaredType (recordEntries [] fields))
      (fun field part => FieldIsGiven types default fields field part) field ↔
      FieldFits types fields field := by
    intro field hfield
    rw [partIs_iff, fieldFits_iff]
    cases hlast : Assoc.last fields field.name with
    | none => rfl
    | some e =>
      obtain ⟨hfieldDecodable, hreads, _⟩ := hdeclared field hfield
      exact hfields _ e _ (Assoc.mem_of_last hlast) hfieldDecodable hreads
  unfold IsDecoded
  rw [hobj]
  cases openRuntime with
  | false =>
    simp only [jsonObjAsType, IsGiven, Fits, hstruct]
    rw [closedValue_hasParts_iff]
    constructor
    · intro h
      exact ⟨by simpa using hnodup, fun field hfield => (hparts field hfield).mp (h field hfield)⟩
    · intro h field hfield
      exact (hparts field hfield).mpr (h.2 field hfield)
  | true =>
    have htypes : ∀ field ∈ declared, field.declaredType ≠ .NUL := by
      intro field hfield hnul
      obtain ⟨_, _, hobjAs⟩ := hdeclared field hfield
      rw [hnul] at hobjAs
      exact absurd (hobjAs rfl) (by simp [hasObjAs, isObjScalarType, isArrayType, isMapType,
        isStructType, structOf])
    simp only [jsonObjAsType, IsGiven, Fits, hstruct]
    rw [openValue_hasParts_iff _ htypes]
    refine and_congr_right fun _ => forall₂_congr fun field hfield => ?_
    exact hparts field hfield

/-- What is decoded at a map type is a map. -/
theorem jsonObjAsType_map {key value : Ty} {entries : List (String × Data)} {v : Data}
    (h : jsonObjAsType types default (.MAP key value) (.objmap entries) = .ok v) :
  ∃ m, v = .map m
  := by
  simp only [jsonObjAsType, structOf] at h
  obtain ⟨m, _, heq⟩ := bind_ok.mp h
  cases heq
  exact ⟨m, rfl⟩

/-- At a type that is no fixed `MAP`, a record is decoded only as open data. -/
theorem isDecoded_record {info : Info} {fields : List (String × Expr)} {type : Ty}
    (htype : info.checkedType = .OPEN) (hdecodable : Decodable types type)
    (hreads : readsFromObj types type)
    (hfields : ∀ name e type, (name, e) ∈ fields → Decodable types type →
      readsFromObj types type → (IsDecoded types default e type ↔ Fits types e type)) :
  IsDecoded types default (.recordLiteral info fields) type ↔
    Fits types (.recordLiteral info fields) type
  := by
  obtain rfl | rfl | rfl | rfl | rfl | ⟨target, rfl⟩ | ⟨elem, rfl⟩ | ⟨key, value, rfl⟩ |
    ⟨name, declared, openRuntime, rfl, hstruct⟩ := readsFromObj_cases hreads
  case inr.inr.inr.inr.inr.inr.inr.inr =>
    exact isDecoded_record_struct htype hdecodable hstruct hfields
  case inr.inr.inr.inr.inr.inr.inr.inl =>
    refine iff_of_false ?_ (by simp [Fits, structOf])
    rintro ⟨v, hv, hgiven⟩
    simp only [objFrom, Expr.checkedType, Expr.info, htype, literalValue] at hv
    obtain ⟨m, rfl⟩ := jsonObjAsType_map hv
    simp [IsGiven, structOf, literalValue] at hgiven
  all_goals
    simp [IsDecoded, IsGiven, Fits, jsonObjAsType, objFrom, Expr.checkedType, Expr.info, htype,
      literalValue, isObjScalarType, structOf, objAs]

mutual

/-- A literal is decoded exactly when it fits. -/
theorem isDecoded_iff_fits : ∀ {e : Expr} {type : Ty}, IsTyped e → Decodable types type →
    readsFromObj types type → (IsDecoded types default e type ↔ Fits types e type)
  | .int .., _, h, _, hreads => isDecoded_scalar h trivial hreads
  | .flt .., _, h, _, hreads => isDecoded_scalar h trivial hreads
  | .bol .., _, h, _, hreads => isDecoded_scalar h trivial hreads
  | .str .., _, h, _, hreads => isDecoded_scalar h trivial hreads
  | .nil .., _, h, _, hreads => isDecoded_scalar h trivial hreads
  | .array info elements, _, h, _, hreads =>
    iff_of_false (not_isDecoded_box hreads (objFrom_array h _)) (by simp [Fits])
  | .mapLiteral info entries, _, h, _, hreads =>
    iff_of_false (not_isDecoded_box hreads (objFrom_map h _)) (by simp [Fits])
  | .recordLiteral info fields, _, h, hdecodable, hreads =>
    isDecoded_record h.1 hdecodable hreads (areDecoded_iff_fit h.2)
  | .name .., _, h, _, _ => h.elim
  | .shape .., _, h, _, _ => h.elim
  | .dot .., _, h, _, _ => h.elim
  | .dotIndex .., _, h, _, _ => h.elim
  | .dotTarget .., _, h, _, _ => h.elim
  | .unary .., _, h, _, _ => h.elim
  | .binary .., _, h, _, _ => h.elim
  | .call .., _, h, _, _ => h.elim
  | .methodCall .., _, h, _, _ => h.elim
  | .decode .., _, h, _, _ => h.elim
  | .ifExpr .., _, h, _, _ => h.elim

theorem areDecoded_iff_fit : ∀ {fields : List (String × Expr)}, AreTyped fields →
    ∀ name e type, (name, e) ∈ fields → Decodable types type →
      readsFromObj types type → (IsDecoded types default e type ↔ Fits types e type)
  | [], _, _, _, _, hmem, _, _ => absurd hmem List.not_mem_nil
  | (_, e') :: fields, h, name, e, type, hmem, hdecodable, hreads => by
    rw [List.mem_cons] at hmem
    obtain heq | hmem := hmem
    · cases heq
      exact isDecoded_iff_fits h.1 hdecodable hreads
    · exact areDecoded_iff_fit h.2 name e type hmem hdecodable hreads

end

/-! ### The boundary -/

mutual

/-- The `FLT` constants that are printed for a literal. -/
def fltConstants : Expr → List Magnitude
  | .flt _ value => [value]
  | .array _ elements => elementConstants elements
  | .mapLiteral _ entries => entryConstants entries
  | .recordLiteral _ fields => fieldConstants fields
  | _ => []

/-- The constants of the elements of an array. -/
def elementConstants : List Expr → List Magnitude
  | [] => []
  | e :: elements => fltConstants e ++ elementConstants elements

/-- The constants of the values of a map. -/
def entryConstants : List (Expr × Expr) → List Magnitude
  | [] => []
  | (_, e) :: entries => fltConstants e ++ entryConstants entries

/-- The constants of the fields of a record. -/
def fieldConstants : List (String × Expr) → List Magnitude
  | [] => []
  | (_, e) :: fields => fltConstants e ++ fieldConstants fields

end

variable (types default) in
/-- The conformance boundary is sound for an open local of a literal: the program compiles,
and the decoder ends with the values the literal gave and the defaults of the others. -/
structure BoundarySound (literal : Expr) (target : Ty) : Prop where
  constants : ∀ value ∈ fltConstants literal, (fltConstType value).isSome
  emits : EmitsDecoder types target
  decodes : ∃ v, jsonObjAsType types default target (literalValue literal) = .ok v ∧
    IsGiven types default literal target v

theorem isStructType_of_conform {scope : Scope} {info : Info} {name : String}
    {record : List (String × Expr)} {target : Ty} {node : Expr}
    (h : conformInferredOpenLocal types scope info name record target = .ok node) :
  isStructType types target
  := by
  obtain ⟨_, hvalid, _⟩ := Stop.bind_ok h
  unfold isStructType
  cases hstruct : structOf types target with
  | some fieldsOpen => rfl
  | none =>
    rw [validateOpenConformsToStruct, hstruct] at hvalid
    cases hvalid

theorem fltConstType_isSome_iff (value : Magnitude) :
  (fltConstType value).isSome ↔ value ≠ .infinite
  := by
  cases value <;> simp [fltConstType]

/-- For an analyzed record, the boundary is sound when its parts are. -/
theorem boundarySound_record_iff {info : Info} {record : List (String × Expr)} {target : Ty}
    (htyped : IsTyped (.recordLiteral info record)) (hstruct : isStructType types target) :
  BoundarySound types default (.recordLiteral info record) target ↔
    (∀ value ∈ fltConstants (.recordLiteral info record), value ≠ .infinite) ∧
      Decodable types target ∧ Fits types (.recordLiteral info record) target
  := by
  have hreads : readsFromObj types target := by simp [readsFromObj, hasObjAs, hstruct]
  have hobj : objFrom (Expr.recordLiteral info record).checkedType
      (literalValue (.recordLiteral info record)) = literalValue (.recordLiteral info record) := by
    simp [objFrom, Expr.checkedType, Expr.info, htyped.1]
  constructor
  · intro h
    have hdecodable := emitsDecoder_iff.mp h.emits
    refine ⟨fun value hvalue => (fltConstType_isSome_iff value).mp (h.constants value hvalue),
      hdecodable, ?_⟩
    apply (isDecoded_iff_fits htyped hdecodable hreads).mp
    rw [IsDecoded, hobj]
    exact h.decodes
  · rintro ⟨hfinite, hdecodable, hfits⟩
    have hdecoded : IsDecoded types default (.recordLiteral info record) target :=
      (isDecoded_iff_fits htyped hdecodable hreads).mpr hfits
    rw [IsDecoded, hobj] at hdecoded
    exact ⟨fun value hvalue => (fltConstType_isSome_iff value).mpr (hfinite value hvalue),
      emitsDecoder_iff.mpr hdecodable, hdecoded⟩

/-- The value of a default that is a literal. -/
def literalDefault (field : Field) : Data :=
  match field.value with
  | some (.expr e) => literalValue e
  | _ => .nil

/-- A string literal. -/
def strLiteral (text : String) : Expr := .str (Info.ofType .STR) text

/-- The types `Address` and `Person`, with a value for each of their fields. -/
def personTypes : TypeTable :=
  [⟨"Address", .struct [⟨"city", .STR, "STR", some (.expr (strLiteral ""))⟩] false⟩,
    ⟨"Person", .struct [⟨"name", .STR, "STR", some (.expr (strLiteral "nobody"))⟩,
      ⟨"home", .named "Address", "Address", some .INIT⟩,
      ⟨"height", .FLT, "FLT", some (.expr (.int (Info.ofType .FLT) 0))⟩] false⟩]

/-- The fields `home = {city = "Oslo"}` and `height = 2`. -/
def personRecord : List (String × Expr) :=
  [("home", .recordLiteral (Info.ofType .OPEN) [("city", strLiteral "Oslo")]),
    ("height", .int (Info.ofType .INT) 2)]

theorem decodable_person :
  Decodable personTypes (.named "Person")
  := by
  have hleaf : ∀ type, type = .STR ∨ type = .FLT → Decodable personTypes type := by
    rintro type (rfl | rfl) <;> exact .leaf ⟨rfl, rfl, rfl⟩
  have haddress : Decodable personTypes (.named "Address") := by
    refine .struct rfl ⟨?_, Or.inr ?_⟩ ?_
    · simp [strLiteral, readsFromObj, hasObjAs, isObjScalarType]
    · simp
    · simpa using hleaf .STR (Or.inl rfl)
  refine .struct rfl ⟨?_, Or.inr ?_⟩ ?_
  · simp [strLiteral, readsFromObj, hasObjAs, isObjScalarType, isStructType, structOf, typeFind,
      personTypes]
  · simp
  · simpa using ⟨hleaf .STR (Or.inl rfl), haddress, hleaf .FLT (Or.inr rfl)⟩

/-- The fields of the record, analyzed where no type is expected. -/
theorem analyzeLiteral_person :
  analyzeLiteral personTypes (.recordLiteral (Info.ofType .OPEN) personRecord) none =
    .ok (.recordLiteral (Info.ofType .OPEN) personRecord)
  := rfl

/-- The type `Bag` of one array. -/
def bagTypes : TypeTable :=
  [⟨"Bag", .struct
    [⟨"xs", .ARR .INT, "ARR[INT]", some (.expr (.array (Info.ofType (.ARR .INT)) []))⟩] false⟩]

/-- The field `xs = [1, 2]`. -/
def bagRecord : List (String × Expr) :=
  [("xs", .array (Info.ofType (.ARR .INT))
    [.int (Info.ofType .INT) 1, .int (Info.ofType .INT) 2])]

end Caster
