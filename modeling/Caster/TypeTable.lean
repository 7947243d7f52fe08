import Caster.Syntax

/-!
# The type table

The declared types of a program.  A fixed `MAP` is a list of fields, marked as open at
runtime once a computed key was used on it; the other declarations are aliases with the
value declared under their name, if there is one.
-/

namespace Caster

/-- The initial value a field declares. -/
inductive FieldDefault where
  /-- The field is initialised from the named value of its source type. -/
  | INIT
  | expr (value : Expr)

/-- A field of a fixed `MAP`.  The source type `text` is the spelling before resolution. -/
structure Field where
  name : String
  declaredType : Ty
  text : String
  value : Option FieldDefault

/-- The kinds of declarations of the table. -/
inductive TypeInfoKind where
  | alias (target : Ty) (value : Option Expr)
  | struct (fields : List Field) (openRuntime : Bool)

/-- A declaration of the table. -/
structure TypeInfo where
  name : String
  kind : TypeInfoKind

/-- The declarations of a program, in the order they were registered. -/
abbrev TypeTable := List TypeInfo

/-- The first declaration of a name. -/
def typeFind (types : TypeTable) (name : String) : Option TypeInfo :=
  types.find? fun info => info.name = name

/-- The fixed `MAP` a type names: its fields, and whether it is open at runtime. -/
def structOf (types : TypeTable) : Ty → Option (List Field × Bool)
  | .named name =>
    match typeFind types name with
    | some ⟨_, .struct fields openRuntime⟩ => some (fields, openRuntime)
    | _ => none
  | _ => none

/-- A type is a fixed `MAP`, open at runtime or not. -/
def isStructType (types : TypeTable) (type : Ty) : Bool :=
  (structOf types type).isSome

/-- A type is a fixed `MAP` that is open at runtime. -/
def isOpenStructType (types : TypeTable) (type : Ty) : Bool :=
  match structOf types type with
  | some (_, openRuntime) => openRuntime
  | none => false

/-- A declaration whose fixed `MAP` is open at runtime. -/
def TypeInfo.opened (info : TypeInfo) : TypeInfo :=
  { info with
    kind := match info.kind with
      | .struct fields _ => .struct fields true
      | kind => kind }

/-- A fixed `MAP` is marked as open at runtime. -/
def markStructOpen : TypeTable → String → TypeTable
  | [], _ => []
  | info :: types, name =>
    if info.name = name then info.opened :: types else info :: markStructOpen types name

/-- The declaration of a field of a fixed `MAP`. -/
def structField (types : TypeTable) (type : Ty) (name : String) : Option Field :=
  match structOf types type with
  | some (fields, _) => fields.find? fun field => field.name = name
  | none => none

/-! ### Marking as open -/

theorem typeFind_markStructOpen (types : TypeTable) (opened name : String) :
  typeFind (markStructOpen types opened) name =
    (typeFind types name).map fun info => if info.name = opened then info.opened else info
  := by
  induction types with
  | nil => rfl
  | cons info types ih =>
    unfold typeFind at ih ⊢
    rw [markStructOpen]
    by_cases hname : info.name = name
    · subst hname
      by_cases hopened : info.name = opened
      · simp [hopened, TypeInfo.opened]
      · simp [hopened]
    · by_cases hopened : info.name = opened
      · have hother : ¬ info.opened.name = name := hname
        rw [if_pos hopened]
        simp only [List.find?_cons, hname, hother, decide_false]
        cases hfind : List.find? (fun info => decide (info.name = name)) types with
        | none => rfl
        | some found =>
          have hfound : found.name = name := by simpa using List.find?_some hfind
          have hne : ¬ found.name = opened := by
            rw [hfound, ← hopened]
            exact fun h => hname h.symm
          simp [hne]
      · rw [if_neg hopened]
        simp only [List.find?_cons, hname, decide_false]
        exact ih

/-- Marking as open keeps the fields of every fixed `MAP` and closes none. -/
structure OpensTo (types final : TypeTable) : Prop where
  fields : ∀ type, (structOf final type).map Prod.fst = (structOf types type).map Prod.fst
  isOpen : ∀ type, isOpenStructType types type → isOpenStructType final type

theorem OpensTo.refl (types : TypeTable) :
  OpensTo types types
  := ⟨fun _ => rfl, fun _ h => h⟩

theorem OpensTo.trans {types types' types'' : TypeTable} (h : OpensTo types types')
    (h' : OpensTo types' types'') :
  OpensTo types types''
  := ⟨fun type => (h'.fields type).trans (h.fields type), fun type ho => h'.isOpen type (h.isOpen type ho)⟩

theorem opensTo_markStructOpen (types : TypeTable) (opened : String) :
  OpensTo types (markStructOpen types opened)
  := by
  constructor
  · intro type
    cases type with
    | named name =>
      simp only [structOf, typeFind_markStructOpen]
      cases typeFind types name with
      | none => rfl
      | some info =>
        obtain ⟨infoName, kind⟩ := info
        by_cases hopened : infoName = opened <;> cases kind <;> simp [hopened, TypeInfo.opened]
    | _ => rfl
  · intro type h
    cases type with
    | named name =>
      simp only [isOpenStructType, structOf, typeFind_markStructOpen] at h ⊢
      cases hfind : typeFind types name with
      | none => simp [hfind] at h
      | some info =>
        rw [hfind] at h
        obtain ⟨infoName, kind⟩ := info
        by_cases hopened : infoName = opened <;> cases kind <;> simp_all [TypeInfo.opened]
    | _ => exact h

/-- The table after marking some types as open. -/
theorem opensTo_foldl (types : TypeTable) (opened : List String) :
  OpensTo types (opened.foldl markStructOpen types)
  := by
  induction opened generalizing types with
  | nil => exact OpensTo.refl types
  | cons name opened ih => exact (opensTo_markStructOpen types name).trans (ih _)

theorem OpensTo.structField {types final : TypeTable} (h : OpensTo types final) (type : Ty)
    (name : String) :
  structField final type name = structField types type name
  := by
  have hfields := h.fields type
  unfold Caster.structField
  cases hf : structOf final type with
  | none =>
    cases ht : structOf types type with
    | none => rfl
    | some fieldsOpen => simp [hf, ht] at hfields
  | some fieldsOpen =>
    cases ht : structOf types type with
    | none => simp [hf, ht] at hfields
    | some fieldsOpen' =>
      obtain ⟨fields, openRuntime⟩ := fieldsOpen
      obtain ⟨fields', openRuntime'⟩ := fieldsOpen'
      simp only [hf, ht, Option.map_some, Option.some.injEq] at hfields
      subst hfields
      rfl

/-- A declared type has a value under its name: an alias with a value, or a fixed `MAP` all
of whose fields have one. -/
def typeHasCompleteNamedValue (info : TypeInfo) : Bool :=
  match info.kind with
  | .alias _ value => value.isSome
  | .struct fields _ => fields.all fun field => field.value.isSome

/-- A field can initialise itself. -/
def fieldHasDefault (types : TypeTable) (field : Field) : Bool :=
  field.value.isSome ||
    (match typeFind types field.text with
      | some info => typeHasCompleteNamedValue info
      | none => false) ||
    isArrayType field.declaredType || isMapType field.declaredType ||
    isRefType field.declaredType || isFnType field.declaredType

/-- The storage of the value declared under a name. -/
def namedValueStorageName (name : String) : String := "flx_named_" ++ name

end Caster
