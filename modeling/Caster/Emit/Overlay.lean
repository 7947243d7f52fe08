import Caster.Conform.Literal
import Caster.Emit.RecordLowerings

/-!
# Overlays of records

The method `upd` of a fixed `MAP` writes the fields of a record literal over those of a value.  The
analyzer takes the literal for a complete one, and the emitter prints a C struct with the other
members copied, or clones of an open map with one entry set after the other.
-/

namespace Caster

/-! ### Analysis -/

section

-- `analyze_expr_expected` on the values of a literal
variable (types : TypeTable) (analyze : Expr → Option Ty → Except Stop Expr)

/-- The fields of a record literal of a fixed `MAP` type. -/
def analyzeRecordFields (type : Ty) : List (String × Expr) → Except Stop (List (String × Expr))
  | [] => .ok []
  | (name, e) :: record =>
    match structField types type name with
    | some field => do
      let e ← analyze e (some field.declaredType)
      if typeAssignableToExpected types e.checkedType field.declaredType then
        let record ← analyzeRecordFields type record
        .ok ((name, e) :: record)
      else
        .error (.die ("field '" ++ name ++ "' must be " ++ field.declaredType.text ++ ", got " ++
          e.checkedType.text))
    | none => .error (.die ("type " ++ type.text ++ " has no field '" ++ name ++ "'"))

/-- A record literal where a fixed `MAP` is expected. -/
def analyzeRecordLiteral (info : Info) (record : List (String × Expr)) (expected : Ty) :
    Except Stop Expr :=
  if isStructType types expected then do
    let record ← analyzeRecordFields types analyze expected record
    match missingField types expected (Assoc.keys record) with
    | some field => .error (missingFieldStop field expected)
    | none => .ok (.recordLiteral { info with checkedType := expected } record)
  else .error (.die "fixed-map literal needs an expected fixed MAP type")

/-- The right side of a join with a fixed `MAP`, the type of the result and the types after it: a
map literal opens the fixed `MAP`.  Other expressions, and entries of map literals, are left out. -/
def analyzeJoinRight (leftType : Ty) : Expr → Except Stop (Expr × Ty × TypeTable)
  | .mapLiteral info [] =>
    .ok (.mapLiteral { info with checkedType := leftType } [], leftType,
      markStructOpen types leftType.text)
  | .recordLiteral info record => do
    let right ← analyzeRecordLiteral types analyze info record leftType
    if right.checkedType = leftType then .ok (right, leftType, types)
    else
      .error (.die ("join needs " ++ leftType.text ++ ", got " ++ right.checkedType.text))
  | _ => .error .beyond

end

/-- Braces around fields are read as a record literal, or as a map literal if there are none. -/
def parseBraceLiteral (info : Info) (record : List (String × Expr)) : Expr :=
  if record.isEmpty then .mapLiteral info [] else .recordLiteral info record

/-! ### Memory -/

/-- The tables of the open maps at their addresses. -/
abbrev Tables := List (List (String × Content))

/-- A value of a fixed `MAP`: the members of a struct, or the address of a table. -/
inductive RecordValue where
  | struct (members : List (String × Content))
  | objmap (address : ℕ)

/-- What a value holds. -/
def RecordValue.content (tables : Tables) : RecordValue → Option Content
  | .struct members => some (.struct members)
  | .objmap address => tables[address]?.map Content.objmap

/-- A value holds what it is made of, in a new table if it is that of an open map. -/
def storeContent (tables : Tables) : Content → Option (Tables × RecordValue)
  | .struct members => some (tables, .struct members)
  | .objmap entries => some (tables ++ [entries], .objmap tables.length)
  | _ => none

/-- A new table with the entries of another one. -/
def flxObjmapClone (tables : Tables) (address : ℕ) : Option (Tables × ℕ) :=
  tables[address]?.map fun entries => (tables ++ [Assoc.setAll [] entries], tables.length)

/-- An entry of a table is set. -/
def hashmapSet (tables : Tables) (address : ℕ) (key : String) (value : Content) : Tables :=
  tables.set address (Assoc.set (tables[address]?.getD []) key value)

/-- A clone of a table with an entry set in it. -/
def flxObjmapAdd (tables : Tables) (address : ℕ) (key : String) (value : Content) :
    Option (Tables × ℕ) :=
  (flxObjmapClone tables address).map fun (tables, dst) => (hashmapSet tables dst key value, dst)

/-- A clone of a table with the entries of another one set in it. -/
def flxObjmapJoin (tables : Tables) (left right : ℕ) : Option (Tables × ℕ) :=
  match flxObjmapClone tables left with
  | some (tables, dst) =>
    some (tables.set dst (Assoc.setAll (tables[dst]?.getD []) (tables[right]?.getD [])), dst)
  | none => none

/-! ### Emission -/

/-- The C expression of a join. -/
inductive JoinCode where
  | record (code : RecordCode)
  /-- The call of `flx_objmap_join` of the left side with a record. -/
  | objmapJoin (right : RecordCode)

/-- The uses of the values of an analyzed literal. -/
def entriesOf (record : List (String × Expr)) : Entries :=
  record.mapIdx fun i entry => (entry.1, ⟨i, entry.2⟩)

/-- The fields that an analyzed literal writes. -/
def entriesOfExpr : Expr → Entries
  | .recordLiteral _ record => entriesOf record
  | _ => []

/-- The join of a fixed `MAP` with a literal. -/
def emitJoinExpr (types : TypeTable) (right : Expr) (type : Ty) : Option JoinCode :=
  if isStructType types type then
    match right with
    | .mapLiteral info [] =>
      if isOpenStructType types type then
        some (.objmapJoin (emitEmptyLiteral types info.checkedType))
      else some (.record (emitEmptyLiteral types info.checkedType))
    | .recordLiteral _ record => some (.record (emitRecordOverlay types (entriesOf record) type))
    | _ => none
  else none

/-! ### Execution -/

/-- The C compiler takes a value of a type that the analyzer accepts for an object of another: an
open map is no struct. -/
def initFits (types : TypeTable) (actual type : Ty) : Bool :=
  !(actual = .OPEN && isStructType types type && !isOpenStructType types type)

/-- The C compiler takes the value of a field of a type. -/
def FieldCode.compiles (types : TypeTable) (type : Ty) : FieldCode → Bool
  | .entry operand _ => initFits types operand.expr.checkedType type
  | _ => true

/-- The C compiler takes the values in a record. -/
def RecordCode.compiles (types : TypeTable) : RecordCode → Bool
  | .structInit _ members => members.all fun member => member.2.2.compiles types member.2.1
  | .objmapMake entries => entries.all fun entry => entry.2.2.compiles types entry.2.1
  | .left => true
  | .objmapAdd object _ type value => object.compiles types && value.compiles types type

/-- The C compiler takes the values in a join. -/
def JoinCode.compiles (types : TypeTable) : JoinCode → Bool
  | .record code => code.compiles types
  | .objmapJoin right => right.compiles types

section

variable (ofInt : ℤ → BitVec 64) (types : TypeTable) (env : Env) (type : Ty) (left : RecordValue)

/-- The code of a record is run in a memory, with a value on the left side of an overlay. -/
def RecordCode.exec (tables : Tables) : RecordCode → Option (Tables × RecordValue)
  | .left => some (tables, left)
  | .objmapAdd object key valueType value =>
    match object.exec tables with
    | some (tables, .objmap address) =>
      match (value.run ofInt types env type).bind (objFromFn ofInt types valueType) with
      | some value =>
        (flxObjmapAdd tables address key value).map fun (tables, dst) => (tables, .objmap dst)
      | none => none
    | _ => none
  | code => (code.run ofInt types env type).bind (storeContent tables)

/-- The code of a join is run in a memory. -/
def JoinCode.exec (tables : Tables) : JoinCode → Option (Tables × RecordValue)
  | .record code => code.exec ofInt types env type left tables
  | .objmapJoin right =>
    match right.exec ofInt types env type left tables, left with
    | some (tables, .objmap right), .objmap left =>
      (flxObjmapJoin tables left right).map fun (tables, dst) => (tables, .objmap dst)
    | _, _ => none

/-- The value of a join, if the C compiler takes its code. -/
def evalJoin (right : Expr) (tables : Tables) : Option (Tables × RecordValue) :=
  match emitJoinExpr types right type with
  | some code => if code.compiles types then code.exec ofInt types env type left tables else none
  | none => none

end

/-! ### What an overlay is for -/

section

variable (ofInt : ℤ → BitVec 64) (types final : TypeTable)
  (analyze : Expr → Option Ty → Except Stop Expr) (env : Env) (type : Ty)

/-- A record literal of distinct fields of a type with values that are assignable to them. -/
structure IsOverlay (record : List (String × Expr)) : Prop where
  nodup : (Assoc.keys record).Nodup
  assignable : ∀ entry ∈ record, ∃ field e, structField types type entry.1 = some field ∧
    analyze entry.2 (some field.declaredType) = .ok e ∧
    typeAssignableToExpected types e.checkedType field.declaredType

/-- A value of a fixed `MAP` in a memory and what it holds: each field has a value of its type. -/
structure IsValueOf (tables : Tables) (left : RecordValue) (c : Content) : Prop where
  content : left.content tables = some c
  fields : ∀ {name field}, structField final type name = some field → ∃ w,
    readField ofInt final type c name = some w ∧ convert ofInt field.declaredType w = w
  /-- A C struct has no two members of one name. -/
  members : ∀ {fields}, structOf final type = some (fields, false) → (fields.map Field.name).Nodup
  /-- An open map is a table. -/
  objmap : isOpenStructType final type → ∃ address, left = .objmap address
  /-- A table has no two entries of one key. -/
  keys : ∀ {entries}, c = .objmap entries → (Assoc.keys entries).Nodup

/-- The expressions of a program have values of their types, and the left side has a value. -/
structure Evaluates (c : Content) : Prop where
  value : ∀ operand, FitsType operand.expr.checkedType (env.value operand)
  left : ∀ i, env.left i = c

/-- The types after the analysis of an overlay. -/
def openedBy (record : List (String × Expr)) : TypeTable :=
  if record.isEmpty then markStructOpen types type.text else types

/-- An overlay is accepted, and has the fields of the literal over those of the left side, which
holds what it has held. -/
def Overlays (info : Info) (record : List (String × Expr)) (tables : Tables) (left : RecordValue) :
    Prop :=
  ∃ right types' tables' out c c',
    analyzeJoinRight types analyze type (parseBraceLiteral info record) =
      .ok (right, type, types') ∧
    OpensTo types' final ∧
    evalJoin ofInt final env type left right tables = some (tables', out) ∧
    left.content tables = some c ∧ left.content tables' = some c ∧ out.content tables' = some c' ∧
    Assoc.keys (entriesOfExpr right) = Assoc.keys record ∧
    ∀ name field, structField final type name = some field →
      readField ofInt final type c' name =
        match recordEntry (entriesOfExpr right) name with
        | some operand => some (convert ofInt field.declaredType (env.value operand))
        | none => readField ofInt final type c name

/-- The fields that a literal leaves out have defaults, it gives no open map to a field that is a C
struct, and it has fields if there are any. -/
structure CanOverlay (fields : List Field) (record : List (String × Expr)) : Prop where
  complete : ∀ field ∈ fields, field.name ∉ Assoc.keys record → fieldHasDefault types field
  structs : ∀ entry ∈ record, ∀ {field e}, structField types type entry.1 = some field →
    analyze entry.2 (some field.declaredType) = .ok e →
    initFits final e.checkedType field.declaredType
  empty : record = [] → fields = []

end

/-! ### Analysis of an overlay -/

section

variable {types final : TypeTable} {analyze : Expr → Option Ty → Except Stop Expr} {type : Ty}

theorem OpensTo.structOf {fields : List Field} {isOpen : Bool} (hopens : OpensTo types final)
    (hstruct : structOf types type = some (fields, isOpen)) :
  ∃ isOpen', Caster.structOf final type = some (fields, isOpen')
  := by
  have hfields := hopens.fields type
  rw [hstruct, Option.map_some] at hfields
  obtain ⟨⟨fields', isOpen'⟩, hfound, rfl⟩ := Option.map_eq_some_iff.mp hfields
  exact ⟨isOpen', hfound⟩

theorem isOpenStructType_markStructOpen {fields : List Field} {isOpen : Bool}
    (hstruct : structOf types type = some (fields, isOpen)) :
  isOpenStructType (markStructOpen types type.text) type = true
  := by
  cases type with
  | named name =>
    cases hfind : typeFind types name with
    | none => simp [Caster.structOf, hfind] at hstruct
    | some info =>
      obtain ⟨infoName, kind⟩ := info
      obtain rfl : infoName = name := by simpa using List.find?_some hfind
      cases kind with
      | struct fields' isOpen' =>
        simp [isOpenStructType, Caster.structOf, typeFind_markStructOpen, hfind, Ty.text,
          TypeInfo.opened]
      | _ => simp [Caster.structOf, hfind] at hstruct
  | _ => cases hstruct

/-- An entry of a literal is analyzed at the type of its field. -/
structure AnalyzedAs (types : TypeTable) (analyze : Expr → Option Ty → Except Stop Expr) (type : Ty)
    (entry entry' : String × Expr) : Prop where
  name : entry'.1 = entry.1
  value : ∃ field, structField types type entry.1 = some field ∧
    analyze entry.2 (some field.declaredType) = .ok entry'.2 ∧
    typeAssignableToExpected types entry'.2.checkedType field.declaredType

theorem analyzeRecordFields_ok {record : List (String × Expr)}
    (h : ∀ entry ∈ record, ∃ field e, structField types type entry.1 = some field ∧
      analyze entry.2 (some field.declaredType) = .ok e ∧
      typeAssignableToExpected types e.checkedType field.declaredType) :
  ∃ record', analyzeRecordFields types analyze type record = .ok record' ∧
    List.Forall₂ (AnalyzedAs types analyze type) record record'
  := by
  induction record with
  | nil => exact ⟨[], rfl, .nil⟩
  | cons entry record ih =>
    obtain ⟨name, e⟩ := entry
    rw [List.forall_mem_cons] at h
    obtain ⟨⟨field, e', hfield, he, hassignable⟩, hrest⟩ := h
    obtain ⟨record', hrecord, hall⟩ := ih hrest
    refine ⟨(name, e') :: record', ?_, .cons ⟨rfl, field, hfield, he, hassignable⟩ hall⟩
    simp only [analyzeRecordFields, hfield, he, hrecord, bind, Except.bind]
    exact if_pos hassignable

theorem keys_of_analyzed {record record' : List (String × Expr)}
    (h : List.Forall₂ (AnalyzedAs types analyze type) record record') :
  Assoc.keys record' = Assoc.keys record
  := by
  induction h with
  | nil => rfl
  | cons hentry hrest ih =>
    simp only [Assoc.keys, List.map_cons] at ih ⊢
    rw [hentry.name, ih]

theorem missingField_eq_none_iff {fields : List Field} {isOpen : Bool}
    (hstruct : structOf types type = some (fields, isOpen)) (present : List String) :
  missingField types type present = none ↔
    ∀ field ∈ fields, field.name ∉ present → fieldHasDefault types field
  := by
  simp only [missingField, hstruct, List.find?_eq_none, Bool.and_eq_true, decide_eq_true_eq,
    Bool.not_eq_true', not_and, Bool.not_eq_false]

/-- The analyzer accepts an overlay if it leaves out no field that has no default. -/
theorem analyzeJoinRight_ok_iff {fields : List Field} {isOpen : Bool}
    (hstruct : structOf types type = some (fields, isOpen)) {record record' : List (String × Expr)}
    (hfields : analyzeRecordFields types analyze type record = .ok record') (info : Info)
    (right : Expr) (types' : TypeTable) :
  analyzeJoinRight types analyze type (.recordLiteral info record) = .ok (right, type, types') ↔
    right = .recordLiteral { info with checkedType := type } record' ∧ types' = types ∧
      ∀ field ∈ fields, field.name ∉ Assoc.keys record' → fieldHasDefault types field
  := by
  rw [← missingField_eq_none_iff hstruct]
  have hisStruct : isStructType types type = true := by simp [isStructType, hstruct]
  cases hmissing : missingField types type (Assoc.keys record') with
  | some field =>
    simp [analyzeJoinRight, analyzeRecordLiteral, hisStruct, hfields, hmissing, bind, Except.bind]
  | none =>
    simp [analyzeJoinRight, analyzeRecordLiteral, hisStruct, hfields, hmissing, bind, Except.bind,
      Expr.checkedType, Expr.info, eq_comm]

theorem keys_entriesOf (record : List (String × Expr)) :
  Assoc.keys (entriesOf record) = Assoc.keys record
  := by
  rw [Assoc.keys, Assoc.keys, entriesOf, map_eq_mapIdx, map_eq_mapIdx, List.mapIdx_mapIdx]
  rfl

/-- A use of a value of an overlay is that of an analyzed entry. -/
theorem analyzed_of_mem {record record' : List (String × Expr)}
    (h : List.Forall₂ (AnalyzedAs types analyze type) record record') {entry : String × Operand}
    (hentry : entry ∈ entriesOf record') :
  ∃ source ∈ record, AnalyzedAs types analyze type source (entry.1, entry.2.expr)
  := by
  obtain ⟨i, hi, rfl⟩ := List.mem_mapIdx.mp hentry
  have hlength := h.length_eq
  have hi' : i < record.length := by omega
  exact ⟨record[i], List.getElem_mem hi', List.forall₂_iff_get.mp h |>.2 i hi' hi⟩

/-- Each entry of a literal is used. -/
theorem mem_of_analyzed {record record' : List (String × Expr)}
    (h : List.Forall₂ (AnalyzedAs types analyze type) record record') {source : String × Expr}
    (hsource : source ∈ record) :
  ∃ entry ∈ entriesOf record', AnalyzedAs types analyze type source (entry.1, entry.2.expr)
  := by
  obtain ⟨i, hi, rfl⟩ := List.mem_iff_getElem.mp hsource
  have hlength := h.length_eq
  have hi' : i < record'.length := by omega
  refine ⟨(record'[i].1, ⟨i, record'[i].2⟩), List.mem_mapIdx.mpr ⟨i, hi', rfl⟩, ?_⟩
  exact List.forall₂_iff_get.mp h |>.2 i hi hi'

/-- A value that is assignable to a type initialises an object of it. -/
theorem fitsType_of_assignable {actual expected : Ty} {c : Content}
    (h : typeAssignableToExpected types actual expected) (hfits : FitsType actual c) :
  FitsType expected c
  := by
  simp only [typeAssignableToExpected, Bool.or_eq_true, Bool.and_eq_true, decide_eq_true_eq] at h
  rcases h with ((rfl | ⟨-, href⟩) | ⟨-, hfn⟩) | ⟨-, hstruct⟩
  · exact hfits
  · cases expected <;> first | exact trivial | cases href
  · cases expected <;> first | exact trivial | cases hfn
  · cases expected <;> first | exact trivial | cases hstruct

end

/-! ### Open maps -/

/-- A clone with an entry set in it is a new table. -/
theorem flxObjmapAdd_eq {tables : Tables} {address : ℕ} {entries : List (String × Content)}
    (h : tables[address]? = some entries) (hkeys : (Assoc.keys entries).Nodup) (key : String)
    (value : Content) :
  flxObjmapAdd tables address key value =
    some (tables ++ [Assoc.set entries key value], tables.length)
  := by
  have hclone : Assoc.setAll [] entries = entries := Assoc.setAll_append_of_nodup hkeys
  simp [flxObjmapAdd, flxObjmapClone, h, hclone, hashmapSet]

/-- A clone with the entries of a table set in it is a new table. -/
theorem flxObjmapJoin_eq {tables : Tables} {left : ℕ} {entries : List (String × Content)}
    (h : tables[left]? = some entries) (right : ℕ) :
  ∃ entries', flxObjmapJoin tables left right = some (tables ++ [entries'], tables.length)
  := by
  simp [flxObjmapJoin, flxObjmapClone, h]

/-- What is held is still held when tables are added. -/
theorem content_of_kept {tables tables' : Tables} {left : RecordValue} {c : Content}
    (h : left.content tables = some c) (hkept : tables <+: tables') :
  left.content tables' = some c
  := by
  cases left with
  | struct members => exact h
  | objmap address =>
    obtain ⟨entries, hentries, heq⟩ := Option.map_eq_some_iff.mp h
    simp only [RecordValue.content]
    obtain ⟨more, rfl⟩ := hkept
    have hlt := (List.getElem?_eq_some_iff.mp hentries).1
    rw [List.getElem?_append_left hlt, hentries, ← heq]
    rfl

section

variable {ofInt : ℤ → BitVec 64} {types : TypeTable} {env : Env} {type : Ty} {left : RecordValue}

/-- The entries of an overlay of an open map are set in tables of their own, one after the other. -/
theorem exec_emitOpenOverlay {record : Entries} {out : RecordCode} {tables tables₁ : Tables}
    {address : ℕ} {entries : List (String × Content)}
    (hrecord : ∀ entry ∈ record, ∃ field d, structField types type entry.1 = some field ∧
      objFromFn ofInt types field.declaredType (env.value entry.2) = some d ∧
      objAsFn ofInt types field.declaredType d =
        some (convert ofInt field.declaredType (env.value entry.2)))
    (hout : out.exec ofInt types env type left tables = some (tables₁, .objmap address))
    (hkept : tables <+: tables₁) (haddress : tables₁[address]? = some entries)
    (hkeys : (Assoc.keys entries).Nodup) :
  ∃ tables' address' entries',
    (emitOpenOverlay types type out record).exec ofInt types env type left tables =
      some (tables', .objmap address') ∧
    tables <+: tables' ∧ tables'[address']? = some entries' ∧
    ∀ name field, structField types type name = some field →
      (Assoc.get entries' name).bind (objAsFn ofInt types field.declaredType) =
        match Assoc.last record name with
        | some operand => some (convert ofInt field.declaredType (env.value operand))
        | none => (Assoc.get entries name).bind (objAsFn ofInt types field.declaredType)
  := by
  induction record generalizing out tables₁ address entries with
  | nil => exact ⟨tables₁, address, entries, hout, hkept, haddress, fun _ _ _ => rfl⟩
  | cons entry record ih =>
    obtain ⟨name, operand⟩ := entry
    rw [List.forall_mem_cons] at hrecord
    obtain ⟨⟨field, d, hfield, hd, hread⟩, hrecord⟩ := hrecord
    have hadded : (RecordCode.objmapAdd out name field.declaredType
        (emitRecordFieldValue types field (some operand))).exec ofInt types env type left tables =
          some (tables₁ ++ [Assoc.set entries name d], .objmap tables₁.length) := by
      simp only [RecordCode.exec, hout, emitRecordFieldValue, emitCopied, FieldCode.run,
        Option.bind_some, hd, flxObjmapAdd_eq haddress hkeys, Option.map_some]
    obtain ⟨tables', address', entries', hexec, hkept', haddress', hfields⟩ := ih hrecord hadded
      (hkept.trans (List.prefix_append _ _)) (by simp) (Assoc.nodup_keys_set hkeys name d)
    refine ⟨tables', address', entries', ?_, hkept', haddress', ?_⟩
    · rw [emitOpenOverlay, hfield]
      exact hexec
    · intro other field' hfield'
      rw [hfields other field' hfield', Assoc.last]
      cases hlast : Assoc.last record other with
      | some last => rfl
      | none =>
        by_cases hname : name = other
        · subst hname
          obtain rfl := Option.some.inj (hfield.symm.trans hfield')
          simp [Assoc.get_set_self, hread]
        · simp [hname, Assoc.get_set_of_ne _ _ hname]

/-- The C compiler takes the entries of an overlay of an open map. -/
theorem compiles_emitOpenOverlay {record : Entries}
    (hrecord : ∀ entry ∈ record, ∃ field, structField types type entry.1 = some field)
    (out : RecordCode) :
  (emitOpenOverlay types type out record).compiles types = true ↔
    out.compiles types = true ∧ ∀ entry ∈ record, ∀ field,
      structField types type entry.1 = some field →
        initFits types entry.2.expr.checkedType field.declaredType = true
  := by
  induction record generalizing out with
  | nil => simp [emitOpenOverlay]
  | cons entry record ih =>
    obtain ⟨name, operand⟩ := entry
    rw [List.forall_mem_cons] at hrecord
    obtain ⟨⟨field, hfield⟩, hrecord⟩ := hrecord
    simp only at hfield
    rw [emitOpenOverlay, hfield]
    simp only
    rw [ih hrecord]
    simp only [RecordCode.compiles, emitRecordFieldValue, emitCopied, FieldCode.compiles,
      Bool.and_eq_true, List.forall_mem_cons, hfield, Option.some.injEq, forall_eq', and_assoc]

end

/-! ### Structs -/

section

variable {types : TypeTable} {type : Ty} {fields : List Field} {record : Entries}

theorem emitRecordOverlay_closed (hstruct : structOf types type = some (fields, false)) :
  emitRecordOverlay types record type =
    .structInit type (fields.mapIdx fun i field =>
      (field.name, field.declaredType, overlayCode types record i field))
  := by
  have hclosed : isOpenStructType types type = false := by simp [isOpenStructType, hstruct]
  have hfieldsOf : fieldsOf types type = fields := by simp [fieldsOf, hstruct]
  rw [emitRecordOverlay, hclosed, hfieldsOf]
  rfl

theorem mem_of_structField {isOpen : Bool} (hstruct : structOf types type = some (fields, isOpen))
    {name : String} {field : Field} (h : structField types type name = some field) :
  field ∈ fields ∧ field.name = name
  := by
  rw [structField, hstruct] at h
  refine ⟨List.mem_of_find?_eq_some h, ?_⟩
  simpa using List.find?_some h

/-- A literal without repeated names has one entry of each. -/
theorem get_of_mem (hkeys : (Assoc.keys record).Nodup) {entry : String × Operand}
    (h : entry ∈ record) :
  recordEntry record entry.1 = some entry.2
  := by
  induction record with
  | nil => cases h
  | cons other record ih =>
    obtain ⟨name, operand⟩ := other
    simp only [Assoc.keys, List.map_cons, List.nodup_cons] at hkeys
    rcases List.mem_cons.mp h with rfl | hmem
    · simp [recordEntry, Assoc.get]
    · have hne : name ≠ entry.1 := by
        rintro rfl
        exact hkeys.1 (List.mem_map_of_mem hmem)
      rw [recordEntry, Assoc.get, if_neg hne]
      exact ih hkeys.2 hmem

/-- The C compiler takes the members of an overlay of a struct. -/
theorem compiles_structInit (hstruct : structOf types type = some (fields, false))
    (hnodup : (fields.map Field.name).Nodup) (hkeys : (Assoc.keys record).Nodup) :
  (emitRecordOverlay types record type).compiles types = true ↔
    ∀ entry ∈ record, ∀ field, structField types type entry.1 = some field →
      initFits types entry.2.expr.checkedType field.declaredType = true
  := by
  rw [emitRecordOverlay_closed hstruct, RecordCode.compiles, List.all_eq_true]
  constructor
  · intro h entry hentry field hfield
    obtain ⟨hmem, hname⟩ := mem_of_structField hstruct hfield
    obtain ⟨i, hi, rfl⟩ := List.mem_iff_getElem.mp hmem
    have hfits := h _ (List.mem_mapIdx.mpr ⟨i, hi, rfl⟩)
    have hget : recordEntry record fields[i].name = some entry.2 := by
      rw [hname]
      exact get_of_mem hkeys hentry
    simpa [overlayCode, hget, emitRecordFieldValue, emitCopied, FieldCode.compiles] using hfits
  · intro h member hmember
    obtain ⟨i, hi, rfl⟩ := List.mem_mapIdx.mp hmember
    cases hget : recordEntry record fields[i].name with
    | none => simp [overlayCode, hget, FieldCode.compiles]
    | some operand =>
      have hmem : (fields[i].name, operand) ∈ record := Assoc.mem_of_get hget
      have hfits := h _ hmem fields[i] (structField_of_mem hstruct hnodup (List.getElem_mem hi))
      simpa [overlayCode, hget, emitRecordFieldValue, emitCopied, FieldCode.compiles] using hfits

end

/-! ### Values of overlays -/

section

variable {ofInt : ℤ → BitVec 64} {types : TypeTable} {env : Env} {type : Ty} {fields : List Field}
  {record : Entries} {tables : Tables} {left : RecordValue} {c : Content}

/-- An overlay of a struct has the fields of the literal over those of the left side. -/
theorem exec_overlay_closed (hstruct : structOf types type = some (fields, false))
    (hleft : IsValueOf ofInt types type tables left c) (henv : Evaluates env c) :
  ∃ c' out, (emitRecordOverlay types record type).exec ofInt types env type left tables =
      some (tables, out) ∧ out.content tables = some c' ∧
    ∀ name field, structField types type name = some field →
      readField ofInt types type c' name =
        match recordEntry record name with
        | some operand => some (convert ofInt field.declaredType (env.value operand))
        | none => readField ofInt types type c name
  := by
  have hnodup := hleft.members hstruct
  have hcode : ∀ (i : ℕ) field, fields[i]? = some field →
      ∃ w, (overlayCode types record i field).run ofInt types env type = some w ∧
        some (convert ofInt field.declaredType w) =
          match recordEntry record field.name with
          | some operand => some (convert ofInt field.declaredType (env.value operand))
          | none => readField ofInt types type c field.name := by
    intro i field hi
    unfold overlayCode
    cases hentry : recordEntry record field.name with
    | some operand => exact ⟨env.value operand, rfl, rfl⟩
    | none =>
      have hfield := structField_of_mem hstruct hnodup (List.mem_of_getElem? hi)
      obtain ⟨w, hw, hform⟩ := hleft.fields hfield
      refine ⟨w, ?_, ?_⟩
      · simp only [FieldCode.run, henv.left i, hw]
      · simp only [hw, hform]
  obtain ⟨c', hrun, hread⟩ := run_structInit ofInt env (overlayCode types record) hstruct hnodup
    fun i field hi => (hcode i field hi).imp fun _ h => h.1
  obtain ⟨members, rfl⟩ : ∃ members, c' = .struct members := by
    rw [RecordCode.run, hstruct] at hrun
    simp only at hrun
    split_ifs at hrun
    obtain ⟨members, -, heq⟩ := Option.map_eq_some_iff.mp hrun
    exact ⟨members, heq.symm⟩
  refine ⟨.struct members, .struct members, ?_, rfl, ?_⟩
  · rw [emitRecordOverlay_closed hstruct, RecordCode.exec, hrun]
    · rfl
    · simp
    · simp
  · intro name field hfield
    obtain ⟨hmem, rfl⟩ := mem_of_structField hstruct hfield
    obtain ⟨i, hi, rfl⟩ := List.mem_iff_getElem.mp hmem
    obtain ⟨w, hw, heq⟩ := hcode i fields[i] (List.getElem?_eq_getElem hi)
    rw [hread i fields[i] w (List.getElem?_eq_getElem hi) hw, heq]

/-- An overlay of an open map has the fields of the literal over those of the left side, in tables
of its own. -/
theorem exec_overlay_open (hstruct : structOf types type = some (fields, true))
    (hleft : IsValueOf ofInt types type tables left c) (henv : Evaluates env c)
    (hkeys : (Assoc.keys record).Nodup)
    (hrecord : ∀ entry ∈ record, ∃ field, structField types type entry.1 = some field ∧
      FitsType field.declaredType (env.value entry.2)) :
  ∃ c' tables' out, (emitRecordOverlay types record type).exec ofInt types env type left tables =
      some (tables', out) ∧ out.content tables' = some c' ∧ tables <+: tables' ∧
    ∀ name field, structField types type name = some field →
      readField ofInt types type c' name =
        match recordEntry record name with
        | some operand => some (convert ofInt field.declaredType (env.value operand))
        | none => readField ofInt types type c name
  := by
  have hopen : isOpenStructType types type = true := by simp [isOpenStructType, hstruct]
  have hcode : emitRecordOverlay types record type = emitOpenOverlay types type .left record := by
    rw [emitRecordOverlay, if_pos hopen]
  have hreadObjmap : ∀ {entries name field}, structField types type name = some field →
      readField ofInt types type (.objmap entries) name =
        (Assoc.get entries name).bind (objAsFn ofInt types field.declaredType) := by
    intro entries name field hfield
    simp [readField, hfield, hopen]
  rw [hcode]
  cases record with
  | nil =>
    refine ⟨c, tables, left, rfl, hleft.content, List.prefix_refl _, ?_⟩
    intro name field hfield
    rfl
  | cons first record =>
    -- a record of which a field is read is an open map
    obtain ⟨entries, rfl⟩ : ∃ entries, c = .objmap entries := by
      obtain ⟨field, hfield, -⟩ := hrecord first (by simp)
      obtain ⟨w, hw, -⟩ := hleft.fields hfield
      exact exists_objmap_of_readField hstruct hw
    obtain ⟨address, rfl⟩ : ∃ address, left = .objmap address := by
      cases left with
      | struct members => cases hleft.content
      | objmap address => exact ⟨address, rfl⟩
    have haddress : tables[address]? = some entries := by
      obtain ⟨entries', hentries, heq⟩ := Option.map_eq_some_iff.mp hleft.content
      cases heq
      exact hentries
    have hboxed : ∀ entry ∈ first :: record, ∃ field d,
        structField types type entry.1 = some field ∧
        objFromFn ofInt types field.declaredType (env.value entry.2) = some d ∧
        objAsFn ofInt types field.declaredType d =
          some (convert ofInt field.declaredType (env.value entry.2)) := by
      intro entry hentry
      obtain ⟨field, hfield, hfits⟩ := hrecord entry hentry
      obtain ⟨w, hw, -⟩ := hleft.fields hfield
      rw [hreadObjmap hfield] at hw
      obtain ⟨boxed, -, hboxed⟩ := Option.bind_eq_some_iff.mp hw
      obtain ⟨d, hd, hread⟩ := objAsFn_objFromFn ofInt (isReadable_of_objAsFn hboxed) hfits
      exact ⟨field, d, hfield, hd, hread⟩
    have hexecLeft : RecordCode.left.exec ofInt types env type (.objmap address) tables =
        some (tables, .objmap address) := rfl
    obtain ⟨tables', address', entries', hexec, hkept, haddress', hfields⟩ :=
      exec_emitOpenOverlay hboxed hexecLeft (List.prefix_refl tables) haddress (hleft.keys rfl)
    refine ⟨.objmap entries', tables', .objmap address', hexec, ?_, hkept, ?_⟩
    · simp [RecordValue.content, haddress']
    · intro name field hfield
      rw [hreadObjmap hfield, hreadObjmap hfield, hfields name field hfield, recordEntry,
        Assoc.last_eq_get hkeys]

end

/-! ### Acceptance and meaning -/

section

variable {ofInt : ℤ → BitVec 64} {types final : TypeTable}
  {analyze : Expr → Option Ty → Except Stop Expr} {env : Env} {type : Ty} {fields : List Field}
  {isOpen : Bool} {info : Info} {record : List (String × Expr)} {tables : Tables}
  {left : RecordValue} {c : Content}

/-- Braces without fields open the fixed `MAP`, and the C compiler takes its initial values only if
there are none. -/
theorem overlays_empty_iff (hopens : OpensTo (markStructOpen types type.text) final)
    (hstruct : structOf types type = some (fields, isOpen)) (info : Info)
    (hleft : IsValueOf ofInt final type tables left c) :
  Overlays ofInt types final analyze env type info [] tables left ↔ fields = []
  := by
  have hopen : isOpenStructType final type = true := by
    apply hopens.isOpen
    exact isOpenStructType_markStructOpen hstruct
  have hstruct' : structOf final type = some (fields, true) := by
    obtain ⟨isOpen', hstruct'⟩ :=
      ((opensTo_markStructOpen types type.text).trans hopens).structOf hstruct
    obtain rfl : isOpen' = true := by simpa [isOpenStructType, hstruct'] using hopen
    exact hstruct'
  obtain ⟨address, rfl⟩ := hleft.objmap hopen
  obtain ⟨entries, hentries, -⟩ := Option.map_eq_some_iff.mp hleft.content
  have hcompiles : (emitEmptyLiteral final type).compiles final = true := by
    simp [emitEmptyLiteral, RecordCode.compiles, FieldCode.compiles]
  have heval : evalJoin ofInt final env type (.objmap address)
      (.mapLiteral { info with checkedType := type } []) tables =
        (JoinCode.objmapJoin (emitEmptyLiteral final type)).exec ofInt final env type
          (.objmap address) tables := by
    simp [evalJoin, emitJoinExpr, isStructType, hstruct', hopen, JoinCode.compiles, hcompiles]
  have hfieldsOf : fieldsOf final type = fields := by simp [fieldsOf, hstruct']
  constructor
  · rintro ⟨right, types', tables', out, c₀, c', hok, -, hexec, -⟩
    cases hok
    rw [heval] at hexec
    by_contra hne
    simp [JoinCode.exec, emitEmptyLiteral, hfieldsOf, RecordCode.exec, RecordCode.run, hstruct',
      hne] at hexec
  · rintro rfl
    have hlt := (List.getElem?_eq_some_iff.mp hentries).1
    have hfound : (tables ++ [[]])[address]? = some entries := by
      rw [List.getElem?_append_left hlt, hentries]
    obtain ⟨entries', hjoin⟩ := flxObjmapJoin_eq hfound tables.length
    have hexec : (JoinCode.objmapJoin (emitEmptyLiteral final type)).exec ofInt final env type
        (.objmap address) tables =
          some (tables ++ [[]] ++ [entries'], .objmap (tables ++ [[]]).length) := by
      simp only [JoinCode.exec, emitEmptyLiteral, hfieldsOf, RecordCode.exec, RecordCode.run,
        hstruct', List.map_nil, List.isEmpty_nil, if_true, Option.bind_some, storeContent, hjoin,
        Option.map_some]
    have hkept : tables <+: tables ++ [[]] ++ [entries'] := by simp
    refine ⟨_, _, _, _, c, .objmap entries', rfl, hopens, heval.trans hexec, hleft.content,
      content_of_kept hleft.content hkept, ?_, rfl, ?_⟩
    · simp [RecordValue.content]
    · intro name field hfield
      simp [structField, hstruct'] at hfield

/-- An overlay with fields is accepted if each field that it leaves out has a default, and the C
compiler takes its code if no open map is given to a C struct. -/
theorem overlays_cons_iff (hopens : OpensTo types final)
    (hstruct : structOf types type = some (fields, isOpen)) (info : Info) (hne : record ≠ [])
    (hrecord : IsOverlay types analyze type record)
    (hleft : IsValueOf ofInt final type tables left c) (henv : Evaluates env c) :
  Overlays ofInt types final analyze env type info record tables left ↔
    CanOverlay types final analyze type fields record
  := by
  obtain ⟨isOpen', hstruct'⟩ := hopens.structOf hstruct
  have hparse : parseBraceLiteral info record = .recordLiteral info record := by
    simp only [parseBraceLiteral, List.isEmpty_iff, hne, if_false]
  obtain ⟨record', hanalyzed, hall⟩ := analyzeRecordFields_ok hrecord.assignable
  have hkeys' : (Assoc.keys (entriesOf record')).Nodup := by
    rw [keys_entriesOf, keys_of_analyzed hall]
    exact hrecord.nodup
  have hentries : ∀ entry ∈ entriesOf record', ∃ field,
      structField final type entry.1 = some field ∧
      FitsType field.declaredType (env.value entry.2) := by
    intro entry hentry
    obtain ⟨source, -, hname, field, hfield, -, hassignable⟩ := analyzed_of_mem hall hentry
    refine ⟨field, ?_, fitsType_of_assignable hassignable (henv.value entry.2)⟩
    rw [hopens.structField, hname]
    exact hfield
  -- the C compiler takes the code if it takes each value that is given
  have hcompiles : (emitRecordOverlay final (entriesOf record') type).compiles final = true ↔
      ∀ entry ∈ record, ∀ {field e}, structField types type entry.1 = some field →
        analyze entry.2 (some field.declaredType) = .ok e →
        initFits final e.checkedType field.declaredType = true := by
    have hemitted : (emitRecordOverlay final (entriesOf record') type).compiles final = true ↔
        ∀ entry ∈ entriesOf record', ∀ field, structField final type entry.1 = some field →
          initFits final entry.2.expr.checkedType field.declaredType = true := by
      cases isOpen' with
      | false => exact compiles_structInit hstruct' (hleft.members hstruct') hkeys'
      | true =>
        have hopen : isOpenStructType final type = true := by simp [isOpenStructType, hstruct']
        rw [emitRecordOverlay, if_pos hopen, compiles_emitOpenOverlay
          fun entry hentry => (hentries entry hentry).imp fun _ h => h.1]
        simp [RecordCode.compiles]
    rw [hemitted]
    constructor
    · intro h source hsource field e hfield he
      obtain ⟨entry, hentry, hname, field', hfield', he', -⟩ := mem_of_analyzed hall hsource
      obtain rfl := Option.some.inj (hfield.symm.trans hfield')
      obtain rfl := Except.ok.inj (he.symm.trans he')
      apply h entry hentry field
      rw [hopens.structField, hname]
      exact hfield
    · intro h entry hentry field hfield
      obtain ⟨source, hsource, hname, field', hfield', he', -⟩ := analyzed_of_mem hall hentry
      rw [hopens.structField, hname, hfield'] at hfield
      cases hfield
      exact h source hsource hfield' he'
  have heval : evalJoin ofInt final env type left
      (.recordLiteral { info with checkedType := type } record') tables =
      if (emitRecordOverlay final (entriesOf record') type).compiles final then
        (emitRecordOverlay final (entriesOf record') type).exec ofInt final env type left tables
      else none := by
    rw [evalJoin, emitJoinExpr, if_pos (by simp [isStructType, hstruct'])]
    rfl
  rw [Overlays, hparse]
  constructor
  · rintro ⟨right, types', tables', out, c₀, c', hok, -, hexec, -⟩
    obtain ⟨rfl, rfl, hcomplete⟩ := (analyzeJoinRight_ok_iff hstruct hanalyzed info _ _).mp hok
    rw [keys_of_analyzed hall] at hcomplete
    rw [heval] at hexec
    split_ifs at hexec with hfits
    exact ⟨hcomplete, hcompiles.mp hfits, fun h => absurd h hne⟩
  · intro hcan
    have hcomplete : ∀ field ∈ fields, field.name ∉ Assoc.keys record' →
        fieldHasDefault types field := by
      rw [keys_of_analyzed hall]
      exact hcan.complete
    have hok := (analyzeJoinRight_ok_iff hstruct hanalyzed info _ _).mpr ⟨rfl, rfl, hcomplete⟩
    have hkeys : Assoc.keys (entriesOf record') = Assoc.keys record := by
      rw [keys_entriesOf, keys_of_analyzed hall]
    rw [if_pos (hcompiles.mpr hcan.structs)] at heval
    cases isOpen' with
    | false =>
      obtain ⟨c', out, hexec, hout, hfields⟩ := exec_overlay_closed hstruct' hleft henv
      exact ⟨_, _, tables, out, c, c', hok, hopens, heval.trans hexec, hleft.content, hleft.content,
        hout, hkeys, hfields⟩
    | true =>
      obtain ⟨c', tables', out, hexec, hout, hkept, hfields⟩ :=
        exec_overlay_open hstruct' hleft henv hkeys' hentries
      exact ⟨_, _, tables', out, c, c', hok, hopens, heval.trans hexec, hleft.content,
        content_of_kept hleft.content hkept, hout, hkeys, hfields⟩

/-- The method `upd` of a fixed `MAP` takes a literal and overlays it if and only if each field that
the literal leaves out has a default, no open map is given to a C struct, and the literal has a
field if the map has one. -/
theorem overlays_iff (hopens : OpensTo (openedBy types type record) final)
    (hstruct : structOf types type = some (fields, isOpen)) (info : Info)
    (hrecord : IsOverlay types analyze type record)
    (hleft : IsValueOf ofInt final type tables left c) (henv : Evaluates env c) :
  Overlays ofInt types final analyze env type info record tables left ↔
    CanOverlay types final analyze type fields record
  := by
  cases record with
  | nil =>
    rw [overlays_empty_iff hopens hstruct info hleft]
    constructor
    · rintro rfl
      exact ⟨by simp, by simp, fun _ => rfl⟩
    · intro hcan
      exact hcan.empty rfl
  | cons entry record =>
    exact overlays_cons_iff hopens hstruct info (List.cons_ne_nil _ _) hrecord hleft henv

end

/-- `MAP P = { INT a, T b }`. -/
def mapWithFields (type : Ty) : TypeTable :=
  [⟨"P", .struct [⟨"a", .INT, "INT", none⟩, ⟨"b", type, type.text, none⟩] false⟩]

/-- The literal `{ a = 1 }`. -/
def writesFirst : List (String × Expr) := [("a", .int (Info.ofType .unknown) 1)]

/-- A value of a type. -/
def contentOfType : Ty → Content
  | .INT => .int 1
  | .FLT => .flt 0
  | .BOL => .bol false
  | .STR => .str ""
  | .OPEN => .objmap []
  | _ => .nul

/-- The members of a value of the map. -/
def membersWith (c : Content) : List (String × Content) := [("a", .int 7), ("b", c)]

/-- Expressions have values of their types. -/
def typedEnv (left : Content) : Env where
  value operand := contentOfType operand.expr.checkedType
  namedValue _ := .nul
  default _ := .nul
  left _ := left

theorem evaluates_typedEnv (c : Content) :
  Evaluates (typedEnv c) c
  := by
  constructor
  · intro operand
    simp only [typedEnv]
    cases operand.expr.checkedType <;> simp [contentOfType, FitsType]
  · intro i
    rfl

theorem isOverlay_writesFirst (type : Ty) :
  IsOverlay (mapWithFields type) (analyzeLiteral (mapWithFields type)) (.named "P") writesFirst
  := by
  constructor
  · simp [writesFirst, Assoc.keys]
  · intro entry hentry
    obtain rfl := List.mem_singleton.mp hentry
    exact ⟨_, _, rfl, rfl, rfl⟩

theorem isValueOf_membersWith (type : Ty) {c : Content} (hc : convert (fun _ => 0) type c = c) :
  IsValueOf (fun _ => 0) (mapWithFields type) (.named "P") [] (.struct (membersWith c))
    (.struct (membersWith c))
  := by
  constructor
  · rfl
  · intro name field hfield
    by_cases ha : "a" = name
    · subst ha
      cases hfield
      exact ⟨.int 7, rfl, rfl⟩
    · by_cases hb : "b" = name
      · subst hb
        cases hfield
        exact ⟨c, rfl, hc⟩
      · simp [structField, structOf, typeFind, mapWithFields, ha, hb] at hfield
  · intro fields hfields
    cases hfields
    simp
  · intro hopen
    cases hopen
  · intro entries hentries
    cases hentries

theorem overlays_iff_emptyArray :
  Overlays (fun _ => 0) (mapWithFields (.ARR .INT)) (mapWithFields (.ARR .INT))
      (analyzeLiteral (mapWithFields (.ARR .INT))) (typedEnv (.struct (membersWith (.arr []))))
      (.named "P") (Info.ofType .unknown) writesFirst [] (.struct (membersWith (.arr []))) ↔
    CanOverlay (mapWithFields (.ARR .INT)) (mapWithFields (.ARR .INT))
      (analyzeLiteral (mapWithFields (.ARR .INT))) (.named "P")
      [⟨"a", .INT, "INT", none⟩, ⟨"b", .ARR .INT, (Ty.ARR .INT).text, none⟩] writesFirst
  := by
  apply overlays_iff (OpensTo.refl _) rfl
  · exact isOverlay_writesFirst _
  · exact isValueOf_membersWith _ rfl
  · exact evaluates_typedEnv _

/-- An overlay that leaves out a field without a default is rejected. -/
theorem not_overlays :
  ¬ ∀ (ofInt : ℤ → BitVec 64) (types final : TypeTable)
      (analyze : Expr → Option Ty → Except Stop Expr) (env : Env) (type : Ty) (info : Info)
      (record : List (String × Expr)) (tables : Tables) (left : RecordValue) (c : Content),
    isStructType types type → OpensTo (openedBy types type record) final →
    IsOverlay types analyze type record → IsValueOf ofInt final type tables left c →
    Evaluates env c → Overlays ofInt types final analyze env type info record tables left
  := by
  intro hall
  have hoverlays := hall (fun _ => 0) (mapWithFields .INT) (mapWithFields .INT)
    (analyzeLiteral (mapWithFields .INT)) (typedEnv (.struct (membersWith (.int 8)))) (.named "P")
    (Info.ofType .unknown) writesFirst [] (.struct (membersWith (.int 8))) _ rfl (OpensTo.refl _)
    (isOverlay_writesFirst _) (isValueOf_membersWith _ rfl) (evaluates_typedEnv _)
  have hcan := (overlays_cons_iff (OpensTo.refl _) rfl _ (by simp [writesFirst])
    (isOverlay_writesFirst _) (isValueOf_membersWith _ rfl) (evaluates_typedEnv _)).mp hoverlays
  have hdefault := hcan.complete ⟨"b", .INT, "INT", none⟩ (by simp [Ty.text])
    (by simp [writesFirst, Assoc.keys])
  cases hdefault

end Caster
