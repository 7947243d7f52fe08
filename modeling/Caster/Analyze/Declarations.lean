import Caster.TypeTable

/-!
# Type declarations

The table of a program's declared types: the declarations nested in others first, the types
of native modules last, and every type resolved.
-/

namespace Caster

/-- A declaration of a type, with the declarations nested in it.  Its types are not resolved. -/
inductive TypeDecl where
  | alias (name : String) (target : Ty) (value : Option Expr)
  | struct (name : String) (typeDecls : List TypeDecl) (fields : List Field)

/-- What is wrong with a declaration. -/
inductive TypeError where
  | duplicate (name : String)
  | conflictsWithBuiltin (name : String)
  | cyclicAlias (name : String)
  | unknownType (name : String)
deriving DecidableEq, Repr

/-- The message of an error of a declaration. -/
def TypeError.message : TypeError → String
  | .duplicate name => "duplicate TYPE declaration '" ++ name ++ "'"
  | .conflictsWithBuiltin name => "TYPE name '" ++ name ++ "' conflicts with a built-in type"
  | .cyclicAlias name => "cyclic TYPE alias involving '" ++ name ++ "'"
  | .unknownType name => "unknown type '" ++ name ++ "'"

/-- The names of built-in types. -/
def isBuiltinTypeName (name : String) : Bool :=
  name ∈ ["INT", "FLT", "BOL", "STR", "NUL", "ARR", "MAP", "REF", "TSK"]

/-! ### Registering -/

/-- A declaration is added to the table. -/
def typePush (types : TypeTable) (info : TypeInfo) : Except TypeError TypeTable :=
  if (typeFind types info.name).isSome then .error (.duplicate info.name)
  else if isBuiltinTypeName info.name then .error (.conflictsWithBuiltin info.name)
  else .ok (types ++ [info])

mutual

/-- A declaration is registered behind those nested in it. -/
def pushTypeDeclRecursive (types : TypeTable) : TypeDecl → Except TypeError TypeTable
  | .alias name target value => typePush types ⟨name, .alias target value⟩
  | .struct name typeDecls fields => do
    typePush (← pushTypeDecls types typeDecls) ⟨name, .struct fields false⟩

/-- Declarations are registered in their order. -/
def pushTypeDecls (types : TypeTable) : List TypeDecl → Except TypeError TypeTable
  | [] => .ok types
  | decl :: decls => do pushTypeDecls (← pushTypeDeclRecursive types decl) decls

end

/-- A field of a native type. -/
def builtinField (type : Ty) (name : String) (value : Expr) : Field :=
  { name, declaredType := type, text := type.text, value := some (.expr value) }

/-- The default of native `INT` fields. -/
def builtinIntValue (value : ℤ) : Expr := .int (Info.ofType .INT) value

/-- The default of native `BOL` fields. -/
def builtinBolValue (value : Bool) : Expr := .bol (Info.ofType .BOL) value

/-- The default of native `STR` fields. -/
def builtinStrValue (value : String) : Expr := .str (Info.ofType .STR) value

/-- The default of native `MAP` fields. -/
def builtinMapValue : Expr := .mapLiteral (Info.ofType (.MAP .STR .STR)) []

/-- The types of native modules. -/
def builtinTypes : List TypeInfo := [
  ⟨"HttpReq", .struct [
    builtinField .STR "method" (builtinStrValue "GET"),
    builtinField .STR "path" (builtinStrValue "/"),
    builtinField .STR "body" (builtinStrValue ""),
    builtinField (.MAP .STR .STR) "headers" builtinMapValue] false⟩,
  ⟨"HttpRes", .struct [
    builtinField .INT "status" (builtinIntValue 0),
    builtinField .STR "body" (builtinStrValue ""),
    builtinField (.MAP .STR .STR) "headers" builtinMapValue] false⟩,
  ⟨"FileStat", .struct [
    builtinField .STR "path" (builtinStrValue ""),
    builtinField .BOL "exists" (builtinBolValue false),
    builtinField .BOL "isFile" (builtinBolValue false),
    builtinField .BOL "isDir" (builtinBolValue false),
    builtinField .INT "size" (builtinIntValue 0)] false⟩,
  ⟨"ProcResult", .struct [
    builtinField .INT "code" (builtinIntValue 0),
    builtinField .STR "out" (builtinStrValue ""),
    builtinField .STR "err" (builtinStrValue "")] false⟩,
  ⟨"SQL_DB", .struct [builtinField .INT "handle" (builtinIntValue 0)] false⟩,
  ⟨"SQL_Exec", .struct [
    builtinField .INT "rows" (builtinIntValue 0),
    builtinField .INT "lastId" (builtinIntValue 0)] false⟩]

/-- A native type is registered unless its name is declared. -/
def ensureBuiltin (types : TypeTable) (info : TypeInfo) : Except TypeError TypeTable :=
  if (typeFind types info.name).isSome then .ok types else typePush types info

/-! ### Resolving -/

/-- The canonical type of a type, given those of names. -/
def resolveWith (resolveName : String → Except TypeError Ty) : Ty → Except TypeError Ty
  | .INT => .ok .INT
  | .FLT => .ok .FLT
  | .BOL => .ok .BOL
  | .STR => .ok .STR
  | .NUL => .ok .NUL
  | .ARR elem => do return .ARR (← resolveWith resolveName elem)
  | .MAP key value => do return .MAP (← resolveWith resolveName key) (← resolveWith resolveName value)
  | .REF target => do return .REF (← resolveWith resolveName target)
  | .TSK target => do return .TSK (← resolveWith resolveName target)
  | .FN input output => do return .FN (← resolveWith resolveName input) (← resolveWith resolveName output)
  | .named name => if name = "DYN" then .ok .OBJ else resolveName name
  | type => .error (.unknownType type.text)

/-- The canonical type of a name, where some aliases are being resolved. -/
def resolveAlias (types : TypeTable) : ℕ → List String → String → Except TypeError Ty
  | 0, _, name => .error (.cyclicAlias name)
  | n + 1, resolving, name =>
    match typeFind types name with
    | none => .error (.unknownType name)
    | some ⟨_, .struct _ _⟩ => .ok (.named name)
    | some ⟨_, .alias target _⟩ =>
      if name ∈ resolving then .error (.cyclicAlias name)
      else resolveWith (resolveAlias types n (name :: resolving)) target

/-- The canonical type of a type. -/
def resolveType (types : TypeTable) (raw : Ty) : Except TypeError Ty :=
  resolveWith (resolveAlias types (types.length + 1) []) raw

/-- A field with its type resolved. -/
def resolveField (types : TypeTable) (field : Field) : Except TypeError Field := do
  return { field with declaredType := ← resolveType types field.declaredType }

/-- A declaration with its types resolved. -/
def resolveInfo (types : TypeTable) (info : TypeInfo) : Except TypeError TypeInfo :=
  match info.kind with
  | .alias target value => do return ⟨info.name, .alias (← resolveType types target) value⟩
  | .struct fields openRuntime => do
    return ⟨info.name, .struct (← fields.mapM (resolveField types)) openRuntime⟩

/-- The table of the declarations of a program. -/
def buildTypeTable (decls : List TypeDecl) : Except TypeError TypeTable := do
  let declared ← pushTypeDecls [] decls
  let types ← builtinTypes.foldlM ensureBuiltin declared
  types.mapM (resolveInfo types)

/-! ### The names of a table -/

/-- Every name is declared once. -/
def DistinctNames (types : TypeTable) : Prop := (types.map TypeInfo.name).Nodup

theorem distinctNames_nil : DistinctNames [] := List.nodup_nil

theorem DistinctNames.typeFind {types : TypeTable} (h : DistinctNames types) {info : TypeInfo}
    (hinfo : info ∈ types) :
  typeFind types info.name = some info
  := by
  induction types with
  | nil => cases hinfo
  | cons other types ih =>
    obtain ⟨hother, hnodup⟩ := List.nodup_cons.mp h
    rcases List.mem_cons.mp hinfo with rfl | hinfo
    · simp [Caster.typeFind]
    · have hne : other.name ≠ info.name := by
        intro heq
        exact hother (heq ▸ List.mem_map_of_mem hinfo)
      rw [Caster.typeFind, List.find?_cons_of_neg (by simpa using hne)]
      exact ih hnodup hinfo

theorem distinctNames_typePush {types types' : TypeTable} {info : TypeInfo} (h : DistinctNames types)
    (hpush : typePush types info = .ok types') :
  DistinctNames types'
  := by
  unfold typePush at hpush
  split_ifs at hpush with hfind hbuiltin
  cases hpush
  rw [DistinctNames, List.map_append, List.nodup_append]
  refine ⟨h, List.nodup_singleton _, ?_⟩
  rintro name hname _ hother rfl
  rw [List.map_singleton, List.mem_singleton] at hother
  obtain ⟨other, hmem, rfl⟩ := List.mem_map.mp hname
  apply hfind
  rw [← hother, h.typeFind hmem]
  rfl

mutual

theorem distinctNames_pushTypeDecl (decl : TypeDecl) {types types' : TypeTable} (h : DistinctNames types)
    (hpush : pushTypeDeclRecursive types decl = .ok types') :
  DistinctNames types'
  := by
  rcases decl with ⟨name, target, value⟩ | ⟨name, typeDecls, fields⟩
  · exact distinctNames_typePush h hpush
  · rw [pushTypeDeclRecursive] at hpush
    cases hnested : pushTypeDecls types typeDecls with
    | error e =>
      rw [hnested] at hpush
      cases hpush
    | ok types₁ =>
      rw [hnested] at hpush
      exact distinctNames_typePush (distinctNames_pushTypeDecls typeDecls h hnested) hpush

theorem distinctNames_pushTypeDecls (decls : List TypeDecl) {types types' : TypeTable}
    (h : DistinctNames types) (hpush : pushTypeDecls types decls = .ok types') :
  DistinctNames types'
  := by
  cases decls with
  | nil =>
    cases hpush
    exact h
  | cons decl decls =>
    rw [pushTypeDecls] at hpush
    cases hfirst : pushTypeDeclRecursive types decl with
    | error e =>
      rw [hfirst] at hpush
      cases hpush
    | ok types₁ =>
      rw [hfirst] at hpush
      exact distinctNames_pushTypeDecls decls (distinctNames_pushTypeDecl decl h hfirst) hpush

end

theorem distinctNames_ensureBuiltin {types types' : TypeTable} {info : TypeInfo} (h : DistinctNames types)
    (hpush : ensureBuiltin types info = .ok types') :
  DistinctNames types'
  := by
  unfold ensureBuiltin at hpush
  split_ifs at hpush
  · cases hpush
    exact h
  · exact distinctNames_typePush h hpush

theorem foldlM_distinctNames {infos : List TypeInfo} {types types' : TypeTable} (h : DistinctNames types)
    (hpush : infos.foldlM ensureBuiltin types = .ok types') :
  DistinctNames types'
  := by
  induction infos generalizing types with
  | nil =>
    cases hpush
    exact h
  | cons info infos ih =>
    rw [List.foldlM_cons] at hpush
    cases hfirst : ensureBuiltin types info with
    | error e =>
      rw [hfirst] at hpush
      cases hpush
    | ok types₁ =>
      rw [hfirst] at hpush
      exact ih (distinctNames_ensureBuiltin h hfirst) hpush

theorem resolveInfo_name {types : TypeTable} {info info' : TypeInfo} (h : resolveInfo types info = .ok info') :
  info'.name = info.name
  := by
  obtain ⟨name, ⟨target, value⟩ | ⟨fields, openRuntime⟩⟩ := info
  · simp only [resolveInfo] at h
    cases htarget : resolveType types target with
    | error e =>
      rw [htarget] at h
      cases h
    | ok target' =>
      rw [htarget] at h
      cases h
      rfl
  · simp only [resolveInfo] at h
    cases hfields : fields.mapM (resolveField types) with
    | error e =>
      rw [hfields] at h
      cases h
    | ok fields' =>
      rw [hfields] at h
      cases h
      rfl

theorem mapM_resolveInfo_names {types infos infos' : TypeTable}
    (h : infos.mapM (resolveInfo types) = .ok infos') :
  infos'.map TypeInfo.name = infos.map TypeInfo.name
  := by
  induction infos generalizing infos' with
  | nil =>
    cases h
    rfl
  | cons info infos ih =>
    rw [List.mapM_cons] at h
    cases hfirst : resolveInfo types info with
    | error e =>
      rw [hfirst] at h
      cases h
    | ok info₁ =>
      cases hrest : infos.mapM (resolveInfo types) with
      | error e =>
        simp only [hfirst, hrest, bind, Except.bind] at h
        cases h
      | ok infos₁ =>
        simp only [hfirst, hrest, bind, Except.bind] at h
        cases h
        rw [List.map_cons, List.map_cons, resolveInfo_name hfirst, ih hrest]

/-- The names of a table that was built are distinct. -/
theorem distinctNames_buildTypeTable {decls : List TypeDecl} {types : TypeTable}
    (h : buildTypeTable decls = .ok types) :
  DistinctNames types
  := by
  unfold buildTypeTable at h
  cases hdeclared : pushTypeDecls [] decls with
  | error e =>
    rw [hdeclared] at h
    cases h
  | ok declared =>
    simp only [hdeclared, bind, Except.bind] at h
    cases hbuiltin : builtinTypes.foldlM ensureBuiltin declared with
    | error e =>
      rw [hbuiltin] at h
      cases h
    | ok types₁ =>
      rw [hbuiltin] at h
      rw [DistinctNames, mapM_resolveInfo_names h]
      exact foldlM_distinctNames (distinctNames_pushTypeDecls decls distinctNames_nil hdeclared) hbuiltin

/-- Marking as open keeps the names. -/
theorem markStructOpen_names (types : TypeTable) (name : String) :
  (markStructOpen types name).map TypeInfo.name = types.map TypeInfo.name
  := by
  induction types with
  | nil => rfl
  | cons info types ih =>
    rw [markStructOpen]
    split_ifs
    · rfl
    · rw [List.map_cons, List.map_cons, ih]

theorem DistinctNames.foldl_markStructOpen {types : TypeTable} (h : DistinctNames types)
    (opened : List String) :
  DistinctNames (opened.foldl markStructOpen types)
  := by
  induction opened generalizing types with
  | nil => exact h
  | cons name opened ih =>
    apply ih
    rw [DistinctNames, markStructOpen_names]
    exact h

end Caster
