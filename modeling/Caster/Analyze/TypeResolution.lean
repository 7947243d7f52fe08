import Caster.Library.StateTriples
import Caster.TypeText
import Mathlib.Logic.Relation

/-!
# Resolving types

The table of declared types as `build_type_table` fills it: every type of a declaration is resolved,
and the targets that are found and the marks of the aliases that are being resolved are kept in the
table.
-/

namespace Caster.TypeResolution

open Driver (Text lawfulBEq_text)
open StateTriples

attribute [local instance] lawfulBEq_text

/-! ### The table -/

/-- A declaration of a type, with the declarations nested in it. -/
inductive TypeDecl where
  | alias (name : Text) (target : TypeTree)
  | struct (name : Text) (typeDecls : List TypeDecl) (fields : List (Text × TypeTree))

/-- What a name is declared as, with the types as they are written. -/
inductive InfoKind where
  | alias (targetRaw : TypeTree)
  | struct (fields : List (Text × TypeTree))
deriving DecidableEq

/-- A declared type. -/
structure TypeInfo where
  name : Text
  kind : InfoKind
deriving DecidableEq

/-- What the entries of the table hold that is changed while types are resolved, by their names. -/
structure Marks where
  target : Text → Option TypeTree
  resolving : Text → Bool

/-- Why the analyzer stops. -/
inductive Stop where
  | duplicate (name : Text)
  | conflictsWithBuiltin (name : Text)
  | cyclicAlias (name : Text)
  | unknownType (name : Text)
  /-- The number of aliases that may be entered is used up. -/
  | outOfFuel
deriving DecidableEq

/-- The message of an error. -/
def Stop.message : Stop → Text
  | duplicate name => "duplicate TYPE declaration '".toList ++ name ++ "'".toList
  | conflictsWithBuiltin name =>
    "TYPE name '".toList ++ name ++ "' conflicts with a built-in type".toList
  | cyclicAlias name => "cyclic TYPE alias involving '".toList ++ name ++ "'".toList
  | unknownType name => "unknown type '".toList ++ name ++ "'".toList
  | outOfFuel => []

def INT : Text := ['I', 'N', 'T']
def FLT : Text := ['F', 'L', 'T']
def BOL : Text := ['B', 'O', 'L']
def STR : Text := ['S', 'T', 'R']
def NUL : Text := ['N', 'U', 'L']
def DYN : Text := ['D', 'Y', 'N']
def OBJ : Text := ['O', 'B', 'J']

/-- The names of built-in types. -/
def isBuiltinTypeName (name : Text) : Bool :=
  name ∈ [INT, FLT, BOL, STR, NUL, ['A', 'R', 'R'], ['M', 'A', 'P'], ['R', 'E', 'F'],
    ['T', 'S', 'K']]

/-- The first entry of a name. -/
def typeFind (types : List TypeInfo) (name : Text) : Option TypeInfo :=
  types.find? fun info => info.name = name

/-- A declaration is added to the table. -/
def typePush (types : List TypeInfo) (info : TypeInfo) : Except Stop (List TypeInfo) :=
  if (typeFind types info.name).isSome then .error (.duplicate info.name)
  else if isBuiltinTypeName info.name then .error (.conflictsWithBuiltin info.name)
  else .ok (types ++ [info])

mutual

/-- A declaration is registered behind those nested in it. -/
def pushTypeDeclRecursive (types : List TypeInfo) : TypeDecl → Except Stop (List TypeInfo)
  | .alias name target => typePush types ⟨name, .alias target⟩
  | .struct name typeDecls fields => do
    typePush (← pushTypeDecls types typeDecls) ⟨name, .struct fields⟩

/-- Declarations are registered in their order. -/
def pushTypeDecls (types : List TypeInfo) : List TypeDecl → Except Stop (List TypeInfo)
  | [] => .ok types
  | decl :: decls => do pushTypeDecls (← pushTypeDeclRecursive types decl) decls

end

/-- A native type whose fields are scalars, except for headers. -/
def builtinStruct (name : String) (fields : List (String × TypeTree)) : TypeInfo :=
  ⟨name.toList, .struct (fields.map fun field => (field.1.toList, field.2))⟩

/-- The types of native modules. -/
def builtinTypes : List TypeInfo := [
  builtinStruct "HttpReq" [("method", .name STR), ("path", .name STR), ("body", .name STR),
    ("headers", .MAP (.name STR) (.name STR))],
  builtinStruct "HttpRes" [("status", .name INT), ("body", .name STR),
    ("headers", .MAP (.name STR) (.name STR))],
  builtinStruct "FileStat" [("path", .name STR), ("exists", .name BOL), ("isFile", .name BOL),
    ("isDir", .name BOL), ("size", .name INT)],
  builtinStruct "ProcResult" [("code", .name INT), ("out", .name STR), ("err", .name STR)],
  builtinStruct "SQL_DB" [("handle", .name INT)],
  builtinStruct "SQL_Exec" [("rows", .name INT), ("lastId", .name INT)]]

/-- A native type is registered unless its name is declared. -/
def ensureBuiltin (types : List TypeInfo) (info : TypeInfo) : Except Stop (List TypeInfo) :=
  if (typeFind types info.name).isSome then .ok types else typePush types info

/-- The table before types are resolved. -/
def registerTypes (decls : List TypeDecl) : Except Stop (List TypeInfo) := do
  builtinTypes.foldlM ensureBuiltin (← pushTypeDecls [] decls)

/-! ### Resolving -/

/-- Code that changes the marks, unless the analyzer stops. -/
abbrev Resolution := StateT Marks (Except Stop)

/-- The types that `resolve_type` returns as they are. -/
def isScalar (word : Text) : Bool := word ∈ [INT, FLT, BOL, STR, NUL]

/-- The canonical type of a type, by `resolve_type`, given those of declared names. -/
def resolveWith (resolveName : Text → Resolution TypeTree) : TypeTree → Resolution TypeTree
  | .name word =>
    if isScalar word then return .name word
    else if word = DYN then return .name OBJ
    else resolveName word
  | .ARR elem => do
    let elem ← resolveWith resolveName elem
    return .ARR elem
  | .MAP key value => do
    let key ← resolveWith resolveName key
    let value ← resolveWith resolveName value
    return .MAP key value
  | .REF target => do
    let target ← resolveWith resolveName target
    return .REF target
  | .TSK target => do
    let target ← resolveWith resolveName target
    return .TSK target
  | .FN input output => do
    let input ← resolveWith resolveName input
    let output ← resolveWith resolveName output
    return .FN input output

def Marks.setTarget (marks : Marks) (name : Text) (target : TypeTree) : Marks :=
  { marks with target := Function.update marks.target name (some target) }

def Marks.setResolving (marks : Marks) (name : Text) (resolving : Bool) : Marks :=
  { marks with resolving := Function.update marks.resolving name resolving }

/-- The canonical type of an alias or of a fixed map. -/
def resolveAlias (resolveType : TypeTree → Resolution TypeTree) (info : TypeInfo) :
    Resolution TypeTree :=
  match info.kind with
  | .struct _ => return .name info.name
  | .alias targetRaw => do
    let marks ← get
    match marks.target info.name with
    | some target => return target
    | none =>
      if marks.resolving info.name then throw (.cyclicAlias info.name)
      else
        modify (Marks.setResolving · info.name true)
        let target ← resolveType targetRaw
        modify (Marks.setTarget · info.name target)
        modify (Marks.setResolving · info.name false)
        return target

/-- The canonical type of a name that is not built in, where a number of aliases may be entered. -/
def resolveName (types : List TypeInfo) : ℕ → Text → Resolution TypeTree
  | 0, _ => throw .outOfFuel
  | fuel + 1, word =>
    match typeFind types word with
    | some info => resolveAlias (resolveWith (resolveName types fuel)) info
    | none => throw (.unknownType word)

/-- The canonical type of a type.  No more aliases are entered than there are entries. -/
def resolveType (types : List TypeInfo) : TypeTree → Resolution TypeTree :=
  resolveWith (resolveName types (types.length + 1))

/-- The fields of a fixed map with their types resolved. -/
def resolveFields (types : List TypeInfo) :
    List (Text × TypeTree) → Resolution (List (Text × TypeTree))
  | [] => return []
  | (name, raw) :: fields => do
    let resolved ← resolveType types raw
    let rest ← resolveFields types fields
    return (name, resolved) :: rest

/-- One round of the loop of `build_type_table`, which does not mark the alias it is at. -/
def resolveInfo (types : List TypeInfo) (info : TypeInfo) : Resolution TypeInfo :=
  match info.kind with
  | .alias targetRaw => do
    let target ← resolveType types targetRaw
    modify (Marks.setTarget · info.name target)
    return ⟨info.name, .alias target⟩
  | .struct fields => do
    let fields ← resolveFields types fields
    return ⟨info.name, .struct fields⟩

/-- The loop of `build_type_table` over some entries. -/
def resolveInfos (types : List TypeInfo) : List TypeInfo → Resolution (List TypeInfo)
  | [] => return []
  | info :: infos => do
    let resolved ← resolveInfo types info
    let rest ← resolveInfos types infos
    return resolved :: rest

/-- The marks of a table in which nothing is resolved. -/
def Marks.none : Marks := ⟨fun _ => .none, fun _ => false⟩

/-- The table of the declarations of a program, with the targets of aliases and the fields of fixed maps
resolved, and the marks in it. -/
def buildTypeTable (decls : List TypeDecl) : Except Stop (List TypeInfo × Marks) := do
  let types ← registerTypes decls
  (resolveInfos types types).run .none

/-! ### Names in types -/

/-- The names at the leaves of a type. -/
def names : TypeTree → List Text
  | .name word => [word]
  | .ARR elem => names elem
  | .MAP key value => names key ++ names value
  | .REF target => names target
  | .TSK target => names target
  | .FN input output => names input ++ names output

/-- The names of a type that are looked up in the table. -/
def lookups (t : TypeTree) : List Text :=
  (names t).filter fun word => !isScalar word && word != DYN

variable (types : List TypeInfo)

/-- An alias whose declared type has a name in it. -/
def Refers (a b : Text) : Prop :=
  ∃ raw, typeFind types a = some ⟨a, .alias raw⟩ ∧ b ∈ lookups raw

/-- The graph of the aliases has a cycle. -/
def Cyclic : Prop := ∃ a, Relation.TransGen (Refers types) a a

/-- A name is declared as an alias. -/
def IsAlias (name : Text) : Prop := ∃ raw, typeFind types name = some ⟨name, .alias raw⟩

/-- A name that is left in a resolved type: that of a scalar, `OBJ` or that of a fixed map. -/
def IsFinal (word : Text) : Prop :=
  isScalar word = true ∨ word = OBJ ∨
    (isScalar word = false ∧ word ≠ DYN ∧ ∃ fields, typeFind types word = some ⟨word, .struct fields⟩)

/-- No name of a type is left to resolve. -/
def IsResolved (t : TypeTree) : Prop := ∀ word ∈ names t, IsFinal types word

/-- No chain of references from a name is endless. -/
def Grounded (word : Text) : Prop := Acc (fun b a => Refers types a b) word

/-- The targets in the table are resolved. -/
def Sound (marks : Marks) : Prop :=
  ∀ word t, marks.target word = some t → IsResolved types t ∧ Grounded types word

/-- Marks behind others: the same aliases are being resolved, and no target is lost. -/
def Later (marks marks' : Marks) : Prop :=
  marks'.resolving = marks.resolving ∧
    ∀ word, (marks.target word).isSome → (marks'.target word).isSome

/-- The entries that may still be entered. -/
def enterable (marks : Marks) : List TypeInfo :=
  types.filter fun info => (marks.target info.name).isNone && !marks.resolving info.name

/-- Why the resolution of a name stops: a chain of references from it comes back to itself or to an
alias that is being resolved, or it ends at a name that is not declared. -/
def StopsAt (word : Text) (marks : Marks) : Stop → Prop
  | .cyclicAlias name =>
    Relation.ReflTransGen (Refers types) word name ∧
      (marks.resolving name = true ∨ Relation.TransGen (Refers types) name name)
  | .unknownType name =>
    Relation.ReflTransGen (Refers types) word name ∧ typeFind types name = none
  | _ => False

/-- Code that resolves a type ends with a resolved one and sound marks, or stops at one of its names. -/
def Resolves (raw : TypeTree) (marks : Marks) (code : Resolution TypeTree) : Prop :=
  Meets code marks
    (fun t marks' => IsResolved types t ∧ (∀ word ∈ lookups raw, Grounded types word) ∧
      Sound types marks' ∧ Later marks marks')
    fun stop => ∃ word ∈ lookups raw, StopsAt types word marks stop

variable {types}

/-! ### Marks -/

theorem Later.refl (marks : Marks) : Later marks marks := ⟨rfl, fun _ h => h⟩

theorem Later.trans {marks marks' marks'' : Marks} (h : Later marks marks')
    (h' : Later marks' marks'') : Later marks marks'' :=
  ⟨h'.1.trans h.1, fun word hword => h'.2 word (h.2 word hword)⟩

theorem Later.length_enterable_le {marks marks' : Marks} (h : Later marks marks') :
    (enterable types marks').length ≤ (enterable types marks).length := by
  apply List.Sublist.length_le
  apply List.monotone_filter_right
  intro info hinfo
  rw [Bool.and_eq_true, h.1] at hinfo
  rw [Bool.and_eq_true]
  refine ⟨?_, hinfo.2⟩
  have hkeeps := h.2 info.name
  cases htarget : marks.target info.name with
  | none => rfl
  | some t =>
    rw [htarget] at hkeeps
    have hsome := hkeeps rfl
    rw [Option.isNone_iff_eq_none] at hinfo
    rw [hinfo.1] at hsome
    cases hsome

theorem typeFind_name {word : Text} {info : TypeInfo} (h : typeFind types word = some info) :
    info.name = word := by
  simpa using List.find?_some h

/-- An entry that is entered is one less. -/
theorem length_enterable_lt {marks : Marks} {info : TypeInfo} (hinfo : info ∈ types)
    (htarget : marks.target info.name = none) (hmark : marks.resolving info.name = false) :
    (enterable types (marks.setResolving info.name true)).length <
      (enterable types marks).length := by
  have hfilter : enterable types (marks.setResolving info.name true) =
      (enterable types marks).filter fun other => other.name ≠ info.name := by
    rw [enterable, enterable, List.filter_filter]
    apply List.filter_congr
    intro other _
    by_cases hname : other.name = info.name
    · simp [Marks.setResolving, hname]
    · simp [Marks.setResolving, hname]
  rw [hfilter, List.length_filter_lt_length_iff_exists]
  refine ⟨info, ?_, by simp⟩
  rw [enterable, List.mem_filter]
  simp [hinfo, htarget, hmark]

theorem StopsAt.congr {word : Text} {marks marks' : Marks} {stop : Stop}
    (h : StopsAt types word marks' stop) (hlater : Later marks marks') :
    StopsAt types word marks stop := by
  cases stop with
  | cyclicAlias name => rwa [StopsAt, hlater.1] at h
  | _ => exact h

/-! ### Parts of types -/

theorem resolves_one {raw part : TypeTree} {marks : Marks} {code : Resolution TypeTree}
    {make : TypeTree → TypeTree} (hraw : lookups raw = lookups part)
    (hmake : ∀ t, names (make t) = names t) (h : Resolves types part marks code) :
    Resolves types raw marks (do let t ← code; return make t) := by
  rw [Resolves, hraw, meets_bind]
  apply h.mono
  · rintro t marks' ⟨ht, hrest⟩
    rw [meets_pure, IsResolved, hmake]
    exact ⟨ht, hrest⟩
  · exact fun _ h => h

theorem resolves_two {raw left right : TypeTree} {marks : Marks} {code code' : Resolution TypeTree}
    {make : TypeTree → TypeTree → TypeTree} (hraw : lookups raw = lookups left ++ lookups right)
    (hmake : ∀ t t', names (make t t') = names t ++ names t')
    (h : Resolves types left marks code)
    (h' : ∀ marks', Sound types marks' → Later marks marks' → Resolves types right marks' code') :
    Resolves types raw marks (do let t ← code; let t' ← code'; return make t t') := by
  rw [Resolves, hraw, meets_bind]
  apply h.mono
  · rintro t marks' ⟨ht, hleft, hsound, hlater⟩
    rw [meets_bind]
    apply (h' marks' hsound hlater).mono
    · rintro t' marks'' ⟨ht', hright, hsound', hlater'⟩
      rw [meets_pure, IsResolved, hmake]
      refine ⟨?_, ?_, hsound', hlater.trans hlater'⟩
      · intro word hword
        rcases List.mem_append.mp hword with hword | hword
        · exact ht word hword
        · exact ht' word hword
      · intro word hword
        rcases List.mem_append.mp hword with hword | hword
        · exact hleft word hword
        · exact hright word hword
    · rintro stop ⟨word, hword, hstop⟩
      exact ⟨word, List.mem_append_right _ hword, hstop.congr hlater⟩
  · rintro stop ⟨word, hword, hstop⟩
    exact ⟨word, List.mem_append_left _ hword, hstop⟩

theorem lookups_append {raw left right : TypeTree} (h : names raw = names left ++ names right) :
    lookups raw = lookups left ++ lookups right := by
  rw [lookups, h, List.filter_append]
  rfl

/-- A type is resolved as its names are. -/
theorem resolveWith_resolves {resolveName : Text → Resolution TypeTree} {bound : ℕ}
    (hname : ∀ word marks, isScalar word = false → word ≠ DYN → Sound types marks →
      (enterable types marks).length < bound → Resolves types (.name word) marks (resolveName word))
    (raw : TypeTree) (marks : Marks) (hsound : Sound types marks)
    (hbound : (enterable types marks).length < bound) :
    Resolves types raw marks (resolveWith resolveName raw) := by
  induction raw generalizing marks with
  | name word =>
    rw [resolveWith]
    by_cases hscalar : isScalar word = true
    · rw [if_pos hscalar, Resolves, meets_pure]
      refine ⟨?_, ?_, hsound, Later.refl marks⟩
      · intro other hother
        rw [List.mem_singleton.mp hother]
        exact Or.inl hscalar
      · intro other hother
        simp [lookups, names, hscalar] at hother
    · rw [if_neg hscalar]
      by_cases hdyn : word = DYN
      · rw [if_pos hdyn, Resolves, meets_pure]
        refine ⟨?_, ?_, hsound, Later.refl marks⟩
        · intro other hother
          rw [List.mem_singleton.mp hother]
          exact Or.inr (Or.inl rfl)
        · intro other hother
          simp [lookups, names, hdyn] at hother
      · rw [if_neg hdyn]
        exact hname word marks (by simpa using hscalar) hdyn hsound hbound
  | ARR elem ih => exact resolves_one rfl (fun _ => rfl) (ih marks hsound hbound)
  | MAP key value ihk ihv =>
    apply resolves_two (lookups_append rfl) (fun _ _ => rfl) (ihk marks hsound hbound)
    intro marks' hsound' hlater
    exact ihv marks' hsound' (lt_of_le_of_lt hlater.length_enterable_le hbound)
  | REF target ih => exact resolves_one rfl (fun _ => rfl) (ih marks hsound hbound)
  | TSK target ih => exact resolves_one rfl (fun _ => rfl) (ih marks hsound hbound)
  | FN input output ihi iho =>
    apply resolves_two (lookups_append rfl) (fun _ _ => rfl) (ihi marks hsound hbound)
    intro marks' hsound' hlater
    exact iho marks' hsound' (lt_of_le_of_lt hlater.length_enterable_le hbound)

/-! ### Names -/

theorem lookups_name {word : Text} (hscalar : isScalar word = false) (hdyn : word ≠ DYN) :
    lookups (.name word) = [word] := by
  simp [lookups, names, hscalar, hdyn]

/-- A name of a fixed map refers to nothing. -/
theorem grounded_struct {word : Text} {fields : List (Text × TypeTree)}
    (h : typeFind types word = some ⟨word, .struct fields⟩) : Grounded types word := by
  apply Acc.intro
  rintro other ⟨raw, hraw, -⟩
  rw [h] at hraw
  cases hraw

/-- An alias all of whose names are grounded is. -/
theorem grounded_alias {word : Text} {raw : TypeTree}
    (h : typeFind types word = some ⟨word, .alias raw⟩)
    (hraw : ∀ other ∈ lookups raw, Grounded types other) : Grounded types word := by
  apply Acc.intro
  rintro other ⟨raw', hraw', hother⟩
  rw [h] at hraw'
  cases hraw'
  exact hraw other hother

theorem resolveName_resolves (fuel : ℕ) (word : Text) (marks : Marks)
    (hscalar : isScalar word = false) (hdyn : word ≠ DYN) (hsound : Sound types marks)
    (hfuel : (enterable types marks).length < fuel) :
    Resolves types (.name word) marks (resolveName types fuel word) := by
  induction fuel generalizing word marks with
  | zero => omega
  | succ fuel ih =>
    rw [Resolves, lookups_name hscalar hdyn, resolveName]
    cases hfind : typeFind types word with
    | none =>
      rw [meets_throw]
      exact ⟨word, List.mem_singleton_self word, .refl, hfind⟩
    | some info =>
      obtain ⟨name, raw | fields⟩ := info
      all_goals obtain rfl : name = word := typeFind_name hfind
      · simp only [resolveAlias, meets_bind, meets_get]
        cases htarget : marks.target name with
        | some target =>
          obtain ⟨hresolved, hgrounded⟩ := hsound name target htarget
          simp only [meets_pure, List.mem_singleton, forall_eq]
          exact ⟨hresolved, hgrounded, hsound, Later.refl marks⟩
        | none =>
          by_cases hmark : marks.resolving name = true
          · simp only [hmark, if_true, meets_throw]
            exact ⟨name, List.mem_singleton_self name, .refl, Or.inl hmark⟩
          · rw [Bool.not_eq_true] at hmark
            simp only [hmark, Bool.false_eq_true, if_false, meets_bind, meets_modify, meets_pure]
            have hmem : (⟨name, .alias raw⟩ : TypeInfo) ∈ types := List.mem_of_find?_eq_some hfind
            have hless : (enterable types (marks.setResolving name true)).length < _ :=
              length_enterable_lt hmem htarget hmark
            have hrefers : ∀ other ∈ lookups raw, Refers types name other := fun other hother =>
              ⟨raw, hfind, hother⟩
            have hinner := resolveWith_resolves ih raw (marks.setResolving name true) hsound (by omega)
            apply hinner.mono
            · rintro t marks' ⟨ht, hgrounded, hsound', hresolving, hkeeps⟩
              have hname := grounded_alias hfind hgrounded
              refine ⟨ht, ?_, ?_, ?_, ?_⟩
              · simpa using hname
              · intro other t' hother
                by_cases hsame : other = name
                · subst hsame
                  simp only [Marks.setResolving, Marks.setTarget, Function.update_self,
                    Option.some.injEq] at hother
                  exact ⟨hother ▸ ht, hname⟩
                · simp only [Marks.setResolving, Marks.setTarget, Function.update_of_ne hsame]
                    at hother
                  exact hsound' other t' hother
              · funext other
                by_cases hsame : other = name
                · simp [Marks.setResolving, Marks.setTarget, hsame, hmark]
                · simp [Marks.setResolving, Marks.setTarget, hsame, hresolving]
              · intro other hother
                by_cases hsame : other = name
                · simp [Marks.setResolving, Marks.setTarget, hsame]
                · simpa [Marks.setResolving, Marks.setTarget, hsame] using hkeeps other hother
            · rintro stop ⟨other, hother, hstop⟩
              refine ⟨name, List.mem_singleton_self name, ?_⟩
              cases stop with
              | cyclicAlias last =>
                obtain ⟨hreach, hcycle⟩ := hstop
                refine ⟨.head (hrefers other hother) hreach, ?_⟩
                by_cases hsame : last = name
                · subst hsame
                  exact Or.inr (.head' (hrefers other hother) hreach)
                · simpa [Marks.setResolving, hsame] using hcycle
              | unknownType last => exact ⟨.head (hrefers other hother) hstop.1, hstop.2⟩
              | _ => exact hstop
      · simp only [resolveAlias, meets_pure, List.mem_singleton, forall_eq]
        refine ⟨?_, grounded_struct hfind, hsound, Later.refl marks⟩
        intro other hother
        rw [List.mem_singleton.mp hother]
        exact Or.inr (Or.inr ⟨hscalar, hdyn, fields, hfind⟩)

/-! ### The loop -/

/-- The types in a declaration. -/
def typesOf (info : TypeInfo) : List TypeTree :=
  match info.kind with
  | .alias target => [target]
  | .struct fields => fields.map Prod.snd

/-- A name is looked up when the types of some declarations are resolved. -/
def Mentions (infos : List TypeInfo) (word : Text) : Prop :=
  ∃ info ∈ infos, ∃ t ∈ typesOf info, word ∈ lookups t

/-- A declaration with its types resolved. -/
def ResolvedFrom (types : List TypeInfo) (info resolved : TypeInfo) : Prop :=
  resolved.name = info.name ∧ (typesOf resolved).length = (typesOf info).length ∧
    ∀ t ∈ typesOf resolved, IsResolved types t

/-- Names are declared once, and none of them is built in. -/
def Registered (types : List TypeInfo) : Prop :=
  (types.map TypeInfo.name).Nodup ∧ ∀ info ∈ types, isBuiltinTypeName info.name = false

theorem resolveType_resolves (raw : TypeTree) (marks : Marks) (hsound : Sound types marks) :
    Resolves types raw marks (resolveType types raw) := by
  apply resolveWith_resolves (resolveName_resolves _) raw marks hsound
  exact Nat.lt_succ_of_le (List.length_filter_le _ _)

theorem resolveFields_meets (fields : List (Text × TypeTree)) (marks : Marks)
    (hsound : Sound types marks) :
    Meets (resolveFields types fields) marks
      (fun out marks' => out.length = fields.length ∧ (∀ field ∈ out, IsResolved types field.2) ∧
        Sound types marks' ∧ Later marks marks')
      fun stop => ∃ t ∈ fields.map Prod.snd, ∃ word ∈ lookups t, StopsAt types word marks stop := by
  induction fields generalizing marks with
  | nil => exact ⟨rfl, by simp, hsound, Later.refl marks⟩
  | cons field fields ih =>
    obtain ⟨name, raw⟩ := field
    rw [resolveFields, meets_bind]
    apply (resolveType_resolves raw marks hsound).mono
    · rintro t marks' ⟨ht, -, hsound', hlater⟩
      rw [meets_bind]
      apply (ih marks' hsound').mono
      · rintro out marks'' ⟨hlen, hout, hsound'', hlater'⟩
        rw [meets_pure, List.length_cons, List.length_cons, hlen, List.forall_mem_cons]
        exact ⟨rfl, ⟨ht, hout⟩, hsound'', hlater.trans hlater'⟩
      · rintro stop ⟨t', ht', word, hword, hstop⟩
        exact ⟨t', List.mem_cons_of_mem _ ht', word, hword, hstop.congr hlater⟩
    · rintro stop ⟨word, hword, hstop⟩
      exact ⟨raw, List.mem_cons_self, word, hword, hstop⟩

theorem resolveInfo_meets {info : TypeInfo} (hfind : typeFind types info.name = some info)
    (marks : Marks) (hsound : Sound types marks) :
    Meets (resolveInfo types info) marks
      (fun out marks' => ResolvedFrom types info out ∧ Grounded types info.name ∧
        Sound types marks' ∧ Later marks marks')
      fun stop => ∃ word, Mentions [info] word ∧ StopsAt types word marks stop := by
  obtain ⟨name, raw | fields⟩ := info
  · simp only [resolveInfo, meets_bind, meets_modify, meets_pure]
    apply (resolveType_resolves raw marks hsound).mono
    · rintro t marks' ⟨ht, hgrounded, hsound', hresolving, hkeeps⟩
      have hname := grounded_alias hfind hgrounded
      refine ⟨⟨rfl, rfl, ?_⟩, hname, ?_, hresolving, ?_⟩
      · simpa [typesOf] using ht
      · intro other t' hother
        by_cases hsame : other = name
        · subst hsame
          simp only [Marks.setTarget, Function.update_self, Option.some.injEq] at hother
          exact ⟨hother ▸ ht, hname⟩
        · simp only [Marks.setTarget, Function.update_of_ne hsame] at hother
          exact hsound' other t' hother
      · intro other hother
        by_cases hsame : other = name
        · simp [Marks.setTarget, hsame]
        · simpa [Marks.setTarget, hsame] using hkeeps other hother
    · rintro stop ⟨word, hword, hstop⟩
      exact ⟨word, ⟨_, List.mem_singleton_self _, raw, List.mem_singleton_self raw, hword⟩, hstop⟩
  · simp only [resolveInfo, meets_bind, meets_pure]
    apply (resolveFields_meets fields marks hsound).mono
    · rintro out marks' ⟨hlen, hout, hsound', hlater⟩
      refine ⟨⟨rfl, ?_, ?_⟩, grounded_struct hfind, hsound', hlater⟩
      · simpa [typesOf] using hlen
      · intro t ht
        obtain ⟨field, hfield, rfl⟩ := List.mem_map.mp ht
        exact hout field hfield
    · rintro stop ⟨t, ht, word, hword, hstop⟩
      exact ⟨word, ⟨_, List.mem_singleton_self _, t, ht, hword⟩, hstop⟩

theorem resolveInfos_meets (infos : List TypeInfo)
    (hfind : ∀ info ∈ infos, typeFind types info.name = some info) (marks : Marks)
    (hsound : Sound types marks) :
    Meets (resolveInfos types infos) marks
      (fun out marks' => List.Forall₂ (ResolvedFrom types) infos out ∧
        (∀ info ∈ infos, Grounded types info.name) ∧ Sound types marks' ∧ Later marks marks')
      fun stop => ∃ word, Mentions infos word ∧ StopsAt types word marks stop := by
  induction infos generalizing marks with
  | nil => exact ⟨.nil, by simp, hsound, Later.refl marks⟩
  | cons info infos ih =>
    rw [List.forall_mem_cons] at hfind
    rw [resolveInfos, meets_bind]
    apply (resolveInfo_meets hfind.1 marks hsound).mono
    · rintro out marks' ⟨hout, hgrounded, hsound', hlater⟩
      rw [meets_bind]
      apply (ih hfind.2 marks' hsound').mono
      · rintro rest marks'' ⟨hrest, hgrounded', hsound'', hlater'⟩
        rw [meets_pure, List.forall_mem_cons]
        exact ⟨.cons hout hrest, ⟨hgrounded, hgrounded'⟩, hsound'', hlater.trans hlater'⟩
      · rintro stop ⟨word, ⟨other, hother, hmention⟩, hstop⟩
        exact ⟨word, ⟨other, List.mem_cons_of_mem _ hother, hmention⟩, hstop.congr hlater⟩
    · rintro stop ⟨word, ⟨other, hother, hmention⟩, hstop⟩
      rw [List.mem_singleton.mp hother] at hmention
      exact ⟨word, ⟨info, List.mem_cons_self, hmention⟩, hstop⟩

/-! ### Registered declarations -/

/-- An error of registration. -/
def Stop.OfDeclaration : Stop → Prop
  | .duplicate _ | .conflictsWithBuiltin _ => True
  | _ => False

/-- Registration ends with registered declarations or stops with an error of its own. -/
def Registers (result : Except Stop (List TypeInfo)) : Prop :=
  match result with
  | .ok types => Registered types
  | .error stop => stop.OfDeclaration

theorem registers_bind {result : Except Stop (List TypeInfo)}
    {next : List TypeInfo → Except Stop (List TypeInfo)} (h : Registers result)
    (hnext : ∀ types, Registered types → Registers (next types)) : Registers (result >>= next) := by
  cases result with
  | ok types => exact hnext types h
  | error stop => exact h

theorem registers_typePush {types : List TypeInfo} (h : Registered types) (info : TypeInfo) :
    Registers (typePush types info) := by
  rw [typePush]
  split_ifs with hfind hbuiltin
  · trivial
  · trivial
  · constructor
    · rw [List.map_append, List.nodup_append]
      refine ⟨h.1, List.nodup_singleton _, ?_⟩
      rintro name hname _ hother rfl
      rw [List.map_singleton, List.mem_singleton] at hother
      obtain ⟨other, hmem, rfl⟩ := List.mem_map.mp hname
      rw [Option.not_isSome_iff_eq_none, typeFind, List.find?_eq_none] at hfind
      exact hfind other hmem (by simpa using hother)
    · intro other hother
      rcases List.mem_append.mp hother with hold | hnew
      · exact h.2 other hold
      · rw [List.mem_singleton.mp hnew]
        simpa using hbuiltin

mutual

theorem registers_pushTypeDecl (decl : TypeDecl) {types : List TypeInfo} (h : Registered types) :
    Registers (pushTypeDeclRecursive types decl) := by
  rcases decl with ⟨name, target⟩ | ⟨name, typeDecls, fields⟩
  · exact registers_typePush h _
  · rw [pushTypeDeclRecursive]
    exact registers_bind (registers_pushTypeDecls typeDecls h) fun types' h' =>
      registers_typePush h' _

theorem registers_pushTypeDecls (decls : List TypeDecl) {types : List TypeInfo}
    (h : Registered types) : Registers (pushTypeDecls types decls) := by
  cases decls with
  | nil => exact h
  | cons decl decls =>
    rw [pushTypeDecls]
    exact registers_bind (registers_pushTypeDecl decl h) fun types' h' =>
      registers_pushTypeDecls decls h'

end

theorem registers_foldlM (infos : List TypeInfo) {types : List TypeInfo} (h : Registered types) :
    Registers (infos.foldlM ensureBuiltin types) := by
  induction infos generalizing types with
  | nil => exact h
  | cons info infos ih =>
    rw [List.foldlM_cons]
    apply registers_bind _ fun types' h' => ih h'
    rw [ensureBuiltin]
    split_ifs
    · exact h
    · exact registers_typePush h info

theorem registers_registerTypes (decls : List TypeDecl) : Registers (registerTypes decls) :=
  registers_bind (registers_pushTypeDecls decls ⟨List.nodup_nil, by simp⟩) fun _ h =>
    registers_foldlM builtinTypes h

theorem Registered.typeFind {types : List TypeInfo} (h : Registered types) {info : TypeInfo}
    (hinfo : info ∈ types) : typeFind types info.name = some info := by
  cases hfind : TypeResolution.typeFind types info.name with
  | none =>
    have hnone := List.find?_eq_none.mp hfind info hinfo
    simp at hnone
  | some other =>
    have hother := List.mem_of_find?_eq_some hfind
    rw [List.inj_on_of_nodup_map h.1 hother hinfo (typeFind_name hfind)]

/-! ### Resolved types -/

/-- A resolved type has no alias in it, unless there is one with the name `OBJ`. -/
theorem IsResolved.not_isAlias {t : TypeTree} (h : IsResolved types t) (hreg : Registered types)
    {word : Text} (hword : word ∈ names t) (hobj : word ≠ OBJ) : ¬ IsAlias types word := by
  rintro ⟨raw, hraw⟩
  rcases h word hword with hscalar | hobj' | ⟨-, -, fields, hfields⟩
  · have hbuiltin := hreg.2 _ (List.mem_of_find?_eq_some hraw)
    rw [isScalar, decide_eq_true_eq] at hscalar
    rw [isBuiltinTypeName, decide_eq_false_iff_not] at hbuiltin
    exact hbuiltin (List.mem_append_left _ hscalar)
  · exact hobj hobj'
  · rw [hraw] at hfields
    cases hfields

/-- A resolved type without dynamic values is resolved to itself. -/
theorem resolveType_of_isResolved {t : TypeTree} (h : IsResolved types t) (hobj : OBJ ∉ names t)
    (marks : Marks) : (resolveType types t).run marks = .ok (t, marks) := by
  have hfix : ∀ t : TypeTree, IsResolved types t → OBJ ∉ names t → resolveType types t = pure t := by
    intro t
    induction t with
    | name word =>
      intro h hobj
      rcases h word List.mem_cons_self with hscalar | rfl | ⟨hscalar, hdyn, fields, hfields⟩
      · simp [resolveType, resolveWith, hscalar]
      · exact absurd List.mem_cons_self hobj
      · simp [resolveType, resolveWith, hscalar, hdyn, resolveName, hfields, resolveAlias]
    | ARR elem ih =>
      intro h hobj
      have hpart := ih h hobj
      unfold resolveType at hpart ⊢
      simp [resolveWith, hpart]
    | REF target ih =>
      intro h hobj
      have hpart := ih h hobj
      unfold resolveType at hpart ⊢
      simp [resolveWith, hpart]
    | TSK target ih =>
      intro h hobj
      have hpart := ih h hobj
      unfold resolveType at hpart ⊢
      simp [resolveWith, hpart]
    | MAP key value ihk ihv =>
      intro h hobj
      simp only [names, List.mem_append, not_or] at hobj
      have hkey := ihk (fun word hword => h word (List.mem_append_left _ hword)) hobj.1
      have hvalue := ihv (fun word hword => h word (List.mem_append_right _ hword)) hobj.2
      unfold resolveType at hkey hvalue ⊢
      simp [resolveWith, hkey, hvalue]
    | FN input output ihi iho =>
      intro h hobj
      simp only [names, List.mem_append, not_or] at hobj
      have hinput := ihi (fun word hword => h word (List.mem_append_left _ hword)) hobj.1
      have houtput := iho (fun word hword => h word (List.mem_append_right _ hword)) hobj.2
      unfold resolveType at hinput houtput ⊢
      simp [resolveWith, hinput, houtput]
  rw [hfix t h hobj]
  rfl

/-! ### The table -/

/-- Behind a built table nothing is left to resolve: the aliases have no cycle, every type of the table
is resolved, and what is resolved in the table is resolved to itself, if it has no `OBJ` in it. -/
def Settled (types table : List TypeInfo) (marks : Marks) : Prop :=
  ¬ Cyclic types ∧
    List.Forall₂ (fun info resolved =>
      resolved.name = info.name ∧ (typesOf resolved).length = (typesOf info).length ∧
        ∀ t ∈ typesOf resolved, ∀ word ∈ names t, word ≠ OBJ → ¬ IsAlias types word) types table ∧
    ∀ raw t marks', (resolveType types raw).run marks = .ok (t, marks') → OBJ ∉ names t →
      (resolveType types t).run marks' = .ok (t, marks')

/-- A name with no endless chain of references is on no cycle. -/
theorem Grounded.not_cycle {a : Text} (h : Grounded types a) :
    ¬ Relation.TransGen (Refers types) a a := by
  induction h with
  | intro a _ ih =>
    intro hcycle
    obtain ⟨b, hab, hba⟩ := Relation.TransGen.head'_iff.mp hcycle
    exact ih b hab (.tail' hba hab)

theorem not_cyclic_of_grounded (h : ∀ info ∈ types, Grounded types info.name) : ¬ Cyclic types := by
  rintro ⟨a, hcycle⟩
  obtain ⟨b, ⟨raw, hraw, -⟩, -⟩ := Relation.TransGen.head'_iff.mp hcycle
  exact (h _ (List.mem_of_find?_eq_some hraw)).not_cycle hcycle

/-- Names that a chain of references from a declared type comes to are in declared types. -/
theorem mentions_of_reflTransGen {word last : Text} (h : Mentions types word)
    (hreach : Relation.ReflTransGen (Refers types) word last) : Mentions types last := by
  rcases Relation.ReflTransGen.cases_tail hreach with rfl | ⟨other, -, raw, hraw, hlast⟩
  · exact h
  · exact ⟨_, List.mem_of_find?_eq_some hraw, raw, List.mem_singleton_self raw, hlast⟩

/-- The table of some declarations is built, unless a name is declared twice or built in, the aliases have
a cycle, or a declared type has a name in it that is not declared. -/
theorem buildTypeTable_resolves (decls : List TypeDecl) :
  match registerTypes decls with
  | .error stop => buildTypeTable decls = .error stop ∧ stop.OfDeclaration
  | .ok types =>
    match buildTypeTable decls with
    | .ok (table, marks) => Settled types table marks
    | .error (.cyclicAlias name) => Relation.TransGen (Refers types) name name
    | .error (.unknownType name) => Mentions types name ∧ typeFind types name = none
    | .error _ => False
  := by
  have hregisters := registers_registerTypes decls
  have hbuild : buildTypeTable decls =
      registerTypes decls >>= fun types => (resolveInfos types types).run .none := rfl
  rw [hbuild]
  cases htypes : registerTypes decls with
  | error stop =>
    rw [htypes] at hregisters
    exact ⟨rfl, hregisters⟩
  | ok types =>
    rw [htypes] at hregisters
    have hreg : Registered types := hregisters
    have hmeets := resolveInfos_meets types (fun info hinfo => hreg.typeFind hinfo) .none
      (by rintro word t ⟨⟩)
    dsimp only [bind, Except.bind]
    cases hrun : (resolveInfos types types).run .none with
    | ok result =>
      obtain ⟨table, marks⟩ := result
      obtain ⟨htable, hgrounded, hsound, -⟩ := hmeets.ok hrun
      refine ⟨not_cyclic_of_grounded hgrounded, ?_, ?_⟩
      · apply htable.imp
        rintro info resolved ⟨hname, hlen, hresolved⟩
        exact ⟨hname, hlen, fun t ht word hword => (hresolved t ht).not_isAlias hreg hword⟩
      · intro raw t marks' hraw hobj
        obtain ⟨ht, -⟩ := (resolveType_resolves raw marks hsound).ok hraw
        exact resolveType_of_isResolved ht hobj marks'
    | error stop =>
      obtain ⟨word, hword, hstop⟩ := hmeets.error hrun
      cases stop with
      | cyclicAlias name =>
        obtain ⟨-, hmark | hcycle⟩ := hstop
        · cases hmark
        · exact hcycle
      | unknownType name => exact ⟨mentions_of_reflTransGen hword hstop.1, hstop.2⟩
      | _ => exact hstop

/-- An alias of a name that is not declared, in front of an alias of itself. -/
def unknownThenCyclic : List TypeDecl := [.alias ['A'] (.name ['B']), .alias ['C'] (.name ['C'])]

/-- An alias of the dynamic type. -/
def dynamicAlias : List TypeDecl := [.alias ['A'] (.name DYN)]

/-- An alias of the dynamic type, in front of an alias with the name that dynamic types get. -/
def aliasOfObj : List TypeDecl := [.alias ['A'] (.name DYN), .alias OBJ (.name INT)]

/-- A name that is not declared is reported in front of a cycle, the resolved alias of the dynamic type is
not resolved again, and where there is an alias `OBJ` the resolved type has this alias in it. -/
theorem not_buildTypeTable_resolves :
  (¬ ∀ decls types, registerTypes decls = .ok types →
      ((∃ name, buildTypeTable decls = .error (.cyclicAlias name)) ↔ Cyclic types)) ∧
    (¬ ∀ decls types table marks, registerTypes decls = .ok types →
      buildTypeTable decls = .ok (table, marks) → ∀ raw t marks',
        (resolveType types raw).run marks = .ok (t, marks') →
          (resolveType types t).run marks' = .ok (t, marks')) ∧
    ¬ ∀ decls types table marks, registerTypes decls = .ok types →
      buildTypeTable decls = .ok (table, marks) → ∀ resolved ∈ table, ∀ t ∈ typesOf resolved,
        ∀ word ∈ names t, ¬ IsAlias types word
  := by
  refine ⟨?_, ?_, ?_⟩
  · intro h
    obtain ⟨types, htypes, hfind⟩ : ∃ types, registerTypes unknownThenCyclic = .ok types ∧
        typeFind types ['C'] = some ⟨['C'], .alias (.name ['C'])⟩ := ⟨_, rfl, rfl⟩
    have hcycle : Cyclic types := ⟨['C'], .single ⟨_, hfind, by decide⟩⟩
    obtain ⟨name, hname⟩ := (h _ types htypes).mpr hcycle
    have hunknown : buildTypeTable unknownThenCyclic = .error (.unknownType ['B']) := rfl
    rw [hunknown] at hname
    cases hname
  · intro h
    obtain ⟨types, htypes, table, marks, htable, hraw, hagain⟩ : ∃ types,
        registerTypes dynamicAlias = .ok types ∧ ∃ table marks,
          buildTypeTable dynamicAlias = .ok (table, marks) ∧
            (resolveType types (.name DYN)).run marks = .ok (.name OBJ, marks) ∧
            (resolveType types (.name OBJ)).run marks = .error (.unknownType OBJ) :=
      ⟨_, rfl, _, _, rfl, rfl, rfl⟩
    have hresolved := h _ types table marks htypes htable _ _ _ hraw
    rw [hagain] at hresolved
    cases hresolved
  · intro h
    obtain ⟨types, htypes, table, marks, htable, hmem, halias⟩ : ∃ types,
        registerTypes aliasOfObj = .ok types ∧ ∃ table marks,
          buildTypeTable aliasOfObj = .ok (table, marks) ∧
            (⟨['A'], .alias (.name OBJ)⟩ : TypeInfo) ∈ table ∧
            typeFind types OBJ = some ⟨OBJ, .alias (.name INT)⟩ :=
      ⟨_, rfl, _, _, rfl, List.mem_cons_self, rfl⟩
    exact h _ types table marks htypes htable _ hmem (.name OBJ) List.mem_cons_self OBJ
      List.mem_cons_self ⟨_, halias⟩

end Caster.TypeResolution
