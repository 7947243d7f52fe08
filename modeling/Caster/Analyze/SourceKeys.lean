import Caster.Analyze.Scope
import Caster.Library.Assoc

/-!
# Source-literal keys

The facts the analyzer keeps about the keys of maps: which keys an expression's value is
known to have, and with which types, read off the literals in it and off the symbols it
names.
-/

namespace Caster

/-! ### Sets of facts -/

/-- A key is added once. -/
def pushUniqueString (keys : List String) (key : String) : List String :=
  if key ∈ keys then keys else keys ++ [key]

/-- The type known for a key. -/
def sourceKeyTypeFind (facts : List (String × Ty)) (key : String) : Option Ty :=
  Assoc.get facts key

/-- The type known for a key is set. -/
def sourceKeyTypeSet (facts : List (String × Ty)) (key : String) (type : Ty) : List (String × Ty) :=
  Assoc.set facts key type

/-- The fact about a key is dropped. -/
def sourceKeyTypeRemove (facts : List (String × Ty)) (key : String) : List (String × Ty) :=
  Assoc.erase facts key

/-! ### Collecting facts -/

/-- The value declared for an alias of a map type. -/
def mapAliasValue (types : TypeTable) (name : String) : Option Expr :=
  match typeFind types name with
  | some ⟨_, .alias target value⟩ => if isMapType target then value else none
  | _ => none

/-- `collect_source_literal_keys`, where `declared` collects from the value of an alias. -/
def collectKeysWith (scope : Scope) (declared : String → List String → List String) :
    Expr → List String → List String
  | .mapLiteral _ entries, keys =>
    entries.foldl (fun keys entry => match entry.1 with
      | .str _ text => pushUniqueString keys text
      | _ => keys) keys
  | .recordLiteral _ fields, keys =>
    fields.foldl (fun keys field => pushUniqueString keys field.1) keys
  | .name _ name, keys =>
    match scopeTryResolve scope name with
    | some sym => sym.sourceLiteralKeys.foldl pushUniqueString keys
    | none => declared name keys
  | .binary _ .add left right, keys =>
    collectKeysWith scope declared right (collectKeysWith scope declared left keys)
  | _, keys => keys

/-- The keys of the value of an alias, through at most `depth` aliases. -/
def aliasKeys (types : TypeTable) (scope : Scope) : ℕ → String → List String → List String
  | 0, _, keys => keys
  | depth + 1, name, keys =>
    match mapAliasValue types name with
    | some value => collectKeysWith scope (aliasKeys types scope depth) value keys
    | none => keys

/-- The keys an expression's value is known to have. -/
def collectSourceLiteralKeys (types : TypeTable) (scope : Scope) (e : Expr)
    (keys : List String) : List String :=
  collectKeysWith scope (aliasKeys types scope types.length) e keys

/-- `collect_source_literal_key_types`, where `declared` collects for a declared name. -/
def collectKeyTypesWith (scope : Scope)
    (declared : String → List (String × Ty) → List (String × Ty)) :
    Expr → List (String × Ty) → List (String × Ty)
  | .mapLiteral _ entries, facts =>
    entries.foldl (fun facts entry => match entry.1 with
      | .str _ text => sourceKeyTypeSet facts text entry.2.checkedType
      | _ => facts) facts
  | .recordLiteral _ fields, facts =>
    fields.foldl (fun facts field => sourceKeyTypeSet facts field.1 field.2.checkedType) facts
  | .name _ name, facts =>
    match scopeTryResolve scope name with
    | some sym =>
      sym.sourceLiteralKeyTypes.foldl (fun facts fact => sourceKeyTypeSet facts fact.1 fact.2) facts
    | none => declared name facts
  | .binary _ .add left right, facts =>
    collectKeyTypesWith scope declared right (collectKeyTypesWith scope declared left facts)
  | _, facts => facts

/-- The facts of a declared name, through at most `depth` aliases: those of an alias's
value, or the fields of a fixed `MAP`. -/
def declaredKeyTypes (types : TypeTable) (scope : Scope) :
    ℕ → String → List (String × Ty) → List (String × Ty)
  | 0, _, facts => facts
  | depth + 1, name, facts =>
    match mapAliasValue types name with
    | some value => collectKeyTypesWith scope (declaredKeyTypes types scope depth) value facts
    | none =>
      match typeFind types name with
      | some ⟨_, .struct fields _⟩ =>
        fields.foldl (fun facts field => sourceKeyTypeSet facts field.name field.declaredType) facts
      | _ => facts

/-- The types known for the keys of an expression's value. -/
def collectSourceLiteralKeyTypes (types : TypeTable) (scope : Scope) (e : Expr)
    (facts : List (String × Ty)) : List (String × Ty) :=
  collectKeyTypesWith scope (declaredKeyTypes types scope (types.length + 1)) e facts

/-- An expression is known to have a key. -/
def exprHasSourceLiteralKey (types : TypeTable) (scope : Scope) (e : Expr) (key : String) : Bool :=
  key ∈ collectSourceLiteralKeys types scope e []

/-- The type known for a key of an expression. -/
def exprSourceLiteralKeyType (types : TypeTable) (scope : Scope) (e : Expr) (key : String) :
    Option Ty :=
  sourceKeyTypeFind (collectSourceLiteralKeyTypes types scope e []) key

end Caster
