import Mathlib.Logic.Relation
import Caster.Emit.Copy
import Caster.Emit.Drop

/-!
# In-place operations on one of two variables

Two variables `x` and `y` of the emitted program may hold the same heap blocks.  An
operation on `x` either changes what is stored in the variable itself, or writes to the
contents of a block the variable holds: the slots of an array, or the entries of a map
table through the variables of a loop over it.  A write to a block is seen by every holder
of the block.
-/

namespace Caster

/-! ### The parts of a value -/

/-- A value holds another, through any number of elements, entries, fields and pointers. -/
inductive Holds : Val → Val → Prop where
  | refl (v : Val) : Holds v v
  | elem {data : Option Loc} {elems : List Val} {v u : Val} (hv : v ∈ elems)
      (h : Holds v u) : Holds (.arr data elems) u
  | entry {raw : Option Loc} {entries : List (Key × Val)} {key : Key} {v u : Val}
      (hv : (key, v) ∈ entries) (h : Holds v u) : Holds (.map raw entries) u
  | objEntry {raw : Option Loc} {entries : List (Key × Val)} {key : Key} {v u : Val}
      (hv : (key, v) ∈ entries) (h : Holds v u) : Holds (.objmap raw entries) u
  | field {fields : List Val} {v u : Val} (hv : v ∈ fields) (h : Holds v u) :
      Holds (.struct fields) u
  | target {owned : Bool} {loc : Loc} {v u : Val} (h : Holds v u) : Holds (.ref owned loc v) u
  | contents {ptr : Loc} {v u : Val} (h : Holds v u) : Holds (.box ptr v) u

/-! ### Writes to a block -/

/-- The contents written to a block. -/
inductive Contents where
  | slots (elems : List Val)
  | entries (entries : List (Key × Val))
  | objEntries (entries : List (Key × Val))

/-- A holder's view of a block after its first items were written. -/
def overwrite {α : Type} (new old : List α) : List α :=
  new.take old.length ++ old.drop new.length

/-- The slots of an array after a write to the block `loc`. -/
def Contents.slotsAt (contents : Contents) (loc : Loc) (data : Option Loc)
    (elems : List Val) : List Val :=
  match contents with
  | .slots new => if data = some loc then overwrite new elems else elems
  | _ => elems

/-- The entries of a map after a write to the block `loc`. -/
def Contents.entriesAt (contents : Contents) (loc : Loc) (raw : Option Loc)
    (entries : List (Key × Val)) : List (Key × Val) :=
  match contents with
  | .entries new => if raw = some loc then overwrite new entries else entries
  | _ => entries

/-- The entries of an open map after a write to the block `loc`. -/
def Contents.objEntriesAt (contents : Contents) (loc : Loc) (raw : Option Loc)
    (entries : List (Key × Val)) : List (Key × Val) :=
  match contents with
  | .objEntries new => if raw = some loc then overwrite new entries else entries
  | _ => entries

mutual

/-- A value after a write to the block `loc`, wherever the value holds the block. -/
def poke (loc : Loc) (contents : Contents) : Val → Val
  | .arr data elems => .arr data (contents.slotsAt loc data (pokeList loc contents elems))
  | .map raw entries =>
    .map raw (contents.entriesAt loc raw (pokeEntries loc contents entries))
  | .objmap raw entries =>
    .objmap raw (contents.objEntriesAt loc raw (pokeEntries loc contents entries))
  | .struct fields => .struct (pokeList loc contents fields)
  | .ref owned ptr target => .ref owned ptr (poke loc contents target)
  | .box ptr v => .box ptr (poke loc contents v)
  | v => v

def pokeList (loc : Loc) (contents : Contents) : List Val → List Val
  | [] => []
  | v :: vs => poke loc contents v :: pokeList loc contents vs

def pokeEntries (loc : Loc) (contents : Contents) : List (Key × Val) → List (Key × Val)
  | [] => []
  | (key, v) :: entries => (key, poke loc contents v) :: pokeEntries loc contents entries

end

/-! ### The types of the copied values -/

mutual

/-- A value of a type built from numbers, truth values, strings, arrays, maps with string
keys and fixed `MAP` types. -/
def builtValue (types : TypeTable) (type : Ty) : Val → Bool
  | .int _ => type = .INT
  | .flt _ => type = .FLT
  | .bol _ => type = .BOL
  | .str _ _ => type = .STR
  | .arr _ elems =>
    match type with
    | .ARR elem => builtList types elem elems
    | _ => false
  | .map _ entries =>
    match type with
    | .MAP .STR value => builtEntries types value entries
    | _ => false
  | .objmap _ _ => isOpenStructType types type
  | .struct vals =>
    match structOf types type with
    | some (fields, false) => builtFields types fields vals
    | _ => false
  | _ => false

def builtList (types : TypeTable) (elem : Ty) : List Val → Bool
  | [] => true
  | v :: vs => builtValue types elem v && builtList types elem vs

def builtEntries (types : TypeTable) (value : Ty) : List (Key × Val) → Bool
  | [] => true
  | (_, v) :: entries => builtValue types value v && builtEntries types value entries

def builtFields (types : TypeTable) : List Field → List Val → Bool
  | [], [] => true
  | field :: fields, v :: vs =>
    builtValue types field.declaredType v && builtFields types fields vs
  | _, _ => false

end

/-! ### Operations on the first variable -/

/-- A value of a map of either variable, which a joined map shares unless it is a string. -/
def JoinedValue (x y w : Val) : Prop :=
  (∀ buffer text, w ≠ .str buffer text) ∧
    ∃ raw entries key, (Holds x (.map raw entries) ∨ Holds y (.map raw entries)) ∧
      (key, w) ∈ entries

/-- A value of an open map of either variable, which a joined open map shares. -/
def JoinedObj (x y w : Val) : Prop :=
  ∃ raw entries key, (Holds x (.objmap raw entries) ∨ Holds y (.objmap raw entries)) ∧
    (key, w) ∈ entries

/-- A value that an expression hands to an operation on `x`: one of fresh blocks, a copy of
a part of either variable, or a fresh array, map or fixed `MAP` of such values.  The values
of a joined map stay those of the maps it is joined from. -/
inductive Stored (types : TypeTable) (x y : Val) : Val → Prop where
  | fresh (w : Val) (h : ∀ a ∈ w.locs, a ∉ y.locs) : Stored types x y w
  | copy (u : Val) (type : Ty) (n : ℕ) (hu : Holds x u ∨ Holds y u)
      (htype : builtValue types type u = true) (hn : ∀ a, n ≤ a → a ∉ y.locs) :
      Stored types x y (copyVal types .copy type u n).1
  | arr (loc : Loc) (elems : List Val) (hloc : loc ∉ y.locs)
      (h : ∀ w ∈ elems, Stored types x y w) : Stored types x y (.arr (some loc) elems)
  | map (loc : Loc) (entries : List (Key × Val)) (hloc : loc ∉ y.locs)
      (hkeys : ∀ entry ∈ entries, ∀ a ∈ entry.1.buffer, a ∉ y.locs)
      (hvals : ∀ entry ∈ entries, ¬ JoinedValue x y entry.2 → Stored types x y entry.2) :
      Stored types x y (.map (some loc) entries)
  | objmap (loc : Loc) (entries : List (Key × Val)) (hloc : loc ∉ y.locs)
      (hvals : ∀ entry ∈ entries, ¬ JoinedObj x y entry.2 → Stored types x y entry.2) :
      Stored types x y (.objmap (some loc) entries)
  | struct (fields : List Val) (h : ∀ w ∈ fields, Stored types x y w) :
      Stored types x y (.struct fields)

/-- What an operation on `x` may leave where a value was: the value itself, another value
stored over it, a shortened array, or a fixed `MAP` with one field edited. -/
inductive Edit (types : TypeTable) (x y : Val) : Val → Val → Prop where
  | keep (v : Val) : Edit types x y v v
  | store (v w : Val) (h : Stored types x y w) : Edit types x y v w
  | truncate (data : Option Loc) (elems : List Val) (len : ℕ) :
      Edit types x y (.arr data elems) (.arr data (elems.take len))
  | field (before after : List Val) (v w : Val) (h : Edit types x y v w) :
      Edit types x y (.struct (before ++ v :: after)) (.struct (before ++ w :: after))

/-- One operation on the first of two variables.  The slots written to an array and the
entries written to a map table are edits of those the operation finds there: an in-place
filter moves some of them, an assignment edits one. -/
inductive Step (types : TypeTable) : Val × Val → Val × Val → Prop where
  | edit {x y x' : Val} (h : Edit types x y x x') : Step types (x, y) (x', y)
  | slots {x y : Val} {loc : Loc} {elems new : List Val}
      (hheld : Holds x (.arr (some loc) elems)) (hne : elems ≠ [])
      (hnew : ∀ w ∈ new, ∃ v ∈ elems, Edit types x y v w) :
      Step types (x, y) (poke loc (.slots new) x, poke loc (.slots new) y)
  | entries {x y : Val} {loc : Loc} {old new : List (Key × Val)}
      (hheld : Holds x (.map (some loc) old)) (hne : old ≠ [])
      (hnew : ∀ entry ∈ new, ∃ entry' ∈ old,
        (entry.1 = entry'.1 ∨ ∀ a ∈ entry.1.buffer, a ∉ y.locs) ∧
          Edit types x y entry'.2 entry.2) :
      Step types (x, y) (poke loc (.entries new) x, poke loc (.entries new) y)
  | objEntries {x y : Val} {loc : Loc} {old new : List (Key × Val)}
      (hheld : Holds x (.objmap (some loc) old)) (hne : old ≠ [])
      (hnew : ∀ entry ∈ new, ∃ entry' ∈ old, Edit types x y entry'.2 entry.2) :
      Step types (x, y) (poke loc (.objEntries new) x, poke loc (.objEntries new) y)

/-- Whatever operations run on `x`, they leave `y` as it is, and dropping `x` after them
frees no block that `y` holds. -/
def Independent (types : TypeTable) (type : Ty) (x y : Val) : Prop :=
  ∀ x' y', Relation.ReflTransGen (Step types) (x, y) (x', y') →
    y' = y ∧ ∀ a ∈ dropVal types type x', a ∉ y.locs

/-- The copy of a value is a value of its own: neither the operations on the value nor those
on its copy can be observed through the other. -/
def ValueSemantics (types : TypeTable) (type : Ty) (v : Val) (n : ℕ) : Prop :=
  Independent types type v (copyVal types .copy type v n).1 ∧
    Independent types type (copyVal types .copy type v n).1 v

end Caster
