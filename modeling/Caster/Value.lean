import Caster.TypeTable

/-!
# Runtime values

The values of the emitted program, with the heap blocks they point to.  A block is named by
the number `malloc` gave it, so a value shows which blocks it holds and two values share a
block when they hold the same number.

The value behind a pointer is written at the pointer.  A reference that nothing follows may
be cut short, so a cyclic structure is presented by any unfolding that reaches as far as
the code under study does.
-/

namespace Caster

/-- A heap block. -/
abbrev Loc := ℕ

/-- The text of a string key with the block it owns, if it owns one. -/
structure Key where
  buffer : Option Loc
  text : String
deriving DecidableEq, Repr

/-- A runtime value.  A boxed value, of type `OBJ`, is the value it boxes: its kind is the
constructor, with `nul` for the kind `NIL`, `objmap` for the kind `MAP` and `box` for the
kind `BOX`. -/
inductive Val where
  | int (value : ℤ)
  | flt (bits : BitVec 64)
  | bol (value : Bool)
  | nul
  /-- A string, with the block it owns unless it is a literal or a slice. -/
  | str (buffer : Option Loc) (text : String)
  /-- An array header: the element block, unless it is null, and the elements in use. -/
  | arr (data : Option Loc) (elems : List Val)
  /-- A map header: the table, unless it is null, and its entries. -/
  | map (raw : Option Loc) (entries : List (Key × Val))
  /-- The header of an open map, whose entries hold boxed values. -/
  | objmap (raw : Option Loc) (entries : List (Key × Val))
  /-- A fixed `MAP` value: its fields in the order of their declaration. -/
  | struct (fields : List Val)
  | refNull
  /-- A reference, with the owner flag of the field that holds it. -/
  | ref (owned : Bool) (loc : Loc) (target : Val)
  /-- A task handle. -/
  | tsk (task : Option Loc)
  | fn (name : String)
  /-- A boxed copy of a value of some other type. -/
  | box (ptr : Loc) (contents : Val)
deriving Repr

mutual

/-- The blocks a value holds, those behind its pointers included. -/
def Val.locs : Val → List Loc
  | .str buffer _ => buffer.toList
  | .arr data elems => data.toList ++ locsList elems
  | .map raw entries => raw.toList ++ locsEntries entries
  | .objmap raw entries => raw.toList ++ locsEntries entries
  | .struct fields => locsList fields
  | .ref _ loc target => loc :: target.locs
  | .tsk task => task.toList
  | .box ptr contents => ptr :: contents.locs
  | _ => []

/-- The blocks of a list of values. -/
def Val.locsList : List Val → List Loc
  | [] => []
  | v :: vs => v.locs ++ locsList vs

/-- The blocks of the entries of a map. -/
def Val.locsEntries : List (Key × Val) → List Loc
  | [] => []
  | (key, v) :: entries => key.buffer.toList ++ v.locs ++ locsEntries entries

end

end Caster
