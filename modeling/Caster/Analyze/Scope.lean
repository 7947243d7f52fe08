import Caster.TypeTable

/-!
# Scopes

The symbols the analyzer keeps while it walks a function body, in the scopes it nests them
in, and the ways its walk can stop.
-/

namespace Caster

/-- Why the analyzer gives no result. -/
inductive Stop where
  /-- The program is rejected with a message. -/
  | die (message : String)
  /-- The program has a construct this model leaves out. -/
  | beyond
deriving DecidableEq, Repr

/-- A chain of two steps gives a result when both do. -/
theorem Stop.bind_ok {α β : Type} {x : Except Stop α} {f : α → Except Stop β} {b : β}
    (h : (x >>= f) = .ok b) :
  ∃ a, x = .ok a ∧ f a = .ok b
  := by
  cases x with
  | error stop => cases h
  | ok a => exact ⟨a, rfl, h⟩

/-- What the analyzer knows about the storage a name owns. -/
inductive OwnershipState where
  | UNKNOWN
  | BORROWED
  | OWNED
  | FREED
deriving DecidableEq, Repr

/-- A symbol of a scope.  The two lists are the keys the symbol's map is known to have, and
the types known for them. -/
structure Symbol where
  name : String
  type : Ty
  /-- The C expression the name stands for, when it is not its own. -/
  cExpr : Option CExpr
  ctxIndex : Option CExpr
  ctxElement : Option CExpr
  ctxElementType : Option Ty
  ctxMinDepth : ℕ
  refSourceName : Option String
  ownership : OwnershipState
  isParam : Bool
  isGlobal : Bool
  /-- The symbol was declared by a nested function. -/
  isFunction : Bool
  sourceLiteralKeys : List String
  sourceLiteralKeyTypes : List (String × Ty)

/-- A symbol with a type and nothing else known about it. -/
def Symbol.fresh (name : String) (type : Ty) : Symbol :=
  { name := name, type := type, cExpr := none, ctxIndex := none, ctxElement := none,
    ctxElementType := none, ctxMinDepth := 0, refSourceName := none, ownership := .UNKNOWN,
    isParam := false, isGlobal := false, isFunction := false, sourceLiteralKeys := [],
    sourceLiteralKeyTypes := [] }

/-- A scope: the symbols of the current block, then those of the blocks around it. -/
abbrev Scope := List (List Symbol)

/-- The symbol a name has in one block. -/
def scopeLookupCurrent (block : List Symbol) (name : String) : Option Symbol :=
  block.find? fun sym => sym.name = name

/-- The innermost symbol of a name. -/
def scopeTryResolve : Scope → String → Option Symbol
  | [], _ => none
  | block :: outer, name =>
    match scopeLookupCurrent block name with
    | some sym => some sym
    | none => scopeTryResolve outer name

end Caster
