import Caster.CType
import Caster.Emit.Collect
import Caster.Library.DeclarationOrder

/-!
# Type declarations in C

The lines of an emitted file that declare types, and those that use them: the helpers of
collections and of fixed `MAP`s, variables, and functions.  A name is the type it is printed
for.
-/

namespace Caster

open DeclarationOrder

/-- A line of an emitted file, with the type names in it. -/
abbrev CLine := Line CType

/-- The type under some pointers. -/
def CType.base : CType → CType
  | .pointer target => target.base
  | type => type

/-- The name that `ctype` prints for a type. -/
def mentionOf (types : TypeTable) (type : Ty) : CType := (ctype types type).base

/-- The type whose layout the values of a type have, unless they are pointers. -/
def layoutOf (types : TypeTable) (type : Ty) : List CType :=
  if isRefType type then [] else [ctype types type]

/-- A line that stores a value of a type. -/
def storageLine (types : TypeTable) (type : Ty) : CLine :=
  ⟨[mentionOf types type], layoutOf types type, [], []⟩

/-! ### The runtimes -/

/-- The types of the headers; `void` has no layout. -/
def headerScope : DeclarationOrder.Scope CType where
  declared := [.integer, .double, .bool, .void]
  complete := [.integer, .double, .bool]

def emitStrRuntime (ctx : EmitCtx) : List CLine :=
  if ctx.usesStr then [⟨[], [], [.FLX_STR], [.FLX_STR]⟩] else []

def emitOpenRuntime (ctx : EmitCtx) : List CLine :=
  if ctx.usesOpen then [
    ⟨[], [], [.FLX_OBJ], []⟩,
    ⟨[.FLX_OBJ], [], [.FLX_OBJARR], [.FLX_OBJARR]⟩,
    ⟨[.FLX_STR, .FLX_OBJARR], [.FLX_STR, .FLX_OBJARR], [], [.FLX_OBJ]⟩,
    ⟨[.FLX_STR, .FLX_OBJ], [.FLX_STR, .FLX_OBJ], [], []⟩,
    ⟨[], [], [.FLX_OBJMAP], [.FLX_OBJMAP]⟩]
  else []

/-! ### The types of a program -/

/-- The forward declaration of a fixed `MAP`.  One that is open at runtime is another name of
`FLX_OBJMAP`. -/
def structForward (info : TypeInfo) : List CLine :=
  match info.kind with
  | .struct _ true => [⟨[.FLX_OBJMAP], [], [], []⟩]
  | .struct _ false => [⟨[], [], [.handle (.named info.name)], []⟩]
  | .alias _ _ => []

def emitStructForwards (types : TypeTable) : List CLine := types.flatMap structForward

/-- The only tasks there is a type for are those of responses. -/
def httpResTask : Ty := .TSK (.named "HttpRes")

def emitTaskTypes (ctx : EmitCtx) : List CLine :=
  if ctx.usesReq then [⟨[], [], [.handle httpResTask], [.handle httpResTask]⟩] else []

/-- The declaration of a type, which mentions other types. -/
def typeLine (types : TypeTable) (parts : Ty → List Ty) (type : Ty) : CLine :=
  ⟨(parts type).map (mentionOf types), [], [.handle type], [.handle type]⟩

/-- The types a function type mentions. -/
def fnParts : Ty → List Ty
  | .FN input output => [output, input]
  | _ => []

/-- The type an array type mentions. -/
def arrayParts : Ty → List Ty
  | .ARR elem => [elem]
  | _ => []

/-- The maps there is a type for are those with `STR` keys. -/
def isStrMap : Ty → Bool
  | .MAP .STR _ => true
  | _ => false

def emitFnTypeDecls (types : TypeTable) (fnTypes : List Ty) : List CLine :=
  fnTypes.map (typeLine types fnParts)

def emitArrayTypes (types : TypeTable) (arrayTypes : List Ty) : List CLine :=
  arrayTypes.map (typeLine types arrayParts)

def emitMapTypeDecls (types : TypeTable) (mapTypes : List Ty) : List CLine :=
  (mapTypes.filter isStrMap).map (typeLine types fun _ => [])

/-- The fixed `MAP`s that have fields in C, in the order of the table. -/
def closedStructs (types : TypeTable) : List (String × List Field) :=
  types.filterMap fun info =>
    match info.kind with
    | .struct fields false => some (info.name, fields)
    | _ => none

/-- The definition of a fixed `MAP`. -/
def structDef (types : TypeTable) (struct : String × List Field) : CLine :=
  ⟨struct.2.map fun field => mentionOf types field.declaredType,
    struct.2.flatMap fun field => layoutOf types field.declaredType, [], [.handle (.named struct.1)]⟩

def emitStructDefs (types : TypeTable) : List CLine := (closedStructs types).map (structDef types)

/-! ### The lines behind the types -/

/-- The entries of a map. -/
def mapRuntime (types : TypeTable) : Ty → List CLine
  | .MAP .STR value => [storageLine types .STR, storageLine types value]
  | _ => []

/-- The elements of an array. -/
def arrayHelper (types : TypeTable) : Ty → List CLine
  | .ARR elem => [storageLine types elem]
  | _ => []

/-- The copy of what a field refers to, where it is not a fixed `MAP` with a helper of its own. -/
def refFieldCopy (types : TypeTable) (field : Field) : List CLine :=
  match field.declaredType with
  | .REF target => if isStructType types target then [] else [storageLine types target]
  | _ => []

/-- The copy of a fixed `MAP`. -/
def structCopyHelper (types : TypeTable) (struct : String × List Field) : List CLine :=
  struct.2.flatMap (refFieldCopy types)

/-- A variable or a function of the program. -/
def useLine (types : TypeTable) : TypeUse → List CLine
  | .storage type => [storageLine types type]
  | .result type =>
    if ctype types type = .void then [⟨[.void], [], [], []⟩] else [storageLine types type]
  | _ => []

/-! ### The file -/

/-- How many array types a type is nested in. -/
def depthType : Ty → ℕ
  | .ARR elem => depthType elem + 1
  | _ => 0

/-- The lines that declare types, where `arrays` are the array types as they were sorted. -/
def emitTypes (types : TypeTable) (ctx : EmitCtx) (arrays : List Ty) : List CLine :=
  emitStrRuntime ctx ++ emitOpenRuntime ctx ++ emitStructForwards types ++ emitTaskTypes ctx ++
    emitFnTypeDecls types ctx.fnTypes ++ emitArrayTypes types arrays ++
    emitMapTypeDecls types ctx.mapTypes ++ emitStructDefs types

/-- The lines that use types. -/
def emitTypeUses (types : TypeTable) (ctx : EmitCtx) (arrays : List Ty) (uses : List TypeUse) : List CLine :=
  ctx.mapTypes.flatMap (mapRuntime types) ++ arrays.flatMap (arrayHelper types) ++
    (closedStructs types).flatMap (structCopyHelper types) ++ uses.flatMap (useLine types)

/-- Every type name is declared before the lines that mention it, and complete before those
that use its layout, in whatever order `qsort` leaves the array types of one depth. -/
def DeclaredInOrder (types : TypeTable) (p : Program) : Prop :=
  ∀ arrays, arrays.Perm (collect types p).arrayTypes →
    arrays.Pairwise (fun left right => depthType left ≤ depthType right) →
    WellOrdered headerScope
      (emitTypes types (collect types p) arrays ++ emitTypeUses types (collect types p) arrays (p.uses types))

/-- The table of a program: that of its declarations, with some types open at runtime. -/
def Program.typeTable (p : Program) : Except TypeError TypeTable := do
  return p.opened.foldl markStructOpen (← buildTypeTable p.typeDecls)

end Caster
