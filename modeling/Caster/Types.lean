import Mathlib.Tactic

/-!
# Types

The canonical types of the compiler.  The source keeps a type as the text that
`resolve_type` returns, such as `ARR[STR]` or `MAP[STR,INT]`; here it is the tree that text
spells.  `DYN` resolves to `OBJ`, the record literals of no declared type have the type
`OPEN`, and a declared fixed `MAP` is referred to by its name.
-/

namespace Caster

/-- A canonical type. -/
inductive Ty where
  | INT
  | FLT
  | BOL
  | STR
  | NUL
  | OBJ
  | OPEN
  /-- The type of a shape literal such as `[10x10]`. -/
  | SHAPE
  /-- The marker `?` of a type that is not inferred yet. -/
  | unknown
  | ARR (elem : Ty)
  | MAP (key value : Ty)
  | REF (target : Ty)
  | TSK (target : Ty)
  | FN (input output : Ty)
  /-- The pseudo-type of a loop frame over elements of a type. -/
  | CTX (elem : Ty)
  /-- A type declared under a name. -/
  | named (name : String)
deriving DecidableEq, Repr, Inhabited

/-- The text of a type, as messages show it. -/
def Ty.text : Ty → String
  | .INT => "INT"
  | .FLT => "FLT"
  | .BOL => "BOL"
  | .STR => "STR"
  | .NUL => "NUL"
  | .OBJ => "OBJ"
  | .OPEN => "OPEN"
  | .SHAPE => "SHAPE"
  | .unknown => "?"
  | .ARR elem => "ARR[" ++ elem.text ++ "]"
  | .MAP key value => "MAP[" ++ key.text ++ "," ++ value.text ++ "]"
  | .REF target => "REF[" ++ target.text ++ "]"
  | .TSK target => "TSK[" ++ target.text ++ "]"
  | .FN input output => "FN[" ++ input.text ++ "->" ++ output.text ++ "]"
  | .CTX elem => "CTX[" ++ elem.text ++ "]"
  | .named name => name

/-! ### The type predicates of the syntax tree -/

def isArrayType : Ty → Bool
  | .ARR _ => true
  | _ => false

def isMapType : Ty → Bool
  | .MAP _ _ => true
  | _ => false

def isRefType : Ty → Bool
  | .REF _ => true
  | _ => false

def isTaskType : Ty → Bool
  | .TSK _ => true
  | _ => false

def isFnType : Ty → Bool
  | .FN _ _ => true
  | _ => false

/-- The target of a reference type. -/
def refTargetType : Ty → Ty
  | .REF target => target
  | _ => .unknown

/-- The type checked where a reference is read through. -/
def autoDerefType (type : Ty) : Ty :=
  match type with
  | .REF target => target
  | type => type

/-- The scalar types a boxed value holds directly. -/
def isObjScalarType (type : Ty) : Bool :=
  type = .INT || type = .FLT || type = .BOL || type = .STR

end Caster
