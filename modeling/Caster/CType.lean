import Caster.TypeTable
import Caster.Library.Binary64Text

/-!
# C types

The C type `ctype` prints for a type, and the type C gives an emitted expression.  The
standard integer types are one type here: which of them an integer has changes nothing that
the emitted operators do with it.
-/

namespace Caster

/-- The C types of emitted expressions.  A `typedef` is the type it names. -/
inductive CType where
  | integer
  | double
  | bool
  | FLX_STR
  | FLX_OBJ
  | FLX_OBJARR
  | FLX_OBJMAP
  | void
  | pointer (target : CType)
  /-- The `struct` that is declared for a type. -/
  | handle (type : Ty)
deriving DecidableEq, Repr

/-- The C type of the values of a type.  A fixed `MAP` that is open at runtime is declared
as `FLX_OBJMAP`. -/
def ctype (types : TypeTable) : Ty → CType
  | .INT => .integer
  | .FLT => .double
  | .BOL => .bool
  | .STR => .FLX_STR
  | .OBJ => .FLX_OBJ
  | .OPEN => .FLX_OBJMAP
  | .REF target => .pointer (ctype types target)
  | .TSK target => .handle (.TSK target)
  | .FN input output => .handle (.FN input output)
  | .ARR elem => .handle (.ARR elem)
  | .MAP key value => .handle (.MAP key value)
  | .named name =>
    if isOpenStructType types (.named name) then .FLX_OBJMAP
    else if isStructType types (.named name) then .handle (.named name)
    else .void
  | _ => .void

/-! ### The type of a C expression -/

/-- The types an unboxing function is declared for: the scalar kinds and open maps, and the
arrays, maps and fixed `MAP`s that boxes are printed for. -/
def hasObjAs (types : TypeTable) (type : Ty) : Bool :=
  isObjScalarType type || type = .OPEN || isArrayType type || isMapType type || isStructType types type

/-- The parameters and the result of a helper function, when it is declared.  The helpers of
maps are printed for `STR` keys. -/
def CFun.signature (types : TypeTable) : CFun → Option (List CType × CType)
  | .flx_str_concat => some ([.FLX_STR, .FLX_STR], .FLX_STR)
  | .flx_str_char_at => some ([.FLX_STR, .integer], .FLX_STR)
  | .flx_objarr_get => some ([.FLX_OBJARR, .integer], .FLX_OBJ)
  | .flx_obj_as_objarr => some ([.FLX_OBJ], .FLX_OBJARR)
  | .flx_objmap_get => some ([.FLX_OBJMAP, .FLX_STR], .FLX_OBJ)
  | .flx_obj_as_objmap => some ([.FLX_OBJ], .FLX_OBJMAP)
  | .objAsFn type => if hasObjAs types type then some ([.FLX_OBJ], ctype types type) else none
  | .mapGet (.MAP .STR value) =>
    some ([ctype types (.MAP .STR value), .FLX_STR], ctype types value)
  | .mapGet _ => none
  | .jsonDecodeFn type =>
    if isStructType types type || isMapType type then some ([.FLX_OBJMAP], ctype types type)
    else if isArrayType type then some ([.FLX_OBJARR], ctype types type)
    else none

/-- The type of a constant printed with the format `%.17g`: infinity is printed as a name. -/
def fltConstType : Magnitude → Option CType
  | .finite x => some (if (Numeral.printG 17 x.toRat).isInteger then .integer else .double)
  | .infinite => none

/-- The fields of the structures that are declared for types. -/
def memberType (types : TypeTable) (object : CType) (field : String) : Option CType :=
  match object with
  | .handle (.ARR elem) => if field = "data" then some (.pointer (ctype types elem)) else none
  | .handle (.named name) =>
    (structField types (.named name) field).map fun field => ctype types field.declaredType
  | _ => none

/-- C's conversions of the operands of arithmetic: to `double` when one of them is. -/
def arithmeticType (left right : CType) : Option CType :=
  match left, right with
  | .integer, .integer => some .integer
  | .double, .integer | .integer, .double | .double, .double => some .double
  | _, _ => none

/-- The type of a binary operation; the remainder is not defined on `double`. -/
def binaryType (op : String) (left right : CType) : Option CType :=
  if op = "%" then
    if left = .integer ∧ right = .integer then some .integer else none
  else arithmeticType left right

/-- The type C gives an expression, where `declared` types the names. -/
def CExpr.typeOf (types : TypeTable) (declared : String → Option CType) : CExpr → Option CType
  | .intConst _ => some .integer
  | .fltConst value => fltConstType value
  | .boolConst _ => some .bool
  | .strLit _ => some .FLX_STR
  | .null => some (.pointer .void)
  | .ident name => declared name
  | .other _ type => some (ctype types type)
  | .member object field => (object.typeOf types declared).bind fun t => memberType types t field
  | .subscript object index =>
    match object.typeOf types declared, index.typeOf types declared with
    | some (.pointer t), some .integer => some t
    | _, _ => none
  | .deref e =>
    match e.typeOf types declared with
    | some (.pointer t) => some t
    | _ => none
  | .addressOf e => (e.typeOf types declared).map .pointer
  | .unary op e =>
    match op, e.typeOf types declared with
    | "-", some .integer => some .integer
    | "-", some .double => some .double
    | _, _ => none
  | .binary op left right =>
    match left.typeOf types declared, right.typeOf types declared with
    | some l, some r => binaryType op l r
    | _, _ => none
  | .conditional _ value right =>
    match value.typeOf types declared, right.typeOf types declared with
    | some t, some u => if t = u then some t else arithmeticType t u
    | _, _ => none
  | .call fn [a] =>
    match fn.signature types, a.typeOf types declared with
    | some ([p], result), some t => if t = p then some result else none
    | _, _ => none
  | .call fn [a, b] =>
    match fn.signature types, a.typeOf types declared, b.typeOf types declared with
    | some ([p, q], result), some t, some u => if t = p ∧ u = q then some result else none
    | _, _, _ => none
  | .call _ _ => none

end Caster
