import Caster.Types
import Caster.Library.Binary64

/-!
# Emitted C expressions

The emitter prints C text.  The part of it that other expressions are built over is kept as
a tree: the C expression the text parses to, with the generated helper functions named by
the type and operation they were printed for.
-/

namespace Caster

/-- The helper functions a printed call may name, some by the emitter's function that names
them. -/
inductive CFun where
  | flx_str_concat
  | flx_str_char_at
  | flx_objarr_get
  | flx_obj_as_objarr
  | flx_objmap_get
  | flx_obj_as_objmap
  /-- The unboxing function that `obj_as_fn` names. -/
  | objAsFn (type : Ty)
  /-- The helper of a map type that `map_fn(type, "get")` names. -/
  | mapGet (type : Ty)
  /-- The decoder that `json_decode_fn` names. -/
  | jsonDecodeFn (type : Ty)
deriving DecidableEq, Repr

/-- A C expression. -/
inductive CExpr where
  | intConst (value : ℤ)
  /-- A constant printed with the format `%.17g`. -/
  | fltConst (value : Magnitude)
  | boolConst (value : Bool)
  /-- A string value over a literal, `flx_str_lit("..", n)`. -/
  | strLit (text : String)
  | null
  | ident (name : String)
  /-- An expression this model does not look into, with the type it was printed for. -/
  | other (text : String) (type : Ty)
  | member (object : CExpr) (field : String)
  | subscript (object index : CExpr)
  | deref (e : CExpr)
  | addressOf (e : CExpr)
  | unary (op : String) (e : CExpr)
  | binary (op : String) (left right : CExpr)
  | conditional (condition value right : CExpr)
  | call (fn : CFun) (args : List CExpr)
deriving Repr

end Caster
