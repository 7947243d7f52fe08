import Caster.CExpr

/-!
# The syntax tree

The nodes of the source's tree.  The analyzer writes its results into the nodes it visits,
and the emitter reads them there: each expression carries an `Info` with these fields.  The
statements that carry results have them as arguments.
-/

namespace Caster

/-- What the analyzer leaves on an expression. -/
structure Info where
  checkedType : Ty
  /-- The resolved type of a constructor call. -/
  declaredType : Option Ty
  /-- The C expression the emitter prints instead of the node's own. -/
  cExpr : Option CExpr
  /-- The node was wrapped around a reference read at a value's type. -/
  implicitDeref : Bool
  /-- The node is the target of an in-place mutation. -/
  mutationTarget : Bool
  /-- The call hands a reference over to its caller. -/
  refResultOwned : Bool

/-- An expression's annotation when only its type is recorded. -/
def Info.ofType (type : Ty) : Info :=
  { checkedType := type, declaredType := none, cExpr := none, implicitDeref := false,
    mutationTarget := false, refResultOwned := false }

inductive UnaryOp where
  /-- The borrow `REF e`. -/
  | REF
  /-- The dereference `*e`. -/
  | deref
  | hold
  | neg
  | not
deriving DecidableEq, Repr

inductive BinaryOp where
  /-- The fallback `a else b`. -/
  | orElse
  | add
  | sub
  | mul
  | div
  | mod
  /-- The record overlay `a | b`. -/
  | pipe
  | eq
  | ne
  | lt
  | le
  | gt
  | ge
  | and
  | or
deriving DecidableEq, Repr

inductive AssignOp where
  | set
  | addSet
  | subSet
  | incr
deriving DecidableEq, Repr

/-- The loop lowerings the analyzer chooses from. -/
inductive LoopKind where
  | range
  | count
  | condition
  | array
  | str
  | openMap
  | map
deriving DecidableEq, Repr

/-- A parameter of a function. -/
structure Param where
  name : String
  declaredType : Ty
deriving DecidableEq, Repr

/-- A binding of a destructuring: the local, its type, and the field it is taken from. -/
structure Binding where
  name : String
  declaredType : Ty
  field : String
deriving DecidableEq, Repr

mutual

/-- An expression node. -/
inductive Expr where
  | int (info : Info) (value : ℤ)
  | flt (info : Info) (value : Magnitude)
  | bol (info : Info) (value : Bool)
  | str (info : Info) (text : String)
  | nil (info : Info)
  | name (info : Info) (name : String)
  | array (info : Info) (elements : List Expr)
  | shape (info : Info) (elements : List Expr)
  | mapLiteral (info : Info) (entries : List (Expr × Expr))
  | recordLiteral (info : Info) (fields : List (String × Expr))
  /-- The field access `object.name`. -/
  | dot (info : Info) (object : Expr) (name : String)
  /-- The element access `object.[index]` by position. -/
  | dotIndex (info : Info) (object index : Expr)
  /-- The access `object.[target]` by a computed key. -/
  | dotTarget (info : Info) (object target : Expr)
  | unary (info : Info) (op : UnaryOp) (expr : Expr)
  | binary (info : Info) (op : BinaryOp) (left right : Expr)
  | call (info : Info) (callee : Expr) (args : List Expr)
  | methodCall (info : Info) (object : Expr) (name : String) (args : List Expr)
      (body : Option (List Stmt))
  | decode (info : Info) (expr : Expr)
  | ifExpr (info : Info) (condition value : Expr) (right : Option Expr)

/-- A statement node. -/
inductive Stmt where
  | var (name : String) (declaredType : Ty) (value : Option Expr)
  /-- An assignment; `inferred` is the type of the local it declares, if it does. -/
  | assign (op : AssignOp) (target : Expr) (value : Option Expr) (inferred : Option Ty)
  | destructure (fields : List Binding) (value : Expr)
  | exprStmt (expr : Expr)
  | ret (value : Option Expr)
  | ifElse (condition : Expr) (thenBlock : List Stmt) (elxBranches : List (Expr × List Stmt))
      (elseBlock : Option (List Stmt))
  | loop (kind : LoopKind) (args : List Expr) (as : Option String) (body : List Stmt)
  | pass
  | throw (value : Expr)
  | free (expr : Expr)
  | fn (name : String) (params : List Param) (returnType : Ty) (body : List Stmt)
  | aggStep (value : Expr)

end

/-- The annotation of an expression. -/
def Expr.info : Expr → Info
  | .int info _ | .flt info _ | .bol info _ | .str info _ | .nil info | .name info _
  | .array info _ | .shape info _ | .mapLiteral info _ | .recordLiteral info _
  | .dot info _ _ | .dotIndex info _ _ | .dotTarget info _ _ | .unary info _ _
  | .binary info _ _ _ | .call info _ _ | .methodCall info _ _ _ _ | .decode info _
  | .ifExpr info _ _ _ => info

/-- The type the analyzer recorded on an expression. -/
def Expr.checkedType (e : Expr) : Ty := e.info.checkedType

end Caster
