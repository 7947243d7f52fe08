import Caster.Analyze.Declarations

/-!
# The collector

The types of a program that the emitter collects before it prints anything, in the order in
which it meets them.
-/

namespace Caster

/-- A function of a program. -/
structure Function where
  name : String
  params : List Param
  /-- The type of its results. -/
  checkedType : Ty
  body : List Stmt

/-- A global variable of a program. -/
structure Global where
  name : String
  declaredType : Ty
  value : Option Expr

/-- A program: its declared types, those that are open at runtime, its global variables, its
functions, and the statements of its script. -/
structure Program where
  typeDecls : List TypeDecl
  opened : List String
  globals : List Global
  functions : List Function
  statements : List Stmt

/-- What the collector meets: the type of an expression, of a variable or of a result that C
declares, and the use of open data or of requests. -/
inductive TypeUse where
  | expr (type : Ty)
  | storage (type : Ty)
  | result (type : Ty)
  | openData
  | request

/-- The types the emitter declares, and the runtimes it prints. -/
structure EmitCtx where
  usesStr : Bool
  usesMap : Bool
  usesOpen : Bool
  usesReq : Bool
  arrayTypes : List Ty
  mapTypes : List Ty
  fnTypes : List Ty
deriving DecidableEq, Repr

/-- A type is put behind the others unless it is one of them. -/
def vecPushNew (v : List Ty) (type : Ty) : List Ty := if type ∈ v then v else v ++ [type]

/-- The use of a type. -/
def addTypeUse (types : TypeTable) (ctx : EmitCtx) : Ty → EmitCtx
  | .unknown | .ARR .unknown | .SHAPE => ctx
  | .STR => { ctx with usesStr := true }
  | .OBJ | .OPEN => { ctx with usesOpen := true, usesStr := true }
  | .named name =>
    if isOpenStructType types (.named name) then
      { ctx with usesOpen := true, usesMap := true, usesStr := true }
    else ctx
  | .REF target => addTypeUse types ctx target
  | .TSK target => addTypeUse types { ctx with usesReq := true, usesStr := true } target
  | .FN input output =>
    let ctx := { ctx with fnTypes := vecPushNew ctx.fnTypes (.FN input output) }
    addTypeUse types (addTypeUse types ctx input) output
  | .ARR elem => addTypeUse types { ctx with arrayTypes := vecPushNew ctx.arrayTypes (.ARR elem) } elem
  | .MAP key value =>
    let ctx := { ctx with usesMap := true, mapTypes := vecPushNew ctx.mapTypes (.MAP key value) }
    addTypeUse types (addTypeUse types ctx key) value
  | _ => ctx

/-- A use the collector meets. -/
def addUse (types : TypeTable) (ctx : EmitCtx) : TypeUse → EmitCtx
  | .expr type | .storage type | .result type => addTypeUse types ctx type
  | .openData => { ctx with usesOpen := true, usesStr := true }
  | .request => { ctx with usesReq := true, usesMap := true, usesStr := true }

/-! ### Expressions and statements -/

/-- The uses of a type that values are decoded at.  The helpers for its fields and elements
use nothing that the type and its declaration do not. -/
def jsonDecodeUses (types : TypeTable) (type : Ty) : List TypeUse :=
  if isStructType types type || isMapType type || isArrayType type then [.openData, .storage type] else []

/-- The uses of the annotation of an expression. -/
def annotationUses (types : TypeTable) (info : Info) : List TypeUse :=
  .expr info.checkedType ::
    match info.cExpr, info.declaredType with
    | some _, some declared => jsonDecodeUses types declared
    | _, _ => []

/-- The name of a callee or of a receiver, if it is one. -/
def Expr.nameOf : Expr → Option String
  | .name _ text => some text
  | _ => none

/-- The uses of a call of a native module or of a conversion. -/
def nativeUses (receiver name : String) : Option (List TypeUse) :=
  if receiver ∈ ["OS", "FS", "PATH", "IO", "PROC"] then
    some [.expr (.ARR .STR), .expr (.ARR .INT), .expr (.named "FileStat"), .expr (.named "ProcResult")]
  else if receiver = "BUF" then some [.expr (.named "Buffer")]
  else if receiver = "SQL" then some [.openData, .expr (.named "SQL_DB"), .expr (.named "SQL_Exec")]
  else if receiver = "JSON" ∧ name = "stringify" then some [.openData]
  else if receiver = "REQ" then some [.request, .expr (.named "HttpReq"), .expr (.named "HttpRes")]
  else none

/-- The handler among the arguments of a call of `REQ`, which is not collected. -/
def handlerIndex (name : String) (args : ℕ) : Option ℕ :=
  if name = "host" ∧ args = 2 then some 1
  else if name = "host" ∧ args = 3 then some 2
  else if name = "hostTLS" ∧ args = 4 then some 3
  else if name = "hostTLS" ∧ args = 5 then some 4
  else if name = "ws" ∧ args = 2 then some 1
  else if name = "wsTLS" ∧ args = 4 then some 3
  else none

mutual

/-- The uses of an expression. -/
def collectExpr (types : TypeTable) : Expr → List TypeUse
  | .int info _ | .flt info _ | .bol info _ | .str info _ | .nil info | .name info _ =>
    annotationUses types info
  | .array info elements | .shape info elements => annotationUses types info ++ collectExprs types elements
  | .mapLiteral info entries => annotationUses types info ++ collectEntries types entries
  | .recordLiteral info fields => annotationUses types info ++ collectFields types fields
  | .dot info object _ => annotationUses types info ++ collectExpr types object
  | .dotIndex info object index =>
    annotationUses types info ++ collectExpr types object ++ collectExpr types index
  | .dotTarget info object target =>
    annotationUses types info ++ collectExpr types object ++ collectExpr types target
  | .unary info _ expr => annotationUses types info ++ collectExpr types expr
  | .binary info op left right =>
    annotationUses types info ++
      (if op = .orElse ∧ left.checkedType = .OBJ then .openData :: jsonDecodeUses types info.checkedType
      else []) ++ collectExpr types left ++ collectExpr types right
  | .call info callee args =>
    annotationUses types info ++
      (match callee with
      | .name _ name => if name = "JSON" then [.openData] else []
      | callee => collectExpr types callee) ++ collectExprs types args
  | .methodCall info object name args body =>
    annotationUses types info ++
      match object.nameOf.bind (nativeUses · name) with
      | some uses =>
        uses ++
          (match if object.nameOf = some "REQ" then handlerIndex name args.length else none with
          | some handler => collectExprsBut types handler args
          | none => collectExprs types args)
      | none =>
        if name = "ARR" ∨ name = "STR" then
          .expr (.ARR .STR) :: collectExpr types object ++ collectExprs types args
        else if info.cExpr.isSome then collectExprs types args
        else
          collectExpr types object ++ collectExprs types args ++
            match body with
            | some body => collectBlock types body
            | none => []
  | .decode info expr =>
    annotationUses types info ++ .openData ::
      (match info.declaredType with
      | some declared => .expr declared :: jsonDecodeUses types declared
      | none => []) ++ collectExpr types expr
  | .ifExpr info condition value right =>
    annotationUses types info ++ collectExpr types value ++ collectExpr types condition ++
      match right with
      | some right => collectExpr types right
      | none => []

def collectExprs (types : TypeTable) : List Expr → List TypeUse
  | [] => []
  | e :: es => collectExpr types e ++ collectExprs types es

/-- The uses of all expressions but the one at a place. -/
def collectExprsBut (types : TypeTable) : ℕ → List Expr → List TypeUse
  | _, [] => []
  | 0, _ :: es => collectExprs types es
  | n + 1, e :: es => collectExpr types e ++ collectExprsBut types n es

def collectEntries (types : TypeTable) : List (Expr × Expr) → List TypeUse
  | [] => []
  | (key, value) :: entries =>
    collectExpr types key ++ collectExpr types value ++ collectEntries types entries

def collectFields (types : TypeTable) : List (String × Expr) → List TypeUse
  | [] => []
  | (_, value) :: fields => collectExpr types value ++ collectFields types fields

/-- The uses of a statement. -/
def collectStmt (types : TypeTable) : Stmt → List TypeUse
  | .fn _ params returnType body =>
    .result returnType :: (params.map fun param => .storage param.declaredType) ++
      collectBlock types body
  | .var _ declaredType value =>
    .storage declaredType :: match value with
      | some value => collectExpr types value
      | none => []
  | .destructure fields value =>
    .storage value.checkedType :: collectExpr types value ++
      fields.map fun binding => .storage binding.declaredType
  | .assign _ target value inferred =>
    (match inferred with
      | some declaredType => [.storage declaredType]
      | none => []) ++ collectExpr types target ++
      match value with
      | some value => collectExpr types value
      | none => []
  | .aggStep value | .exprStmt value | .throw value => collectExpr types value
  | .ret value =>
    match value with
    | some value => collectExpr types value
    | none => []
  | .loop _ args _ body => collectExprs types args ++ collectBlock types body
  | .ifElse condition thenBlock elxBranches elseBlock =>
    collectExpr types condition ++ collectBlock types thenBlock ++ collectBranches types elxBranches ++
      match elseBlock with
      | some block => collectBlock types block
      | none => []
  | .pass | .free _ => []

def collectBlock (types : TypeTable) : List Stmt → List TypeUse
  | [] => []
  | st :: sts => collectStmt types st ++ collectBlock types sts

def collectBranches (types : TypeTable) : List (Expr × List Stmt) → List TypeUse
  | [] => []
  | (condition, body) :: branches =>
    collectExpr types condition ++ collectBlock types body ++ collectBranches types branches

end

/-! ### Programs -/

/-- The uses of a declaration.  The value declared under a name is stored. -/
def collectTypeDecl (types : TypeTable) (info : TypeInfo) : List TypeUse :=
  match info.kind with
  | .alias target value =>
    match value with
    | some value => .storage target :: collectExpr types value
    | none => [.expr target]
  | .struct fields openRuntime =>
    (if openRuntime then [.expr (.named info.name)] else []) ++
      (if typeHasCompleteNamedValue info then [.storage (.named info.name)] else []) ++
      fields.flatMap fun field =>
        .expr field.declaredType :: match field.value with
          | some (.expr value) => collectExpr types value
          | _ => []

/-- The uses of a global variable. -/
def collectGlobal (types : TypeTable) (global : Global) : List TypeUse :=
  .storage global.declaredType :: match global.value with
    | some value => collectExpr types value
    | none => []

/-- The uses of a function; the emitted `main` returns an `int`. -/
def collectFunction (types : TypeTable) (fn : Function) : List TypeUse :=
  (if fn.name = "main" then .expr fn.checkedType else .result fn.checkedType) ::
    (fn.params.map fun param => .storage param.declaredType) ++ collectBlock types fn.body

/-- The uses of a program. -/
def Program.uses (p : Program) (types : TypeTable) : List TypeUse :=
  types.flatMap (collectTypeDecl types) ++ p.globals.flatMap (collectGlobal types) ++
    collectBlock types p.statements ++ p.functions.flatMap (collectFunction types)

/-- What the emitter collects of a program. -/
def collect (types : TypeTable) (p : Program) : EmitCtx :=
  (p.uses types).foldl (addUse types)
    { usesStr := false, usesMap := false, usesOpen := false, usesReq := false, arrayTypes := [],
      mapTypes := [], fnTypes := [] }

end Caster
