import Caster.Emit.Collect
import Caster.Library.ControlFlow

/-!
# The control flow of emitted functions

The C statements that a function is emitted as, as far as control is concerned: where they
return, exit, branch and loop.
-/

namespace Caster

open ControlFlow

/-- How control leaves an emitted function: by `return` with a value or without one, by the
`return 0` of `main`, or by `exit`. -/
inductive Exit where
  | value
  | bare
  | zero
  | exit
deriving DecidableEq, Repr

/-- The evaluation of an expression completes, or is left in one of some blocks in it. -/
def evalFlow (blocks : List (List (Flow Exit))) : Flow Exit := .branch ([] :: blocks)

mutual

/-- The blocks in an emitted expression that are left by a `ret` of the program: the bodies of
`tap`.  The bodies of other methods have no `ret` in them. -/
def flowExpr : Expr → List (List (Flow Exit))
  | .int _ _ | .flt _ _ | .bol _ _ | .str _ _ | .nil _ | .name _ _ => []
  | .array _ elements | .shape _ elements => flowExprs elements
  | .mapLiteral _ entries => flowEntries entries
  | .recordLiteral _ fields => flowFields fields
  | .dot _ object _ => flowExpr object
  | .dotIndex _ object index => flowExpr object ++ flowExpr index
  | .dotTarget _ object target => flowExpr object ++ flowExpr target
  | .unary _ _ expr => flowExpr expr
  | .binary _ _ left right => flowExpr left ++ flowExpr right
  | .call _ callee args => flowExpr callee ++ flowExprs args
  | .methodCall _ object name args body =>
    flowExpr object ++ flowExprs args ++
      match body with
      | some body => if name = "tap" then [flowBlock false body] else []
      | none => []
  | .decode _ expr => flowExpr expr
  | .ifExpr _ condition value right =>
    flowExpr condition ++ flowExpr value ++
      match right with
      | some right => flowExpr right
      | none => []

def flowExprs : List Expr → List (List (Flow Exit))
  | [] => []
  | e :: es => flowExpr e ++ flowExprs es

def flowEntries : List (Expr × Expr) → List (List (Flow Exit))
  | [] => []
  | (key, value) :: entries => flowExpr key ++ flowExpr value ++ flowEntries entries

def flowFields : List (String × Expr) → List (List (Flow Exit))
  | [] => []
  | (_, value) :: fields => flowExpr value ++ flowFields fields

/-- The emitted statements of a statement, in a function that is `main` or not. -/
def flowStmt (isMain : Bool) : Stmt → List (Flow Exit)
  | .var _ _ value =>
    match value with
    | some value => [evalFlow (flowExpr value)]
    | none => []
  | .assign _ target value _ =>
    evalFlow (flowExpr target) :: match value with
      | some value => [evalFlow (flowExpr value)]
      | none => []
  | .destructure _ value => [evalFlow (flowExpr value)]
  | .exprStmt expr | .free expr => [evalFlow (flowExpr expr)]
  | .ret value =>
    match value with
    | some value => [evalFlow (flowExpr value), .leave .value]
    | none => [.leave (if isMain then .zero else .bare)]
  | .ifElse condition thenBlock elxBranches elseBlock =>
    [evalFlow (flowExpr condition), .branch [flowBlock isMain thenBlock,
      flowBranches isMain elxBranches
        (match elseBlock with
        | some block => flowBlock isMain block
        | none => [])]]
  | .loop _ args _ body =>
    [evalFlow (flowExprs args), .loop (evalFlow (flowExprs args) :: flowBlock isMain body)]
  | .throw value => [evalFlow (flowExpr value), .leave .exit]
  | .pass | .fn _ _ _ _ | .aggStep _ => []

def flowBlock (isMain : Bool) : List Stmt → List (Flow Exit)
  | [] => []
  | st :: sts => flowStmt isMain st ++ flowBlock isMain sts

/-- The branches behind the first one of an `if`, where the last one is given. -/
def flowBranches (isMain : Bool) : List (Expr × List Stmt) → List (Flow Exit) → List (Flow Exit)
  | [], elseFlow => elseFlow
  | (condition, body) :: branches, elseFlow =>
    [evalFlow (flowExpr condition),
      .branch [flowBlock isMain body, flowBranches isMain branches elseFlow]]

end

/-- The emitted body of a function.  That of `main` ends with `return 0`. -/
def emitFunctionDefinition (fn : Function) : List (Flow Exit) :=
  flowBlock (fn.name = "main") fn.body ++ if fn.name = "main" then [.leave .zero] else []

/-- Control leaves a function by a `ret` with a value on every path, unless it exits. -/
def AllPathsReturn (fn : Function) : Prop :=
  ∀ o, Ends (emitFunctionDefinition fn) o → ∃ e, o = some e ∧ e ∈ [Exit.value, .exit]

/-! ### What the analyzer checks -/

mutual

/-- The analyzer has seen a `ret` in a statement, with a value or without one. -/
def sawReturnStmt (withValue : Bool) : Stmt → Bool
  | .ret value => value.isSome = withValue
  | .ifElse _ thenBlock elxBranches elseBlock =>
    sawReturn withValue thenBlock || sawReturnBranches withValue elxBranches ||
      match elseBlock with
      | some block => sawReturn withValue block
      | none => false
  | .loop _ _ _ body => sawReturn withValue body
  | _ => false

def sawReturn (withValue : Bool) : List Stmt → Bool
  | [] => false
  | st :: sts => sawReturnStmt withValue st || sawReturn withValue sts

def sawReturnBranches (withValue : Bool) : List (Expr × List Stmt) → Bool
  | [] => false
  | (_, body) :: branches => sawReturn withValue body || sawReturnBranches withValue branches

end

/-- The returns of a function are accepted: there is one unless the function has no result, and
those without a value are in functions whose result may be nil. -/
def analyzeReturns (fn : Function) : Bool :=
  (fn.checkedType = .NUL || sawReturn true fn.body || sawReturn false fn.body) &&
    (!sawReturn false fn.body || fn.checkedType = .NUL || isRefType fn.checkedType ||
      isFnType fn.checkedType)

end Caster
