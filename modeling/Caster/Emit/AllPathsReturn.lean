import Caster.Emit.ControlFlow

/-!
# Functions that return on all paths

The emitted body of a function returns a value on every path exactly when its last statements
are left on every path and no `ret` without a value can be reached.
-/

namespace Caster

open ControlFlow

mutual

/-- No path goes on behind a statement: it is a `ret`, a `throw`, or an `if` with an `else` that
is left in each of its branches. -/
def leavesStmt : Stmt → Bool
  | .ret _ | .throw _ => true
  | .ifElse _ thenBlock elxBranches elseBlock =>
    leavesBlock thenBlock && leavesBranches elxBranches &&
      match elseBlock with
      | some block => leavesBlock block
      | none => false
  | _ => false

def leavesBlock : List Stmt → Bool
  | [] => false
  | st :: sts => leavesStmt st || leavesBlock sts

def leavesBranches : List (Expr × List Stmt) → Bool
  | [] => true
  | (_, body) :: branches => leavesBlock body && leavesBranches branches

end

mutual

/-- The body of a `tap` in an expression reaches a `ret` without a value. -/
def bareExpr : Expr → Bool
  | .int _ _ | .flt _ _ | .bol _ _ | .str _ _ | .nil _ | .name _ _ => false
  | .array _ elements | .shape _ elements => bareExprs elements
  | .mapLiteral _ entries => bareEntries entries
  | .recordLiteral _ fields => bareFields fields
  | .dot _ object _ => bareExpr object
  | .dotIndex _ object index => bareExpr object || bareExpr index
  | .dotTarget _ object target => bareExpr object || bareExpr target
  | .unary _ _ expr => bareExpr expr
  | .binary _ _ left right => bareExpr left || bareExpr right
  | .call _ callee args => bareExpr callee || bareExprs args
  | .methodCall _ object name args body =>
    bareExpr object || bareExprs args ||
      match body with
      | some body => name = "tap" && bareBlock body
      | none => false
  | .decode _ expr => bareExpr expr
  | .ifExpr _ condition value right =>
    bareExpr condition || bareExpr value ||
      match right with
      | some right => bareExpr right
      | none => false

def bareExprs : List Expr → Bool
  | [] => false
  | e :: es => bareExpr e || bareExprs es

def bareEntries : List (Expr × Expr) → Bool
  | [] => false
  | (key, value) :: entries => bareExpr key || bareExpr value || bareEntries entries

def bareFields : List (String × Expr) → Bool
  | [] => false
  | (_, value) :: fields => bareExpr value || bareFields fields

/-- A statement reaches a `ret` without a value. -/
def bareStmt : Stmt → Bool
  | .var _ _ value =>
    match value with
    | some value => bareExpr value
    | none => false
  | .assign _ target value _ =>
    bareExpr target ||
      match value with
      | some value => bareExpr value
      | none => false
  | .destructure _ value | .throw value => bareExpr value
  | .exprStmt expr | .free expr => bareExpr expr
  | .ret value =>
    match value with
    | some value => bareExpr value
    | none => true
  | .ifElse condition thenBlock elxBranches elseBlock =>
    bareExpr condition || bareBlock thenBlock || bareBranches elxBranches ||
      match elseBlock with
      | some block => bareBlock block
      | none => false
  | .loop _ args _ body => bareExprs args || bareBlock body
  | .pass | .fn _ _ _ _ | .aggStep _ => false

/-- Some statements reach a `ret` without a value, in one that the ones before it go on to. -/
def bareBlock : List Stmt → Bool
  | [] => false
  | st :: sts => bareStmt st || !leavesStmt st && bareBlock sts

def bareBranches : List (Expr × List Stmt) → Bool
  | [] => false
  | (condition, body) :: branches => bareExpr condition || bareBlock body || bareBranches branches

end

/-- A function is not left with a value. -/
def Exit.isBad (e : Exit) : Bool := !decide (e ∈ [Exit.value, .exit])

@[simp] theorem completes_evalFlow (blocks : List (List (Flow Exit))) : completes (evalFlow blocks) = true := by
  simp [evalFlow, completes, someCompletes, allComplete]

@[simp] theorem leaves_evalFlow (bad : Exit → Bool) (blocks : List (List (Flow Exit))) :
  leaves bad (evalFlow blocks) = someLeaves bad blocks
  := by
  simp [evalFlow, leaves, someLeaves, pathLeaves]

mutual

theorem allComplete_flowStmt (isMain : Bool) (st : Stmt) :
  allComplete (flowStmt isMain st) = !leavesStmt st
  := by
  cases st with
  | var name declaredType value => cases value <;> simp [flowStmt, leavesStmt, allComplete]
  | assign op target value inferred => cases value <;> simp [flowStmt, leavesStmt, allComplete]
  | destructure fields value => simp [flowStmt, leavesStmt, allComplete]
  | exprStmt expr => simp [flowStmt, leavesStmt, allComplete]
  | ret value => cases value <;> simp [flowStmt, leavesStmt, allComplete, completes]
  | ifElse condition thenBlock elxBranches elseBlock =>
    have hthen := allComplete_flowBlock isMain thenBlock
    have hbranches := allComplete_flowBranches isMain elxBranches
    cases elseBlock with
    | none => simp [flowStmt, leavesStmt, allComplete, completes, someCompletes, hbranches]
    | some block =>
      have helse := allComplete_flowBlock isMain block
      simp [flowStmt, leavesStmt, allComplete, completes, someCompletes, hthen, hbranches, helse,
        Bool.and_assoc]
  | loop kind args as body => simp [flowStmt, leavesStmt, allComplete, completes]
  | pass => simp [flowStmt, leavesStmt, allComplete]
  | throw value => simp [flowStmt, leavesStmt, allComplete, completes]
  | free expr => simp [flowStmt, leavesStmt, allComplete]
  | fn name params returnType body => simp [flowStmt, leavesStmt, allComplete]
  | aggStep value => simp [flowStmt, leavesStmt, allComplete]

theorem allComplete_flowBlock (isMain : Bool) (sts : List Stmt) :
  allComplete (flowBlock isMain sts) = !leavesBlock sts
  := by
  cases sts with
  | nil => simp [flowBlock, leavesBlock, allComplete]
  | cons st sts =>
    rw [flowBlock, leavesBlock, allComplete_append, allComplete_flowStmt isMain st,
      allComplete_flowBlock isMain sts, Bool.not_or]

theorem allComplete_flowBranches (isMain : Bool) (branches : List (Expr × List Stmt))
    (elseFlow : List (Flow Exit)) :
  allComplete (flowBranches isMain branches elseFlow) =
    (!leavesBranches branches || allComplete elseFlow)
  := by
  cases branches with
  | nil => simp [flowBranches, leavesBranches]
  | cons branch branches =>
    obtain ⟨condition, body⟩ := branch
    have hbody := allComplete_flowBlock isMain body
    have hbranches := allComplete_flowBranches isMain branches elseFlow
    simp [flowBranches, leavesBranches, allComplete, completes, someCompletes, hbody, hbranches,
      Bool.or_assoc]

end

mutual

theorem someLeaves_flowExpr (e : Expr) : someLeaves Exit.isBad (flowExpr e) = bareExpr e := by
  cases e with
  | int _ _ | flt _ _ | bol _ _ | str _ _ | nil _ | name _ _ =>
    simp [flowExpr, bareExpr, someLeaves]
  | array _ elements | shape _ elements =>
    rw [flowExpr, bareExpr, someLeaves_flowExprs elements]
  | mapLiteral _ entries => rw [flowExpr, bareExpr, someLeaves_flowEntries entries]
  | recordLiteral _ fields => rw [flowExpr, bareExpr, someLeaves_flowFields fields]
  | dot _ object _ => rw [flowExpr, bareExpr, someLeaves_flowExpr object]
  | dotIndex _ object index =>
    rw [flowExpr, bareExpr, someLeaves_append, someLeaves_flowExpr object, someLeaves_flowExpr index]
  | dotTarget _ object target =>
    rw [flowExpr, bareExpr, someLeaves_append, someLeaves_flowExpr object, someLeaves_flowExpr target]
  | unary _ _ expr => rw [flowExpr, bareExpr, someLeaves_flowExpr expr]
  | binary _ _ left right =>
    rw [flowExpr, bareExpr, someLeaves_append, someLeaves_flowExpr left, someLeaves_flowExpr right]
  | call _ callee args =>
    rw [flowExpr, bareExpr, someLeaves_append, someLeaves_flowExpr callee, someLeaves_flowExprs args]
  | methodCall _ object name args body =>
    have hobject := someLeaves_flowExpr object
    have hargs := someLeaves_flowExprs args
    cases body with
    | none => simp [flowExpr, bareExpr, hobject, hargs]
    | some body =>
      have hbody := pathLeaves_flowBlock false body
      by_cases hname : name = "tap" <;>
        simp [flowExpr, bareExpr, hobject, hargs, hname, someLeaves, hbody, Bool.or_assoc]
  | decode _ expr => rw [flowExpr, bareExpr, someLeaves_flowExpr expr]
  | ifExpr _ condition value right =>
    have hcondition := someLeaves_flowExpr condition
    have hvalue := someLeaves_flowExpr value
    cases right with
    | none => simp [flowExpr, bareExpr, hcondition, hvalue]
    | some right =>
      have hright := someLeaves_flowExpr right
      simp [flowExpr, bareExpr, hcondition, hvalue, hright, Bool.or_assoc]

theorem someLeaves_flowExprs (es : List Expr) : someLeaves Exit.isBad (flowExprs es) = bareExprs es := by
  cases es with
  | nil => simp [flowExprs, bareExprs, someLeaves]
  | cons e es =>
    rw [flowExprs, bareExprs, someLeaves_append, someLeaves_flowExpr e, someLeaves_flowExprs es]

theorem someLeaves_flowEntries (entries : List (Expr × Expr)) :
  someLeaves Exit.isBad (flowEntries entries) = bareEntries entries
  := by
  cases entries with
  | nil => simp [flowEntries, bareEntries, someLeaves]
  | cons entry entries =>
    obtain ⟨key, value⟩ := entry
    rw [flowEntries, bareEntries, someLeaves_append, someLeaves_append, someLeaves_flowExpr key,
      someLeaves_flowExpr value, someLeaves_flowEntries entries]

theorem someLeaves_flowFields (fields : List (String × Expr)) :
  someLeaves Exit.isBad (flowFields fields) = bareFields fields
  := by
  cases fields with
  | nil => simp [flowFields, bareFields, someLeaves]
  | cons field fields =>
    obtain ⟨name, value⟩ := field
    rw [flowFields, bareFields, someLeaves_append, someLeaves_flowExpr value,
      someLeaves_flowFields fields]

theorem pathLeaves_flowStmt (isMain : Bool) (st : Stmt) :
  pathLeaves Exit.isBad (flowStmt isMain st) = bareStmt st
  := by
  cases st with
  | var name declaredType value =>
    cases value with
    | none => simp [flowStmt, bareStmt, pathLeaves]
    | some value => simp [flowStmt, bareStmt, pathLeaves, someLeaves_flowExpr value]
  | assign op target value inferred =>
    have htarget := someLeaves_flowExpr target
    cases value with
    | none => simp [flowStmt, bareStmt, pathLeaves, htarget]
    | some value => simp [flowStmt, bareStmt, pathLeaves, htarget, someLeaves_flowExpr value]
  | destructure fields value => simp [flowStmt, bareStmt, pathLeaves, someLeaves_flowExpr value]
  | exprStmt expr => simp [flowStmt, bareStmt, pathLeaves, someLeaves_flowExpr expr]
  | ret value =>
    cases value with
    | none => cases isMain <;> simp [flowStmt, bareStmt, pathLeaves, leaves, Exit.isBad]
    | some value =>
      simp [flowStmt, bareStmt, pathLeaves, leaves, Exit.isBad, someLeaves_flowExpr value]
  | ifElse condition thenBlock elxBranches elseBlock =>
    have hcondition := someLeaves_flowExpr condition
    have hthen := pathLeaves_flowBlock isMain thenBlock
    have hbranches := pathLeaves_flowBranches isMain elxBranches
    cases elseBlock with
    | none =>
      simp [flowStmt, bareStmt, pathLeaves, leaves, someLeaves, hcondition, hthen, hbranches,
        Bool.or_assoc]
    | some block =>
      have helse := pathLeaves_flowBlock isMain block
      simp [flowStmt, bareStmt, pathLeaves, leaves, someLeaves, hcondition, hthen, hbranches, helse,
        Bool.or_assoc]
  | loop kind args as body =>
    have hargs := someLeaves_flowExprs args
    have hbody := pathLeaves_flowBlock isMain body
    simp [flowStmt, bareStmt, pathLeaves, leaves, hargs, hbody]
  | pass => simp [flowStmt, bareStmt, pathLeaves]
  | throw value =>
    simp [flowStmt, bareStmt, pathLeaves, leaves, Exit.isBad, someLeaves_flowExpr value]
  | free expr => simp [flowStmt, bareStmt, pathLeaves, someLeaves_flowExpr expr]
  | fn name params returnType body => simp [flowStmt, bareStmt, pathLeaves]
  | aggStep value => simp [flowStmt, bareStmt, pathLeaves]

theorem pathLeaves_flowBlock (isMain : Bool) (sts : List Stmt) :
  pathLeaves Exit.isBad (flowBlock isMain sts) = bareBlock sts
  := by
  cases sts with
  | nil => simp [flowBlock, bareBlock, pathLeaves]
  | cons st sts =>
    rw [flowBlock, bareBlock, pathLeaves_append, pathLeaves_flowStmt isMain st,
      allComplete_flowStmt isMain st, pathLeaves_flowBlock isMain sts]

theorem pathLeaves_flowBranches (isMain : Bool) (branches : List (Expr × List Stmt))
    (elseFlow : List (Flow Exit)) :
  pathLeaves Exit.isBad (flowBranches isMain branches elseFlow) =
    (bareBranches branches || pathLeaves Exit.isBad elseFlow)
  := by
  cases branches with
  | nil => simp [flowBranches, bareBranches]
  | cons branch branches =>
    obtain ⟨condition, body⟩ := branch
    have hcondition := someLeaves_flowExpr condition
    have hbody := pathLeaves_flowBlock isMain body
    have hbranches := pathLeaves_flowBranches isMain branches elseFlow
    simp [flowBranches, bareBranches, pathLeaves, leaves, someLeaves, hcondition, hbody, hbranches,
      Bool.or_assoc]

end

/-- The `return 0` that ends `main` is no `ret` of the program. -/
theorem isBad_zero : Exit.isBad .zero = true := rfl

/-- Control leaves a function by a `ret` with a value on every path exactly when every path
through its body is left, and none by a `ret` without a value. -/
theorem allPathsReturn_iff (fn : Function) :
  AllPathsReturn fn ↔ leavesBlock fn.body ∧ ¬ bareBlock fn.body
  := by
  have hgood : AllPathsReturn fn ↔
      ∀ o, Ends (emitFunctionDefinition fn) o →
        ∃ e, o = some e ∧ decide (e ∈ [Exit.value, .exit]) = true := by
    simp only [AllPathsReturn, decide_eq_true_eq]
  have hcomplete := allComplete_flowBlock (fn.name = "main") fn.body
  have hleaves := pathLeaves_flowBlock (fn.name = "main") fn.body
  rw [hgood, ends_good_iff]
  change ¬ _ ∧ ¬ pathLeaves Exit.isBad (emitFunctionDefinition fn) ↔ _
  rw [emitFunctionDefinition, allComplete_append, pathLeaves_append, hcomplete, hleaves]
  by_cases hmain : fn.name = "main"
  · simp [hmain, allComplete, completes, pathLeaves, leaves, isBad_zero, and_comm]
  · simp [hmain, allComplete, pathLeaves]

/-- The function `FN f(INT x) -> INT = ( if(x > 0)( ret 1 ) )`. -/
def returnIfPositive : Function :=
  { name := "f"
    params := [⟨"x", .INT⟩]
    checkedType := .INT
    body := [.ifElse
      (.binary (Info.ofType .BOL) .gt (.name (Info.ofType .INT) "x") (.int (Info.ofType .INT) 0))
      [.ret (some (.int (Info.ofType .INT) 1))] [] none] }

/-- A function that the analyzer accepts can end without a `ret`. -/
theorem not_allPathsReturn :
  ¬ ∀ fn : Function, fn.checkedType ≠ .NUL → analyzeReturns fn → AllPathsReturn fn
  := by
  intro h
  have hfallsOff : Ends (emitFunctionDefinition returnIfPositive) none := by
    apply ends_of_allComplete
    decide
  obtain ⟨e, he, _⟩ := h returnIfPositive (by decide) (by decide) none hfallsOff
  cases he

end Caster
