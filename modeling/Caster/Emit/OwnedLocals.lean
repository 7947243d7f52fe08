import Mathlib.Data.Set.Insert
import Caster.Emit.ControlFlow
import Caster.Emit.Drop
import Caster.Library.ActionPaths

/-!
# Owned locals

While the emitter prints a function, it keeps a list of the variables that hold a value of their own, and
prints a drop for each of them wherever the function returns.  The list follows the text of the function,
the values follow its paths.  Where a function returns, on whatever path, it drops no variable twice and none
that has not been given a value of its own on the path.
-/

namespace Caster.OwnedLocals

open ActionPaths
open ControlFlow (Flow)

/-! ### Which statements give a variable a value of its own -/

/-- The text of a C expression starts with the name of a function that makes a named value. -/
def startsWithValue : CExpr → Bool
  | .ident name => "flx_value_".toList.isPrefixOf name.toList
  | .other text _ => "flx_value_".toList.isPrefixOf text.toList
  | .member object _ => startsWithValue object
  | .subscript object _ => startsWithValue object
  | _ => false

/-- A name stands for a named value that is made where it is read. -/
def isMadeValue (info : Info) : Bool := info.cExpr.any startsWithValue

/-- A call with one argument is the constructor of a fixed `MAP`. -/
def isConstructor (types : TypeTable) (info : Info) : Bool := info.declaredType.any (isStructType types)

def initializerMayOwn (types : TypeTable) : Expr → Bool
  | .call info _ [arg] => if isConstructor types info then initializerMayOwn types arg else true
  | .methodCall info _ _ [arg] _ => if isConstructor types info then initializerMayOwn types arg else true
  | .name info _ => isMadeValue info
  | .dot _ _ _ | .dotIndex _ _ _ | .dotTarget _ _ _ => false
  | .unary _ op _ => op ≠ .REF && op ≠ .deref
  | _ => true

def assignmentValueShouldCopy (types : TypeTable) : Expr → Bool
  | .call info _ [arg] => isConstructor types info && assignmentValueShouldCopy types arg
  | .methodCall info _ _ [arg] _ => isConstructor types info && assignmentValueShouldCopy types arg
  | .name info _ => !isMadeValue info
  | .dot _ _ _ | .dotIndex _ _ _ | .dotTarget _ _ _ => true
  | .unary _ op _ => op = .deref
  | _ => false

def isTaskType : Ty → Bool
  | .TSK _ => true
  | _ => false

def assignmentInitializerMayOwn (types : TypeTable) (target : Ty) (value : Option Expr) : Bool :=
  match value with
  | none => false
  | some value =>
    if !typeNeedsDrop types target then false
    else if isRefType target then value.info.refResultOwned
    else if isTaskType target && assignmentValueShouldCopy types value then false
    else if assignmentValueShouldCopy types value then true
    else initializerMayOwn types value

/-! ### The list -/

/-- A C variable: one of the program, the whole value of a destructuring, or the element of a loop over
a string.  The last two have numbers in their names. -/
inductive Var where
  | named (name : String)
  | destructured (id : ℕ)
  | element (id : ℕ)
deriving DecidableEq

structure OwnedLocal where
  var : Var
  type : Ty

def ownedLocalContains (owned : List OwnedLocal) (x : Var) : Bool := owned.any fun l => l.var = x

def ownedLocalRemove (owned : List OwnedLocal) (x : Var) : List OwnedLocal :=
  owned.eraseP fun l => l.var = x

def ownedLocalAdd (types : TypeTable) (owned : List OwnedLocal) (x : Var) (type : Ty) :
    List OwnedLocal :=
  if !typeNeedsDrop types type || ownedLocalContains owned x then owned else owned ++ [⟨x, type⟩]

/-- A drop is printed for a value of a type. -/
def isDropped (types : TypeTable) (type : Ty) : Bool :=
  isRefType type || (dropFnForType types type).isSome

/-- The variables that are dropped, the last one of the list first. -/
def emitOwnedLocalDrops (types : TypeTable) (owned : List OwnedLocal) (skip : Option Var) : List Var :=
  (owned.reverse.filter fun l => some l.var ≠ skip && isDropped types l.type).map OwnedLocal.var

/-- The variable that a `ret` hands over, if its value is one of the list. -/
def returnedOwnedLocalName (types : TypeTable) (owned : List OwnedLocal) : Expr → Option Var
  | .call info _ [arg] => if isConstructor types info then returnedOwnedLocalName types owned arg else none
  | .methodCall info _ _ [arg] _ =>
    if isConstructor types info then returnedOwnedLocalName types owned arg else none
  | .name _ name => if ownedLocalContains owned (.named name) then some (.named name) else none
  | _ => none

/-! ### The emitted function -/

/-- What a statement does to the variables: one is declared at the top of the function, one gets a value
of its own or one that is not, or the value of one is freed. -/
inductive Event where
  | declare (x : Var)
  | give (x : Var)
  | lend (x : Var)
  | free (x : Var)

/-- How a function is left: by a return behind some drops, which may hand a variable over, or with the
program. -/
inductive Leaving where
  | returns (drops : List Var) (kept : Option Var)
  | stop

abbrev Emitted := Code Event Leaving

mutual

/-- What is left by a `ret` in the body of a method drops nothing. -/
def ofFlow : Flow Exit → Emitted
  | .leave e => .leave (if e = .exit then .stop else .returns [] none)
  | .branch blocks => .branch (ofFlowBlocks blocks)
  | .loop body => .loop (ofFlows body)

def ofFlows : List (Flow Exit) → List Emitted
  | [] => []
  | s :: rest => ofFlow s :: ofFlows rest

def ofFlowBlocks : List (List (Flow Exit)) → List (List Emitted)
  | [] => []
  | block :: blocks => ofFlows block :: ofFlowBlocks blocks

end

/-- An expression is evaluated. -/
def evaluate (e : Expr) : Emitted := .branch ([] :: ofFlowBlocks (flowExpr e))

def evaluateAll (es : List Expr) : Emitted := .branch ([] :: ofFlowBlocks (flowExprs es))

/-- What the emitter keeps: the list, and the number of the next variable of its own. -/
structure Emitter where
  owned : List OwnedLocal := []
  nextId : ℕ := 0

/-- A variable is entered in the list at the top of a function. -/
def Emitter.record (types : TypeTable) (atTop : Bool) (s : Emitter) (x : Var) (type : Ty) (owns : Bool) :
    Emitter :=
  { s with owned := if atTop && owns then ownedLocalAdd types s.owned x type else s.owned }

def declareCode (atTop : Bool) (x : Var) : List Emitted := if atTop then [.act (.declare x)] else []

/-- A variable gets a value, which counts where values of its type are freed. -/
def giveCode (types : TypeTable) (x : Var) (type : Ty) (owns : Bool) : List Emitted :=
  if !typeNeedsDrop types type then []
  else if owns then [.act (.give x)]
  else [.act (.lend x)]

/-- The variable that an expression names. -/
def targetName : Expr → Option Var
  | .name _ name => some (.named name)
  | _ => none

/-- The bindings of a destructuring are copies of the fields. -/
def emitBindings (types : TypeTable) (atTop : Bool) : Emitter → List Binding → Emitter × List Emitted
  | s, [] => (s, [])
  | s, binding :: bindings =>
    let rest := emitBindings types atTop
      (s.record types atTop (.named binding.name) binding.declaredType true) bindings
    (rest.1, declareCode atTop (.named binding.name) ++
      giveCode types (.named binding.name) binding.declaredType true ++ rest.2)

/-- An assignment to a variable: `owns` says whether it gives it a value of its own. -/
def emitTarget (types : TypeTable) (atTop : Bool) (s : Emitter) (target : Expr) (owns : Bool) :
    Emitter × List Emitted :=
  match targetName target with
  | some x => (s.record types atTop x target.checkedType owns, giveCode types x target.checkedType owns)
  | none => (s, [])

mutual

/-- The code of a statement, at the top of a function or in a block, and what the emitter keeps. -/
def emitStmt (types : TypeTable) (atTop : Bool) (s : Emitter) : Stmt → Emitter × List Emitted
  | .var name type value =>
    let owns := assignmentInitializerMayOwn types type value
    (s.record types atTop (.named name) type owns,
      (value.toList.map evaluate) ++ declareCode atTop (.named name) ++ giveCode types (.named name) type owns)
  | .assign op target value inferred =>
    match inferred with
    | some type =>
      let owns := assignmentInitializerMayOwn types type value
      match targetName target with
      | some x => (s.record types atTop x type owns,
          (value.toList.map evaluate) ++ declareCode atTop x ++ giveCode types x type owns)
      | none => (s, value.toList.map evaluate)
    | none =>
      let written := match op with
        | .incr => (s, [])
        | .addSet | .subSet => emitTarget types atTop s target true
        | .set => emitTarget types atTop s target
            (assignmentInitializerMayOwn types target.checkedType value)
      (written.1, evaluate target :: (value.toList.map evaluate) ++ written.2)
  | .destructure fields value =>
    let x := Var.destructured s.nextId
    let owns := assignmentInitializerMayOwn types value.checkedType (some value)
    let rest := emitBindings types atTop
      ({ s with nextId := s.nextId + 1 }.record types atTop x value.checkedType owns) fields
    (rest.1, evaluate value :: declareCode atTop x ++ giveCode types x value.checkedType owns ++ rest.2)
  | .exprStmt expr => (s, [evaluate expr])
  | .free expr =>
    match targetName expr with
    | some x => ({ s with owned := ownedLocalRemove s.owned x }, [evaluate expr, .act (.free x)])
    | none => (s, [evaluate expr])
  | .ret value =>
    let kept := value.bind (returnedOwnedLocalName types s.owned)
    (s, (value.toList.map evaluate) ++ [.leave (.returns (emitOwnedLocalDrops types s.owned kept) kept)])
  | .throw value => (s, [evaluate value, .leave .stop])
  | .ifElse condition thenBlock elxBranches elseBlock =>
    let yes := emitBlock types false s thenBlock
    let no := emitBranches types yes.1 elxBranches fun s => emitElse types s elseBlock
    (no.1, [evaluate condition, .branch [yes.2, no.2]])
  | .loop kind args _ body =>
    if kind = .str then
      let x := Var.element s.nextId
      let inner := emitBlock types false { s with nextId := s.nextId + 1 } body
      (inner.1, [evaluateAll args,
        .loop (evaluateAll args :: .act (.give x) :: (inner.2 ++ [.act (.free x)]))])
    else
      let inner := emitBlock types false s body
      (inner.1, [evaluateAll args, .loop (evaluateAll args :: inner.2)])
  | .pass | .fn _ _ _ _ | .aggStep _ => (s, [])

def emitBlock (types : TypeTable) (atTop : Bool) (s : Emitter) : List Stmt → Emitter × List Emitted
  | [] => (s, [])
  | st :: sts =>
    let first := emitStmt types atTop s st
    let rest := emitBlock types atTop first.1 sts
    (rest.1, first.2 ++ rest.2)

def emitElse (types : TypeTable) (s : Emitter) : Option (List Stmt) → Emitter × List Emitted
  | none => (s, [])
  | some block => emitBlock types false s block

/-- The branches behind the first one of an `if`, where the last one is given. -/
def emitBranches (types : TypeTable) (s : Emitter) :
    List (Expr × List Stmt) → (Emitter → Emitter × List Emitted) → Emitter × List Emitted
  | [], elseCode => elseCode s
  | (condition, body) :: branches, elseCode =>
    let yes := emitBlock types false s body
    let no := emitBranches types yes.1 branches elseCode
    (no.1, [evaluate condition, .branch [yes.2, no.2]])

end

/-- The last statement of a block is a `ret`. -/
def blockEndsWithReturn (body : List Stmt) : Bool :=
  match body.getLast? with
  | some (.ret _) => true
  | _ => false

/-- The code of a function.  Where it does not end with a `ret`, the drops are printed at its end. -/
def emitFunction (types : TypeTable) (body : List Stmt) : List Emitted :=
  let emitted := emitBlock types true {} body
  emitted.2 ++
    if blockEndsWithReturn body then []
    else [.leave (.returns (emitOwnedLocalDrops types emitted.1.owned none) none)]

/-! ### Paths -/

/-- What has happened to the variables on a path. -/
structure Held where
  declared : Set Var
  given : Set Var
  owned : Set Var

def Held.step (h : Held) : Event → Held
  | .declare x => { h with declared := insert x h.declared }
  | .give x => { h with given := insert x h.given, owned := insert x h.owned }
  | .lend x | .free x => { h with owned := h.owned \ {x} }

/-- The parameters are declared at the start of a function. -/
def Held.start (params : List Param) : Held :=
  { declared := {x | ∃ p ∈ params, x = .named p.name}, given := ∅, owned := ∅ }

/-- The variables of a list. -/
def vars (owned : List OwnedLocal) : List Var := owned.map OwnedLocal.var

section

variable {types : TypeTable} {owned K : List OwnedLocal} {x : Var} {type : Ty}

theorem mem_vars_iff : x ∈ vars owned ↔ ∃ l ∈ owned, l.var = x := List.mem_map

theorem ownedLocalContains_iff : ownedLocalContains owned x = true ↔ x ∈ vars owned := by
  simp [ownedLocalContains, mem_vars_iff]

theorem mem_emitOwnedLocalDrops_iff {skip : Option Var} :
  x ∈ emitOwnedLocalDrops types owned skip ↔
    ∃ l ∈ owned, l.var = x ∧ some x ≠ skip ∧ isDropped types l.type = true
  := by
  simp only [emitOwnedLocalDrops, List.mem_map, List.mem_filter, List.mem_reverse, Bool.and_eq_true,
    decide_eq_true_iff]
  constructor
  · rintro ⟨l, ⟨hl, hskip, hdropped⟩, rfl⟩
    exact ⟨l, hl, rfl, hskip, hdropped⟩
  · rintro ⟨l, hl, rfl, hskip, hdropped⟩
    exact ⟨l, ⟨hl, hskip, hdropped⟩, rfl⟩

theorem nodup_emitOwnedLocalDrops (h : (vars owned).Nodup) (skip : Option Var) :
  (emitOwnedLocalDrops types owned skip).Nodup
  := by
  have hreverse : (owned.reverse.map OwnedLocal.var).Nodup := by
    rw [List.map_reverse]
    exact List.nodup_reverse.mpr h
  exact hreverse.sublist (List.filter_sublist.map _)

theorem nodup_ownedLocalAdd (h : (vars owned).Nodup) : (vars (ownedLocalAdd types owned x type)).Nodup := by
  unfold ownedLocalAdd
  split_ifs with hadd
  · exact h
  · have hnew : x ∉ vars owned := by
      intro hmem
      simp [ownedLocalContains_iff.mpr hmem] at hadd
    rw [vars, List.map_append]
    exact List.nodup_append.mpr ⟨h, List.nodup_singleton x, by
      rintro y hy z hz rfl
      obtain rfl := List.mem_singleton.mp hz
      exact hnew hy⟩

theorem sublist_ownedLocalRemove : (ownedLocalRemove owned x).Sublist owned := List.eraseP_sublist

/-- What is recorded in a block is not entered. -/
theorem record_inBlock (s : Emitter) (owns : Bool) : s.record types false x type owns = s := rfl

end

/-! ### The code in blocks -/

section

variable {types : TypeTable} {K : List OwnedLocal} {acts : Event → Prop} {exits : Leaving → Prop}

mutual

theorem all_ofFlow (hreturn : exits (.returns [] none)) (hstop : exits .stop)
    (s : Flow Exit) : All acts exits (ofFlow s) := by
  cases s with
  | leave e =>
    rw [ofFlow, all_leave]
    split_ifs
    · exact hstop
    · exact hreturn
  | branch blocks =>
    rw [ofFlow, all_branch]
    exact all_ofFlowBlocks hreturn hstop blocks
  | loop body =>
    rw [ofFlow, all_loop]
    exact all_ofFlows hreturn hstop body

theorem all_ofFlows (hreturn : exits (.returns [] none)) (hstop : exits .stop)
    (flow : List (Flow Exit)) : AllOf acts exits (ofFlows flow) := by
  cases flow with
  | nil => exact allOf_nil
  | cons s rest => exact allOf_cons.mpr ⟨all_ofFlow hreturn hstop s, all_ofFlows hreturn hstop rest⟩

theorem all_ofFlowBlocks (hreturn : exits (.returns [] none)) (hstop : exits .stop)
    (blocks : List (List (Flow Exit))) : AllOfBlocks acts exits (ofFlowBlocks blocks) := by
  cases blocks with
  | nil => exact allOfBlocks_nil
  | cons block blocks =>
    exact allOfBlocks_cons.mpr ⟨all_ofFlows hreturn hstop block, all_ofFlowBlocks hreturn hstop blocks⟩

end

/-- The code of a choice between two blocks. -/
theorem allOf_chosen {condition : Expr} {yes no : List Emitted} (hcondition : All acts exits (evaluate condition))
    (hyes : AllOf acts exits yes) (hno : AllOf acts exits no) :
  AllOf acts exits [evaluate condition, .branch [yes, no]]
  := by
  apply allOf_cons.mpr ⟨hcondition, allOf_singleton.mpr (all_branch.mpr ?_)⟩
  exact allOfBlocks_cons.mpr ⟨hyes, allOfBlocks_cons.mpr ⟨hno, allOfBlocks_nil⟩⟩

/-- The code of a loop, which evaluates its arguments in front of each iteration. -/
theorem allOf_looped {args : List Expr} {body : List Emitted} (hargs : All acts exits (evaluateAll args))
    (hbody : AllOf acts exits body) :
  AllOf acts exits [evaluateAll args, .loop (evaluateAll args :: body)]
  := allOf_cons.mpr ⟨hargs, allOf_singleton.mpr (all_loop.mpr (allOf_cons.mpr ⟨hargs, hbody⟩))⟩

/-- The body of a loop over a string, with the element that is made and freed around it. -/
theorem allOf_around {x : Var} {body : List Emitted} (hgive : acts (.give x)) (hfree : acts (.free x))
    (hbody : AllOf acts exits body) :
  AllOf acts exits (.act (.give x) :: (body ++ [.act (.free x)]))
  := allOf_cons.mpr ⟨all_act.mpr hgive, allOf_append.mpr ⟨hbody, allOf_singleton.mpr (all_act.mpr hfree)⟩⟩

/-- An exit drops variables of a list, in the order of the list. -/
def DropsFrom (types : TypeTable) (K : List OwnedLocal) : Leaving → Prop
  | .returns drops kept => ∃ L, L.Sublist K ∧ drops = emitOwnedLocalDrops types L kept
  | .stop => True

/-- All events of some code are of any kind, and its exits drop variables of a list. -/
def DropsOnly (types : TypeTable) (K : List OwnedLocal) (code : List Emitted) : Prop :=
  AllOf (fun _ => True) (DropsFrom types K) code

theorem dropsFrom_nothing (kept : Option Var) : DropsFrom types K (.returns [] kept) :=
  ⟨[], List.nil_sublist K, rfl⟩

theorem dropsOnly_evaluate (e : Expr) : All (fun _ => True) (DropsFrom types K) (evaluate e) := by
  rw [evaluate, all_branch]
  exact allOfBlocks_cons.mpr ⟨allOf_nil, all_ofFlowBlocks (dropsFrom_nothing none) trivial _⟩

theorem dropsOnly_evaluateAll (es : List Expr) :
  All (fun _ => True) (DropsFrom types K) (evaluateAll es)
  := by
  rw [evaluateAll, all_branch]
  exact allOfBlocks_cons.mpr ⟨allOf_nil, all_ofFlowBlocks (dropsFrom_nothing none) trivial _⟩

theorem dropsOnly_value (value : Option Expr) : DropsOnly types K (value.toList.map evaluate) := by
  cases value with
  | none => exact allOf_nil
  | some value => exact allOf_singleton.mpr (dropsOnly_evaluate value)

theorem dropsOnly_declareCode (atTop : Bool) (x : Var) : DropsOnly types K (declareCode atTop x) := by
  unfold declareCode DropsOnly
  split_ifs <;> simp

theorem dropsOnly_giveCode (x : Var) (type : Ty) (owns : Bool) :
  DropsOnly types K (giveCode types x type owns)
  := by
  unfold giveCode DropsOnly
  split_ifs <;> simp

theorem emitBindings_inBlock (s : Emitter) (bindings : List Binding) :
  (emitBindings types false s bindings).1 = s ∧ DropsOnly types K (emitBindings types false s bindings).2
  := by
  induction bindings with
  | nil => exact ⟨rfl, allOf_nil⟩
  | cons binding bindings ih =>
    obtain ⟨hs, hcode⟩ := ih
    exact ⟨hs, allOf_append.mpr ⟨allOf_append.mpr ⟨dropsOnly_declareCode _ _, dropsOnly_giveCode _ _ _⟩,
      hcode⟩⟩

theorem emitTarget_inBlock (s : Emitter) (target : Expr) (owns : Bool) :
  (emitTarget types false s target owns).1 = s ∧ DropsOnly types K (emitTarget types false s target owns).2
  := by
  unfold emitTarget
  cases targetName target with
  | some x => exact ⟨rfl, dropsOnly_giveCode _ _ _⟩
  | none => exact ⟨rfl, allOf_nil⟩

/-- The emitter keeps a part of a list, and the code drops variables of it. -/
def Shrinks (types : TypeTable) (K : List OwnedLocal) (out : Emitter × List Emitted) : Prop :=
  out.1.owned.Sublist K ∧ DropsOnly types K out.2

mutual

/-- In a block, the list only loses variables. -/
theorem emitStmt_inBlock {s : Emitter} (hs : s.owned.Sublist K) (st : Stmt) :
  Shrinks types K (emitStmt types false s st)
  := by
  cases st with
  | var name type value =>
    refine ⟨hs, allOf_append.mpr ⟨allOf_append.mpr ⟨dropsOnly_value value, ?_⟩, ?_⟩⟩
    · exact dropsOnly_declareCode _ _
    · exact dropsOnly_giveCode _ _ _
  | assign op target value inferred =>
    cases inferred with
    | some type =>
      rw [emitStmt]
      cases targetName target with
      | some x =>
        refine ⟨hs, allOf_append.mpr ⟨allOf_append.mpr ⟨dropsOnly_value value, ?_⟩, ?_⟩⟩
        · exact dropsOnly_declareCode _ _
        · exact dropsOnly_giveCode _ _ _
      | none => exact ⟨hs, dropsOnly_value value⟩
    | none =>
      have hwritten : ∀ owns, Shrinks types K (emitTarget types false s target owns) := by
        intro owns
        obtain ⟨hsame, hcode⟩ := emitTarget_inBlock  s target owns
        exact ⟨by rw [hsame]; exact hs, hcode⟩
      cases op with
      | incr =>
        exact ⟨hs, allOf_cons.mpr ⟨dropsOnly_evaluate _,
          allOf_append.mpr ⟨dropsOnly_value value, allOf_nil⟩⟩⟩
      | addSet =>
        exact ⟨(hwritten true).1, allOf_cons.mpr ⟨dropsOnly_evaluate _,
          allOf_append.mpr ⟨dropsOnly_value value, (hwritten true).2⟩⟩⟩
      | subSet =>
        exact ⟨(hwritten true).1, allOf_cons.mpr ⟨dropsOnly_evaluate _,
          allOf_append.mpr ⟨dropsOnly_value value, (hwritten true).2⟩⟩⟩
      | set =>
        exact ⟨(hwritten _).1, allOf_cons.mpr ⟨dropsOnly_evaluate _,
          allOf_append.mpr ⟨dropsOnly_value value, (hwritten _).2⟩⟩⟩
  | destructure fields value =>
    obtain ⟨hsame, hcode⟩ := @emitBindings_inBlock types K { s with nextId := s.nextId + 1 } fields
    refine ⟨?_, allOf_cons.mpr ⟨dropsOnly_evaluate value, allOf_append.mpr ⟨allOf_append.mpr ⟨?_, ?_⟩, ?_⟩⟩⟩
    · rw [emitStmt, record_inBlock, hsame]
      exact hs
    · exact dropsOnly_declareCode _ _
    · exact dropsOnly_giveCode _ _ _
    · exact hcode
  | exprStmt expr => exact ⟨hs, allOf_singleton.mpr (dropsOnly_evaluate expr)⟩
  | free expr =>
    rw [emitStmt]
    cases targetName expr with
    | some x =>
      exact ⟨sublist_ownedLocalRemove.trans hs, allOf_cons.mpr ⟨dropsOnly_evaluate expr,
        allOf_singleton.mpr (all_act.mpr trivial)⟩⟩
    | none => exact ⟨hs, allOf_singleton.mpr (dropsOnly_evaluate expr)⟩
  | ret value =>
    refine ⟨hs, allOf_append.mpr ⟨dropsOnly_value value, allOf_singleton.mpr (all_leave.mpr ?_)⟩⟩
    exact ⟨s.owned, hs, rfl⟩
  | throw value =>
    exact ⟨hs, allOf_cons.mpr ⟨dropsOnly_evaluate value, allOf_singleton.mpr (all_leave.mpr trivial)⟩⟩
  | ifElse condition thenBlock elxBranches elseBlock =>
    obtain ⟨hyes, hyesCode⟩ := emitBlock_inBlock hs thenBlock
    rw [emitStmt]
    have hno : Shrinks types K (emitBranches types (emitBlock types false s thenBlock).1 elxBranches
        fun s => emitElse types s elseBlock) := by
      apply emitBranches_inBlock hyes elxBranches
      intro s hs
      exact emitElse_inBlock hs elseBlock
    exact ⟨hno.1, allOf_chosen (dropsOnly_evaluate condition) hyesCode hno.2⟩
  | loop kind args elementName body =>
    rw [emitStmt]
    split_ifs with hstr
    · have hs' : Emitter.owned { s with nextId := s.nextId + 1 } |>.Sublist K := hs
      obtain ⟨hinner, hcode⟩ := emitBlock_inBlock hs' body
      exact ⟨hinner, allOf_looped (dropsOnly_evaluateAll args) (allOf_around trivial trivial hcode)⟩
    · obtain ⟨hinner, hcode⟩ := emitBlock_inBlock hs body
      exact ⟨hinner, allOf_looped (dropsOnly_evaluateAll args) hcode⟩
  | pass => exact ⟨hs, allOf_nil⟩
  | fn name params returnType body => exact ⟨hs, allOf_nil⟩
  | aggStep value => exact ⟨hs, allOf_nil⟩

theorem emitBlock_inBlock {s : Emitter} (hs : s.owned.Sublist K) (sts : List Stmt) :
  Shrinks types K (emitBlock types false s sts)
  := by
  cases sts with
  | nil => exact ⟨hs, allOf_nil⟩
  | cons st sts =>
    obtain ⟨hfirst, hcode⟩ := emitStmt_inBlock hs st
    obtain ⟨hrest, hcodeRest⟩ := emitBlock_inBlock hfirst sts
    exact ⟨hrest, allOf_append.mpr ⟨hcode, hcodeRest⟩⟩

theorem emitElse_inBlock {s : Emitter} (hs : s.owned.Sublist K) (elseBlock : Option (List Stmt)) :
  Shrinks types K (emitElse types s elseBlock)
  := by
  cases elseBlock with
  | none => exact ⟨hs, allOf_nil⟩
  | some block => exact emitBlock_inBlock hs block

theorem emitBranches_inBlock {s : Emitter} (hs : s.owned.Sublist K) (branches : List (Expr × List Stmt))
    {elseCode : Emitter → Emitter × List Emitted}
    (helse : ∀ s : Emitter, s.owned.Sublist K → Shrinks types K (elseCode s)) :
  Shrinks types K (emitBranches types s branches elseCode)
  := by
  cases branches with
  | nil => exact helse s hs
  | cons branch branches =>
    obtain ⟨condition, body⟩ := branch
    obtain ⟨hyes, hyesCode⟩ := emitBlock_inBlock hs body
    obtain ⟨hno, hnoCode⟩ := emitBranches_inBlock hyes branches helse
    exact ⟨hno, allOf_chosen (dropsOnly_evaluate condition) hyesCode hnoCode⟩

end

end

/-! ### The code of a function -/

/-- The variables of a list have been given values of their own. -/
def Given (owned : List OwnedLocal) (h : Held) : Prop := ∀ x ∈ vars owned, x ∈ h.given

/-- A return drops no variable twice, nor the one it hands over, and only variables that have been given
values of their own. -/
def Safe : Leaving → Held → Prop
  | .returns drops kept, h => drops.Nodup ∧ ∀ x ∈ drops, x ∈ h.given ∧ some x ≠ kept
  | .stop, _ => True

section

variable {types : TypeTable} {K L : List OwnedLocal} {h : Held}

theorem Given.mono (hgiven : Given K h) (hsub : L.Sublist K) : Given L h :=
  fun x hx => hgiven x ((hsub.map OwnedLocal.var).subset hx)

theorem Given.step (hgiven : Given K h) (e : Event) : Given K (h.step e) := by
  intro x hx
  cases e with
  | declare y => exact hgiven x hx
  | give y => exact .inr (hgiven x hx)
  | lend y => exact hgiven x hx
  | free y => exact hgiven x hx

theorem Given.safe (hgiven : Given K h) (hnodup : (vars K).Nodup) {exit : Leaving}
    (hexit : DropsFrom types K exit) : Safe exit h := by
  cases exit with
  | stop => trivial
  | returns drops kept =>
    obtain ⟨L, hsub, rfl⟩ := hexit
    refine ⟨nodup_emitOwnedLocalDrops (hnodup.sublist (hsub.map _)) kept, ?_⟩
    intro x hx
    obtain ⟨l, hl, rfl, hkept, -⟩ := mem_emitOwnedLocalDrops_iff.mp hx
    exact ⟨hgiven.mono hsub _ (List.mem_map_of_mem hl), hkept⟩

theorem triple_given (hnodup : (vars K).Nodup) {code : List Emitted} (hcode : DropsOnly types K code) :
  Triple Held.step (Given K) code (Given K) Safe
  := by
  apply Triple.of_allOf hcode
  · intro h e _ hgiven
    exact hgiven.step e
  · intro h exit hexit hgiven
    exact hgiven.safe hnodup hexit

/-- What the emitter keeps lists no variable twice, and on the paths through the code the variables it
lists are given values. -/
def Keeps (s : Emitter) (out : Emitter × List Emitted) : Prop :=
  (vars out.1.owned).Nodup ∧ Triple Held.step (Given s.owned) out.2 (Given out.1.owned) Safe

theorem Keeps.then {s : Emitter} {first rest : Emitter × List Emitted} (hfirst : Keeps s first)
    (hrest : Keeps first.1 rest) : Keeps s (rest.1, first.2 ++ rest.2) :=
  ⟨hrest.1, hfirst.2.append hrest.2⟩

variable (types) in
theorem Keeps.after {s : Emitter} {code : List Emitted} {out : Emitter × List Emitted}
    (hnodup : (vars s.owned).Nodup) (hcode : DropsOnly types s.owned code) (hout : Keeps s out) :
  Keeps s (out.1, code ++ out.2) :=
  ⟨hout.1, (triple_given hnodup hcode).append hout.2⟩

theorem mem_vars_record {s : Emitter} {x y : Var} {type : Ty} {owns : Bool}
    (hy : y ∈ vars (s.record types true x type owns).owned) :
  y ∈ vars s.owned ∨ y = x ∧ owns = true ∧ typeNeedsDrop types type = true
  := by
  unfold Emitter.record ownedLocalAdd at hy
  simp only [Bool.true_and] at hy
  split_ifs at hy with howns hold
  · exact .inl hy
  · simp only [Bool.or_eq_true, Bool.not_eq_true', not_or, Bool.not_eq_false] at hold
    rw [vars, List.map_append, List.mem_append] at hy
    obtain hy | hy := hy
    · exact .inl hy
    · exact .inr ⟨List.mem_singleton.mp hy, howns, hold.1⟩
  · exact .inl hy

/-- A variable that is entered in the list is given a value there. -/
theorem keeps_give {s : Emitter} (hnodup : (vars s.owned).Nodup) (x : Var) (type : Ty) (owns : Bool) :
  Keeps s (s.record types true x type owns, giveCode types x type owns)
  := by
  constructor
  · unfold Emitter.record
    dsimp only
    split_ifs
    · exact nodup_ownedLocalAdd hnodup
    · exact hnodup
  · have hold : Triple Held.step (Given s.owned) (giveCode types x type owns) (Given s.owned) Safe :=
      triple_given hnodup (dropsOnly_giveCode x type owns)
    intro h actions o hgiven hpath
    have hended := hold h actions o hgiven hpath
    cases o with
    | some exit => exact hended
    | none =>
      intro y hy
      obtain hy | ⟨rfl, rfl, hdrop⟩ := mem_vars_record hy
      · exact hended y hy
      · rw [giveCode, hdrop] at hpath
        cases hpath with
        | act hrest =>
          cases hrest
          exact .inl rfl

variable (types) in
theorem keeps_inBlock {s : Emitter} (hnodup : (vars s.owned).Nodup) {out : Emitter × List Emitted}
    (hout : Shrinks types s.owned out) : Keeps s out := by
  obtain ⟨hsub, hcode⟩ := hout
  refine ⟨hnodup.sublist (hsub.map _), (triple_given hnodup hcode).weaken (fun _ h => h) ?_⟩
  intro h hgiven
  exact hgiven.mono hsub

variable (types) in
theorem keeps_declare {s : Emitter} (hnodup : (vars s.owned).Nodup) (x : Var) (type : Ty) (owns : Bool) :
  Keeps s (s.record types true x type owns, declareCode true x ++ giveCode types x type owns)
  := Keeps.after types hnodup (dropsOnly_declareCode true x) (keeps_give hnodup x type owns)

variable (types) in
theorem emitBindings_keeps {s : Emitter} (hnodup : (vars s.owned).Nodup) (bindings : List Binding) :
  Keeps s (emitBindings types true s bindings)
  := by
  induction bindings generalizing s with
  | nil => exact keeps_inBlock types hnodup ⟨List.Sublist.refl _, allOf_nil⟩
  | cons binding bindings ih =>
    have hfirst := keeps_declare types hnodup (.named binding.name) binding.declaredType true
    exact hfirst.then (ih hfirst.1)

theorem emitTarget_keeps {s : Emitter} (hnodup : (vars s.owned).Nodup) (target : Expr) (owns : Bool) :
  Keeps s (emitTarget types true s target owns)
  := by
  unfold emitTarget
  cases targetName target with
  | some x => exact keeps_give hnodup x _ owns
  | none => exact keeps_inBlock types hnodup ⟨List.Sublist.refl _, allOf_nil⟩

variable (types) in
theorem emitStmt_keeps {s : Emitter} (hnodup : (vars s.owned).Nodup) (st : Stmt) :
  Keeps s (emitStmt types true s st)
  := by
  have hsame : ∀ out, out = emitStmt types false s st → Keeps s out := by
    rintro out rfl
    exact keeps_inBlock types hnodup (emitStmt_inBlock (List.Sublist.refl _) st)
  cases st with
  | var name type value =>
    rw [emitStmt, List.append_assoc]
    exact Keeps.after types hnodup (dropsOnly_value value) (keeps_declare types hnodup _ _ _)
  | assign op target value inferred =>
    cases inferred with
    | some type =>
      rw [emitStmt]
      cases targetName target with
      | some x =>
        dsimp only
        rw [List.append_assoc]
        exact Keeps.after types hnodup (dropsOnly_value value) (keeps_declare types hnodup _ _ _)
      | none => exact keeps_inBlock types hnodup ⟨List.Sublist.refl _, dropsOnly_value value⟩
    | none =>
      have hevaluated : DropsOnly types s.owned (evaluate target :: value.toList.map evaluate) :=
        allOf_cons.mpr ⟨dropsOnly_evaluate target, dropsOnly_value value⟩
      cases op with
      | incr => exact hsame _ rfl
      | addSet => exact Keeps.after types hnodup hevaluated (emitTarget_keeps hnodup target true)
      | subSet => exact Keeps.after types hnodup hevaluated (emitTarget_keeps hnodup target true)
      | set => exact Keeps.after types hnodup hevaluated (emitTarget_keeps hnodup target _)
  | destructure fields value =>
    have hevaluated : DropsOnly types s.owned [evaluate value] :=
      allOf_singleton.mpr (dropsOnly_evaluate value)
    have hlater : (vars (Emitter.owned { s with nextId := s.nextId + 1 })).Nodup := hnodup
    have hwhole := keeps_declare types hlater (.destructured s.nextId) value.checkedType
      (assignmentInitializerMayOwn types value.checkedType (some value))
    have hall := Keeps.after types hnodup hevaluated
      (hwhole.then (emitBindings_keeps types hwhole.1 fields))
    exact hall
  | exprStmt expr => exact hsame _ rfl
  | free expr => exact hsame _ rfl
  | ret value => exact hsame _ rfl
  | throw value => exact hsame _ rfl
  | ifElse condition thenBlock elxBranches elseBlock => exact hsame _ rfl
  | loop kind args elementName body => exact hsame _ rfl
  | pass => exact hsame _ rfl
  | fn name params returnType body => exact hsame _ rfl
  | aggStep value => exact hsame _ rfl

variable (types) in
theorem emitBlock_keeps {s : Emitter} (hnodup : (vars s.owned).Nodup) (sts : List Stmt) :
  Keeps s (emitBlock types true s sts)
  := by
  induction sts generalizing s with
  | nil => exact keeps_inBlock types hnodup ⟨List.Sublist.refl _, allOf_nil⟩
  | cons st sts ih =>
    have hfirst := emitStmt_keeps types hnodup st
    exact hfirst.then (ih hfirst.1)

end

section

/-- A text is made from two others, and handed over early where a condition holds. -/
def joined : List Stmt :=
  let text := Info.ofType .STR
  [.var "s" .STR (some (.binary text .add (.str text "a") (.str text "b"))),
    .ifElse (.bol (.ofType .BOL) true) [.ret (some (.name text "s"))] [] none]

theorem emitFunction_joined :
  emitFunction [] joined =
    [.branch [[]], .act (.declare (.named "s")), .act (.give (.named "s")), .branch [[]],
      .branch [[.branch [[]], .leave (.returns [] (some (.named "s")))], []],
      .leave (.returns [.named "s"] none)]
  := rfl

/-- The path on which the text is not handed over. -/
theorem path_joined :
  Path (emitFunction [] joined) [.declare (.named "s"), .give (.named "s")]
    (some (.returns [.named "s"] none))
  := by
  rw [emitFunction_joined]
  exact .branchDone (.head _) .nil (.act (.act (.branchDone (.head _) .nil
    (.branchDone (.tail _ (.head _)) .nil .leave))))

end

end Caster.OwnedLocals
