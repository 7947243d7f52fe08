import Caster.Analyze.Names
import Caster.Analyze.SourceKeys

/-!
# The analysis of expressions

`analyze_expr_expected` on constants, names, dots, negation and the binary operators of
numbers and strings: the tree it leaves, with the type recorded on each node.  The nodes
it does not cover stop the analysis with `beyond`; so do the branches for names that are
expected to be functions, unrefined arrays or open data, which change the scope.  The parser
leaves no C expression on a dot.
-/

namespace Caster

/-- The part of the analyzer's context that expressions read. -/
structure AnalyzeCtx where
  loopDepth : ℕ
  /-- A reference compared with a reference is not read through. -/
  preserveRefIdentity : Bool

/-! ### Dots -/

/-- The element type of a loop context. -/
def loopCtxElementType : Ty → Ty
  | .CTX elem => elem
  | _ => .unknown

/-- The types of loop contexts. -/
def isLoopCtxType : Ty → Bool
  | .CTX _ => true
  | _ => false

/-- The annotation of a dot that is emitted as its own access. -/
def Info.typed (info : Info) (type : Ty) : Info :=
  { info with checkedType := type, cExpr := none }

/-- The index node made for a local that a dot is computed with. -/
def localNode (sym : Symbol) (name : String) (type : Ty) : Expr :=
  .name { Info.ofType type with cExpr := sym.cExpr } name

/-- The key node made for a name that is no local. -/
def keyNode (name : String) : Expr := .str (Info.ofType .STR) name

/-- The field `i` or `e` of a loop context. -/
def analyzeLoopDot (info : Info) (object : Expr) (sym : Symbol) (objectName name : String)
    (accessType : Ty) : Except Stop Expr :=
  if name = "i" then
    match sym.ctxIndex with
    | some c => .ok (.dot { info with checkedType := .INT, cExpr := some c } object name)
    | none => .error (.die ("loop context '" ++ objectName ++ "' has no .i"))
  else
    match sym.ctxElement with
    | some c =>
      .ok (.dot { info with
        checkedType := sym.ctxElementType.getD (loopCtxElementType accessType)
        cExpr := some c } object name)
    | none => .error (.die ("loop context '" ++ objectName ++ "' has no .e"))

/-- The type known for a key written as a literal. -/
def keyFact (types : TypeTable) (scope : Scope) (object : Expr) : Expr → Option Ty
  | .str _ text => exprSourceLiteralKeyType types scope object text
  | _ => none

/-- A dot that names a field, or a local to compute with, of a value. -/
def analyzeFieldDot (types : TypeTable) (scope : Scope) (info : Info) (object : Expr)
    (name : String) : Except Stop Expr :=
  let accessType := object.checkedType
  match structField types accessType name with
  | some field => .ok (.dot (info.typed field.declaredType) object name)
  | none =>
    match accessType, scopeTryResolve scope name with
    | .ARR elem, some sym =>
      if sym.type = .INT then
        .ok (.dotIndex (info.typed elem) object (localNode sym name .INT))
      else
        .error (.die ("computed array access needs INT local '" ++ name ++ "', got " ++ sym.type.text))
    | .STR, some sym =>
      if sym.type = .INT then
        .ok (.dotIndex (info.typed .STR) object (localNode sym name .INT))
      else
        .error (.die ("computed STR access needs INT local '" ++ name ++ "', got " ++ sym.type.text))
    | .OBJ, some sym =>
      if sym.type = .STR then
        .ok (.dotTarget (info.typed .OBJ) object (localNode sym name .STR))
      else
        .error (.die ("computed object access needs STR local '" ++ name ++ "', got " ++ sym.type.text))
    | .OBJ, none => .ok (.dotTarget (info.typed .OBJ) object (keyNode name))
    | .MAP key value, some sym =>
      if exprHasSourceLiteralKey types scope object name then
        .error (.die ("ambiguous dot access '." ++ name ++
          "': source-visible map key conflicts with local '" ++ name ++ "'"))
      else if sym.type = key then
        .ok (.dotTarget (info.typed value) object (localNode sym name sym.type))
      else
        .error (.die ("computed map access needs " ++ key.text ++ " local '" ++ name ++ "', got " ++
          sym.type.text))
    | .MAP key value, none =>
      if key = .STR then .ok (.dotTarget (info.typed value) object (keyNode name))
      else .error (.die ("literal dot map access requires STR keys, got " ++ key.text))
    | _, sym =>
      if isOpenStructType types accessType || accessType = .OPEN then
        match sym with
        | some sym =>
          if accessType ≠ .OPEN && exprHasSourceLiteralKey types scope object name then
            .error (.die ("ambiguous dot access '." ++ name ++
              "': source-visible map key conflicts with local '" ++ name ++ "'"))
          else if sym.type = .STR then
            .ok (.dotTarget (info.typed .OBJ) object (localNode sym name .STR))
          else
            .error (.die ("computed open MAP access needs STR local '" ++ name ++ "', got " ++
              sym.type.text))
        | none =>
          .ok (.dotTarget
            (info.typed ((exprSourceLiteralKeyType types scope object name).getD .OBJ)) object
            (keyNode name))
      else .error (.die ("type " ++ accessType.text ++ " has no field '" ++ name ++ "'"))

/-- A dot with a name, over the analyzed object. -/
def analyzeNameDot (types : TypeTable) (scope : Scope) (ctx : AnalyzeCtx) (info : Info)
    (object : Expr) (name : String) : Except Stop Expr :=
  let loopName := name = "i" ∨ name = "e"
  match object with
  | .name _ objectName =>
    match scopeTryResolve scope objectName with
    | some sym =>
      if (sym.ctxIndex.isSome ∨ sym.ctxElement.isSome) ∧ loopName then
        if 0 < sym.ctxMinDepth ∧ ctx.loopDepth < sym.ctxMinDepth then
          .error (.die ("qualified loop source '" ++ objectName ++ "." ++ name ++
            "' is only needed inside nested loops; use " ++ name ++ " in the current loop"))
        else analyzeLoopDot info object sym objectName name object.checkedType
      else if isLoopCtxType object.checkedType then
        if loopName then analyzeLoopDot info object sym objectName name object.checkedType
        else .error (.die ("loop context '" ++ objectName ++ "' has no field '" ++ name ++ "'"))
      else analyzeFieldDot types scope info object name
    | none =>
      if isLoopCtxType object.checkedType then .error (.die ("unknown name '" ++ objectName ++ "'"))
      else analyzeFieldDot types scope info object name
  | object =>
    if isLoopCtxType object.checkedType then
      .error (.die "loop context access requires a named context")
    else analyzeFieldDot types scope info object name

/-- A dot with a computed index, over the analyzed object and index. -/
def analyzeIndexDot (types : TypeTable) (scope : Scope) (info : Info) (object index : Expr) :
    Except Stop Expr :=
  let accessType := object.checkedType
  let indexType := index.checkedType
  match accessType with
  | .OBJ =>
    if indexType = .INT then .ok (.dotIndex (info.typed .OBJ) object index)
    else if indexType = .STR then .ok (.dotTarget (info.typed .OBJ) object index)
    else .error (.die ("DYN computed access needs INT index or STR key, got " ++ indexType.text))
  | .MAP key value =>
    if indexType = key then .ok (.dotTarget (info.typed value) object index)
    else
      .error (.die ("computed map access needs " ++ key.text ++ " key, got " ++ indexType.text))
  | .STR =>
    if indexType = .INT then .ok (.dotIndex (info.typed .STR) object index)
    else .error (.die ("computed sequence access needs INT index, got " ++ indexType.text))
  | .ARR elem =>
    if indexType = .INT then .ok (.dotIndex (info.typed elem) object index)
    else .error (.die ("computed sequence access needs INT index, got " ++ indexType.text))
  | accessType =>
    if isOpenStructType types accessType || accessType = .OPEN then
      if indexType = .STR then
        .ok (.dotTarget (info.typed ((keyFact types scope object index).getD .OBJ)) object index)
      else
        .error (.die ("computed open MAP access needs STR key, got " ++ indexType.text))
    else
      .error (.die ("computed dot access requires ARR, STR, DYN, or runtime-key MAP, got " ++
        accessType.text))

/-! ### Operators -/

/-- The operators of arithmetic. -/
def isArithmeticOp (op : BinaryOp) : Bool :=
  op = .add || op = .sub || op = .mul || op = .div || op = .mod

/-- The text of an operator in messages. -/
def arithmeticText : BinaryOp → String
  | .add => "+"
  | .sub => "-"
  | .mul => "*"
  | .div => "/"
  | _ => "%"

/-- The type of an arithmetic operation. -/
def analyzeArithmetic (op : BinaryOp) (left right : Ty) : Except Stop Ty :=
  if op = .mod then
    if left = .INT ∧ right = .INT then .ok .INT
    else
      .error (.die ("operator '%' requires INT operands, got " ++ left.text ++ " and " ++ right.text))
  else
    match numericBinaryType left right with
    | some type => .ok type
    | none =>
      .error (.die ("operator '" ++ arithmeticText op ++ "' requires numeric operands, got " ++
        left.text ++ " and " ++ right.text))

/-- The type of a negation. -/
def analyzeNegation (type : Ty) : Except Stop Ty :=
  if type = .INT then .ok .INT
  else if type = .FLT then .ok .FLT
  else .error (.die ("operator '-' cannot be applied to " ++ type.text))

theorem analyzeNegation_ok {type result : Ty} (h : analyzeNegation type = .ok result) :
  result = type ∧ isNumericType type
  := by
  unfold analyzeNegation at h
  split at h
  · rename_i hint
    cases h
    exact ⟨hint.symm, by rw [hint]; rfl⟩
  · split at h
    · rename_i hflt
      cases h
      exact ⟨hflt.symm, by rw [hflt]; rfl⟩
    · cases h

/-- What an accepted arithmetic operation says about its operands. -/
theorem analyzeArithmetic_ok {op : BinaryOp} {left right type : Ty}
    (h : analyzeArithmetic op left right = .ok type) :
  isNumericType left ∧ isNumericType right ∧
    (type = .INT ∧ left = .INT ∧ right = .INT ∨
      type = .FLT ∧ (left = .FLT ∨ right = .FLT) ∧ op ≠ .mod)
  := by
  unfold analyzeArithmetic at h
  split at h
  · split at h
    · rename_i hint
      cases h
      obtain ⟨rfl, rfl⟩ := hint
      exact ⟨rfl, rfl, Or.inl ⟨rfl, rfl, rfl⟩⟩
    · cases h
  · rename_i hmod
    unfold numericBinaryType at h
    by_cases hnum : (isNumericType left && isNumericType right) = true
    · rw [if_pos hnum] at h
      rw [Bool.and_eq_true] at hnum
      refine ⟨hnum.1, hnum.2, ?_⟩
      by_cases hflt : (decide (left = .FLT) || decide (right = .FLT)) = true
      · rw [if_pos (by simpa using hflt)] at h
        cases h
        exact Or.inr ⟨rfl, by simpa using hflt, hmod⟩
      · rw [if_neg (by simpa using hflt)] at h
        cases h
        simp only [Bool.or_eq_true, decide_eq_true_eq, not_or] at hflt
        exact Or.inl ⟨rfl, (numeric_cases hnum.1).resolve_right hflt.1,
          (numeric_cases hnum.2).resolve_right hflt.2⟩
    · rw [if_neg hnum] at h
      cases h

/-! ### Expressions -/

/-- The analysis of an expression at a position of an expected type, if there is one. -/
def analyzeExprExpected (types : TypeTable) (scope : Scope) :
    AnalyzeCtx → Expr → Option Ty → Except Stop Expr
  | _, .int info value, expected =>
    .ok (.int { info with checkedType := if expected = some .FLT then .FLT else .INT } value)
  | _, .flt info value, _ => .ok (.flt { info with checkedType := .FLT } value)
  | _, .bol info value, _ => .ok (.bol { info with checkedType := .BOL } value)
  | _, .str info text, _ => .ok (.str { info with checkedType := .STR } text)
  | _, .nil info, _ => .ok (.nil { info with checkedType := .NUL })
  | ctx, .name info name, expected => do
    let e ← analyzeName types scope info name
    match expected with
    | none => .ok (if ctx.preserveRefIdentity then e else implicitRefReadValue e)
    | some expected =>
      if isFnType expected || isArrayType expected || isStructType types expected ||
          isMapType expected then .error .beyond
      else
        let read := implicitRefReadIfAssignable types e expected
        if typeAssignableToExpected types read.checkedType expected then .ok read
        else .error (.die ("expected " ++ expected.text ++ ", got " ++ read.checkedType.text))
  | ctx, .dot info object name, _ => do
    let object ← analyzeExprExpected types scope ctx object none
    analyzeNameDot types scope ctx info (implicitRefReadValue object) name
  | ctx, .dotIndex info object index, _ => do
    let object ← analyzeExprExpected types scope ctx object none
    if isLoopCtxType (implicitRefReadValue object).checkedType then
      .error (.die "loop context supports .i and .e")
    else
      let index ← analyzeExprExpected types scope { ctx with preserveRefIdentity := false } index none
      analyzeIndexDot types scope info (implicitRefReadValue object) index
  | ctx, .unary info .neg e, _ => do
    let e ← analyzeExprExpected types scope ctx e none
    let type ← analyzeNegation (implicitRefReadValue e).checkedType
    .ok (.unary { info with checkedType := type } .neg (implicitRefReadValue e))
  | ctx, .binary info op left right, _ =>
    if isArithmeticOp op then do
      let left ← analyzeExprExpected types scope ctx left none
      let left := if op = .add then implicitRefReadValue left else left
      if op = .add ∧ (isArrayType left.checkedType ∨ isMapType left.checkedType ∨
          isStructType types left.checkedType ∨ left.checkedType = .OPEN) then .error .beyond
      else
        let right ← analyzeExprExpected types scope ctx right none
        let right := if op = .add then implicitRefReadValue right else right
        if op = .add ∧ left.checkedType = .STR ∧ right.checkedType = .STR then
          .ok (.binary { info with checkedType := .STR } op left right)
        else
          let left := implicitRefReadValue left
          let right := implicitRefReadValue right
          let type ← analyzeArithmetic op left.checkedType right.checkedType
          .ok (.binary { info with checkedType := type } op left right)
    else .error .beyond
  | _, _, _ => .error .beyond

/-! ### What an accepted node says -/

attribute [local simp] analyzeExprExpected

variable {types : TypeTable} {scope : Scope} {ctx : AnalyzeCtx} {info : Info} {e' : Expr}
variable {expected : Option Ty}

/-- What holds of every expression the analysis leaves aside, and of the others when it holds
of their operands, holds of every expression. -/
theorem expr_induction {motive : Expr → Prop} (int : ∀ info value, motive (.int info value))
    (flt : ∀ info value, motive (.flt info value)) (bol : ∀ info value, motive (.bol info value))
    (str : ∀ info text, motive (.str info text)) (nil : ∀ info, motive (.nil info))
    (name : ∀ info name, motive (.name info name))
    (dot : ∀ info object name, motive object → motive (.dot info object name))
    (dotIndex : ∀ info object index, motive object → motive index →
      motive (.dotIndex info object index))
    (neg : ∀ info e, motive e → motive (.unary info .neg e))
    (binary : ∀ info op left right, motive left → motive right →
      motive (.binary info op left right))
    (beyond : ∀ e, (∀ types scope ctx expected,
      analyzeExprExpected types scope ctx e expected = .error .beyond) → motive e) :
  (e : Expr) → motive e
  | .int info value => int info value
  | .flt info value => flt info value
  | .bol info value => bol info value
  | .str info text => str info text
  | .nil info => nil info
  | .name info original => name info original
  | .dot info object field =>
    dot info object field (expr_induction int flt bol str nil name dot dotIndex neg binary beyond object)
  | .dotIndex info object index =>
    dotIndex info object index
      (expr_induction int flt bol str nil name dot dotIndex neg binary beyond object)
      (expr_induction int flt bol str nil name dot dotIndex neg binary beyond index)
  | .unary info .neg e =>
    neg info e (expr_induction int flt bol str nil name dot dotIndex neg binary beyond e)
  | .binary info op left right =>
    binary info op left right
      (expr_induction int flt bol str nil name dot dotIndex neg binary beyond left)
      (expr_induction int flt bol str nil name dot dotIndex neg binary beyond right)
  | .unary _ .REF _ | .unary _ .deref _ | .unary _ .hold _ | .unary _ .not _
  | .array _ _ | .shape _ _ | .mapLiteral _ _ | .recordLiteral _ _ | .dotTarget _ _ _
  | .call _ _ _ | .methodCall _ _ _ _ _ | .decode _ _ | .ifExpr _ _ _ _ =>
    beyond _ fun _ _ _ _ => rfl

/-- The keys and indices a dot with a name is given: a local, or the name as a key. -/
inductive NameKey (scope : Scope) (name : String) : Expr → Prop where
  | ofLocal (sym : Symbol) : scopeTryResolve scope name = some sym →
      NameKey scope name (localNode sym name sym.type)
  | ofName : NameKey scope name (keyNode name)

/-- The dots an analysis leaves over an object, with the type each records; `keys` are the
keys and indices it may compute with. -/
inductive AnalyzedDot (types : TypeTable) (scope : Scope) (keys : Expr → Prop) (info : Info)
    (object : Expr) : Expr → Prop where
  | loopIndex (sym : Symbol) (c : CExpr) (objectName name : String) :
      scopeTryResolve scope objectName = some sym → sym.ctxIndex = some c →
      AnalyzedDot types scope keys info object
        (.dot { info with checkedType := .INT, cExpr := some c } object name)
  | loopElement (sym : Symbol) (c : CExpr) (info' : Info) (objectName name : String) :
      scopeTryResolve scope objectName = some sym → sym.ctxElement = some c →
      object = .name info' objectName →
      AnalyzedDot types scope keys info object
        (.dot { info with
          checkedType := sym.ctxElementType.getD (loopCtxElementType object.checkedType)
          cExpr := some c } object name)
  | field (name : String) (field : Field) : structField types object.checkedType name = some field →
      AnalyzedDot types scope keys info object (.dot (info.typed field.declaredType) object name)
  | arr (elem : Ty) (index : Expr) : object.checkedType = .ARR elem → keys index →
      index.checkedType = .INT →
      AnalyzedDot types scope keys info object (.dotIndex (info.typed elem) object index)
  | str (index : Expr) : object.checkedType = .STR → keys index → index.checkedType = .INT →
      AnalyzedDot types scope keys info object (.dotIndex (info.typed .STR) object index)
  | objIndex (index : Expr) : object.checkedType = .OBJ → keys index → index.checkedType = .INT →
      AnalyzedDot types scope keys info object (.dotIndex (info.typed .OBJ) object index)
  | objKey (key : Expr) : object.checkedType = .OBJ → keys key → key.checkedType = .STR →
      AnalyzedDot types scope keys info object (.dotTarget (info.typed .OBJ) object key)
  | map (keyType value : Ty) (key : Expr) : object.checkedType = .MAP keyType value → keys key →
      key.checkedType = keyType →
      AnalyzedDot types scope keys info object (.dotTarget (info.typed value) object key)
  | openKey (key : Expr) : isOpenStructType types object.checkedType ∨ object.checkedType = .OPEN →
      keys key → key.checkedType = .STR →
      AnalyzedDot types scope keys info object
        (.dotTarget (info.typed ((keyFact types scope object key).getD .OBJ)) object key)

theorem analyzeFieldDot_ok {object : Expr} {name : String}
    (h : analyzeFieldDot types scope info object name = .ok e') :
  AnalyzedDot types scope (NameKey scope name) info object e'
  := by
  unfold analyzeFieldDot at h
  simp only at h
  split at h
  · rename_i field hfield
    cases h
    exact .field name field hfield
  · split at h
    · rename_i elem sym htype hsym
      split at h
      · rename_i hint
        cases h
        rw [← hint]
        exact .arr elem _ htype (.ofLocal sym hsym) hint
      · cases h
    · rename_i sym htype hsym
      split at h
      · rename_i hint
        cases h
        rw [← hint]
        exact .str _ htype (.ofLocal sym hsym) hint
      · cases h
    · rename_i sym htype hsym
      split at h
      · rename_i hstr
        cases h
        rw [← hstr]
        exact .objKey _ htype (.ofLocal sym hsym) hstr
      · cases h
    · rename_i htype _
      cases h
      exact .objKey _ htype .ofName rfl
    · rename_i key value sym htype hsym
      split at h
      · cases h
      · split at h
        · rename_i hkey
          cases h
          exact .map key value _ htype (.ofLocal sym hsym) hkey
        · cases h
    · rename_i key value htype _
      split at h
      · rename_i hkey
        cases h
        exact .map key value _ htype .ofName hkey.symm
      · cases h
    · split at h
      · rename_i hopen
        rw [Bool.or_eq_true, decide_eq_true_eq] at hopen
        split at h
        · rename_i sym hsym
          split at h
          · cases h
          · split at h
            · rename_i hstr
              cases h
              rw [← hstr]
              exact .openKey (localNode sym name sym.type) hopen (.ofLocal sym hsym) hstr
            · cases h
        · cases h
          exact .openKey (keyNode name) hopen .ofName rfl
      · cases h

theorem analyzeLoopDot_ok {object : Expr} {sym : Symbol} {objectName name : String} {info' : Info}
    {keys : Expr → Prop} (hobject : object = .name info' objectName)
    (hsym : scopeTryResolve scope objectName = some sym)
    (h : analyzeLoopDot info object sym objectName name object.checkedType = .ok e') :
  AnalyzedDot types scope keys info object e'
  := by
  unfold analyzeLoopDot at h
  split at h
  · split at h
    · rename_i c hc
      cases h
      exact .loopIndex sym c objectName name hsym hc
    · cases h
  · split at h
    · rename_i c hc
      cases h
      exact .loopElement sym c info' objectName name hsym hc hobject
    · cases h

theorem analyzeNameDot_ok {object : Expr} {name : String}
    (h : analyzeNameDot types scope ctx info object name = .ok e') :
  AnalyzedDot types scope (NameKey scope name) info object e'
  := by
  unfold analyzeNameDot at h
  simp only at h
  split at h
  · rename_i info' objectName
    split at h
    · rename_i sym hsym
      split at h
      · split at h
        · cases h
        · exact analyzeLoopDot_ok rfl hsym h
      · split at h
        · split at h
          · exact analyzeLoopDot_ok rfl hsym h
          · cases h
        · exact analyzeFieldDot_ok h
    · split at h
      · cases h
      · exact analyzeFieldDot_ok h
  · split at h
    · cases h
    · exact analyzeFieldDot_ok h

theorem analyzeIndexDot_ok {object index : Expr}
    (h : analyzeIndexDot types scope info object index = .ok e') :
  AnalyzedDot types scope (· = index) info object e'
  := by
  unfold analyzeIndexDot at h
  simp only at h
  split at h
  · rename_i htype
    split at h
    · rename_i hint
      cases h
      exact .objIndex index htype rfl hint
    · split at h
      · rename_i hstr
        cases h
        exact .objKey index htype rfl hstr
      · cases h
  · rename_i key value htype
    split at h
    · rename_i hkey
      cases h
      exact .map key value index htype rfl hkey
    · cases h
  · rename_i htype
    split at h
    · rename_i hint
      cases h
      exact .str index htype rfl hint
    · cases h
  · rename_i elem htype
    split at h
    · rename_i hint
      cases h
      exact .arr elem index htype rfl hint
    · cases h
  · split at h
    · rename_i hopen
      rw [Bool.or_eq_true, decide_eq_true_eq] at hopen
      split at h
      · rename_i hstr
        cases h
        exact .openKey index hopen rfl hstr
      · cases h
    · cases h

theorem analyzeExprExpected_neg {e : Expr}
    (h : analyzeExprExpected types scope ctx (.unary info .neg e) expected = .ok e') :
  ∃ a type, analyzeExprExpected types scope ctx e none = .ok a ∧
    analyzeNegation (implicitRefReadValue a).checkedType = .ok type ∧
    e' = .unary { info with checkedType := type } .neg (implicitRefReadValue a)
  := by
  rw [analyzeExprExpected] at h
  obtain ⟨a, ha, h⟩ := Stop.bind_ok h
  obtain ⟨type, htype, h⟩ := Stop.bind_ok h
  cases h
  exact ⟨a, type, ha, htype, rfl⟩

/-- The operands of an operation are read through references as often as its operator asks,
and it joins strings or calculates. -/
theorem analyzeExprExpected_binary {op : BinaryOp} {left right : Expr}
    (h : analyzeExprExpected types scope ctx (.binary info op left right) expected = .ok e') :
  isArithmeticOp op ∧ ∃ l r type m n,
    analyzeExprExpected types scope ctx left none = .ok l ∧
    analyzeExprExpected types scope ctx right none = .ok r ∧
    e' = .binary { info with checkedType := type } op (implicitRefReadValue^[m] l)
      (implicitRefReadValue^[n] r) ∧
    (type = .STR ∧ op = .add ∧ (implicitRefReadValue^[m] l).checkedType = .STR ∧
        (implicitRefReadValue^[n] r).checkedType = .STR ∨
      analyzeArithmetic op (implicitRefReadValue^[m] l).checkedType
        (implicitRefReadValue^[n] r).checkedType = .ok type)
  := by
  rw [analyzeExprExpected] at h
  split at h
  · rename_i hop
    refine ⟨hop, ?_⟩
    obtain ⟨l, hl, h⟩ := Stop.bind_ok h
    by_cases hadd : op = .add
    · subst hadd
      simp only [if_true, true_and] at h
      split at h
      · cases h
      · obtain ⟨r, hr, h⟩ := Stop.bind_ok h
        split at h
        · rename_i hstr
          cases h
          exact ⟨l, r, .STR, 1, 1, hl, hr, rfl, Or.inl ⟨rfl, rfl, hstr.1, hstr.2⟩⟩
        · obtain ⟨type, htype, h⟩ := Stop.bind_ok h
          cases h
          exact ⟨l, r, type, 2, 2, hl, hr, rfl, Or.inr htype⟩
    · simp only [hadd, if_false, false_and] at h
      obtain ⟨r, hr, h⟩ := Stop.bind_ok h
      obtain ⟨type, htype, h⟩ := Stop.bind_ok h
      cases h
      exact ⟨l, r, type, 1, 1, hl, hr, rfl, Or.inr htype⟩
  · cases h

theorem analyzeExprExpected_dot {object : Expr} {name : String}
    (h : analyzeExprExpected types scope ctx (.dot info object name) expected = .ok e') :
  ∃ a, analyzeExprExpected types scope ctx object none = .ok a ∧
    AnalyzedDot types scope (NameKey scope name) info (implicitRefReadValue a) e'
  := by
  rw [analyzeExprExpected] at h
  obtain ⟨a, ha, h⟩ := Stop.bind_ok h
  exact ⟨a, ha, analyzeNameDot_ok h⟩

theorem analyzeExprExpected_dotIndex {object index : Expr}
    (h : analyzeExprExpected types scope ctx (.dotIndex info object index) expected = .ok e') :
  ∃ a i, analyzeExprExpected types scope ctx object none = .ok a ∧
    analyzeExprExpected types scope { ctx with preserveRefIdentity := false } index none = .ok i ∧
    AnalyzedDot types scope (· = i) info (implicitRefReadValue a) e'
  := by
  rw [analyzeExprExpected] at h
  obtain ⟨a, ha, h⟩ := Stop.bind_ok h
  split at h
  · cases h
  · obtain ⟨i, hi, h⟩ := Stop.bind_ok h
    exact ⟨a, i, ha, hi, analyzeIndexDot_ok h⟩

theorem analyzeExprExpected_name {name : String}
    (h : analyzeExprExpected types scope ctx (.name info name) expected = .ok e') :
  ∃ a, analyzeName types scope info name = .ok a ∧
    (e' = a ∨ isRefType a.checkedType ∧ e' = wrapExprAsImplicitDeref a a.checkedType)
  := by
  rw [analyzeExprExpected] at h
  obtain ⟨a, ha, h⟩ := Stop.bind_ok h
  refine ⟨a, ha, ?_⟩
  cases expected with
  | none =>
    cases h
    split
    · exact Or.inl rfl
    · unfold implicitRefReadValue
      split
      · rename_i href
        exact Or.inr ⟨href, rfl⟩
      · exact Or.inl rfl
  | some expected =>
    simp only at h
    split at h
    · cases h
    · split at h
      · cases h
        unfold implicitRefReadIfAssignable
        split
        · rename_i href
          simp only [Bool.and_eq_true] at href
          exact Or.inr ⟨href.1.1, rfl⟩
        · exact Or.inl rfl
      · cases h

theorem AnalyzedDot.ne_name {keys : Expr → Prop} {object : Expr} {info' : Info} {name : String} :
  ¬ AnalyzedDot types scope keys info object (.name info' name)
  := by
  intro h
  cases h

/-- Only the analysis of a name leaves a name. -/
theorem analyzeExprExpected_eq_name {e : Expr} {info' : Info} {name : String}
    (h : analyzeExprExpected types scope ctx e expected = .ok (.name info' name)) :
  ∃ info original, analyzeName types scope info original = .ok (.name info' name)
  := by
  cases e with
  | name info original =>
    obtain ⟨a, ha, rfl | ⟨_, hwrap⟩⟩ := analyzeExprExpected_name h
    · exact ⟨info, original, ha⟩
    · cases hwrap
  | dot info object name =>
    obtain ⟨a, _, hdot⟩ := analyzeExprExpected_dot h
    exact absurd hdot AnalyzedDot.ne_name
  | dotIndex info object index =>
    obtain ⟨a, i, _, _, hdot⟩ := analyzeExprExpected_dotIndex h
    exact absurd hdot AnalyzedDot.ne_name
  | binary info op left right =>
    obtain ⟨_, l, r, type, m, n, _, _, heq, _⟩ := analyzeExprExpected_binary h
    cases heq
  | unary info op e =>
    cases op with
    | neg =>
      obtain ⟨a, type, _, _, heq⟩ := analyzeExprExpected_neg h
      cases heq
    | _ =>
      rw [analyzeExprExpected] at h
      · cases h
      all_goals simp
  | _ => cases h

end Caster
