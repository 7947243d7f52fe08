import Caster.Parse.Types

/-!
# Expressions

The parser of expressions.  The functions of the source call each other through
`parse_expression` and `parse_statement`; here these two are a parameter, by which
`Program.lean` ties them together.
-/

namespace Caster.Parse

open TokenParser

/-- The two functions every cycle of calls runs through. -/
inductive Entry where
  | expression (minPrec : ℕ)
  | statement
deriving DecidableEq

/-- The number `strtoll` reads, the largest one if the digits denote none. -/
def strtoll (text : String) : ℤ :=
  min (Nat.ofDigitChars 10 (text.toList.takeWhile Char.isDigit) 0) (2 ^ 63 - 1)

/-- The precedence of a binary operator, zero for other tokens, and its text. -/
def precedence (k : TokenKind) : ℕ × Option String :=
  match k with
  | .OROR => (1, "||")
  | .ANDAND => (2, "&&")
  | .EQEQ => (3, "==")
  | .NEQ => (3, "!=")
  | .LT => (4, "<")
  | .LTE => (4, "<=")
  | .GT => (4, ">")
  | .GTE => (4, ">=")
  | .PIPE => (5, "|")
  | .PLUS => (5, "+")
  | .MINUS => (5, "-")
  | .STAR => (6, "*")
  | .SLASH => (6, "/")
  | .PERCENT => (6, "%")
  | _ => (0, none)

/-- An operator that may start a clause of a check `IS`. -/
def isIsCheckOp (k : TokenKind) : Bool := k ∈ [.LT, .LTE, .GT, .GTE, .EQEQ, .NEQ]

/-- The text of a binary operator. -/
def tokenBinaryOp (k : TokenKind) : Option String := (precedence k).2

/-- A method whose argument is a body that runs for every element. -/
def isCollectionBodyMethod (name : String) : Bool := name ∈ ["upd", "filt", "agg"]

/-- A name a method may have. -/
def matchMethodName : P (Option Token) := do
  let tok ← cur
  if tok.kind ∈ [.NAME, .ARR, .STR, .INIT] then
    advance
    pure (some tok)
  else pure none

/-- The argument of a method is a body of statements. -/
def startsMethodBody (name : String) : P Bool := do
  let k := (← cur).kind
  if ¬ isCollectionBodyMethod name ∨ k = .RPAREN then pure false
  else if name = "agg" ∧ (k = .PLUSEQ ∨ k = .MINUS) then pure true
  else if k ∈ [.RET, .IF, .LOOP, .PASS, .THROW] then pure true
  else if k = .NAME then
    let next := (← peek 1).kind
    pure (next ∈ [.EQUAL, .PLUSEQ, .PLUSPLUS])
  else pure false

/-- The token is the separator of a shape. -/
def isShapeSeparator : P Bool := do
  let tok ← cur
  pure (tok.kind = .NAME ∧ tok.text = "x")

section

variable (self : Entry → P Node)

/-! ### Conditional values -/

/-- An expression in parentheses that may be spread over several lines. -/
def parseParenValueExpr (message : String) : P Node := do
  let _ ← expect .LPAREN message
  let oldAllowNewlineOps ← flag
  setFlag true
  skipNewlines
  let expr ← self (.expression 0)
  skipNewlines
  setFlag oldAllowNewlineOps
  let _ ← expect .RPAREN "expected ')' after value expression"
  pure expr

/-- A condition in parentheses. -/
def parseCondition (openMessage closeMessage : String) : P Node := do
  let _ ← expect .LPAREN openMessage
  let condition ← self (.expression 0)
  let _ ← expect .RPAREN closeMessage
  pure condition

/-- The value of an `if` with both its branches. -/
def parseIfValueExpr (ifTok : Token) : P Node := do
  let condition ← parseCondition self "expected '(' after if" "expected ')' after if condition"
  let thenValue ← parseParenValueExpr self "expected '(' after if expression condition"
  skipNewlines
  let _ ← expect .ELSE "if expression needs else(value) fallback"
  let elseValue ← parseParenValueExpr self "expected '(' after if expression fallback"
  pure { nodeNew .IF_EXPR ifTok with
    condition := some condition, value := some thenValue, right := some elseValue }

/-! ### Bodies and arguments of methods -/

/-- The operator of a step of an accumulation. -/
def parseAggOp (tok : Token) : P String := do
  if ← matchToken .PLUSEQ then pure "+="
  else if ← matchToken .MINUS then pure "-"
  else dieAt tok.line tok.col ".agg() accumulator body expects '+= expression' or '- expression'"

/-- The value of a step before any condition behind it. -/
def parseAggValue : P Node := do
  let ifTok ← cur
  if ifTok.kind = .IF then
    advance
    let condition ← parseCondition self "expected '(' after if" "expected ')' after if condition"
    let thenValue ← parseParenValueExpr self "expected '(' after if expression condition"
    skipNewlines
    if ← matchToken .ELSE then
      let fallback ← parseParenValueExpr self "expected '(' after if expression fallback"
      pure { nodeNew .IF_EXPR ifTok with
        condition := some condition, value := some thenValue, right := some fallback }
    else
      pure { nodeNew .IF_EXPR ifTok with condition := some condition, value := some thenValue }
  else self (.expression 0)

/-- A condition behind the value of a step. -/
def parseAggCondition (value : Node) : P Node := do
  if ← matchToken .IF then
    let ifTok ← prev
    let condition ← parseCondition self "expected '(' after agg step conditional if"
      "expected ')' after agg step conditional if"
    if ← matchToken .ELSE then
      let fallback ← self (.expression 0)
      pure { nodeNew .IF_EXPR ifTok with
        condition := some condition, value := some value, right := some fallback }
    else
      pure { nodeNew .IF_EXPR ifTok with condition := some condition, value := some value }
  else pure value

/-- A step of an accumulation. -/
def parseAggStep (tok : Token) : P Node := do
  let op ← parseAggOp tok
  skipNewlines
  let oldAllowNewlineOps ← flag
  setFlag false
  let value ← parseAggValue self
  let value ← parseAggCondition self value
  setFlag oldAllowNewlineOps
  pure { nodeNew .AGG_STEP tok with op := some op, value := some value }

/-- The steps up to the closing parenthesis. -/
def parseAggMethodBody (opened : Token) : P Node := do
  skipNewlines
  let statements ← loop (fun (statements : List Node) => do
    let tok ← cur
    if tok.kind = .RPAREN then pure (.inr statements)
    else if tok.kind = .EOF then dieAt tok.line tok.col "unterminated agg body"
    else
      let step ← parseAggStep self tok
      skipNewlines
      pure (.inl (statements ++ [step]))) []
  pure { nodeNew .BLOCK opened with statements }

/-- Statements up to the closing parenthesis. -/
def parseStatements (message : String) : P (List Node) :=
  loop (fun (statements : List Node) => do
    let tok ← cur
    if tok.kind = .RPAREN then pure (.inr statements)
    else if tok.kind = .EOF then dieAt tok.line tok.col message
    else
      let statement ← self .statement
      skipNewlines
      pure (.inl (statements ++ [statement]))) []

/-- The body of a method up to the closing parenthesis. -/
def parseMethodBody (opened : Token) : P Node := do
  skipNewlines
  let statements ← parseStatements self "unterminated method body"
  pure { nodeNew .BLOCK opened with statements }

/-- A block of statements in parentheses. -/
def parseBlock : P Node := do
  let opened ← expect .LPAREN "expected '(' to start block"
  skipNewlines
  let statements ← parseStatements self "unterminated block"
  let _ ← expect .RPAREN "expected ')' to end block"
  pure { nodeNew .BLOCK opened with statements }

/-- A condition behind the argument of `agg`. -/
def parseAggArgument (methodName : String) (arg : Node) : P Node := do
  if ← both (pure (methodName = "agg")) (matchToken .IF) then
    let ifTok ← prev
    let condition ← parseCondition self "expected '(' after agg conditional if"
      "expected ')' after agg conditional if"
    pure { nodeNew .IF_EXPR ifTok with value := some arg, condition := some condition }
  else pure arg

/-- An argument of a method. -/
def parseMethodArgument (methodName : String) : P Node := do
  let oldAllowNewlineOps ← flag
  setFlag (oldAllowNewlineOps || isCollectionBodyMethod methodName || methodName = "group" ||
    methodName = "sort")
  let arg ← self (.expression 0)
  setFlag oldAllowNewlineOps
  parseAggArgument self methodName arg

/-- The key of `sort` and its direction. -/
def parseSortArgs (m : Node) : P Node := do
  let key ← self (.expression 0)
  skipNewlines
  let tok ← cur
  let sorted := tok.kind = .NAME ∧ (tok.text = "ASC" ∨ tok.text = "DESC")
  (if sorted then advance else pure ())
  skipNewlines
  let tok' ← cur
  if tok'.kind = .COMMA then
    dieAt tok'.line tok'.col ".sort() expects one key expression and optional ASC or DESC"
  else
    pure { m with args := [key], sortDir := some (if sorted then tok.text else "ASC") }

/-- The arguments of a method, separated by commas. -/
def parseMethodArgs (m : Node) (name : String) : P Node := do
  let tok ← cur
  if name = "agg" then
    dieAt tok.line tok.col ".agg() expects accumulator steps starting with += or -"
  else
    let args ← loop (fun (args : List Node) => do
      let arg ← parseMethodArgument self name
      skipNewlines
      if ← matchToken .COMMA then
        skipNewlines
        pure (.inl (args ++ [arg]))
      else pure (.inr (args ++ [arg]))) []
    pure { m with args }

/-- What stands between the parentheses of a method call. -/
def parseMethodInner (opened : Token) (m : Node) (name : String) : P Node := do
  let k := (← cur).kind
  if k = .RPAREN then pure m
  else if ← startsMethodBody name then
    if name = "agg" ∧ (k = .PLUSEQ ∨ k = .MINUS) then
      let body ← parseAggMethodBody self opened
      pure { m with body := some body }
    else
      let body ← parseMethodBody self opened
      pure { m with body := some body }
  else if name = "sort" then parseSortArgs self m
  else parseMethodArgs self m name

/-- A method call behind its name. -/
def parseMethodCall (dot : Token) (expr : Node) (name : String) : P Node := do
  let opened ← expect .LPAREN "expected '(' after method name"
  skipNewlines
  let m ← parseMethodInner self opened
    { nodeNew .METHOD_CALL dot with object := some expr, name := some name } name
  let _ ← expect .RPAREN "expected ')' after method arguments"
  if ← both (pure (name = "tap")) (curIs .LPAREN) then
    let body ← parseBlock self
    pure { m with body := some body }
  else pure m

/-! ### Calls and dots -/

/-- The arguments of a call up to the closing parenthesis. -/
def parseCallArgs : P (List Node) := do
  if ← curIs .RPAREN then pure []
  else
    loop (fun (args : List Node) => do
      let arg ← self (.expression 0)
      if ← matchToken .COMMA then pure (.inl (args ++ [arg]))
      else pure (.inr (args ++ [arg]))) []

/-- What follows a dot. -/
def parseDot (dot : Token) (expr : Node) : P Node := do
  let d := { nodeNew .DOT dot with object := some expr }
  if ← matchToken .INT_LITERAL then
    let it ← prev
    pure { d with index := some { nodeNew .INT it with intValue := strtoll it.text } }
  else if ← matchToken .LBRACKET then
    let index ← self (.expression 0)
    let _ ← expect .RBRACKET "expected ']' after computed dot expression"
    pure { d with index := some index }
  else if ← matchToken .LPAREN then
    let tok ← prev
    dieAt tok.line tok.col "computed dot access uses .[expression], not .(...)"
  else
    match ← matchMethodName with
    | none => do
      let tok ← cur
      dieAt tok.line tok.col "expected name, numeric index, or [expression] after '.'"
    | some name =>
      if ← curIs .LPAREN then parseMethodCall self dot expr name.text
      else pure { d with name := some name.text }

/-- The ends of lines before a dot are passed. -/
def skipNewlinesBeforeDot : P Unit := do
  let newlineSave ← position
  skipNewlines
  if ← curIs .DOT then pure () else seek newlineSave

/-- The calls and dots behind an expression. -/
def parsePostfix (expr : Node) : P Node :=
  loop (fun (expr : Node) => do
    skipNewlinesBeforeDot
    if ← matchToken .LPAREN then
      let opened ← prev
      let args ← parseCallArgs self
      let _ ← expect .RPAREN "expected ')' after call arguments"
      pure (.inl { nodeNew .CALL opened with callee := some expr, args })
    else if ← matchToken .DOT then
      let dot ← prev
      let d ← parseDot self dot expr
      pure (.inl d)
    else pure (.inr expr)) expr

/-! ### Literals -/

/-- The dimensions of a shape behind the first one. -/
def parseShape (opened : Token) (first : Node) : P Node := do
  let elements ← loop (fun (elements : List Node) => do
    if ← isShapeSeparator then
      advance
      skipNewlines
      let tok ← cur
      if tok.kind = .RBRACKET ∨ tok.kind = .COMMA then
        dieAt tok.line tok.col "expected dimension expression after shape separator"
      else
        let dimension ← self (.expression 0)
        skipNewlines
        pure (.inl (elements ++ [dimension]))
    else pure (.inr elements)) [first]
  let _ ← expect .RBRACKET "expected ']' after shape literal"
  pure { nodeNew .SHAPE opened with elements }

/-- The elements of an array behind the first one. -/
def parseElements (first : Node) : P (List Node) :=
  loop (fun (elements : List Node) => do
    if ← curIs .RBRACKET then pure (.inr elements)
    else if ← matchToken .COMMA then
      skipNewlines
      if ← curIs .RBRACKET then pure (.inr elements)
      else
        let elem ← self (.expression 0)
        skipNewlines
        pure (.inl (elements ++ [elem]))
    else pure (.inr elements)) [first]

/-- An array or a shape behind its bracket. -/
def parseArrayLiteral (opened : Token) : P Node := do
  skipNewlines
  if ← curIs .RBRACKET then
    let _ ← expect .RBRACKET "expected ']' after array literal"
    pure (nodeNew .ARRAY opened)
  else
    let first ← self (.expression 0)
    skipNewlines
    if ← isShapeSeparator then parseShape self opened first
    else
      let elements ← parseElements self first
      let _ ← expect .RBRACKET "expected ']' after array literal"
      pure { nodeNew .ARRAY opened with elements }

/-- The separator behind an entry, with the ends of lines around it. -/
def skipEntrySeparator : P Unit := do
  skipNewlines
  let _ ← matchToken .COMMA
  skipNewlines

/-- The key of an entry of a map. -/
def parseMapKey : P Node := do
  if ← matchToken .LBRACKET then
    let key ← self (.expression 0)
    let _ ← expect .RBRACKET "expected ']' after computed map key"
    pure key
  else self (.expression 0)

/-- An entry of a map. -/
def parseMapEntry : P Node := do
  let key ← parseMapKey self
  let _ ← expect .EQUAL "expected '=' after map literal key"
  let value ← self (.expression 0)
  pure {
    kind := .FIELD, line := key.line, col := key.col
    text := if key.kind = .STR then key.text else none
    target := some key, value := some value }

/-- A map behind its brace. -/
def parseMapLiteralAfterOpen (opened : Token) : P Node := do
  skipNewlines
  let fields ← loop (fun (fields : List Node) => do
    let tok ← cur
    if tok.kind = .RBRACE then pure (.inr fields)
    else if tok.kind = .EOF then dieAt tok.line tok.col "unterminated map literal"
    else
      let entry ← parseMapEntry self
      skipEntrySeparator
      pure (.inl (fields ++ [entry]))) []
  let _ ← expect .RBRACE "expected '\x7d' after map literal"
  pure { nodeNew .MAP_LITERAL opened with fields }

/-- A field of a fixed map. -/
def parseRecordField : P Node := do
  let name ← expect .NAME "expected fixed-map field name"
  let _ ← expect .EQUAL "expected '=' after fixed-map field name"
  let value ← self (.expression 0)
  pure { nodeNew .FIELD name with name := some name.text, value := some value }

/-- A fixed map up to the token that closes it. -/
def parseRecordLiteralUntil (opened : Token) (closeKind : TokenKind) (closeMessage : String) :
    P Node := do
  skipNewlines
  let fields ← loop (fun (fields : List Node) => do
    let tok ← cur
    if tok.kind = closeKind then pure (.inr fields)
    else if tok.kind = .EOF then dieAt tok.line tok.col "unterminated fixed-map literal"
    else
      let field ← parseRecordField self
      skipEntrySeparator
      pure (.inl (fields ++ [field]))) []
  let _ ← expect closeKind closeMessage
  pure { nodeNew .RECORD_LITERAL opened with fields }

/-- An expression wrapped in braces, or nothing, with the position where it was. -/
def parseWrapped : P (Option Node) := do
  if ← curIs .RBRACE then pure none
  else
    let savePos ← position
    let saveNewlineOps ← flag
    let wrapped ← self (.expression 0)
    skipNewlines
    if ← matchToken .RBRACE then pure (some wrapped)
    else
      seek savePos
      setFlag saveNewlineOps
      pure none

/-- What follows an opening brace: a fixed map, a wrapped expression or a map. -/
def parseBraceLiteral (opened : Token) : P Node := do
  skipNewlines
  if ← both (curIs .NAME) (peekIs 1 .EQUAL) then
    parseRecordLiteralUntil self opened .RBRACE "expected '\x7d' after fixed-map literal"
  else
    match ← parseWrapped self with
    | some wrapped => pure wrapped
    | none => parseMapLiteralAfterOpen self opened

/-! ### Prefixes and operators -/

/-- The object of the innermost of a chain of dots is replaced by an operator applied to
it. -/
def rebase (apply : Option Node → Node) (dot : Node) : Node :=
  match _h : dot.object with
  | some object =>
    if object.kind = .DOT then { dot with object := some (rebase apply object) }
    else { dot with object := some (apply (some object)) }
  | none => { dot with object := some (apply none) }
termination_by sizeOf dot
decreasing_by
  cases dot
  simp only at _h
  subst _h
  simp only [Node.mk.sizeOf_spec, Option.some.sizeOf_spec]
  omega

/-- The operand of a prefix operator. -/
def parseUnary (tok : Token) : P Node := do
  let operand ← self (.expression 7)
  pure { nodeNew .UNARY tok with op := some tok.text, expr := some operand }

/-- A dereference, which binds tighter than the dots behind its operand. -/
def parseDeref (tok : Token) : P Node := do
  let n ← parseUnary self tok
  match n.expr with
  | some operand =>
    if operand.kind = .DOT then
      parsePostfix self (rebase (fun object => { n with expr := object }) operand)
    else parsePostfix self n
  | none => parsePostfix self n

/-- A group in parentheses. -/
def parseGroup (opened : Token) : P Node := do
  skipNewlines
  if ← both (curIs .NAME) (peekIs 1 .EQUAL) then
    dieAt opened.line opened.col "fixed-map literals use '\x7b...\x7d', not '(...)'"
  else
    let n ← self (.expression 0)
    let _ ← expect .RPAREN "expected ')' after grouped expression"
    parsePostfix self n

/-- One of the type names an expression may start with. -/
def matchTypeName : P Bool :=
  either (matchToken .INT) (either (matchToken .FLT) (either (matchToken .STR) (matchToken .ARR)))

/-- What an expression starts with. -/
def parsePrefix : P Node := do
  let tok ← cur
  if ← matchToken .INT_LITERAL then pure { nodeNew .INT tok with intValue := strtoll tok.text }
  else if ← matchToken .FLT_LITERAL then pure { nodeNew .FLT tok with floatText := some tok.text }
  else if ← matchToken .BOL_LITERAL then pure { nodeNew .BOL tok with boolValue := tok.text = "true" }
  else if ← matchToken .STRING_LITERAL then
    parsePostfix self { nodeNew .STR tok with text := some tok.text }
  else if ← matchToken .NUL_TYPE then pure (nodeNew .NIL tok)
  else if ← matchToken .INIT then pure (nodeNew .INIT tok)
  else if tok.kind = .DOT then
    -- the element a body runs for
    parsePostfix self { nodeNew .NAME tok with name := some "e" }
  else if ← matchToken .IF then
    let n ← parseIfValueExpr self tok
    parsePostfix self n
  else if ← matchTypeName then parsePostfix self { nodeNew .NAME tok with name := some tok.text }
  else if ← matchToken .NAME then parsePostfix self { nodeNew .NAME tok with name := some tok.text }
  else if ← matchToken .LBRACKET then
    let n ← parseArrayLiteral self tok
    parsePostfix self n
  else if ← matchToken .LBRACE then
    let n ← parseBraceLiteral self tok
    parsePostfix self n
  else if ← matchToken .STAR then parseDeref self tok
  else if ← either (matchToken .MINUS) (matchToken .BANG) then
    let n ← parseUnary self tok
    parsePostfix self n
  else if ← either (matchToken .REF) (matchToken .HOLD) then
    let n ← parseUnary self tok
    parsePostfix self n
  else if ← matchToken .LPAREN then parseGroup self tok
  else dieAt tok.line tok.col "expected expression"

/-- A node of a binary operator. -/
def binaryNode (tok : Token) (op : Option String) (left right : Node) : Node :=
  { nodeNew .BINARY tok with op, left := some left, right := some right }

/-- A clause of a check. -/
def parseIsPiece (subject : Node) : P Node := do
  let tok ← cur
  if isIsCheckOp tok.kind then
    advance
    let right ← self (.expression 5)
    pure (binaryNode tok (tokenBinaryOp tok.kind) subject right)
  else
    let right ← self (.expression 5)
    pure (binaryNode tok (some "==") subject right)

/-- The clauses of a check `IS`, of which there are at least two. -/
def parseIsCheck (isTok : Token) (subject : Node) : P Node := do
  let first ← parseIsPiece self subject
  let (expr, pieces) ← loop (fun ((expr, pieces) : Node × ℕ) => do
    let tok ← cur
    if tok.kind = .ANDAND ∨ tok.kind = .OROR then
      advance
      let right ← parseIsPiece self subject
      pure (.inl (binaryNode tok (tokenBinaryOp tok.kind) expr right, pieces + 1))
    else pure (.inr (expr, pieces))) (first, 1)
  if pieces < 2 then
    dieAt isTok.line isTok.col
      "IS expects at least two comparison clauses; use an ordinary comparison for one clause"
  else pure expr

/-- The ends of lines an operator may follow are passed. -/
def skipOperatorNewlines : P Unit := do
  if ← flag then skipNewlines else pure ()

/-- One pass through the loop over the operators behind an expression. -/
def parseOperator (minPrec : ℕ) (left : Node) : P (Node ⊕ Node) := do
  skipOperatorNewlines
  let tok ← cur
  if tok.kind = .ELSE then
    if 0 < minPrec then pure (.inr left)
    else
      advance
      let right ← self (.expression 1)
      pure (.inl (binaryNode tok (some "else") left right))
  else if tok.kind = .IS then
    if 0 < minPrec then pure (.inr left)
    else
      advance
      let checked ← parseIsCheck self tok left
      pure (.inl checked)
  else if tok.kind = .ARROW then
    dieAt tok.line tok.col "'->' is only valid in function signatures and FN[...] types"
  else
    let (prec, op) := precedence tok.kind
    if prec < minPrec ∨ prec = 0 then pure (.inr left)
    else
      advance
      let right ← self (.expression (prec + 1))
      pure (.inl (binaryNode tok op left right))

/-- The body of `parse_expression`. -/
def parseExpressionBody (minPrec : ℕ) : P Node := do
  let left ← parsePrefix self
  loop (parseOperator self minPrec) left

end

end Caster.Parse
