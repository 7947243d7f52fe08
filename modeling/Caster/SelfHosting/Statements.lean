import Caster.SelfHosting.Parser

/-!
# The parser of statements and declarations written in Caster

Types, statements and declarations are parsed on top of the expressions.  A type name contains
type names and a statement contains statements; each of the two functions is a parameter of the
functions it calls, with fuel for its calls of itself.
-/

namespace Caster.SelfHosting

/-! ### The cursor -/

/-- The token some positions ahead, or the last one. -/
def peek (offset : ℕ) : Parser Token := fun s =>
  (if s.pos + offset < s.tokens.length then s.tokens[s.pos + offset]? else s.tokens.getLast?).map
    fun tok => (tok, s)

/-- The token some positions ahead has a kind. -/
def peekAt (offset : ℕ) (kind : Kind) : Parser Bool := do
  let tok ← peek offset
  pure (tok.kind = kind)

/-! ### Types -/

/-- The names of the types without arguments. -/
def isPrimitive (kind : Kind) : Bool :=
  kind ∈ [Kind.INT_TYPE, .FLT_TYPE, .BOL_TYPE, .STR_TYPE, .NUL, .DYN_TYPE]

/-- A token a type starts with. -/
def startsType : Parser Bool := do
  let tok ← current
  pure (tok.kind ∈ [Kind.ARR, .MAP, .REF, .TSK, .FN] ∨ isPrimitive tok.kind ∨ tok.kind = .NAME)

/-- A name, with the module it is of. -/
def parseSimpleName : Parser String := do
  let first ← expect .NAME "expected type name"
  if ← matchKind .DOT then
    let member ← expect .NAME "expected type name after module '.'"
    pure (first.lexeme ++ "." ++ member.lexeme)
  else pure first.lexeme

section

variable (self : Parser String)

/-- A type with one argument. -/
def parseTypeArgument (tok : Token) : Parser String := do
  let _ ← advance
  let _ ← expect .LBRACKET "expected '[' after type constructor"
  let inner ← self
  let _ ← expect .RBRACKET "expected ']' after type argument"
  pure (tok.lexeme ++ "[" ++ inner ++ "]")

/-- A type of maps. -/
def parseMapType : Parser String := do
  let _ ← advance
  let _ ← expect .LBRACKET "expected '[' after MAP"
  let key ← self
  let _ ← expect .COMMA "expected ',' after MAP key type"
  let value ← self
  let _ ← expect .RBRACKET "expected ']' after MAP value type"
  pure ("MAP[" ++ key ++ ", " ++ value ++ "]")

/-- A type of functions. -/
def parseFnType : Parser String := do
  let _ ← advance
  let _ ← expect .LBRACKET "expected '[' after FN"
  let input ← self
  let _ ← expect .ARROW "expected '->' in FN type"
  let output ← self
  let _ ← expect .RBRACKET "expected ']' after FN return type"
  pure ("FN[" ++ input ++ " -> " ++ output ++ "]")

/-- What is reported where no type starts.  The token is passed. -/
def parseMissingType (tok : Token) : Parser String := do
  addError tok "expected type"
  let _ ← advance
  pure ""

/-- The name of a type. -/
def parseTypeBody : Parser String := do
  let tok ← current
  if isPrimitive tok.kind then
    let _ ← advance
    pure tok.lexeme
  else
    match tok.kind with
    | .NAME => parseSimpleName
    | .ARR | .REF | .TSK => parseTypeArgument self tok
    | .MAP => parseMapType self
    | .FN => parseFnType self
    | _ => parseMissingType tok

end

/-- A type name with fuel for the type names in it. -/
def fixTypeName : ℕ → Parser String
  | 0 => failure
  | n + 1 => parseTypeBody (fixTypeName n)

/-- The name of a type. -/
def parseTypeName : Parser String := fun s => fixTypeName (s.tokens.length + 1) s

/-! ### Statements -/

/-- A parameter of a function. -/
structure ParamDecl where
  name : String
  typeName : String
  span : Span

/-- The kinds of statements. -/
inductive StmtKind where
  | var | assign | ret | expr | throw | free | pass | cond | elx | orElse | loop | fn
deriving DecidableEq, Repr

/-- A statement. -/
structure Stmt where
  kind : StmtKind
  name : String := ""
  typeName : String := ""
  op : String := ""
  value : Option Expr := none
  target : Option Expr := none
  condition : Option Expr := none
  source : Option Expr := none
  params : List ParamDecl := []
  returnType : String := "NUL"
  body : List Stmt := []
  elseBody : List Stmt := []
  span : Span

/-- The kinds that start a type with arguments. -/
def isTypeConstructor (kind : Kind) : Bool := kind ∈ [Kind.ARR, .MAP, .REF, .TSK, .FN]

/-- A declaration with its type starts at the position. -/
def startsLocalDecl : Parser Bool := do
  let first ← current
  let second ← peek 1
  let third ← peek 2
  let fourth ← peek 3
  pure (isPrimitive first.kind ∨ isTypeConstructor first.kind ∨
    first.kind = .NAME ∧ second.kind = .NAME ∨
    first.kind = .NAME ∧ second.kind = .DOT ∧ third.kind = .NAME ∧ fourth.kind = .NAME)

/-- The text of an assignment. -/
def assignmentOp : Kind → Option String
  | .EQUAL => some "="
  | .PLUSEQ => some "+="
  | .MINUSEQ => some "-="
  | .PLUSPLUS => some "++"
  | _ => none

/-- An expression in a statement. -/
def parseValue : Parser Expr := parse (.expression 1)

/-- A parameter, with the comma or the ends of lines behind it. -/
def parseParam (params : List ParamDecl) : Parser (List ParamDecl ⊕ List ParamDecl) := do
  if ← atEnd then pure (.inr params)
  else if ← atKind .RPAREN then pure (.inr params)
  else
    let start ← current
    let typeName ← parseTypeName
    let name ← expect .NAME "expected parameter name"
    skipNewlines
    if ← matchKind .COMMA then pure (.inl (params ++ [⟨name.lexeme, typeName, start.span⟩]))
    else
      skipNewlines
      pure (.inl (params ++ [⟨name.lexeme, typeName, start.span⟩]))

/-- The parameters of a function up to the parenthesis behind them. -/
def parseParamList : Parser (List ParamDecl) := do
  skipNewlines
  let params ← loop parseParam []
  let _ ← expect .RPAREN "expected ')' after parameters"
  pure params

/-- The result type of a function, if it is given. -/
def parseReturnType : Parser String := do
  if ← matchKind .ARROW then parseTypeName else pure "NUL"

/-- A statement that returns. -/
def parseReturn : Parser Stmt := do
  let start ← expect .RET "expected ret"
  let tok ← current
  if isExpressionBoundary tok.kind then pure { kind := .ret, span := start.span }
  else
    let value ← parseValue
    pure { kind := .ret, value := some value, span := start.span }

/-- A statement that does nothing. -/
def parsePass : Parser Stmt := do
  let start ← expect .PASS "expected pass"
  pure { kind := .pass, span := start.span }

/-- A statement that throws. -/
def parseThrow : Parser Stmt := do
  let start ← expect .THROW "expected throw"
  let _ ← expect .LPAREN "expected '(' after throw"
  let value ← parseValue
  let _ ← expect .RPAREN "expected ')' after throw"
  pure { kind := .throw, value := some value, span := start.span }

/-- A statement that frees. -/
def parseFree : Parser Stmt := do
  let start ← expect .FREE "expected FREE"
  let value ← parseValue
  pure { kind := .free, value := some value, span := start.span }

/-- A declaration with its type. -/
def parseLocalDecl : Parser Stmt := do
  let start ← current
  let typeName ← parseTypeName
  let name ← expect .NAME "expected local name"
  if ← matchKind .EQUAL then
    let value ← parseValue
    pure { kind := .var, name := name.lexeme, typeName, op := "=", value := some value,
           span := start.span }
  else pure { kind := .var, name := name.lexeme, typeName, span := start.span }

/-- An assignment, or an expression. -/
def parseAssignmentOrExpression : Parser Stmt := do
  let start ← current
  let target ← parseValue
  let tok ← current
  match assignmentOp tok.kind with
  | none => pure { kind := .expr, value := some target, span := start.span }
  | some op => do
    let _ ← advance
    if op = "++" then
      pure { kind := .assign, op, target := some target, span := start.span }
    else
      let value ← parseValue
      pure { kind := .assign, op, target := some target, value := some value, span := start.span }

section

variable (self : Parser Stmt)

/-- A statement of a block, with the comma or the ends of lines behind it. -/
def parseItem (closeKind : Kind) (statements : List Stmt) : Parser (List Stmt ⊕ List Stmt) := do
  if ← atEnd then pure (.inr statements)
  else if ← atKind closeKind then pure (.inr statements)
  else
    let item ← self
    skipNewlines
    if ← matchKind .COMMA then
      skipNewlines
      pure (.inl (statements ++ [item]))
    else pure (.inl (statements ++ [item]))

/-- The statements of a block. -/
def parseBlock (closeKind : Kind) : Parser (List Stmt) := do
  skipNewlines
  loop (parseItem self closeKind) []

/-- A condition in parentheses. -/
def parseCondition (openMessage closeMessage : String) : Parser Expr := do
  let _ ← expect .LPAREN openMessage
  let condition ← parseValue
  let _ ← expect .RPAREN closeMessage
  pure condition

/-- A block in parentheses. -/
def parseParenBlock (openMessage closeMessage : String) : Parser (List Stmt) := do
  let _ ← expect .LPAREN openMessage
  let body ← parseBlock self .RPAREN
  let _ ← expect .RPAREN closeMessage
  pure body

/-- A further branch. -/
def parseElx (branches : List Stmt) : Parser (List Stmt ⊕ List Stmt) := do
  if ← atKind .ELX then
    let start ← advance
    let condition ← parseCondition "expected '(' after elx" "expected ')' after elx condition"
    let body ← parseParenBlock self "expected '(' before elx body" "expected ')' after elx body"
    skipNewlines
    pure (.inl (branches ++ [{ kind := .elx, condition := some condition, body, span := start.span }]))
  else pure (.inr branches)

/-- The last branch. -/
def parseElse (branches : List Stmt) : Parser (List Stmt) := do
  if ← atKind .ELSE then
    let start ← advance
    let body ← parseParenBlock self "expected '(' before else body" "expected ')' after else body"
    pure (branches ++ [{ kind := .orElse, body, span := start.span }])
  else pure branches

/-- A conditional statement. -/
def parseIf : Parser Stmt := do
  let start ← expect .IF "expected if"
  let condition ← parseCondition "expected '(' after if" "expected ')' after if condition"
  let body ← parseParenBlock self "expected '(' before if body" "expected ')' after if body"
  skipNewlines
  let branches ← loop (parseElx self) []
  let elseBody ← parseElse self branches
  pure { kind := .cond, condition := some condition, body, elseBody, span := start.span }

/-- The name of the elements of a loop, if it is given. -/
def parseAlias : Parser String := do
  if ← matchKind .AS then
    let name ← expect .NAME "expected loop alias"
    pure name.lexeme
  else pure ""

/-- A loop. -/
def parseLoop : Parser Stmt := do
  let start ← expect .LOOP "expected loop"
  let _ ← expect .LPAREN "expected '(' after loop"
  let source ← parseValue
  let name ← parseAlias
  let _ ← expect .RPAREN "expected ')' after loop source"
  let body ← parseParenBlock self "expected '(' before loop body" "expected ')' after loop body"
  pure { kind := .loop, name, source := some source, body, span := start.span }

/-- A function in a function. -/
def parseNestedFn : Parser Stmt := do
  let start ← expect .FN "expected FN"
  let name ← expect .NAME "expected nested function name"
  let _ ← expect .LPAREN "expected '(' after nested function name"
  let params ← parseParamList
  let returnType ← parseReturnType
  let _ ← expect .EQUAL "expected '=' before nested function body"
  let body ← parseParenBlock self "expected '(' before nested function body"
    "expected ')' after nested function body"
  pure { kind := .fn, name := name.lexeme, params, returnType, body, span := start.span }

/-- The body of the parser of statements. -/
def parseStatementBody : Parser Stmt := do
  if ← atKind .RET then parseReturn
  else if ← atKind .IF then parseIf self
  else if ← atKind .LOOP then parseLoop self
  else if ← atKind .PASS then parsePass
  else if ← atKind .THROW then parseThrow
  else if ← atKind .FREE then parseFree
  else if ← atKind .FN then parseNestedFn self
  else if ← startsLocalDecl then parseLocalDecl
  else parseAssignmentOrExpression

end

/-- A statement with fuel for the statements in it. -/
def fixStatement : ℕ → Parser Stmt
  | 0 => failure
  | n + 1 => parseStatementBody (fixStatement n)

/-- A statement. -/
def parseStatement : Parser Stmt := fun s => fixStatement (s.tokens.length + 1) s

/-! ### Declarations -/

/-- An import. -/
structure UseDecl where
  path : String
  native : Bool
  span : Span

/-- A field of a type. -/
structure FieldDecl where
  name : String
  typeName : String
  initializer : String := ""
  span : Span

/-- The kinds of declarations of types and values. -/
inductive TypeDeclKind where
  | MAP | TYPE | VALUE
deriving DecidableEq, Repr

/-- A declaration of a type or a value. -/
structure TypeDecl where
  kind : TypeDeclKind
  name : String
  module : String := ""
  typeName : String
  initializer : String := ""
  fields : List FieldDecl := []
  span : Span

/-- A declaration of a function. -/
structure FnDecl where
  name : String
  module : String := ""
  params : List ParamDecl
  returnType : String
  bodyTokens : ℕ
  statements : List Stmt
  span : Span

/-- A program. -/
structure Program where
  uses : List UseDecl := []
  types : List TypeDecl := []
  functions : List FnDecl := []

/-- The text of a token behind those before it. -/
def appendTokenText (text : String) (tok : Token) : String :=
  let piece := tokenText tok
  if piece = "" then text else if text = "" then piece else text ++ " " ++ piece

/-- How a token changes the depth. -/
def delimiterDelta (tok : Token) : ℤ :=
  if tok.kind ∈ [Kind.LPAREN, .LBRACE, .LBRACKET] then 1
  else if tok.kind ∈ [Kind.RPAREN, .RBRACE, .RBRACKET] then -1
  else 0

/-- A token of a text that goes on up to a closing token, a comma or the end of a line. -/
def capturePass (closeKind : Kind) (state : String × ℤ) : Parser ((String × ℤ) ⊕ String) := do
  let (out, depth) := state
  if ← atEnd then pure (.inr out)
  else
    let tok ← current
    if depth = 0 ∧ (tok.kind = closeKind ∨ tok.kind = .COMMA ∨ tok.kind = .NEWLINE) then
      pure (.inr out)
    else
      let _ ← advance
      pure (.inl (appendTokenText out tok, depth + delimiterDelta tok))

/-- The text up to a closing token, a comma or the end of a line. -/
def captureUntilBoundary (closeKind : Kind) : Parser String := loop (capturePass closeKind) ("", 0)

/-- A token of a region, and whether the region ends with it. -/
def balancedPass (openKind closeKind : Kind) (state : String × ℤ) :
    Parser ((String × ℤ) ⊕ (String × Bool)) := do
  let (out, depth) := state
  if ← atEnd then pure (.inr (out, false))
  else
    let tok ← current
    let out := appendTokenText out tok
    let depth :=
      if tok.kind = openKind then depth + 1 else if tok.kind = closeKind then depth - 1 else depth
    let _ ← advance
    if tok.kind ≠ openKind ∧ tok.kind = closeKind ∧ depth = 0 then pure (.inr (out, true))
    else pure (.inl (out, depth))

/-- The text of a region between an opening token and the one that closes it. -/
def captureBalanced (openKind closeKind : Kind) : Parser String := do
  if ← atKind openKind then
    let (out, closed) ← loop (balancedPass openKind closeKind) ("", 0)
    if closed then pure out
    else
      let last ← current
      addError last "unterminated balanced region"
      pure out
  else
    let tok ← current
    addError tok "expected balanced region"
    pure ""

/-- A token of the path of an import. -/
def usePass (path : String) : Parser (String ⊕ String) := do
  if ← atEnd then pure (.inr path)
  else if ← atKind .NEWLINE then pure (.inr path)
  else
    let tok ← advance
    pure (.inl (path ++ tokenText tok))

/-- An import. -/
def parseUse : Parser UseDecl := do
  let start ← expect .USE "expected use"
  let path ← loop usePass ""
  pure ⟨path, path.toList.head? ≠ some '.', start.span⟩

/-- A field that is a record of its own. -/
def parseNestedField : Parser FieldDecl := do
  let start ← current
  let _ ← advance
  let name ← expect .NAME "expected nested MAP field name"
  let _ ← expect .EQUAL "expected '=' after nested MAP field name"
  let initializer ← captureBalanced .LBRACE .RBRACE
  pure { name := name.lexeme, typeName := "MAP", initializer, span := start.span }

/-- A field with its type. -/
def parseTypedField (closeKind : Kind) : Parser FieldDecl := do
  let start ← current
  let typeName ← parseTypeName
  let name ← expect .NAME "expected field name"
  if ← matchKind .EQUAL then
    let initializer ← captureUntilBoundary closeKind
    pure { name := name.lexeme, typeName, initializer, span := start.span }
  else pure { name := name.lexeme, typeName, span := start.span }

/-- The token at the position and the next one are of some kinds. -/
def atBoth (first second : Kind) : Parser Bool := do
  if ← atKind first then peekAt 1 second else pure false

/-- A field that is a record of its own, or has its type. -/
def parseField (closeKind : Kind) : Parser FieldDecl := do
  if ← atBoth .MAP .NAME then parseNestedField else parseTypedField closeKind

/-- A field, with the comma and the ends of lines behind it. -/
def fieldPass (closeKind : Kind) (fields : List FieldDecl) : Parser (List FieldDecl ⊕ List FieldDecl) := do
  if ← atEnd then pure (.inr fields)
  else if ← atKind closeKind then pure (.inr fields)
  else
    let field ← parseField closeKind
    skipNewlines
    let _ ← matchKind .COMMA
    skipNewlines
    pure (.inl (fields ++ [field]))

/-- The fields of a type up to the token behind them. -/
def parseFields (closeKind : Kind) : Parser (List FieldDecl) := do
  skipNewlines
  let fields ← loop (fieldPass closeKind) []
  let _ ← expect closeKind "expected end of field list"
  pure fields

/-- A declaration of a record type. -/
def parseMapDecl : Parser TypeDecl := do
  let start ← expect .MAP "expected MAP"
  let name ← expect .NAME "expected MAP name"
  let _ ← expect .EQUAL "expected '=' in MAP declaration"
  let _ ← expect .LBRACE "expected '\x7b' after MAP declaration"
  let fields ← parseFields .RBRACE
  pure { kind := .MAP, name := name.lexeme, typeName := name.lexeme, fields, span := start.span }

/-- A declaration of a type by another one. -/
def parseTypeAlias (start : Token) : Parser TypeDecl := do
  let name ← expect .NAME "expected TYPE name"
  let _ ← expect .EQUAL "expected '=' in TYPE declaration"
  let typeName ← parseTypeName
  let initializer ← captureUntilBoundary .EOF
  pure { kind := .TYPE, name := name.lexeme, typeName, initializer, span := start.span }

/-- A declaration of a value. -/
def parseValueDecl (start : Token) : Parser TypeDecl := do
  let typeName ← parseTypeName
  let name ← expect .NAME "expected top-level value name"
  if ← matchKind .EQUAL then
    let initializer ← captureUntilBoundary .EOF
    pure { kind := .VALUE, name := name.lexeme, typeName, initializer, span := start.span }
  else pure { kind := .VALUE, name := name.lexeme, typeName, span := start.span }

/-- A declaration of a type by another one, or of a value. -/
def parseAliasOrValue : Parser TypeDecl := do
  let start ← current
  if ← matchKind .TYPE then parseTypeAlias start else parseValueDecl start

/-- A declaration of a function. -/
def parseFnDecl : Parser FnDecl := do
  let start ← expect .FN "expected FN"
  let name ← expect .NAME "expected function name"
  let _ ← expect .LPAREN "expected '(' after function name"
  let params ← parseParamList
  let returnType ← parseReturnType
  let _ ← expect .EQUAL "expected '=' before function body"
  let statements ← parseParenBlock parseStatement "expected '(' before function body"
    "expected ')' after function body"
  pure { name := name.lexeme, params, returnType, bodyTokens := statements.length, statements,
         span := start.span }

/-- A token of a line that is passed over. -/
def recoverPass (_ : Unit) : Parser (Unit ⊕ Unit) := do
  if ← atEnd then pure (.inr ())
  else if ← atKind .NEWLINE then pure (.inr ())
  else
    let _ ← advance
    pure (.inl ())

/-- The rest of a line is passed over. -/
def recoverLine : Parser Unit := loop recoverPass ()

/-- A declaration of a record type starts at the position. -/
def startsMapDecl : Parser Bool := do
  if ← atBoth .MAP .NAME then peekAt 2 .EQUAL else pure false

/-- A type or a value is declared at the position. -/
def startsAliasOrValue : Parser Bool := do
  if ← atKind .TYPE then pure true else startsType

/-- A declaration, or a line that starts with none. -/
def parseDeclaration (program : Program) : Parser Program := do
  if ← atKind .USE then
    let item ← parseUse
    pure { program with uses := program.uses ++ [item] }
  else if ← startsMapDecl then
    let item ← parseMapDecl
    pure { program with types := program.types ++ [item] }
  else if ← atKind .FN then
    let item ← parseFnDecl
    pure { program with functions := program.functions ++ [item] }
  else if ← startsAliasOrValue then
    let item ← parseAliasOrValue
    pure { program with types := program.types ++ [item] }
  else
    let tok ← current
    addError tok "expected top-level use, MAP, TYPE, value, or FN declaration"
    recoverLine
    pure program

/-- A declaration with the ends of lines behind it. -/
def programPass (program : Program) : Parser (Program ⊕ Program) := do
  if ← atEnd then pure (.inr program)
  else
    let program ← parseDeclaration program
    skipNewlines
    pure (.inl program)

/-- A program. -/
def parseProgram : Parser Program := do
  skipNewlines
  loop programPass {}

end Caster.SelfHosting
