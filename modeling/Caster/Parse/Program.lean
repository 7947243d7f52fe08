import Caster.Parse.Expressions

/-!
# Statements, declarations and programs

The parser of statements and of the declarations at the top of a program.  `parse` ties the
functions together; `parseProgram` is the parser of a list of tokens.
-/

namespace Caster.Parse

open TokenParser

section

variable (self : Entry → P Node)

/-! ### Statements -/

/-- A branch `elx`. -/
def parseElx : P Node := do
  let tok ← prev
  let condition ← parseCondition self "expected '(' after elx" "expected ')' after elx condition"
  let body ← parseBlock self
  pure { nodeNew .ELX tok with condition := some condition, body := some body }

/-- A statement `if` with its branches. -/
def parseIf : P Node := do
  let tok ← expect .IF "expected if"
  let condition ← parseCondition self "expected '(' after if" "expected ')' after if condition"
  let thenBlock ← parseBlock self
  skipNewlines
  let elxBranches ← loop (fun (branches : List Node) => do
    if ← matchToken .ELX then
      let branch ← parseElx self
      skipNewlines
      pure (.inl (branches ++ [branch]))
    else pure (.inr branches)) []
  let n := { nodeNew .IF tok with
    condition := some condition, thenBlock := some thenBlock, elxBranches }
  if ← matchToken .ELSE then
    let elseBlock ← parseBlock self
    pure { n with elseBlock := some elseBlock }
  else pure n

/-- An expression a wrapped loop argument may be. -/
def loopWrapperInnerCanBeTarget (inner : Node) : Bool :=
  inner.kind ∈ [.NAME, .DOT, .CALL, .METHOD_CALL]

/-- A loop argument wrapped in brackets or braces, or nothing at the position where it was. -/
def tryParseLoopWrappedArg (openKind closeKind : TokenKind) (hint : String) : P (Option Node) := do
  let save ← position
  if ← matchToken openKind then
    skipNewlines
    if ← curIs closeKind then
      seek save
      pure none
    else
      let inner ← self (.expression 0)
      skipNewlines
      let tok ← cur
      if tok.kind ≠ closeKind ∨ ¬ loopWrapperInnerCanBeTarget inner then
        seek save
        pure none
      else
        advance
        pure (some { inner with loopHint := some hint })
  else pure none

/-- A wrapped loop argument of either kind. -/
def parseLoopWrapper : P (Option Node) := do
  match ← tryParseLoopWrappedArg self .LBRACKET .RBRACKET "array" with
  | some arg => pure (some arg)
  | none => tryParseLoopWrappedArg self .LBRACE .RBRACE "map"

/-- An argument of a loop, with the wrapper the loop has after it. -/
def parseLoopArgument (loopHint : Option String) : P (Node × Option String) := do
  match ← parseLoopWrapper self with
  | some arg =>
    if loopHint.isSome then dieAt arg.line arg.col "loop accepts one collection wrapper"
    else pure (arg, arg.loopHint)
  | none =>
    let arg ← self (.expression 0)
    pure (arg, loopHint)

/-- The name of the context of a loop. -/
def parseLoopName (n : Node) : P Node := do
  if ← matchToken .AS then
    let name ← expect .NAME "expected loop context name after as"
    let tok ← cur
    if tok.kind = .COMMA then
      dieAt tok.line tok.col "loop context name must come after all loop arguments"
    else pure { n with name := some name.text }
  else pure n

/-- The arguments of a loop up to the closing parenthesis. -/
def parseLoopArguments (n : Node) : P Node := do
  if ← curIs .RPAREN then pure n
  else
    let n ← loop (fun (n : Node) => do
      let (arg, loopHint) ← parseLoopArgument self n.loopHint
      let n := { n with args := n.args ++ [arg], loopHint }
      if ← curIs .AS then pure (.inr n)
      else if ← matchToken .COMMA then pure (.inl n)
      else pure (.inr n)) n
    parseLoopName n

/-- A loop. -/
def parseLoop : P Node := do
  let tok ← expect .LOOP "expected loop"
  let _ ← expect .LPAREN "expected '(' after loop"
  let n ← parseLoopArguments self (nodeNew .LOOP tok)
  let _ ← expect .RPAREN "expected ')' after loop arguments"
  let body ← parseBlock self
  pure { n with body := some body }

/-- The names of the source and of the local of a field of a destructuring. -/
def parseDestructureNames (field : Node) : P Node := do
  if ← matchToken .DOT then
    let source ← expect .NAME "expected source field name after '.' in destructure pattern"
    if ← matchToken .AS then
      let localName ← expect .NAME "expected local name after 'as' in destructure pattern"
      pure { field with text := some source.text, name := some localName.text }
    else pure { field with text := some source.text, name := some source.text }
  else
    let localName ← expect .NAME "expected local name in destructure pattern"
    pure { field with name := some localName.text }

/-- The fields of a destructuring up to the closing brace. -/
def parseDestructureFields : P (List Node) :=
  loop (fun (fields : List Node) => do
    let tok ← cur
    if tok.kind = .RBRACE then pure (.inr fields)
    else if tok.kind = .EOF then dieAt tok.line tok.col "unterminated destructure pattern"
    else
      let t ← parseDestructureType
      let field ← parseDestructureNames { nodeNew .FIELD t.token with
        declaredType := some t.type, intValue := fields.length }
      skipNewlines
      if ← matchToken .COMMA then
        skipNewlines
        pure (.inl (fields ++ [field]))
      else pure (.inr (fields ++ [field]))) []

/-- A destructuring. -/
def parseDestructureStatement : P Node := do
  let opened ← expect .LBRACE "expected '\x7b' to start destructure pattern"
  skipNewlines
  let fields ← parseDestructureFields
  let _ ← expect .RBRACE "expected '\x7d' after destructure pattern"
  let _ ← expect .EQUAL "expected '=' after destructure pattern"
  let value ← self (.expression 0)
  pure { nodeNew .DESTRUCTURE opened with fields, value := some value }

/-- The parameters of a function up to the closing parenthesis. -/
def parseParams : P (List Node) := do
  if ← curIs .RPAREN then pure []
  else
    loop (fun (params : List Node) => do
      let t ← parseType
      let name ← expect .NAME "expected parameter name"
      let param := { nodeNew .PARAM t.token with declaredType := some t.type, name := some name.text }
      skipNewlines
      if ← matchToken .COMMA then
        skipNewlines
        pure (.inl (params ++ [param]))
      else pure (.inr (params ++ [param]))) []

/-- The result type of a function, if it is written. -/
def parseResultType : P (Option String) := do
  if ← matchToken .ARROW then
    let ret ← parseType
    pure (some ret.type)
  else pure none

/-- A function. -/
def parseFnDecl : P Node := do
  let fnTok ← expect .FN "expected function declaration"
  let name ← expect .NAME "expected function name after FN"
  let _ ← expect .LPAREN "expected '(' after function name"
  skipNewlines
  let params ← parseParams
  let _ ← expect .RPAREN "expected ')' after function parameters"
  let declaredType ← parseResultType
  let _ ← expect .EQUAL "expected '=' before function body"
  let body ← parseBlock self
  pure { nodeNew .FN fnTok with name := some name.text, params, declaredType, body := some body }

/-- A declaration of a local. -/
def parseVar : P Node := do
  let t ← parseType
  let name ← expect .NAME "expected variable name"
  let n := { nodeNew .VAR t.token with declaredType := some t.type, name := some name.text }
  if ← matchToken .EQUAL then
    let value ← self (.expression 0)
    pure { n with value := some value }
  else pure n

/-- A return, with a value unless the line or the block ends. -/
def parseRet (tok : Token) : P Node := do
  advance
  let k := (← cur).kind
  if k ≠ .NEWLINE ∧ k ≠ .RPAREN ∧ k ≠ .EOF then
    let value ← self (.expression 0)
    pure { nodeNew .RET tok with value := some value }
  else pure (nodeNew .RET tok)

/-- A throw. -/
def parseThrow (tok : Token) : P Node := do
  advance
  let value ← parseCondition self "expected '(' after throw" "expected ')' after throw message"
  pure { nodeNew .THROW tok with value := some value }

/-- A release, with its value in parentheses or without. -/
def parseFree (tok : Token) : P Node := do
  advance
  if ← matchToken .LPAREN then
    let expr ← self (.expression 0)
    let _ ← expect .RPAREN "expected ')' after FREE value"
    pure { nodeNew .FREE tok with expr := some expr }
  else
    let expr ← self (.expression 0)
    pure { nodeNew .FREE tok with expr := some expr }

/-- An assignment or an expression. -/
def parseAssignment (tok : Token) : P Node := do
  let target ← self (.expression 0)
  let n := { nodeNew .ASSIGN tok with target := some target }
  if ← matchToken .EQUAL then
    let value ← self (.expression 0)
    pure { n with op := some "=", value := some value }
  else if ← matchToken .PLUSEQ then
    let value ← self (.expression 0)
    pure { n with op := some "+=", value := some value }
  else if ← matchToken .MINUSEQ then
    let value ← self (.expression 0)
    pure { n with op := some "-=", value := some value }
  else if ← matchToken .PLUSPLUS then
    pure { n with op := some "++" }
  else pure { nodeNew .EXPR_STMT tok with expr := some target }

/-- The body of `parse_statement`. -/
def parseStatementBody : P Node := do
  let tok ← cur
  if tok.kind = .FN then parseFnDecl self
  else if ← startsDestructure then parseDestructureStatement self
  else if ← startsType then parseVar self
  else if tok.kind = .RET then parseRet self tok
  else if tok.kind = .IF then parseIf self
  else if tok.kind = .LOOP then parseLoop self
  else if tok.kind = .PASS then
    advance
    pure (nodeNew .PASS tok)
  else if tok.kind = .THROW then parseThrow self tok
  else if tok.kind = .FREE then parseFree self tok
  else parseAssignment self tok

/-- The two functions every cycle of calls runs through, over each other. -/
def parseBody : Entry → P Node
  | .expression minPrec => parseExpressionBody self minPrec
  | .statement => parseStatementBody self

end

/-- The parser of expressions and statements. -/
def parse : Entry → P Node := fix 2 parseBody

/-- An expression whose operators have at least a precedence. -/
def parseExpression (minPrec : ℕ) : P Node := parse (.expression minPrec)

/-- A statement. -/
def parseStatement : P Node := parse .statement

/-! ### Declarations -/

/-- An inline definition `ARR[MAP]` starts at the position. -/
def startsInlineArrayMap : P Bool :=
  both (curIs .ARR) (both (peekIs 1 .LBRACKET) (both (peekIs 2 .MAP) (peekIs 3 .RBRACKET)))

/-- An inline definition `ARR[MAP]` with its name starts at the position. -/
def startsNamedArrayMap : P Bool :=
  both startsInlineArrayMap (both (peekIs 4 .NAME) (peekIs 5 .EQUAL))

/-- The tokens `ARR[MAP]`. -/
def expectArrayMap : P Token := do
  let arrTok ← expect .ARR "expected ARR"
  let _ ← expect .LBRACKET "expected '[' after ARR"
  let _ ← expect .MAP "expected MAP inside ARR[MAP]"
  let _ ← expect .RBRACKET "expected ']' after ARR[MAP]"
  pure arrTok

/-- The name and the opening tokens of an inline definition. -/
def expectArrayMapName (nameMessage equalMessage bracketMessage braceMessage : String) : P Token := do
  let name ← expect .NAME nameMessage
  let _ ← expect .EQUAL equalMessage
  let _ ← expect .LBRACKET bracketMessage
  let _ ← expect .LBRACE braceMessage
  pure name

/-- The struct whose fields are parsed, its name, and the message where its brace is
missing. -/
structure StructArgs where
  decl : Node
  declName : String
  closeMessage : String

/-- A field that is an inline definition of an array of maps. -/
def parseArrayMapField (parseTypeStructFields : StructArgs → P Node) (args : StructArgs) : P Node := do
  let arrTok ← expectArrayMap
  let fieldName ← expectArrayMapName "expected nested ARR[MAP] field name"
    "expected '=' after nested ARR[MAP] field name"
    "expected '[' before nested ARR[MAP] element definition"
    "expected '\x7b' for nested ARR[MAP] element definition"
  let nestedName := args.declName ++ "_" ++ fieldName.text
  let nested ← parseTypeStructFields ⟨{ nodeNew .TYPE_STRUCT arrTok with name := some nestedName },
    nestedName, "expected '\x7d' after nested ARR[MAP] element definition"⟩
  let _ ← expect .RBRACKET "expected ']' after nested ARR[MAP] element definition"
  let declaredType := "ARR[" ++ nestedName ++ "]"
  let field := { nodeNew .FIELD arrTok with
    declaredType := some declaredType, name := some fieldName.text, text := some declaredType
    value := some (nodeNew .ARRAY arrTok) }
  pure { args.decl with
    typeDecls := args.decl.typeDecls ++ [nested], fields := args.decl.fields ++ [field] }

/-- A field that is an inline definition of a map. -/
def parseMapField (parseTypeStructFields : StructArgs → P Node) (args : StructArgs) : P Node := do
  let mapTok ← expect .MAP "expected MAP"
  let fieldName ← expect .NAME "expected nested MAP field name"
  let _ ← expect .EQUAL "expected '=' after nested MAP field name"
  if ← matchToken .LPAREN then
    let tok ← prev
    dieAt tok.line tok.col "fixed MAP definitions use '\x7b...\x7d', not '(...)'"
  else
    let _ ← expect .LBRACE "expected '\x7b' for nested MAP definition"
    let nestedName := args.declName ++ "_" ++ fieldName.text
    let nested ← parseTypeStructFields ⟨{ nodeNew .TYPE_STRUCT mapTok with name := some nestedName },
      nestedName, "expected '\x7d' after nested MAP definition"⟩
    let field := { nodeNew .FIELD mapTok with
      declaredType := some nestedName, name := some fieldName.text, text := some nestedName
      value := some (nodeNew .INIT mapTok) }
    pure { args.decl with
      typeDecls := args.decl.typeDecls ++ [nested], fields := args.decl.fields ++ [field] }

/-- A field of a type that is written out. -/
def parseTypedField (args : StructArgs) : P Node := do
  let fieldType ← parseType
  let fieldName ← expect .NAME "expected field name"
  let field := { nodeNew .FIELD fieldType.token with
    declaredType := some fieldType.type, name := some fieldName.text, text := some fieldType.type }
  if ← matchToken .EQUAL then
    let value ← parseExpression 0
    pure { args.decl with fields := args.decl.fields ++ [{ field with value := some value }] }
  else pure { args.decl with fields := args.decl.fields ++ [field] }

/-- A field of a struct. -/
def parseStructField (parseTypeStructFields : StructArgs → P Node) (args : StructArgs) : P Node := do
  if ← startsNamedArrayMap then parseArrayMapField parseTypeStructFields args
  else if ← both (curIs .MAP) (both (peekIs 1 .NAME) (peekIs 2 .EQUAL)) then
    parseMapField parseTypeStructFields args
  else parseTypedField args

/-- The body of `parse_type_struct_fields`, which all its callers call for a brace. -/
def parseTypeStructFieldsBody (parseTypeStructFields : StructArgs → P Node) (args : StructArgs) :
    P Node := do
  skipNewlines
  let decl ← loop (fun (decl : Node) => do
    let tok ← cur
    if tok.kind = .RBRACE then pure (.inr decl)
    else if tok.kind = .EOF then dieAt tok.line tok.col "unterminated TYPE struct"
    else
      let decl ← parseStructField parseTypeStructFields { args with decl }
      skipEntrySeparator
      pure (.inl decl)) args.decl
  let _ ← expect .RBRACE args.closeMessage
  pure decl

/-- The fields of a struct up to the closing brace. -/
def parseTypeStructFields : StructArgs → P Node := fix 1 parseTypeStructFieldsBody

/-- A named array of maps that are defined inline. -/
def parseInlineArrayMapAlias : P Node := do
  let arrTok ← expectArrayMap
  let name ← expectArrayMapName "expected array name after ARR[MAP]" "expected '=' after ARR[MAP] name"
    "expected '[' before ARR[MAP] element definition" "expected '\x7b' for ARR[MAP] element definition"
  let nestedName := name.text ++ "_item"
  let nested ← parseTypeStructFields ⟨{ nodeNew .TYPE_STRUCT arrTok with name := some nestedName },
    nestedName, "expected '\x7d' after ARR[MAP] element definition"⟩
  let _ ← expect .RBRACKET "expected ']' after ARR[MAP] element definition"
  pure { nodeNew .TYPE_ALIAS arrTok with
    name := some name.text, declaredType := some ("ARR[" ++ nestedName ++ "]")
    value := some (nodeNew .ARRAY arrTok), typeDecls := [nested] }

/-- A named type behind its `=`. -/
def parseTypeAlias (tok name : Token) : P Node := do
  let declared ← parseType
  let decl := { nodeNew .TYPE_ALIAS tok with
    name := some name.text, declaredType := some declared.type }
  let k := (← cur).kind
  if k ≠ .NEWLINE ∧ k ≠ .EOF then
    let value ← parseExpression 0
    pure { decl with value := some value }
  else pure decl

/-- A declaration of a fixed map or of a type. -/
def parseTypeDecl : P Node := do
  let tok ← cur
  if ← either (matchToken .TYPE) (matchToken .MAP) then
    let name ← expect .NAME "expected map/type name after MAP"
    let _ ← expect .EQUAL "expected '=' in MAP declaration"
    if ← matchToken .LPAREN then
      let tok ← prev
      dieAt tok.line tok.col "fixed MAP definitions use '\x7b...\x7d', not '(...)'"
    else if ← matchToken .LBRACE then
      parseTypeStructFields ⟨{ nodeNew .TYPE_STRUCT tok with name := some name.text }, name.text,
        "expected '\x7d' after TYPE struct"⟩
    else if tok.kind = .MAP then
      let tok ← cur
      dieAt tok.line tok.col ("named dynamic MAP and ARR values use type-first syntax, " ++
        "for example MAP[STR, INT] Scores = \x7b...\x7d or ARR[BOL] Row = []")
    else parseTypeAlias tok name
  else dieAt tok.line tok.col "expected MAP declaration"

/-- A value at the top of a program. -/
def parseTopLevelValue : P Node := do
  let t ← parseType
  let name ← expect .NAME "expected top-level value name"
  if ← matchToken .EQUAL then
    let value ← parseExpression 0
    pure { nodeNew .TYPE_ALIAS t.token with
      declaredType := some t.type, name := some name.text, value := some value }
  else dieAt name.line name.col "expected '=' after top-level named value"

/-- A declaration or a statement is added to a program. -/
def parseTopLevel (prog : Node) : P Node := do
  if ← startsNamedArrayMap then
    let decl ← parseInlineArrayMapAlias
    pure { prog with typeDecls := prog.typeDecls ++ [decl] }
  else if ← both (either (curIs .TYPE) (curIs .MAP)) (both (peekIs 1 .NAME) (peekIs 2 .EQUAL)) then
    let decl ← parseTypeDecl
    pure { prog with typeDecls := prog.typeDecls ++ [decl] }
  else if ← startsType then
    let decl ← parseTopLevelValue
    pure { prog with typeDecls := prog.typeDecls ++ [decl] }
  else if ← curIs .FN then
    let fn ← parseFnDecl parse
    pure { prog with functions := prog.functions ++ [fn] }
  else
    let statement ← parseStatement
    pure { prog with statements := prog.statements ++ [statement] }

/-- The parser of a program. -/
def parseProgramBody : P Node := do
  let first ← cur
  skipNewlines
  loop (fun (prog : Node) => do
    if ← curIs .EOF then pure (.inr prog)
    else
      let prog ← parseTopLevel prog
      skipNewlines
      pure (.inl prog)) (nodeNew .PROGRAM first)

/-- The end of a run of the parser on the tokens of a program. -/
def parseProgram (tokens : List Token) : ParseEnd ParseError Cursor Node :=
  parseProgramBody tokens ⟨0, false⟩

end Caster.Parse
