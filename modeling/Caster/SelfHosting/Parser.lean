import Caster.SelfHosting.Lexer

/-!
# The parser of expressions written in Caster

The parser of the self-hosted compiler reports what is wrong by diagnostics and goes on.  Its
functions call each other through `parseExpressionWithPrecedence` and `parseUnary`; these two
are a parameter of the others, with fuel for the calls of each other.
-/

namespace Caster.SelfHosting

/-! ### The cursor -/

/-- What a parser reports. -/
structure Diagnostic where
  file : String
  line : ℕ
  col : ℕ
  endLine : ℕ
  endCol : ℕ
  severity : String
  message : String
deriving DecidableEq, Repr

/-- The tokens of a file, a position among them, and what was reported. -/
structure State where
  file : String
  tokens : List Token
  pos : ℕ
  diagnostics : List Diagnostic
deriving DecidableEq, Repr

/-- A parser.  It has no value if it reads a token where there is none, or without fuel. -/
abbrev Parser (α : Type) : Type := StateT State Option α

/-- The state before some tokens. -/
def State.new (file : String) (tokens : List Token) : State := ⟨file, tokens, 0, []⟩

/-- The token at the position, or the last one behind it. -/
def current : Parser Token := fun s =>
  (if s.pos < s.tokens.length then s.tokens[s.pos]? else s.tokens.getLast?).map fun tok => (tok, s)

/-- The token at the position has a kind. -/
def atKind (kind : Kind) : Parser Bool := do
  let tok ← current
  pure (tok.kind = kind)

/-- The token at the position is passed. -/
def advance : Parser Token := do
  let tok ← current
  modify fun s => if s.pos < s.tokens.length then { s with pos := s.pos + 1 } else s
  pure tok

/-- The token at the position is passed if it has a kind. -/
def matchKind (kind : Kind) : Parser Bool := do
  if ← atKind kind then
    let _ ← advance
    pure true
  else pure false

/-- A message about a token is reported. -/
def addError (tok : Token) (message : String) : Parser Unit :=
  modify fun s => { s with diagnostics := s.diagnostics ++
    [⟨s.file, tok.span.line, tok.span.col, tok.span.endLine, tok.span.endCol, "error", message⟩] }

/-- A token of a kind, or a message about another one, which is passed unless it is the last. -/
def expect (kind : Kind) (message : String) : Parser Token := do
  let tok ← current
  if tok.kind = kind then advance
  else
    addError tok message
    if tok.kind ≠ .EOF then
      let _ ← advance
      pure tok
    else pure tok

/-- No token is left. -/
def atEnd : Parser Bool := atKind .EOF

section

variable {α β : Type}

/-- A loop with fuel: its body goes on with a value, or breaks with a result. -/
def iterate (body : α → Parser (α ⊕ β)) : ℕ → α → Parser β
  | 0, _ => failure
  | n + 1, a => do
    match ← body a with
    | .inl a => iterate body n a
    | .inr b => pure b

/-- A loop that runs no longer than there are tokens. -/
def loop (body : α → Parser (α ⊕ β)) (a : α) : Parser β := fun s =>
  iterate body (s.tokens.length + 1) a s

end

/-- The ends of lines at the position are passed. -/
def skipNewlines : Parser Unit :=
  loop (fun (_ : Unit) => do
    if ← atKind .NEWLINE then
      let _ ← advance
      pure (.inl ())
    else pure (.inr ())) ()

/-! ### Expressions -/

/-- The kinds of expressions. -/
inductive ExprKind where
  | array | field | record | implicitIndex | implicitDot | int | flt | str | bol | nul | init
  | name | group | missing | unary | call | index | dot | binary
deriving DecidableEq, Repr

/-- An expression. -/
structure Expr where
  kind : ExprKind
  text : String := ""
  op : String := ""
  children : List Expr := []
  span : Span

/-- The text of a token. -/
def tokenText (tok : Token) : String :=
  if tok.kind = .STRING_LITERAL then "\"" ++ tok.lexeme ++ "\""
  else if tok.kind = .NEWLINE ∨ tok.kind = .EOF then ""
  else tok.lexeme

/-- The text of a binary operator. -/
def binaryOp : Kind → String
  | .OROR => "||"
  | .ANDAND => "&&"
  | .EQEQ => "=="
  | .NEQ => "!="
  | .LT => "<"
  | .LTE => "<="
  | .GT => ">"
  | .GTE => ">="
  | .PIPE => "|"
  | .PLUS => "+"
  | .MINUS => "-"
  | .STAR => "*"
  | .SLASH => "/"
  | .PERCENT => "%"
  | .IS => "IS"
  | _ => ""

/-- The precedence of a binary operator, zero for other tokens. -/
def precedence : Kind → ℕ
  | .OROR => 1
  | .ANDAND => 2
  | .EQEQ | .NEQ | .IS => 3
  | .LT | .LTE | .GT | .GTE => 4
  | .PIPE | .PLUS | .MINUS => 5
  | .STAR | .SLASH | .PERCENT => 6
  | _ => 0

/-- A token that no expression goes on with. -/
def isExpressionBoundary (kind : Kind) : Bool :=
  kind ∈ [Kind.COMMA, .RPAREN, .RBRACKET, .RBRACE, .NEWLINE, .EOF]

/-- The text of a token behind a dot. -/
def memberText (tok : Token) : String :=
  if tok.kind = .INT_LITERAL then tok.lexeme
  else if tok.kind ∈ [Kind.NAME, .ARR, .STR_TYPE, .INT_TYPE, .FLT_TYPE, .BOL_TYPE] then tok.lexeme
  else tokenText tok

/-- The two functions every cycle of calls runs through. -/
inductive Entry where
  | expression (minPrecedence : ℕ)
  | unary
deriving DecidableEq

section

variable (self : Entry → Parser Expr)

/-- An expression. -/
def parseExpression : Parser Expr := self (.expression 1)

/-- Expressions up to a closing token. -/
def parseExpressionList (closeKind : Kind) : Parser (List Expr) := do
  skipNewlines
  -- a list that closes behind the end of a line is returned with its closing token unread
  let (items, closed) ← loop (fun (items : List Expr) => do
    if ← atEnd then pure (.inr (items, false))
    else if ← atKind closeKind then pure (.inr (items, false))
    else
      skipNewlines
      if ← atKind closeKind then pure (.inr (items, true))
      else
        let item ← parseExpression self
        skipNewlines
        if ← matchKind .COMMA then
          skipNewlines
          pure (.inl (items ++ [item]))
        else pure (.inl (items ++ [item]))) []
  if closed then pure items
  else
    let _ ← expect closeKind "expected expression list close"
    pure items

/-- An array. -/
def parseArrayLiteral : Parser Expr := do
  let start ← expect .LBRACKET "expected '['"
  let items ← parseExpressionList self .RBRACKET
  pure { kind := .array, children := items, span := start.span }

/-- The key of a field of a record. -/
def parseRecordKey : Parser String := do
  let tok ← current
  if tok.kind = .STRING_LITERAL ∨ tok.kind = .NAME then
    let name ← advance
    pure name.lexeme
  else
    let computed ← parseExpression self
    pure computed.text

/-- A field of a record. -/
def parseRecordField : Parser Expr := do
  let start ← current
  let key ← parseRecordKey self
  if ← matchKind .EQUAL then
    let value ← parseExpression self
    pure { kind := .field, text := key, children := [value], span := start.span }
  else pure { kind := .field, text := key, span := start.span }

/-- A record. -/
def parseRecordLiteral : Parser Expr := do
  let start ← expect .LBRACE "expected '\x7b'"
  skipNewlines
  let (items, closed) ← loop (fun (items : List Expr) => do
    if ← atEnd then pure (.inr (items, false))
    else if ← atKind .RBRACE then pure (.inr (items, false))
    else
      skipNewlines
      if ← atKind .RBRACE then pure (.inr (items, true))
      else
        let field ← parseRecordField self
        skipNewlines
        if ← matchKind .COMMA then
          skipNewlines
          pure (.inl (items ++ [field]))
        else pure (.inl (items ++ [field]))) []
  if closed then pure { kind := .record, children := items, span := start.span }
  else
    let _ ← expect .RBRACE "expected '\x7d' after record"
    pure { kind := .record, children := items, span := start.span }

/-- The arguments of a call. -/
def parseCallArgs : Parser (List Expr) := do
  let _ ← expect .LPAREN "expected '('"
  parseExpressionList self .RPAREN

/-- A dot without an object. -/
def parseImplicitDot : Parser Expr := do
  let start ← expect .DOT "expected '.'"
  if ← matchKind .LBRACKET then
    let index ← parseExpression self
    let _ ← expect .RBRACKET "expected ']' after computed access"
    pure { kind := .implicitIndex, children := [index], span := start.span }
  else
    let member ← advance
    pure { kind := .implicitDot, text := memberText member, span := start.span }

/-- A token that is an expression by itself. -/
def parseToken (kind : ExprKind) (text : String) (tok : Token) : Parser Expr := do
  let _ ← advance
  pure { kind, text, span := tok.span }

/-- An expression in parentheses. -/
def parseGroup (tok : Token) : Parser Expr := do
  let _ ← advance
  let inner ← parseExpression self
  let _ ← expect .RPAREN "expected ')' after expression"
  pure { kind := .group, children := [inner], span := tok.span }

/-- What is reported and returned where no expression starts. -/
def parseMissing (tok : Token) : Parser Expr := do
  addError tok "expected expression"
  if ← atEnd then pure { kind := .missing, text := tokenText tok, span := tok.span }
  else
    let _ ← advance
    pure { kind := .missing, text := tokenText tok, span := tok.span }

/-- What an expression starts with behind its prefix operators. -/
def parsePrimary : Parser Expr := do
  let tok ← current
  match tok.kind with
  | .INT_LITERAL => parseToken .int tok.lexeme tok
  | .FLT_LITERAL => parseToken .flt tok.lexeme tok
  | .STRING_LITERAL => parseToken .str tok.lexeme tok
  | .BOL_LITERAL => parseToken .bol tok.lexeme tok
  | .NUL => parseToken .nul "NUL" tok
  | .INIT => parseToken .init "INIT" tok
  | .NAME => parseToken .name tok.lexeme tok
  | .INT_TYPE | .FLT_TYPE | .BOL_TYPE | .STR_TYPE | .DYN_TYPE | .ARR =>
    parseToken .name tok.lexeme tok
  | .DOT => parseImplicitDot self
  | .LBRACKET => parseArrayLiteral self
  | .LBRACE => parseRecordLiteral self
  | .LPAREN => parseGroup self tok
  | _ => parseMissing tok

/-- A call behind an expression. -/
def parseCall (out : Expr) : Parser Expr := do
  let start ← current
  let args ← parseCallArgs self
  pure { kind := .call, children := out :: args, span := start.span }

/-- A dot behind an expression. -/
def parseDot (out : Expr) : Parser Expr := do
  let dot ← advance
  if ← matchKind .LBRACKET then
    let index ← parseExpression self
    let _ ← expect .RBRACKET "expected ']' after computed access"
    pure { kind := .index, children := [out, index], span := dot.span }
  else
    let member ← advance
    pure { kind := .dot, text := memberText member, children := [out], span := dot.span }

/-- The calls and dots behind an expression. -/
def parsePostfix (base : Expr) : Parser Expr :=
  loop (fun (out : Expr) => do
    if ← atEnd then pure (.inr out)
    else if ← atKind .LPAREN then
      let call ← parseCall self out
      pure (.inl call)
    else if ← atKind .DOT then
      let dot ← parseDot self out
      pure (.inl dot)
    else pure (.inr out)) base

/-- The prefix operators. -/
def isPrefixOp (kind : Kind) : Bool :=
  kind ∈ [Kind.BANG, .MINUS, .STAR, .REF, .HOLD, .PLUSEQ, .MINUSEQ]

/-- An expression with its prefix operators and what is behind it. -/
def parseUnary : Parser Expr := do
  let tok ← current
  if isPrefixOp tok.kind then
    let _ ← advance
    let right ← self .unary
    pure { kind := .unary, op := tokenText tok, children := [right], span := tok.span }
  else
    let primary ← parsePrimary self
    parsePostfix self primary

/-- One pass through the loop over the operators behind an expression. -/
def parseOperator (minPrecedence : ℕ) (left : Expr) : Parser (Expr ⊕ Expr) := do
  if ← atEnd then pure (.inr left)
  else
    let op ← current
    let prec := precedence op.kind
    if prec = 0 ∨ prec < minPrecedence ∨ isExpressionBoundary op.kind = true then pure (.inr left)
    else
      let _ ← advance
      let right ← self (.expression (prec + 1))
      pure (.inl { kind := .binary, op := binaryOp op.kind, children := [left, right], span := op.span })

/-- An expression whose operators have at least a precedence. -/
def parseExpressionWithPrecedence (minPrecedence : ℕ) : Parser Expr := do
  let left ← parseUnary self
  loop (parseOperator self minPrecedence) left

end

/-- The bodies of the two functions. -/
def parseBody (self : Entry → Parser Expr) : Entry → Parser Expr
  | .expression minPrecedence => parseExpressionWithPrecedence self minPrecedence
  | .unary => parseUnary self

/-- Functions that call each other, with the fuel for a number of calls. -/
def fixFuel : ℕ → Entry → Parser Expr
  | 0, _ => failure
  | n + 1, entry => parseBody (fixFuel n) entry

/-- The parser of expressions, with fuel for a call at each token. -/
def parse (entry : Entry) : Parser Expr := fun s => fixFuel (s.tokens.length + 1) entry s

end Caster.SelfHosting
