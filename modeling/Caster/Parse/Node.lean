import Caster.Library.TokenParser

/-!
# Tokens and nodes

The tokens the lexer prints and the nodes the parser makes of them.  A node is one record
with many optional fields, of which the parser sets those its kind has.
-/

namespace Caster.Parse

/-- The kinds of tokens. -/
inductive TokenKind where
  | EOF | NEWLINE | NAME | INT_LITERAL | FLT_LITERAL | STRING_LITERAL | BOL_LITERAL
  | TYPE | MAP | FN | REF | TSK | INIT | INT | FLT | BOL | STR | NUL_TYPE | ARR
  | RET | IF | ELX | ELSE | LOOP | PASS | THROW | FREE | HOLD | AS | IS
  | LPAREN | RPAREN | LBRACKET | RBRACKET | LBRACE | RBRACE | COLON | EQUAL | ARROW
  | PLUSPLUS | PLUSEQ | MINUSEQ | PLUS | MINUS | STAR | SLASH | PERCENT | BANG
  | LT | LTE | GT | GTE | EQEQ | NEQ | ANDAND | OROR | PIPE | COMMA | DOT
deriving DecidableEq, Repr

/-- A token with its place in the source. -/
structure Token where
  kind : TokenKind
  text : String
  line : ℕ
  col : ℕ
deriving DecidableEq, Repr

/-- The kinds of nodes the parser makes. -/
inductive NodeKind where
  | PROGRAM | TYPE_ALIAS | TYPE_STRUCT | FIELD | FN | PARAM | BLOCK | VAR | ASSIGN | DESTRUCTURE
  | EXPR_STMT | RET | IF | ELX | LOOP | PASS | THROW | FREE | AGG_STEP
  | INT | FLT | BOL | STR | NIL | NAME | INIT | ARRAY | SHAPE | MAP_LITERAL | RECORD_LITERAL
  | DOT | UNARY | BINARY | CALL | METHOD_CALL | IF_EXPR
deriving DecidableEq, Repr

/-- A node.  The text of a floating point literal stands for the number `strtod` reads. -/
structure Node where
  kind : NodeKind
  line : ℕ
  col : ℕ
  declaredType : Option String := none
  name : Option String := none
  sortDir : Option String := none
  text : Option String := none
  op : Option String := none
  loopHint : Option String := none
  intValue : ℤ := 0
  floatText : Option String := none
  boolValue : Bool := false
  body : Option Node := none
  value : Option Node := none
  target : Option Node := none
  expr : Option Node := none
  condition : Option Node := none
  thenBlock : Option Node := none
  elseBlock : Option Node := none
  object : Option Node := none
  index : Option Node := none
  callee : Option Node := none
  left : Option Node := none
  right : Option Node := none
  typeDecls : List Node := []
  fields : List Node := []
  functions : List Node := []
  params : List Node := []
  statements : List Node := []
  args : List Node := []
  elements : List Node := []
  elxBranches : List Node := []

/-- A node of a kind at the place of a token. -/
def nodeNew (kind : NodeKind) (tok : Token) : Node := { kind, line := tok.line, col := tok.col }

/-- A message with the place it is about. -/
structure ParseError where
  line : ℕ
  col : ℕ
  message : String
deriving DecidableEq, Repr

/-- A parser of the tokens of a program. -/
abbrev P (α : Type) : Type := TokenParser Token ParseError α

open TokenParser

/-- The program ends with a message. -/
def dieAt {α : Type} (line col : ℕ) (message : String) : P α := fail ⟨line, col, message⟩

/-- The token at the position. -/
def cur : P Token := peek 0

/-- The kind of the token at the position. -/
def curIs (k : TokenKind) : P Bool := do
  let tok ← cur
  pure (tok.kind = k)

/-- The kind of a token ahead. -/
def peekIs (offset : ℕ) (k : TokenKind) : P Bool := do
  let tok ← peek offset
  pure (tok.kind = k)

/-- The token at the position is of a kind and is passed. -/
def matchToken (k : TokenKind) : P Bool := do
  if ← curIs k then
    advance
    pure true
  else pure false

/-- A token of a kind. -/
def expect (k : TokenKind) (message : String) : P Token := do
  let tok ← cur
  if tok.kind = k then
    advance
    pure tok
  else dieAt tok.line tok.col message

/-- A token that ends a line. -/
def isNewline (tok : Token) : Bool := tok.kind = .NEWLINE

/-- The ends of lines at the position are passed. -/
def skipNewlines : P Unit := do
  let pos ← scan isNewline (← position)
  seek pos

end Caster.Parse
