import Caster.Parse.Expressions

/-!
# Trees of operators and their printing

Trees of names and numbers under the prefix operators and the left-associative binary
operators of the language, and the tokens they are printed as, with parentheses only around
an operand that would otherwise be read differently.
-/

namespace Caster.Parse

/-- The prefix operators. -/
inductive PrefixOp where
  | neg | not
deriving DecidableEq, Repr

/-- The binary operators. -/
inductive InfixOp where
  | orElse | or | and | eq | neq | lt | lte | gt | gte | bar | add | sub | mul | div | mod
deriving DecidableEq, Repr

/-- A tree of operators over names and numbers. -/
inductive Tree where
  | name (text : String)
  | int (value : ℕ)
  | unary (op : PrefixOp) (operand : Tree)
  | binary (op : InfixOp) (left right : Tree)
deriving DecidableEq, Repr

/-- A token without its place. -/
structure Lexeme where
  kind : TokenKind
  text : String
deriving DecidableEq, Repr

/-- A token without its place. -/
def Token.lexeme (tok : Token) : Lexeme := ⟨tok.kind, tok.text⟩

/-- The token of a prefix operator. -/
def PrefixOp.lexeme : PrefixOp → Lexeme
  | .neg => ⟨.MINUS, "-"⟩
  | .not => ⟨.BANG, "!"⟩

/-- The token of a binary operator. -/
def InfixOp.lexeme : InfixOp → Lexeme
  | .orElse => ⟨.ELSE, "else"⟩
  | .or => ⟨.OROR, "||"⟩
  | .and => ⟨.ANDAND, "&&"⟩
  | .eq => ⟨.EQEQ, "=="⟩
  | .neq => ⟨.NEQ, "!="⟩
  | .lt => ⟨.LT, "<"⟩
  | .lte => ⟨.LTE, "<="⟩
  | .gt => ⟨.GT, ">"⟩
  | .gte => ⟨.GTE, ">="⟩
  | .bar => ⟨.PIPE, "|"⟩
  | .add => ⟨.PLUS, "+"⟩
  | .sub => ⟨.MINUS, "-"⟩
  | .mul => ⟨.STAR, "*"⟩
  | .div => ⟨.SLASH, "/"⟩
  | .mod => ⟨.PERCENT, "%"⟩

/-- How tightly a binary operator binds: `else` least, as it is not in the table. -/
def InfixOp.level (op : InfixOp) : ℕ := (precedence op.lexeme.kind).1

/-- How tightly the operator at the root of a tree binds. -/
def Tree.level : Tree → ℕ
  | .name _ => 7
  | .int _ => 7
  | .unary _ _ => 7
  | .binary op _ _ => op.level

/-- The tokens of an operand, in parentheses if they are needed. -/
def parenthesize (needed : Bool) (lexemes : List Lexeme) : List Lexeme :=
  if needed then ⟨.LPAREN, "("⟩ :: lexemes ++ [⟨.RPAREN, ")"⟩] else lexemes

/-- The tokens of a tree.  The operand of a prefix operator needs parentheses if it is
binary, the left operand of a binary operator if it binds less tightly, and the right one if
it does not bind more tightly. -/
def Tree.print : Tree → List Lexeme
  | .name text => [⟨.NAME, text⟩]
  | .int value => [⟨.INT_LITERAL, toString value⟩]
  | .unary op operand => op.lexeme :: parenthesize (operand.level < 7) operand.print
  | .binary op left right =>
    parenthesize (left.level < op.level) left.print ++
      op.lexeme :: parenthesize (right.level < op.level + 1) right.print

/-- The nodes a tree is parsed to, which hold the places of its tokens, and the largest number
they can for a number that is larger. -/
def Tree.Matches : Tree → Node → Prop
  | .name text, n => ∃ line col, n = { kind := .NAME, line, col, name := some text }
  | .int value, n => ∃ line col, n = { kind := .INT, line, col, intValue := min value (2 ^ 63 - 1) }
  | .unary op operand, n => ∃ line col expr, operand.Matches expr ∧
      n = { kind := .UNARY, line, col, op := some op.lexeme.text, expr := some expr }
  | .binary op left right, n => ∃ line col l r, left.Matches l ∧ right.Matches r ∧
      n = { kind := .BINARY, line, col, op := some op.lexeme.text, left := some l, right := some r }

/-- The last token of a tree is a number to which no dot applies. -/
def Tree.endsBare : Tree → Bool
  | .name _ => false
  | .int _ => true
  | .unary _ _ => false
  | .binary op _ right => !(right.level < op.level + 1) && right.endsBare

end Caster.Parse
