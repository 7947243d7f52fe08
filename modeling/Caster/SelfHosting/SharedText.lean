import Caster.Lex.Positions
import Caster.SelfHosting.Lexer

/-!
# Texts that both lexers read alike

The lexer written in Caster reads less than the one of the compiler: it knows no exponents, no
escapes, no separators of shapes and no carriage returns, and it has two words more that are no
names.  The texts without these are described by the pieces they are made of.
-/

namespace Caster.SelfHosting

open Driver TextPlaces
open Caster.Lex (LexState)
open Parse (TokenKind ParseError)

/-! ### Tokens that correspond -/

/-- The kind the lexer written in Caster has for a kind of the compiler. -/
def kindOf : TokenKind → Kind
  | .EOF => .EOF
  | .NEWLINE => .NEWLINE
  | .NAME => .NAME
  | .INT_LITERAL => .INT_LITERAL
  | .FLT_LITERAL => .FLT_LITERAL
  | .STRING_LITERAL => .STRING_LITERAL
  | .BOL_LITERAL => .BOL_LITERAL
  | .TYPE => .TYPE
  | .MAP => .MAP
  | .FN => .FN
  | .REF => .REF
  | .TSK => .TSK
  | .INIT => .INIT
  | .INT => .INT_TYPE
  | .FLT => .FLT_TYPE
  | .BOL => .BOL_TYPE
  | .STR => .STR_TYPE
  | .NUL_TYPE => .NUL
  | .ARR => .ARR
  | .RET => .RET
  | .IF => .IF
  | .ELX => .ELX
  | .ELSE => .ELSE
  | .LOOP => .LOOP
  | .PASS => .PASS
  | .THROW => .THROW
  | .FREE => .FREE
  | .HOLD => .HOLD
  | .AS => .AS
  | .IS => .IS
  | .LPAREN => .LPAREN
  | .RPAREN => .RPAREN
  | .LBRACKET => .LBRACKET
  | .RBRACKET => .RBRACKET
  | .LBRACE => .LBRACE
  | .RBRACE => .RBRACE
  | .COLON => .COLON
  | .EQUAL => .EQUAL
  | .ARROW => .ARROW
  | .PLUSPLUS => .PLUSPLUS
  | .PLUSEQ => .PLUSEQ
  | .MINUSEQ => .MINUSEQ
  | .PLUS => .PLUS
  | .MINUS => .MINUS
  | .STAR => .STAR
  | .SLASH => .SLASH
  | .PERCENT => .PERCENT
  | .BANG => .BANG
  | .LT => .LT
  | .LTE => .LTE
  | .GT => .GT
  | .GTE => .GTE
  | .EQEQ => .EQEQ
  | .NEQ => .NEQ
  | .ANDAND => .ANDAND
  | .OROR => .OROR
  | .PIPE => .PIPE
  | .COMMA => .COMMA
  | .DOT => .DOT

/-- A token of the compiler and one of the lexer written in Caster. -/
structure Corresponds (tok : Parse.Token) (tok' : Token) : Prop where
  kind : tok'.kind = kindOf tok.kind
  text : tok'.lexeme = tok.text
  line : tok'.span.line = tok.line
  col : tok'.span.col = tok.col

/-- The lexer written in Caster has the tokens of the compiler for a text, or marks a text the
compiler rejects with an `UNKNOWN` token. -/
def LexersAgree (src : Text) : Prop :=
  match Lex.lexSource src with
  | .ok toks => List.Forall₂ Corresponds toks (lexSource src)
  | .error _ => ∃ tok ∈ lexSource src, tok.kind = .UNKNOWN

/-! ### Pieces -/

/-- The characters of a block comment and those behind it, if it ends. -/
def splitComment : Text → Option (Text × Text)
  | [] => none
  | '*' :: '/' :: rest => some ([], rest)
  | c :: rest => (splitComment rest).map fun (body, after) => (c :: body, after)

/-- Each carriage return of a text is followed by a line feed. -/
def PairedReturns (text : Text) : Prop :=
  ∀ before after, text = before ++ '\r' :: after → after.head? = some '\n'

/-- The characters behind a number without an exponent. -/
def behindNumber (text : Text) : Text :=
  let rest := text.dropWhile Char.isDigit
  rest.drop (Lex.fraction rest).length

/-- Both lexers read the same piece at the start of a text, behind other characters of which
the last one comes first. -/
inductive SharedPiece (before : Text) : Text → Text → Prop
  | blank {c rest} (hc : c = ' ' ∨ c = '\t') : SharedPiece before (c :: rest) rest
  | newline {rest} : SharedPiece before ('\n' :: rest) rest
  | lineComment {rest} (hend : (rest.dropWhile Lex.inLine).head? ≠ some '\r') :
    SharedPiece before ('/' :: '/' :: rest) (rest.dropWhile Lex.inLine)
  | blockComment {rest body after} (hbody : splitComment rest = some (body, after))
      (hreturns : PairedReturns body) :
    SharedPiece before ('/' :: '*' :: rest) after
  | string {body rest} (hbody : ∀ c ∈ body, c ≠ quote ∧ c ≠ '\\' ∧ isLineEnd c = false) :
    SharedPiece before (quote :: body ++ quote :: rest) rest
  | raw {body rest} (hbody : ∀ c ∈ body, c ≠ backtick ∧ c ≠ '\r') :
    SharedPiece before (backtick :: body ++ backtick :: rest) rest
  | number {c rest} (hc : c.isDigit = true)
      (hmark : Lex.exponentMark (behindNumber (c :: rest)) = []) :
    SharedPiece before (c :: rest) (behindNumber (c :: rest))
  | word {c rest} (hc : isIdentStart c = true)
      (hshape : ¬(c = 'x' ∧ before.head?.any Char.isDigit ∧ rest.head?.any isIdentChar))
      (hword : String.ofList ((c :: rest).takeWhile isIdentChar) ≠ "use" ∧
        String.ofList ((c :: rest).takeWhile isIdentChar) ≠ "DYN") :
    SharedPiece before (c :: rest) ((c :: rest).dropWhile isIdentChar)
  | sign {c rest kind out after} (hsign : Lex.lexSign c rest = some (kind, out, after))
      (hcomment : ¬(c = '/' ∧ (rest.head? = some '/' ∨ rest.head? = some '*'))) :
    SharedPiece before (c :: rest) after

/-- The compiler stops at the start of a text, where the lexer written in Caster has an
`UNKNOWN` token: a block comment that does not end, or a character no token starts with. -/
inductive StopsBoth : Text → Prop
  | openComment {rest} (hopen : splitComment rest = none) : StopsBoth ('/' :: '*' :: rest)
  | strange {c rest} (hspace : isSpace c = false) (hsign : Lex.lexSign c rest = none)
      (hquote : c ≠ quote ∧ c ≠ backtick) (hchar : isIdentChar c = false) :
    StopsBoth (c :: rest)

/-- A text is made of pieces both lexers read alike, up to its end or a place where both stop. -/
inductive SharedText : Text → Text → Prop
  | done {before} : SharedText before []
  | stop {before text} (h : StopsBoth text) : SharedText before text
  | piece {before text p rest} (hpiece : SharedPiece before text rest) (htext : text = p ++ rest)
      (hrest : SharedText (p.reverse ++ before) rest) : SharedText before text

end Caster.SelfHosting
