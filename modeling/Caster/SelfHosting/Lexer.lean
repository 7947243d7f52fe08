import Caster.Lex.Lexer

/-!
# The lexer written in Caster

The lexer of the self-hosted compiler.  It ends no run with an error: a text that no token
starts with becomes an `UNKNOWN` token.
-/

namespace Caster.SelfHosting

open Driver TextPlaces
open Caster.Lex (isIdentChar_char isDigit_identChar not_digit_of_not_identChar
  not_isLineEnd_of_not_isSpace)

/-- The kinds of tokens. -/
inductive Kind where
  | FN | TYPE | MAP | ARR | REF | TSK | INIT | INT_TYPE | FLT_TYPE | BOL_TYPE | STR_TYPE | NUL
  | DYN_TYPE | RET | IF | ELX | ELSE | LOOP | PASS | THROW | USE | FREE | HOLD | AS | IS
  | BOL_LITERAL | NAME | ARROW | EQEQ | NEQ | LTE | GTE | PLUSEQ | MINUSEQ | PLUSPLUS | ANDAND
  | OROR | LPAREN | RPAREN | LBRACE | RBRACE | LBRACKET | RBRACKET | COMMA | DOT | COLON | EQUAL
  | PLUS | MINUS | STAR | SLASH | PERCENT | PIPE | LT | GT | BANG | UNKNOWN | NEWLINE
  | FLT_LITERAL | INT_LITERAL | STRING_LITERAL | EOF
deriving DecidableEq, Repr

/-- The places where a token starts and ends. -/
structure Span where
  line : ℕ
  col : ℕ
  endLine : ℕ
  endCol : ℕ
deriving DecidableEq, Repr

/-- A token. -/
structure Token where
  kind : Kind
  lexeme : String
  span : Span
deriving DecidableEq, Repr

/-- A token between two places. -/
def makeToken (kind : Kind) (lexeme : Text) (start stop : Place) : Token :=
  ⟨kind, String.ofList lexeme, ⟨start.line, start.col, stop.line, stop.col⟩⟩

/-! ### Words and signs -/

/-- The words that are no names. -/
def keywords : List (String × Kind) :=
  [("FN", .FN), ("TYPE", .TYPE), ("MAP", .MAP), ("ARR", .ARR), ("REF", .REF), ("TSK", .TSK),
    ("INIT", .INIT), ("INT", .INT_TYPE), ("FLT", .FLT_TYPE), ("BOL", .BOL_TYPE),
    ("STR", .STR_TYPE), ("NUL", .NUL), ("DYN", .DYN_TYPE), ("ret", .RET), ("if", .IF),
    ("elx", .ELX), ("else", .ELSE), ("loop", .LOOP), ("pass", .PASS), ("throw", .THROW),
    ("use", .USE), ("FREE", .FREE), ("hold", .HOLD), ("as", .AS), ("IS", .IS),
    ("true", .BOL_LITERAL), ("false", .BOL_LITERAL)]

/-- The kind of a word. -/
def keywordKind (word : String) : Kind := (keywords.lookup word).getD .NAME

/-- The kind of a sign of two characters. -/
def twoCharKind : Text → Option Kind
  | ['-', '>'] => some .ARROW
  | ['=', '='] => some .EQEQ
  | ['!', '='] => some .NEQ
  | ['<', '='] => some .LTE
  | ['>', '='] => some .GTE
  | ['+', '='] => some .PLUSEQ
  | ['-', '='] => some .MINUSEQ
  | ['+', '+'] => some .PLUSPLUS
  | ['&', '&'] => some .ANDAND
  | ['|', '|'] => some .OROR
  | _ => none

/-- The kind of a sign of one character. -/
def oneCharKind : Char → Kind
  | '(' => .LPAREN
  | ')' => .RPAREN
  | '{' => .LBRACE
  | '}' => .RBRACE
  | '[' => .LBRACKET
  | ']' => .RBRACKET
  | ',' => .COMMA
  | '.' => .DOT
  | ':' => .COLON
  | '=' => .EQUAL
  | '+' => .PLUS
  | '-' => .MINUS
  | '*' => .STAR
  | '/' => .SLASH
  | '%' => .PERCENT
  | '|' => .PIPE
  | '<' => .LT
  | '>' => .GT
  | '!' => .BANG
  | _ => .UNKNOWN

/-! ### Loops over characters -/

/-- The place behind a character. -/
def pass (p : Place) (c : Char) : Place := if c = '\n' then ⟨p.line + 1, 1⟩ else ⟨p.line, p.col + 1⟩

/-- The place behind characters of a line. -/
def right (p : Place) (count : ℕ) : Place := ⟨p.line, p.col + count⟩

/-- The loop over the characters of a block comment, up to the two that close it. -/
def blockLoop : Place → Text → Place × Text
  | p, [] => (p, [])
  | p, '*' :: '/' :: rest => (p, '*' :: '/' :: rest)
  | p, c :: rest => blockLoop (pass p c) rest

/-- The loop over the characters of a number, with the flag for a dot that was passed. -/
def numberLoop : Bool → Text → Text × Bool
  | sawDot, [] => ([], sawDot)
  | sawDot, current :: rest =>
    if current.isDigit then
      let (lexeme, dot) := numberLoop sawDot rest
      (current :: lexeme, dot)
    else if !sawDot && current = '.' && rest.head?.any Char.isDigit then
      let (lexeme, dot) := numberLoop true rest
      (current :: lexeme, dot)
    else ([], sawDot)

/-! ### The lexer -/

/-- What the lexer reads at a character, its token, and the place behind it. -/
def lexStep (p : Place) (ch : Char) (rest : Text) : Option Token × Place × Text :=
  if ch = '\n' then
    (some (makeToken .NEWLINE ['\n'] p (right p 1)), ⟨p.line + 1, 1⟩, rest)
  else if isSpace ch then (none, right p 1, rest)
  else if ch = '/' ∧ rest.head? = some '/' then
    let comment := (ch :: rest).takeWhile (· ≠ '\n')
    (none, right p comment.length, (ch :: rest).dropWhile (· ≠ '\n'))
  else if ch = '/' ∧ rest.head? = some '*' then
    let (p', rest') := blockLoop (right p 2) rest.tail
    if rest' = [] then
      (some (makeToken .UNKNOWN "unterminated block comment".toList p p'), p', rest')
    else (none, right p' 2, rest'.drop 2)
  else if isIdentStart ch then
    let lexeme := (ch :: rest).takeWhile isIdentChar
    let p' := right p lexeme.length
    (some (makeToken (keywordKind (String.ofList lexeme)) lexeme p p'), p',
      (ch :: rest).dropWhile isIdentChar)
  else if ch.isDigit then
    let (lexeme, sawDot) := numberLoop false (ch :: rest)
    let p' := right p lexeme.length
    (some (makeToken (if sawDot then .FLT_LITERAL else .INT_LITERAL) lexeme p p'), p',
      (ch :: rest).drop lexeme.length)
  else if ch = quote ∨ ch = backtick then
    let lexeme := rest.takeWhile (· ≠ ch)
    let p' := lexeme.foldl pass (right p 1)
    let rest' := rest.dropWhile (· ≠ ch)
    let p' := if rest' = [] then p' else right p' 1
    (some (makeToken .STRING_LITERAL lexeme p p'), p', rest'.drop 1)
  else
    match twoCharKind (ch :: rest.take 1) with
    | some kind =>
      (some (makeToken kind (ch :: rest.take 1) p (right p 2)), right p 2, rest.drop 1)
    | none => (some (makeToken (oneCharKind ch) [ch] p (right p 1)), right p 1, rest)

theorem casterStep_sign {c : Char} {rest : Text} (hspace : isSpace c = false)
    (hquote : c ≠ quote ∧ c ≠ backtick) (hchar : isIdentChar c = false)
    (hcomment : ¬(c = '/' ∧ (rest.head? = some '/' ∨ rest.head? = some '*'))) (p : Place) :
  lexStep p c rest =
    match twoCharKind (c :: rest.take 1) with
    | some kind =>
      (some (makeToken kind (c :: rest.take 1) p (right p 2)), right p 2, rest.drop 1)
    | none => (some (makeToken (oneCharKind c) [c] p (right p 1)), right p 1, rest)
  := by
  obtain ⟨-, -, hline, -⟩ := not_isLineEnd_of_not_isSpace hspace
  obtain ⟨hdigit, hident⟩ := not_digit_of_not_identChar hchar
  unfold lexStep
  rw [if_neg hline, if_neg (by simp [hspace]), if_neg (by tauto), if_neg (by tauto),
    if_neg (by simp [hident]), if_neg (by simp [hdigit]), if_neg (by tauto)]

theorem casterStep_comment (p : Place) (rest : Text) :
  lexStep p '/' ('*' :: rest) =
    if (blockLoop (right p 2) rest).2 = [] then
      (some (makeToken .UNKNOWN "unterminated block comment".toList p (blockLoop (right p 2) rest).1),
        blockLoop (right p 2) rest)
    else (none, right (blockLoop (right p 2) rest).1 2, (blockLoop (right p 2) rest).2.drop 2)
  := rfl

theorem casterStep_ident {c : Char} (hc : isIdentStart c = true) (p : Place) (rest : Text) :
  lexStep p c rest =
    (some (makeToken (keywordKind (String.ofList ((c :: rest).takeWhile isIdentChar)))
      ((c :: rest).takeWhile isIdentChar) p (right p ((c :: rest).takeWhile isIdentChar).length)),
      right p ((c :: rest).takeWhile isIdentChar).length, (c :: rest).dropWhile isIdentChar)
  := by
  obtain ⟨hspace, hslash, -, -⟩ := isIdentChar_char (isIdentChar_of_isIdentStart hc)
  obtain ⟨-, -, hline, -⟩ := not_isLineEnd_of_not_isSpace hspace
  unfold lexStep
  rw [if_neg hline, if_neg (by simp [hspace]), if_neg (by simp [hslash]), if_neg (by simp [hslash]),
    if_pos hc]

theorem blockLoop_suffix (p : Place) (text : Text) : (blockLoop p text).2 <:+ text := by
  fun_induction blockLoop p text with
  | case1 p => exact List.suffix_rfl
  | case2 p rest => exact List.suffix_rfl
  | case3 p c rest hclose ih => exact ih.trans (List.suffix_cons c rest)

theorem dropWhile_cons_suffix (q : Char → Bool) {c : Char} (hc : q c = true) (rest : Text) :
  (c :: rest).dropWhile q <:+ rest
  := by
  rw [List.dropWhile_cons_of_pos hc]
  exact List.dropWhile_suffix q

theorem numberLoop_digit {c : Char} (hc : c.isDigit = true) (sawDot : Bool) (rest : Text) :
  numberLoop sawDot (c :: rest) =
    (c :: (numberLoop sawDot rest).1, (numberLoop sawDot rest).2)
  := by
  rw [numberLoop, if_pos hc]

theorem lexStep_suffix (p : Place) (ch : Char) (rest : Text) : (lexStep p ch rest).2.2 <:+ rest := by
  unfold lexStep
  split_ifs with hline hspace hcomment hblock hident hdigit hquote
  · exact List.suffix_rfl
  · exact List.suffix_rfl
  · have hch : decide (ch ≠ '\n') = true := by simpa using hline
    exact dropWhile_cons_suffix (fun d => decide (d ≠ '\n')) hch rest
  · have hloop := (blockLoop_suffix (right p 2) rest.tail).trans (List.tail_suffix rest)
    dsimp only
    split_ifs
    · exact hloop
    · exact (List.drop_suffix 2 _).trans hloop
  · exact dropWhile_cons_suffix _ (isIdentChar_of_isIdentStart hident) rest
  · simp only [numberLoop_digit hdigit, List.length_cons, List.drop_succ_cons]
    exact List.drop_suffix _ rest
  · exact (List.drop_suffix 1 _).trans (List.dropWhile_suffix _)
  · split
    · exact List.drop_suffix 1 rest
    · exact List.suffix_rfl

theorem step_suffix {p p' : Place} {ch : Char} {rest rest' : Text} {tok : Option Token}
    (h : (Except.ok (lexStep p ch rest) : Except Empty _) = .ok (tok, p', rest')) :
  rest' <:+ rest
  := by
  have hstep := lexStep_suffix p ch rest
  rwa [Except.ok.inj h] at hstep

/-- The lexer as a scanner. -/
def lexer : Scanner Char Place Token Empty where
  step p ch rest := .ok (lexStep p ch rest)
  suffix := step_suffix

/-- The tokens from a place on. -/
def tokensFrom (p : Place) (text : Text) : List Token :=
  match lexer.scan p text with
  | .ok (pieces, last) => pieces.filterMap Piece.output ++ [makeToken .EOF [] last last]
  | .error e => e.elim

/-- The tokens of a text. -/
def lexSource (text : Text) : List Token := tokensFrom ⟨1, 1⟩ text

end Caster.SelfHosting
