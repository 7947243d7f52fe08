import Caster.Driver.Scan
import Caster.Library.Scanner
import Caster.Library.TextPlaces
import Caster.Parse.Node

/-!
# The lexer

The lexer turns the text of a program into tokens with their lines and columns.  A text is
a C string, so it has no zero among its characters, which stand for bytes.
-/

namespace Caster.Lex

open Driver TextPlaces
open Parse (Token TokenKind ParseError)

/-- The characters the lexer has read, the last one first, and its line and column. -/
structure LexState where
  before : Text
  line : ℕ
  col : ℕ
deriving DecidableEq, Repr

/-- Characters of a line are read. -/
def LexState.chars (text : Text) (s : LexState) : LexState :=
  ⟨text.reverse ++ s.before, s.line, s.col + text.length⟩

/-- The end of a line is read. -/
def LexState.lineEnd (text : Text) (s : LexState) : LexState :=
  ⟨text.reverse ++ s.before, s.line + 1, 1⟩

/-- A token that starts at the place of the lexer. -/
def LexState.token (s : LexState) (kind : TokenKind) (text : Text) : Token :=
  ⟨kind, String.ofList text, s.line, s.col⟩

/-- A message about the place of the lexer. -/
def LexState.dieAt (s : LexState) (message : String) : ParseError := ⟨s.line, s.col, message⟩

/-! ### Words and signs -/

/-- The words that are no names. -/
def keywords : List (String × TokenKind) :=
  [("TYPE", .TYPE), ("MAP", .MAP), ("FN", .FN), ("REF", .REF), ("TSK", .TSK), ("INIT", .INIT),
    ("INT", .INT), ("FLT", .FLT), ("BOL", .BOL), ("STR", .STR), ("NUL", .NUL_TYPE), ("ARR", .ARR),
    ("ret", .RET), ("if", .IF), ("elx", .ELX), ("else", .ELSE), ("loop", .LOOP), ("pass", .PASS),
    ("throw", .THROW), ("FREE", .FREE), ("hold", .HOLD), ("as", .AS), ("IS", .IS),
    ("true", .BOL_LITERAL), ("false", .BOL_LITERAL)]

/-- The kind of a word. -/
def keywordKind (s : String) : TokenKind := (keywords.lookup s).getD .NAME

/-- The kind of a sign of two characters. -/
def twoCharKind : Char → Char → Option TokenKind
  | '-', '>' => some .ARROW
  | '+', '+' => some .PLUSPLUS
  | '+', '=' => some .PLUSEQ
  | '-', '=' => some .MINUSEQ
  | '=', '=' => some .EQEQ
  | '!', '=' => some .NEQ
  | '<', '=' => some .LTE
  | '>', '=' => some .GTE
  | '&', '&' => some .ANDAND
  | '|', '|' => some .OROR
  | _, _ => none

/-- The kind of a sign of one character. -/
def oneCharKind : Char → Option TokenKind
  | '(' => some .LPAREN
  | ')' => some .RPAREN
  | '[' => some .LBRACKET
  | ']' => some .RBRACKET
  | '{' => some .LBRACE
  | '}' => some .RBRACE
  | ':' => some .COLON
  | '=' => some .EQUAL
  | '+' => some .PLUS
  | '-' => some .MINUS
  | '*' => some .STAR
  | '/' => some .SLASH
  | '%' => some .PERCENT
  | '!' => some .BANG
  | '<' => some .LT
  | '>' => some .GT
  | '|' => some .PIPE
  | ',' => some .COMMA
  | '.' => some .DOT
  | _ => none

/-- The sign a text starts with, and what is left. -/
def lexSign (c : Char) (rest : Text) : Option (TokenKind × Text × Text) :=
  match rest with
  | [] => (oneCharKind c).map fun kind => (kind, [c], rest)
  | d :: rest' =>
    match twoCharKind c d with
    | some kind => some (kind, [c, d], rest')
    | none => (oneCharKind c).map fun kind => (kind, [c], rest)

/-! ### Ends of lines, comments and strings -/

/-- The end of a line, and what is left. -/
def splitLineEnd (c : Char) (rest : Text) : Text × Text :=
  if c = '\r' ∧ rest.head? = some '\n' then (['\r', '\n'], rest.tail) else ([c], rest)

/-- A character of a comment behind `//`. -/
def inLine (c : Char) : Bool := !isLineEnd c

/-- The rest of a block comment is read. -/
def blockComment : Text → LexState → Option (LexState × Text)
  | [], _ => none
  | '*' :: '/' :: rest, s => some (s.chars ['*', '/'], rest)
  | '\r' :: '\n' :: rest, s => blockComment rest (s.lineEnd ['\r', '\n'])
  | c :: rest, s =>
    if isLineEnd c then blockComment rest (s.lineEnd [c]) else blockComment rest (s.chars [c])

/-- The character an escape stands for. -/
def unescape (e : Char) : Option Char :=
  if e = quote then some quote
  else if e = '\\' then some '\\'
  else if e = 'n' then some '\n'
  else if e = 't' then some '\t'
  else none

/-- The rest of a string that started in a state is read. -/
def lexString (start : LexState) : Text → LexState → Except ParseError (Text × LexState × Text)
  | [], _ => .error (start.dieAt "unterminated string literal")
  | ['\\'], s => .error (s.dieAt "unterminated string escape")
  | '\\' :: e :: rest, s =>
    match unescape e with
    | none => .error (s.dieAt ("unsupported string escape \\" ++ e.toString))
    | some out =>
      (lexString start rest (s.chars ['\\', e])).map fun (text, s', rest') =>
        (out :: text, s', rest')
  | c :: rest, s =>
    if c = quote then .ok ([], s.chars [c], rest)
    else if isLineEnd c then .error (start.dieAt "unterminated string literal")
    else
      (lexString start rest (s.chars [c])).map fun (text, s', rest') => (c :: text, s', rest')

/-- The rest of a raw string is read. -/
def lexRaw : Text → LexState → Option (Text × LexState × Text)
  | [], _ => none
  | '\r' :: '\n' :: rest, s =>
    (lexRaw rest (s.lineEnd ['\r', '\n'])).map fun (text, s', rest') => ('\n' :: text, s', rest')
  | c :: rest, s =>
    if c = backtick then some ([], s.chars [c], rest)
    else if isLineEnd c then
      (lexRaw rest (s.lineEnd [c])).map fun (text, s', rest') => ('\n' :: text, s', rest')
    else (lexRaw rest (s.chars [c])).map fun (text, s', rest') => (c :: text, s', rest')

/-! ### Numbers -/

/-- The fraction a text starts with. -/
def fraction : Text → Text
  | '.' :: d :: rest => if d.isDigit then '.' :: (d :: rest).takeWhile Char.isDigit else []
  | _ => []

/-- The mark of an exponent and its sign. -/
def exponentMark : Text → Text
  | [] => []
  | e :: rest =>
    if e = 'e' ∨ e = 'E' then e :: (rest.take 1).takeWhile fun c => c = '+' || c = '-' else []

/-- A number is read. -/
def lexNumber (s : LexState) (text : Text) :
    Except ParseError (TokenKind × Text × LexState × Text) :=
  let digits := text.takeWhile Char.isDigit
  let text := text.dropWhile Char.isDigit
  let frac := fraction text
  let text := text.drop frac.length
  let mark := exponentMark text
  let s' := ((s.chars digits).chars frac).chars mark
  let text := text.drop mark.length
  if mark = [] then
    .ok (if frac = [] then .INT_LITERAL else .FLT_LITERAL, digits ++ frac, s', text)
  else
    let expo := text.takeWhile Char.isDigit
    if expo = [] then .error (s'.dieAt "expected exponent digits")
    else
      .ok (.FLT_LITERAL, digits ++ frac ++ mark ++ expo, s'.chars expo, text.dropWhile Char.isDigit)

/-! ### The lexer -/

/-- A name is only the separator of a shape. -/
def isShapeMark (before : Text) (c : Char) (rest : Text) : Bool :=
  c = 'x' && before.head?.any Char.isDigit && rest.head?.any fun d => isIdentChar d || d = '('

/-- What the lexer reads at a character, and its token. -/
def lexStep (s : LexState) (c : Char) (rest : Text) :
    Except ParseError (Option Token × LexState × Text) :=
  if c = ' ' ∨ c = '\t' then .ok (none, s.chars [c], rest)
  else if isLineEnd c then
    let (text, rest') := splitLineEnd c rest
    .ok (some (s.token .NEWLINE ['\n']), s.lineEnd text, rest')
  else if c = '/' ∧ rest.head? = some '/' then
    let comment := rest.tail.takeWhile inLine
    .ok (none, (s.chars ['/', '/']).chars comment, rest.tail.dropWhile inLine)
  else if c = '/' ∧ rest.head? = some '*' then
    match blockComment rest.tail (s.chars ['/', '*']) with
    | none => .error (s.dieAt "unterminated block comment")
    | some (s', rest') => .ok (none, s', rest')
  else if c = quote then
    match lexString s rest (s.chars [c]) with
    | .error message => .error message
    | .ok (text, s', rest') => .ok (some (s.token .STRING_LITERAL text), s', rest')
  else if c = backtick then
    match lexRaw rest (s.chars [c]) with
    | none => .error (s.dieAt "unterminated raw string literal")
    | some (text, s', rest') => .ok (some (s.token .STRING_LITERAL text), s', rest')
  else if c.isDigit then
    match lexNumber s (c :: rest) with
    | .error message => .error message
    | .ok (kind, text, s', rest') => .ok (some (s.token kind text), s', rest')
  else if isIdentStart c then
    if isShapeMark s.before c rest then .ok (some (s.token .NAME [c]), s.chars [c], rest)
    else
      let word := (c :: rest).takeWhile isIdentChar
      .ok (some (s.token (keywordKind (String.ofList word)) word), s.chars word,
        (c :: rest).dropWhile isIdentChar)
  else
    match lexSign c rest with
    | none => .error (s.dieAt ("unexpected character '" ++ c.toString ++ "'"))
    | some (kind, text, rest') => .ok (some (s.token kind text), s.chars text, rest')

/-! ### Steps by their first character -/

theorem not_digit_of_not_identChar {c : Char} (h : isIdentChar c = false) :
  c.isDigit = false ∧ isIdentStart c = false
  := by
  simp only [isIdentChar, Char.isAlphanum, Bool.or_eq_false_iff] at h
  simp [isIdentStart, h.1.1, h.1.2, of_decide_eq_false h.2]

theorem not_isLineEnd_of_not_isSpace {c : Char} (h : isSpace c = false) :
  c ≠ ' ' ∧ c ≠ '\t' ∧ c ≠ '\n' ∧ isLineEnd c = false
  := by
  have hc : c ≠ ' ' ∧ c ≠ '\t' ∧ c ≠ '\n' ∧ c ≠ '\r' := by
    refine ⟨?_, ?_, ?_, ?_⟩ <;> rintro rfl <;> cases h
  simp [isLineEnd, hc]

theorem isIdentChar_char {c : Char} (h : isIdentChar c = true) :
  isSpace c = false ∧ c ≠ '/' ∧ c ≠ quote ∧ c ≠ backtick
  := by
  have hspace : isSpace c = false := by
    rw [Bool.eq_false_iff]
    intro hs
    have hmem : c ∈ [' ', '\t', '\n', '\r', Char.ofNat 11, Char.ofNat 12] := of_decide_eq_true hs
    simp only [List.mem_cons, List.not_mem_nil, or_false] at hmem
    rcases hmem with rfl | rfl | rfl | rfl | rfl | rfl <;> revert h <;> decide
  refine ⟨hspace, ?_, ?_, ?_⟩ <;> rintro rfl <;> revert h <;> decide

theorem isDigit_identChar {c : Char} (h : c.isDigit = true) :
  isIdentChar c = true ∧ isIdentStart c = false
  := by
  have halpha : c.isAlpha = false := by
    rw [Bool.eq_false_iff]
    intro halpha
    have hstart := isDigit_of_isIdentStart (show isIdentStart c = true by simp [isIdentStart, halpha])
    rw [h] at hstart
    cases hstart
  have hunderscore : c ≠ '_' := by
    rintro rfl
    cases h
  simp [isIdentChar, Char.isAlphanum, h, isIdentStart, halpha, hunderscore]

/-- A sign is none of the characters other pieces start with. -/
theorem lexSign_char {c : Char} {rest out rest' : Text} {kind : TokenKind}
    (h : lexSign c rest = some (kind, out, rest')) :
  isSpace c = false ∧ c ≠ quote ∧ c ≠ backtick ∧ isIdentChar c = false
  := by
  have hone : ∀ {c kind}, oneCharKind c = some kind →
      isSpace c = false ∧ c ≠ quote ∧ c ≠ backtick ∧ isIdentChar c = false := by
    intro c kind hkind
    unfold oneCharKind at hkind
    split at hkind <;> first | decide | cases hkind
  have htwo : ∀ {c d kind}, twoCharKind c d = some kind →
      isSpace c = false ∧ c ≠ quote ∧ c ≠ backtick ∧ isIdentChar c = false := by
    intro c d kind hkind
    unfold twoCharKind at hkind
    split at hkind <;> first | decide | cases hkind
  unfold lexSign at h
  split at h
  · obtain ⟨kind', hkind, -⟩ := Option.map_eq_some_iff.mp h
    exact hone hkind
  · split at h
    · rename_i hkind
      exact htwo hkind
    · obtain ⟨kind', hkind, -⟩ := Option.map_eq_some_iff.mp h
      exact hone hkind

/-- A character that starts none of the other pieces is read as a sign. -/
theorem lexStep_sign {c : Char} {rest : Text} (hspace : isSpace c = false)
    (hquote : c ≠ quote ∧ c ≠ backtick) (hchar : isIdentChar c = false)
    (hcomment : ¬(c = '/' ∧ (rest.head? = some '/' ∨ rest.head? = some '*'))) (s : LexState) :
  lexStep s c rest =
    match lexSign c rest with
    | none => .error (s.dieAt ("unexpected character '" ++ c.toString ++ "'"))
    | some (kind, text, rest') => .ok (some (s.token kind text), s.chars text, rest')
  := by
  obtain ⟨hblank, htab, -, hend⟩ := not_isLineEnd_of_not_isSpace hspace
  obtain ⟨hdigit, hident⟩ := not_digit_of_not_identChar hchar
  unfold lexStep
  rw [if_neg (by simp [hblank, htab]), if_neg (by simp [hend]), if_neg (by tauto),
    if_neg (by tauto), if_neg hquote.1, if_neg hquote.2, if_neg (by simp [hdigit]),
    if_neg (by simp [hident])]

theorem lexStep_quote (s : LexState) (rest : Text) :
  lexStep s quote rest =
    match lexString s rest (s.chars [quote]) with
    | .error message => .error message
    | .ok (text, s', rest') => .ok (some (s.token .STRING_LITERAL text), s', rest')
  := rfl

theorem lexStep_backtick (s : LexState) (rest : Text) :
  lexStep s backtick rest =
    match lexRaw rest (s.chars [backtick]) with
    | none => .error (s.dieAt "unterminated raw string literal")
    | some (text, s', rest') => .ok (some (s.token .STRING_LITERAL text), s', rest')
  := rfl

theorem lexStep_comment (s : LexState) (rest : Text) :
  lexStep s '/' ('*' :: rest) =
    match blockComment rest (s.chars ['/', '*']) with
    | none => .error (s.dieAt "unterminated block comment")
    | some (s', rest') => .ok (none, s', rest')
  := rfl

theorem lexStep_digit {c : Char} (hc : c.isDigit = true) (s : LexState) (rest : Text) :
  lexStep s c rest =
    match lexNumber s (c :: rest) with
    | .error message => .error message
    | .ok (kind, text, s', rest') => .ok (some (s.token kind text), s', rest')
  := by
  obtain ⟨hspace, hslash, hquote, hraw⟩ := isIdentChar_char (isDigit_identChar hc).1
  obtain ⟨hblank, htab, -, hend⟩ := not_isLineEnd_of_not_isSpace hspace
  unfold lexStep
  rw [if_neg (by simp [hblank, htab]), if_neg (by simp [hend]), if_neg (by simp [hslash]),
    if_neg (by simp [hslash]), if_neg hquote, if_neg hraw, if_pos hc]

theorem lexStep_ident {c : Char} (hc : isIdentStart c = true) (s : LexState) (rest : Text) :
  lexStep s c rest =
    if isShapeMark s.before c rest then .ok (some (s.token .NAME [c]), s.chars [c], rest)
    else
      .ok (some (s.token (keywordKind (String.ofList ((c :: rest).takeWhile isIdentChar)))
        ((c :: rest).takeWhile isIdentChar)), s.chars ((c :: rest).takeWhile isIdentChar),
        (c :: rest).dropWhile isIdentChar)
  := by
  obtain ⟨hspace, hslash, hquote, hraw⟩ := isIdentChar_char (isIdentChar_of_isIdentStart hc)
  obtain ⟨hblank, htab, -, hend⟩ := not_isLineEnd_of_not_isSpace hspace
  have hdigit : c.isDigit = false := by
    by_contra hdigit
    simp [(isDigit_identChar (by simpa using hdigit)).2] at hc
  unfold lexStep
  rw [if_neg (by simp [hblank, htab]), if_neg (by simp [hend]), if_neg (by simp [hslash]),
    if_neg (by simp [hslash]), if_neg hquote, if_neg hraw, if_neg (by simp [hdigit]), if_pos hc]

/-! ### What a step reads

Each reader moves by characters of a line or by the end of one.
-/

/-- One move over a text. -/
inductive Move : LexState × Text → LexState × Text → Prop
  | char {s : LexState} {c : Char} {text : Text} (hplain : isLineEnd c = false) :
    Move (s, c :: text) (s.chars [c], text)
  | lineEnd {s : LexState} {p text : Text} (hend : IsLineEnd p) (hwhole : Between p text) :
    Move (s, p ++ text) (s.lineEnd p, text)

/-- Some moves over a text. -/
abbrev Moves : LexState × Text → LexState × Text → Prop := Relation.ReflTransGen Move

/-- Some moves over a text, and at least one. -/
abbrev Advances : LexState × Text → LexState × Text → Prop := Relation.TransGen Move

theorem LexState.chars_cons (s : LexState) (c : Char) (p : Text) :
  s.chars (c :: p) = (s.chars [c]).chars p
  := by
  simp only [chars, List.reverse_cons, List.reverse_nil, List.append_assoc, List.length_cons,
    List.length_nil, List.nil_append, List.singleton_append, LexState.mk.injEq, true_and]
  omega

theorem moves_chars {p : Text} (hplain : ∀ c ∈ p, isLineEnd c = false) (s : LexState) (text : Text) :
  Moves (s, p ++ text) (s.chars p, text)
  := by
  induction p generalizing s with
  | nil => exact Relation.ReflTransGen.refl
  | cons c p ih =>
    rw [List.cons_append, LexState.chars_cons]
    apply Relation.ReflTransGen.head (Move.char (hplain c (by simp)))
    exact ih (fun d hd => hplain d (by simp [hd])) _

theorem advances_chars {p : Text} (hne : p ≠ []) (hplain : ∀ c ∈ p, isLineEnd c = false)
    (s : LexState) (text : Text) :
  Advances (s, p ++ text) (s.chars p, text)
  := by
  cases p with
  | nil => contradiction
  | cons c p =>
    rw [List.cons_append, LexState.chars_cons]
    apply Relation.TransGen.head' (Move.char (hplain c (by simp)))
    exact moves_chars (fun d hd => hplain d (by simp [hd])) _ _

theorem moves_takeWhile {q : Char → Bool} (hq : ∀ c, q c = true → isLineEnd c = false)
    (s : LexState) (text : Text) :
  Moves (s, text) (s.chars (text.takeWhile q), text.dropWhile q)
  := by
  have hplain : ∀ c ∈ text.takeWhile q, isLineEnd c = false :=
    fun c hc => hq c (List.mem_takeWhile_imp hc)
  have h := moves_chars hplain s (text.dropWhile q)
  rwa [List.takeWhile_append_dropWhile] at h

theorem drop_takeWhile (q : Char → Bool) (text : Text) :
  text.drop (text.takeWhile q).length = text.dropWhile q
  := by
  have hdrop := List.prefix_iff_eq_append.mp (List.takeWhile_prefix (l := text) q)
  exact List.append_cancel_left (hdrop.trans List.takeWhile_append_dropWhile.symm)

theorem moves_front {p text : Text} (hp : p <+: text) (hplain : ∀ c ∈ p, isLineEnd c = false)
    (s : LexState) :
  Moves (s, text) (s.chars p, text.drop p.length)
  := by
  obtain ⟨rest, rfl⟩ := hp
  rw [List.drop_left]
  exact moves_chars hplain s rest

theorem isIdentChar_plain (c : Char) (h : isIdentChar c = true) : isLineEnd c = false := by
  simp only [isLineEnd, Bool.or_eq_false_iff, decide_eq_false_iff_not]
  constructor <;> rintro rfl <;> simp [isIdentChar] at h

theorem isDigit_plain (c : Char) (h : c.isDigit = true) : isLineEnd c = false := by
  apply isIdentChar_plain
  simp [isIdentChar, Char.isAlphanum, h]

theorem inLine_plain (c : Char) (h : inLine c = true) : isLineEnd c = false := by
  simpa [inLine] using h

theorem move_lineEndChar {c : Char} {text : Text} (hend : isLineEnd c = true)
    (hnext : c = '\r' → text.head? ≠ some '\n') (s : LexState) :
  Move (s, c :: text) (s.lineEnd [c], text)
  := by
  apply Move.lineEnd (isLineEnd_singleton hend)
  simpa [Between] using hnext

theorem move_lineEndPair (s : LexState) (text : Text) :
  Move (s, '\r' :: '\n' :: text) (s.lineEnd ['\r', '\n'], text)
  := by
  have hend : IsLineEnd ['\r', '\n'] := by simp [IsLineEnd]
  have hwhole : Between ['\r', '\n'] text := by simp [Between]
  exact Move.lineEnd hend hwhole

theorem move_splitLineEnd {c : Char} (hend : isLineEnd c = true) (s : LexState) (rest : Text) :
  Move (s, c :: rest) (s.lineEnd (splitLineEnd c rest).1, (splitLineEnd c rest).2)
  := by
  unfold splitLineEnd
  split_ifs with hpair
  · obtain ⟨rfl, hhead⟩ := hpair
    obtain ⟨text, rfl⟩ := List.head?_eq_some_iff.mp hhead
    apply move_lineEndPair
  · apply move_lineEndChar hend
    exact fun hc hhead => hpair ⟨hc, hhead⟩

theorem blockComment_moves {text : Text} {s s' : LexState} {rest : Text}
    (h : blockComment text s = some (s', rest)) :
  Moves (s, text) (s', rest)
  := by
  induction text, s using blockComment.induct with
  | case1 s => cases h
  | case2 text s =>
    cases h
    exact moves_chars (p := ['*', '/']) (by simp [isLineEnd]) s rest
  | case3 text s ih => exact .head (move_lineEndPair s text) (ih h)
  | case4 c text s hclose hpair hend ih =>
    rw [blockComment.eq_4 _ _ _ hclose hpair, if_pos hend] at h
    refine .head (move_lineEndChar hend ?_ s) (ih h)
    rintro hc hhead
    obtain ⟨text', rfl⟩ := List.head?_eq_some_iff.mp hhead
    exact hpair text' hc rfl
  | case5 c text s hclose hpair hend ih =>
    rw [blockComment.eq_4 _ _ _ hclose hpair, if_neg hend] at h
    exact .head (Move.char (by simpa using hend)) (ih h)

theorem except_map_eq_ok {ε α β : Type} {f : α → β} {x : Except ε α} {b : β}
    (h : x.map f = .ok b) :
  ∃ a, x = .ok a ∧ f a = b
  := by
  cases x with
  | error e => cases h
  | ok a => exact ⟨a, rfl, Except.ok.inj h⟩

theorem unescape_plain {e out : Char} (h : unescape e = some out) : isLineEnd e = false := by
  simp only [isLineEnd, Bool.or_eq_false_iff, decide_eq_false_iff_not]
  constructor <;> rintro rfl <;> simp [unescape, quote] at h

theorem lexString_moves {start s s' : LexState} {text out rest : Text}
    (h : lexString start text s = .ok (out, s', rest)) :
  Moves (s, text) (s', rest)
  := by
  induction text, s using lexString.induct generalizing out with
  | case1 s => cases h
  | case2 s => cases h
  | case3 e text s hescape =>
    rw [lexString, hescape] at h
    cases h
  | case4 e text s o hescape ih =>
    rw [lexString, hescape] at h
    obtain ⟨⟨out', s₁, rest₁⟩, hrest, heq⟩ := except_map_eq_ok h
    cases heq
    have hplain : ∀ c ∈ ['\\', e], isLineEnd c = false := by
      simpa [isLineEnd] using unescape_plain hescape
    exact (moves_chars hplain s text).trans (ih hrest)
  | case5 text s hlast hescape =>
    rw [lexString.eq_4 _ _ _ _ hlast hescape, if_pos rfl] at h
    cases h
    exact .single (Move.char (by decide))
  | case6 c text s hlast hescape hquote hend =>
    rw [lexString.eq_4 _ _ _ _ hlast hescape, if_neg hquote, if_pos hend] at h
    cases h
  | case7 c text s hlast hescape hquote hend ih =>
    rw [lexString.eq_4 _ _ _ _ hlast hescape, if_neg hquote, if_neg hend] at h
    obtain ⟨⟨out', s₁, rest₁⟩, hrest, heq⟩ := except_map_eq_ok h
    cases heq
    exact .head (Move.char (by simpa using hend)) (ih hrest)

theorem lexRaw_moves {s s' : LexState} {text out rest : Text}
    (h : lexRaw text s = some (out, s', rest)) :
  Moves (s, text) (s', rest)
  := by
  induction text, s using lexRaw.induct generalizing out with
  | case1 s => cases h
  | case2 text s ih =>
    obtain ⟨⟨out', s₁, rest₁⟩, hrest, heq⟩ := Option.map_eq_some_iff.mp h
    cases heq
    exact .head (move_lineEndPair s text) (ih hrest)
  | case3 text s hpair =>
    rw [lexRaw.eq_3 _ _ _ hpair, if_pos rfl] at h
    cases h
    exact .single (Move.char (by decide))
  | case4 c text s hpair hmark hend ih =>
    rw [lexRaw.eq_3 _ _ _ hpair, if_neg hmark, if_pos hend] at h
    obtain ⟨⟨out', s₁, rest₁⟩, hrest, heq⟩ := Option.map_eq_some_iff.mp h
    cases heq
    refine .head (move_lineEndChar hend ?_ s) (ih hrest)
    rintro hc hhead
    obtain ⟨text', rfl⟩ := List.head?_eq_some_iff.mp hhead
    exact hpair text' hc rfl
  | case5 c text s hpair hmark hend ih =>
    rw [lexRaw.eq_3 _ _ _ hpair, if_neg hmark, if_neg hend] at h
    obtain ⟨⟨out', s₁, rest₁⟩, hrest, heq⟩ := Option.map_eq_some_iff.mp h
    cases heq
    exact .head (Move.char (by simpa using hend)) (ih hrest)

/-- Only a dot and a digit start a fraction. -/
theorem fraction_eq_nil {c : Char} {rest : Text} (h : ¬(c = '.' ∧ rest.head?.any Char.isDigit = true)) :
  fraction (c :: rest) = []
  := by
  unfold fraction
  grind

theorem fraction_front (text : Text) : fraction text <+: text := by
  unfold fraction
  split
  · split_ifs
    · rw [List.prefix_cons_inj]
      exact List.takeWhile_prefix _
    · exact List.nil_prefix
  · exact List.nil_prefix

theorem fraction_plain (text : Text) : ∀ c ∈ fraction text, isLineEnd c = false := by
  unfold fraction
  split
  · split_ifs
    · intro c hc
      rcases List.mem_cons.mp hc with rfl | hc
      · decide
      · exact isDigit_plain c (List.mem_takeWhile_imp hc)
    · simp
  · simp

theorem exponentMark_front (text : Text) : exponentMark text <+: text := by
  unfold exponentMark
  split
  · exact List.nil_prefix
  · split_ifs
    · rw [List.prefix_cons_inj]
      exact (List.takeWhile_prefix _).trans (List.take_prefix 1 _)
    · exact List.nil_prefix

theorem exponentMark_plain (text : Text) : ∀ c ∈ exponentMark text, isLineEnd c = false := by
  unfold exponentMark
  split
  · simp
  · split_ifs with he
    · intro c hc
      rcases List.mem_cons.mp hc with rfl | hc
      · rcases he with rfl | rfl <;> decide
      · have hsign := List.mem_takeWhile_imp hc
        simp only [Bool.or_eq_true, decide_eq_true_eq] at hsign
        rcases hsign with rfl | rfl <;> decide
    · simp

theorem lexNumber_advances {s s' : LexState} {c : Char} {rest rest' out : Text} {kind : TokenKind}
    (hdigit : c.isDigit = true) (h : lexNumber s (c :: rest) = .ok (kind, out, s', rest')) :
  Advances (s, c :: rest) (s', rest')
  := by
  simp only [lexNumber] at h
  set text := (c :: rest).dropWhile Char.isDigit with htext
  have hdigits : Advances (s, c :: rest) (s.chars ((c :: rest).takeWhile Char.isDigit), text) := by
    have hne : (c :: rest).takeWhile Char.isDigit ≠ [] := by simp [hdigit]
    have := advances_chars hne (fun d hd => isDigit_plain d (List.mem_takeWhile_imp hd)) s text
    rwa [htext, List.takeWhile_append_dropWhile] at this
  have hfrac := fun s => moves_front (fraction_front text) (fraction_plain text) s
  set text₁ := text.drop (fraction text).length
  have hmark := fun s => moves_front (exponentMark_front text₁) (exponentMark_plain text₁) s
  set text₂ := text₁.drop (exponentMark text₁).length
  have hmoves := (hdigits.trans_left (hfrac _)).trans_left (hmark _)
  by_cases hplain : exponentMark text₁ = []
  · rw [if_pos hplain] at h
    simp only [Except.ok.injEq, Prod.mk.injEq] at h
    obtain ⟨-, -, rfl, rfl⟩ := h
    exact hmoves
  · rw [if_neg hplain] at h
    split_ifs at h
    simp only [Except.ok.injEq, Prod.mk.injEq] at h
    obtain ⟨-, -, rfl, rfl⟩ := h
    exact hmoves.trans_left (moves_takeWhile isDigit_plain _ _)

theorem oneCharKind_plain {c : Char} {kind : TokenKind} (h : oneCharKind c = some kind) :
  isLineEnd c = false
  := by
  simp only [isLineEnd, Bool.or_eq_false_iff, decide_eq_false_iff_not]
  constructor <;> rintro rfl <;> simp [oneCharKind] at h

theorem twoCharKind_plain {c d : Char} {kind : TokenKind} (h : twoCharKind c d = some kind) :
  isLineEnd c = false ∧ isLineEnd d = false
  := by
  unfold twoCharKind at h
  split at h <;> first | exact ⟨rfl, rfl⟩ | cases h

/-- What is read of a sign. -/
theorem lexSign_spec {c : Char} {rest out rest' : Text} {kind : TokenKind}
    (h : lexSign c rest = some (kind, out, rest')) :
  c :: rest = out ++ rest' ∧ out ≠ [] ∧ ∀ d ∈ out, isLineEnd d = false
  := by
  unfold lexSign at h
  split at h
  · obtain ⟨kind', hkind, heq⟩ := Option.map_eq_some_iff.mp h
    cases heq
    simp [oneCharKind_plain hkind]
  · rename_i d text
    split at h
    · rename_i kind' hkind
      cases h
      simp [twoCharKind_plain hkind]
    · obtain ⟨kind', hkind, heq⟩ := Option.map_eq_some_iff.mp h
      cases heq
      simp [oneCharKind_plain hkind]

theorem isIdentStart_plain {c : Char} (h : isIdentStart c = true) : isLineEnd c = false :=
  isIdentChar_plain c (isIdentChar_of_isIdentStart h)

/-- A step of the lexer reads something, in moves over characters and ends of lines. -/
theorem lexStep_advances {s s' : LexState} {c : Char} {rest rest' : Text} {tok : Option Token}
    (h : lexStep s c rest = .ok (tok, s', rest')) :
  Advances (s, c :: rest) (s', rest')
  := by
  unfold lexStep at h
  split_ifs at h with hblank hend hline hblock hquote hraw hdigit hident hmark
  · cases h
    refine .single (Move.char ?_)
    rcases hblank with rfl | rfl <;> rfl
  · cases h
    exact .single (move_splitLineEnd hend s rest)
  · obtain ⟨rfl, hhead⟩ := hline
    obtain ⟨text, rfl⟩ := List.head?_eq_some_iff.mp hhead
    cases h
    have hmarks := advances_chars (p := ['/', '/']) (by simp) (by simp [isLineEnd]) s text
    exact hmarks.trans_left (moves_takeWhile inLine_plain _ _)
  · obtain ⟨rfl, hhead⟩ := hblock
    obtain ⟨text, rfl⟩ := List.head?_eq_some_iff.mp hhead
    split at h
    · cases h
    · rename_i hcomment
      cases h
      have hmarks := advances_chars (p := ['/', '*']) (by simp) (by simp [isLineEnd]) s text
      exact hmarks.trans_left (blockComment_moves hcomment)
  · split at h
    · cases h
    · rename_i hstring
      cases h
      exact .head' (Move.char (by simpa using hend)) (lexString_moves hstring)
  · split at h
    · cases h
    · rename_i hstring
      cases h
      exact .head' (Move.char (by simpa using hend)) (lexRaw_moves hstring)
  · split at h
    · cases h
    · rename_i hnumber
      cases h
      exact lexNumber_advances hdigit hnumber
  · cases h
    exact .single (Move.char (by simpa using hend))
  · cases h
    have hne : (c :: rest).takeWhile isIdentChar ≠ [] := by
      simp [isIdentChar_of_isIdentStart hident]
    have hword := advances_chars hne (fun d hd => isIdentChar_plain d (List.mem_takeWhile_imp hd)) s
      ((c :: rest).dropWhile isIdentChar)
    rwa [List.takeWhile_append_dropWhile] at hword
  · split at h
    · cases h
    · rename_i hsign
      cases h
      obtain ⟨htext, hne, hplain⟩ := lexSign_spec hsign
      rw [htext]
      exact advances_chars hne hplain s _

theorem Move.text {a b : LexState × Text} (h : Move a b) :
  ∃ p, p ≠ [] ∧ a.2 = p ++ b.2 ∧ b.1.before = p.reverse ++ a.1.before
  := by
  cases h with
  | @char s c text hplain => exact ⟨[c], by simp, rfl, rfl⟩
  | @lineEnd s p text hend hwhole =>
    refine ⟨p, ?_, rfl, rfl⟩
    rcases hend with rfl | rfl | rfl <;> simp

/-- The characters that are left become the characters that are read. -/
theorem Advances.text {a b : LexState × Text} (h : Advances a b) :
  ∃ p, p ≠ [] ∧ a.2 = p ++ b.2 ∧ b.1.before = p.reverse ++ a.1.before
  := by
  induction h with
  | single hmove => exact hmove.text
  | tail _ hmove ih =>
    obtain ⟨p, hp, htext, hbefore⟩ := ih
    obtain ⟨q, -, htext', hbefore'⟩ := hmove.text
    refine ⟨p ++ q, by simp [hp], ?_, ?_⟩
    · rw [htext, htext', List.append_assoc]
    · rw [hbefore', hbefore, List.reverse_append, List.append_assoc]

theorem lexStep_suffix {s s' : LexState} {c : Char} {rest rest' : Text} {tok : Option Token}
    (h : lexStep s c rest = .ok (tok, s', rest')) :
  rest' <:+ rest
  := by
  obtain ⟨p, hp, htext, -⟩ := (lexStep_advances h).text
  cases p with
  | nil => contradiction
  | cons d p => exact ⟨p, (List.cons.inj htext).2.symm⟩

/-- The lexer. -/
def lexer : Scanner Char LexState Token ParseError where
  step := lexStep
  suffix := lexStep_suffix

/-- The state of the lexer before a text. -/
def LexState.start : LexState := ⟨[], 1, 1⟩

/-- The parts of a text the lexer reads one after the other, and its last state. -/
def lexPieces (src : Text) : Except ParseError (List (Piece Char Token) × LexState) :=
  lexer.scan LexState.start src

/-- The tokens of a text. -/
def lexSource (src : Text) : Except ParseError (List Token) :=
  (lexPieces src).map fun (pieces, last) =>
    pieces.filterMap Piece.output ++ [last.token .EOF []]

end Caster.Lex
