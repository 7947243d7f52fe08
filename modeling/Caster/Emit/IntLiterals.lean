import Caster.Lex.Lexemes
import Caster.Library.CArithmetic
import Caster.Library.JsonReader
import Caster.Parse.Precedence

/-!
# Integer literals

The number of a literal passes through three forms: the digits of a token, the number `strtoll`
reads, and the decimal constant of C that is printed for it.
-/

namespace Caster

open Parse TokenParser

/-! ### Literals in nodes -/

/-- The number of a literal. -/
def literalNumber (text : String) : ℕ := Nat.ofDigitChars 10 text.toList 0

/-- The text of a number in the format `%lld`. -/
def decimalText (value : ℤ) : List Char :=
  (if value < 0 then ['-'] else []) ++ Nat.toDigits 10 value.natAbs

/-- What `emit_expr` prints for a literal, with minus signs in front of it or not. -/
def emitLiteral (n : Node) : Option (List Char) :=
  match n.kind with
  | .INT => some (decimalText n.intValue)
  | .UNARY =>
    match _h : n.expr with
    | some operand =>
      if n.op = some "-" then
        (emitLiteral operand).map fun text => ['('] ++ ['-'] ++ text ++ [')']
      else none
    | none => none
  | _ => none
termination_by sizeOf n
decreasing_by
  cases n
  simp only at _h
  subst _h
  simp only [Node.mk.sizeOf_spec, Option.some.sizeOf_spec]
  omega

/-- The places of literals: at the start of an operand and behind a dot. -/
inductive LiteralPlace where
  | operand
  | index (dot : Token) (object : Node)

/-- The node that the parser makes of a literal in a place. -/
def LiteralPlace.read (self : Entry → P Node) : LiteralPlace → P (Option Node)
  | .operand => do
    let n ← parsePrefix self
    pure (some n)
  | .index dot object => do
    let d ← parseDot self dot object
    pure d.index

/-- A text is an expression of C with a value. -/
def HasValue (text : List Char) (value : ℤ) : Prop :=
  ∀ s, CLang.Denotes (fun _ => none) text s value

/-- Wherever a literal stands, what is printed for it has its number as value. -/
def LiteralExact (tok : Token) : Prop :=
  ∀ (self : Entry → P Node) (place : LiteralPlace) (tokens : List Token) (c c' : Cursor) (n : Node),
    tokens[c.pos]? = some tok → Returns tokens (place.read self) c (some n) c' →
      ∃ text, emitLiteral n = some text ∧ HasValue text (literalNumber tok.text)

/-- The decimal text of a number is compiled to an expression with this value. -/
def SpellingExact (value : ℤ) : Prop :=
  ∃ tokens n c text, Lex.lexSource (decimalText value) = .ok tokens ∧
    Returns tokens (parseExpression 0) ⟨0, false⟩ n c ∧
    (tokens[c.pos]?).map Token.kind = some .EOF ∧
    emitLiteral n = some text ∧ HasValue text value

/-! ### Constants -/

theorem isDigit_of_mem_toDigits {n : ℕ} {d : Char} (h : d ∈ Nat.toDigits 10 n) : d.isDigit = true :=
  Nat.isDigit_of_mem_toDigits (by decide) (by decide) h

theorem decimalText_natCast (n : ℕ) : decimalText n = Nat.toDigits 10 n := by
  simp [decimalText]

theorem decimalText_neg {n : ℕ} (hn : 0 < n) : decimalText (-n) = '-' :: Nat.toDigits 10 n := by
  simp [decimalText, hn]

/-- The constant that is printed for a number of 64 bits. -/
theorem constant_toDigits {n : ℕ} (hn : n < 2 ^ 63) :
  ∃ t, CLang.constant (Nat.toDigits 10 n) = some ((n : ℤ), t) ∧ t.promote.Holds (-n)
  := by
  have hall : (Nat.toDigits 10 n).all Char.isDigit = true :=
    List.all_eq_true.mpr fun d hd => isDigit_of_mem_toDigits hd
  have hvalue : CLang.digitsValue 10 (Nat.toDigits 10 n) = n := Nat.ofDigitChars_ten_toDigits
  rcases Nat.eq_zero_or_pos n with rfl | hpos
  · have hzero : Nat.toDigits 10 0 = ['0'] := by simp
    have hconstant : CLang.constant ['0'] = some (0, .int) := by decide
    rw [hzero]
    exact ⟨.int, hconstant, by decide⟩
  · have hhead := JsonReader.head?_toDigits hpos
    simp only [CLang.constant, hall, not_true_eq_false, if_false, hhead, hvalue]
    by_cases hint : CLang.IntTy.int.Holds n
    · refine ⟨.int, if_pos hint, ?_⟩
      obtain ⟨-, hhigh⟩ := hint
      constructor <;> omega
    · have hlong : CLang.IntTy.long.Holds n := by
        constructor <;> omega
      refine ⟨.long, ?_, ?_⟩
      · rw [if_neg hint, if_pos hlong]
      · constructor <;> omega

theorem hasValue_decimalText {n : ℕ} (hn : n < 2 ^ 63) : HasValue (decimalText n) n := by
  intro s
  obtain ⟨t, hconstant, -⟩ := constant_toDigits hn
  rw [decimalText_natCast]
  exact CLang.denotes_constant Nat.toDigits_ne_nil (fun d hd => isDigit_of_mem_toDigits hd) hconstant

theorem HasValue.unique {text : List Char} {value value' : ℤ} (h : HasValue text value)
    (h' : HasValue text value') :
  value = value'
  := (h fun _ => 0).unique (h' fun _ => 0)

/-! ### Tokens of literals -/

/-- The number `strtoll` reads is the one of the literal, or the largest one of 64 bits. -/
theorem strtoll_literal {text : String} (h : ∀ d ∈ text.toList, d.isDigit = true) :
  strtoll text = (min (literalNumber text) (2 ^ 63 - 1) : ℕ)
  := by
  rw [strtoll, List.takeWhile_eq_self_iff.mpr h, literalNumber]
  push_cast
  rfl

/-- The node that is made of a literal holds the number that `strtoll` reads. -/
theorem LiteralPlace.read_returns (self : Entry → P Node) (place : LiteralPlace) {tokens : List Token}
    {c : Cursor} {tok : Token} (htok : tokens[c.pos]? = some tok) (hkind : tok.kind = .INT_LITERAL) :
  Returns tokens (place.read self) c
    (some { nodeNew .INT tok with intValue := strtoll tok.text }) (next c)
  := by
  cases place with
  | operand => exact returns_bind (parsePrefix_int htok hkind) (returns_pure _)
  | index dot object =>
    have hprev : Returns tokens (prev : P Token) (next c) tok (next c) := by
      unfold Returns prev
      simp only [next, htok]
    refine returns_bind (a := { nodeNew .DOT dot with
      object := some object, index := some { nodeNew .INT tok with intValue := strtoll tok.text } })
      (returns_then (matchToken_returns_true htok hkind) ?_) (returns_pure _)
    exact returns_bind hprev (returns_pure _)

theorem emitLiteral_int {n : Node} (h : n.kind = .INT) : emitLiteral n = some (decimalText n.intValue) := by
  rw [emitLiteral, h]

/-- The constant of a literal has its number as value exactly when the number has 63 bits. -/
theorem literalExact_iff {tok : Token} (hkind : tok.kind = .INT_LITERAL)
    (hdigits : ∀ d ∈ tok.text.toList, d.isDigit = true) :
  LiteralExact tok ↔ literalNumber tok.text < 2 ^ 63
  := by
  have hemit : emitLiteral { nodeNew .INT tok with intValue := strtoll tok.text } =
      some (decimalText (min (literalNumber tok.text) (2 ^ 63 - 1) : ℕ)) := by
    rw [emitLiteral_int rfl, strtoll_literal hdigits]
  have hvalue := hasValue_decimalText (n := min (literalNumber tok.text) (2 ^ 63 - 1)) (by omega)
  constructor
  · intro h
    have hread := @LiteralPlace.read_returns (fun _ => starve) .operand [tok] ⟨0, false⟩ tok rfl hkind
    obtain ⟨text, htext, hexact⟩ := h _ .operand _ _ _ _ rfl hread
    rw [hemit, Option.some.injEq] at htext
    have heq := hvalue.unique (htext ▸ hexact)
    omega
  · intro hlt self place tokens c c' n htok hreturns
    have hread := place.read_returns self htok hkind
    unfold Returns at hread hreturns
    rw [hread] at hreturns
    cases hreturns
    refine ⟨_, hemit, ?_⟩
    rwa [min_eq_left (by omega)] at hvalue ⊢

/-! ### Numbers -/

theorem endsDigits_nil : Lex.EndsDigits [] := ⟨rfl, rfl, rfl⟩

/-- The tokens of the decimal text of a number. -/
theorem lexesTo_toDigits (s : Lex.LexState) (n : ℕ) :
  Lex.LexesTo s (Nat.toDigits 10 n) [⟨.INT_LITERAL, toString n⟩]
  := by
  have hne : Nat.toDigits 10 n ≠ [] := Nat.toDigits_ne_nil
  have h := Lex.LexesTo.integer hne (fun d hd => isDigit_of_mem_toDigits hd) endsDigits_nil
    (Lex.lexesTo_nil (s.chars (Nat.toDigits 10 n)))
  rwa [List.append_nil] at h

/-- The tokens of a tree at the end of a source are parsed to this tree. -/
theorem parse_whole {t : Tree} {tokens : List Token} (h : tokens.map Token.lexeme = t.print ++ [⟨.EOF, ""⟩]) :
  ∃ n, t.Matches n ∧ Returns tokens (parseExpression 0) ⟨0, false⟩ n ⟨t.print.length, false⟩ ∧
    (tokens[t.print.length]?).map Token.kind = some .EOF
  := by
  have hspells : Spells tokens 0 (t.print ++ [⟨.EOF, ""⟩]) := by
    have hall := @spells_append [] tokens [] _ h
    rwa [List.nil_append, List.append_nil] at hall
  obtain ⟨last, hlast, hlexeme⟩ := hspells.right.head
  have hkind : last.kind = .EOF := congrArg Lexeme.kind hlexeme
  have hpost : PostfixStops tokens (0 + t.print.length) := by
    apply postfixStops_of_token hlast
    simp [hkind]
  have hlength : t.print.length < tokens.length := by
    have hmap := congrArg List.length h
    simp only [List.length_map, List.length_append, List.length_cons, List.length_nil] at hmap
    omega
  have hstop (minPrec : ℕ) : Stops tokens (0 + t.print.length) minPrec :=
    stops_of_token minPrec hlast (by simp [hkind])
  obtain ⟨left, c', n, hmatches, hstart, hpasses⟩ :=
    @Tree.reached tokens t (2 * tokens.length + 1) 0 ⟨0, false⟩ rfl (Nat.zero_le _) (by omega)
      hspells.left (hstop _) fun _ => hpost
  have hparse := parseExpression_of_passes hstart hpasses (hstop 0)
  rw [Nat.zero_add] at hparse hlast
  refine ⟨n, hmatches, returns_parseExpression_iff.mpr hparse, ?_⟩
  rw [hlast, Option.map_some, hkind]

theorem matches_int {value : ℕ} {n : Node} (h : (Tree.int value).Matches n) :
  n.kind = .INT ∧ n.intValue = (min value (2 ^ 63 - 1) : ℕ)
  := by
  obtain ⟨line, col, rfl⟩ := h
  refine ⟨rfl, ?_⟩
  push_cast
  rfl

/-- What is printed for a number that is not negative. -/
theorem spelling_natCast (value : ℕ) :
  ∃ tokens n c, Lex.lexSource (decimalText value) = .ok tokens ∧
    Returns tokens (parseExpression 0) ⟨0, false⟩ n c ∧
    (tokens[c.pos]?).map Token.kind = some .EOF ∧
    emitLiteral n = some (decimalText (min value (2 ^ 63 - 1) : ℕ))
  := by
  obtain ⟨tokens, hlex, hlexemes⟩ := (lexesTo_toDigits .start value).lexSource
  obtain ⟨n, hmatches, hparse, heof⟩ := @parse_whole (.int value) tokens hlexemes
  obtain ⟨hkind, hvalue⟩ := matches_int hmatches
  rw [decimalText_natCast]
  exact ⟨tokens, n, _, hlex, hparse, heof, by rw [emitLiteral_int hkind, hvalue]⟩

/-- What is printed for a negative number. -/
theorem spelling_neg {value : ℕ} (hpos : 0 < value) :
  ∃ tokens n c, Lex.lexSource (decimalText (-value)) = .ok tokens ∧
    Returns tokens (parseExpression 0) ⟨0, false⟩ n c ∧
    (tokens[c.pos]?).map Token.kind = some .EOF ∧
    emitLiteral n =
      some (['('] ++ ['-'] ++ decimalText (min value (2 ^ 63 - 1) : ℕ) ++ [')'])
  := by
  have hhead : (Nat.toDigits 10 value).head?.any Char.isDigit = true := by
    obtain ⟨d, digits, hlist⟩ := List.exists_cons_of_ne_nil (Nat.toDigits_ne_nil (n := value) (b := 10))
    rw [hlist]
    exact isDigit_of_mem_toDigits (n := value) (by rw [hlist]; exact List.mem_cons_self)
  obtain ⟨tokens, hlex, hlexemes⟩ :=
    (Lex.LexesTo.minus hhead (lexesTo_toDigits (Lex.LexState.start.chars ['-']) value)).lexSource
  obtain ⟨n, hmatches, hparse, heof⟩ := @parse_whole (.unary .neg (.int value)) tokens hlexemes
  obtain ⟨line, col, operand, hoperand, rfl⟩ := hmatches
  obtain ⟨hkind, hvalue⟩ := matches_int hoperand
  rw [decimalText_neg hpos]
  refine ⟨tokens, _, _, hlex, hparse, heof, ?_⟩
  have hop : some PrefixOp.neg.lexeme.text = some "-" := rfl
  rw [emitLiteral]
  dsimp only
  rw [if_pos hop, emitLiteral_int hkind, hvalue]
  rfl

theorem hasValue_negated {n : ℕ} (hn : n < 2 ^ 63) :
  HasValue (['('] ++ ['-'] ++ decimalText n ++ [')']) (-n)
  := by
  intro s
  obtain ⟨t, hconstant, hholds⟩ := constant_toDigits hn
  rw [decimalText_natCast]
  exact CLang.denotes_negated Nat.toDigits_ne_nil (fun d hd => isDigit_of_mem_toDigits hd) hconstant hholds

theorem spellingExact_iff_of_printed {value value' : ℤ} {tokens : List Token} {n : Node} {c : Cursor}
    {text : List Char} (hlex : Lex.lexSource (decimalText value) = .ok tokens)
    (hparse : Returns tokens (parseExpression 0) ⟨0, false⟩ n c)
    (heof : (tokens[c.pos]?).map Token.kind = some .EOF) (hemit : emitLiteral n = some text)
    (hvalue : HasValue text value') :
  SpellingExact value ↔ value = value'
  := by
  constructor
  · rintro ⟨tokens', n', c', text', hlex', hparse', -, hemit', hvalue''⟩
    rw [hlex] at hlex'
    cases hlex'
    unfold Returns at hparse hparse'
    rw [hparse] at hparse'
    cases hparse'
    rw [hemit] at hemit'
    cases hemit'
    exact hvalue''.unique hvalue
  · rintro rfl
    exact ⟨tokens, n, c, text, hlex, hparse, heof, hemit, hvalue⟩

/-- A number of 64 bits is compiled to an expression with its value unless it is the least one, whose
digits denote no number of 63 bits. -/
theorem spellingExact_iff {value : ℤ} (h : CLang.IntTy.long.Holds value) :
  SpellingExact value ↔ value ≠ -2 ^ 63
  := by
  obtain ⟨hlow, hhigh⟩ := h
  rcases lt_or_ge value 0 with hneg | hnonneg
  · obtain ⟨m, rfl⟩ : ∃ m : ℕ, value = -m := ⟨value.natAbs, by omega⟩
    obtain ⟨tokens, n, c, hlex, hparse, heof, hemit⟩ := @spelling_neg m (by omega)
    rw [spellingExact_iff_of_printed hlex hparse heof hemit (hasValue_negated (by omega))]
    omega
  · obtain ⟨m, rfl⟩ := Int.eq_ofNat_of_zero_le hnonneg
    obtain ⟨tokens, n, c, hlex, hparse, heof, hemit⟩ := spelling_natCast m
    rw [spellingExact_iff_of_printed hlex hparse heof hemit (hasValue_decimalText (by omega))]
    omega

/-! ### Every literal -/

/-- An integer literal is printed as a constant with its number exactly when the number has 63 bits,
and a number of 64 bits is compiled to an expression with its value unless it is the least one. -/
theorem integerLiterals_exact_iff {s s' : Lex.LexState} {c : Char} {rest rest' : List Char}
    {tok : Token} {value : ℤ} (hstep : Lex.lexStep s c rest = .ok (some tok, s', rest'))
    (hkind : tok.kind = .INT_LITERAL) (hvalue : CLang.IntTy.long.Holds value) :
  (LiteralExact tok ↔ literalNumber tok.text < 2 ^ 63) ∧ (SpellingExact value ↔ value ≠ -2 ^ 63)
  := ⟨literalExact_iff hkind (Lex.lexStep_integer hstep hkind), spellingExact_iff hvalue⟩

/-- The literal `7` is printed as a constant with its number, and `-7` is compiled to an expression
with its value. -/
theorem integerLiterals_exact_seven :
  LiteralExact ⟨.INT_LITERAL, "7", 1, 1⟩ ∧ SpellingExact (-7)
  := by
  have hstep : Lex.lexStep .start '7' [] =
      .ok (some ⟨.INT_LITERAL, "7", 1, 1⟩, Lex.LexState.start.chars ['7'], []) := rfl
  obtain ⟨hliteral, hspelling⟩ := integerLiterals_exact_iff hstep rfl
    (show CLang.IntTy.long.Holds (-7) by decide)
  exact ⟨hliteral.mpr (by decide), hspelling.mpr (by decide)⟩

/-- The literal `9223372036854775808` is printed as the largest number of 64 bits. -/
theorem not_integerLiterals_exact :
  ¬ ((∀ (s s' : Lex.LexState) (c : Char) (rest rest' : List Char) (tok : Token),
      Lex.lexStep s c rest = .ok (some tok, s', rest') → tok.kind = .INT_LITERAL → LiteralExact tok) ∧
    ∀ value : ℤ, CLang.IntTy.long.Holds value → SpellingExact value)
  := by
  rintro ⟨h, -⟩
  let digits := ['2', '2', '3', '3', '7', '2', '0', '3', '6', '8', '5', '4', '7', '7', '5', '8', '0', '8']
  have hstep : Lex.lexStep .start '9' digits =
      .ok (some (Lex.LexState.start.token .INT_LITERAL ('9' :: digits)),
        Lex.LexState.start.chars ('9' :: digits), []) := rfl
  have hexact := h _ _ _ _ _ _ hstep rfl
  rw [literalExact_iff rfl (Lex.lexStep_integer hstep rfl)] at hexact
  revert hexact
  decide

end Caster
