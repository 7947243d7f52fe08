import Caster.Lex.Lexemes
import Caster.Parse.Precedence

/-!
# Chains of dots

A name with steps behind dots, each of which is a name or the numeral of an index.  The lexer reads
two numerals with a dot between them as one number.
-/

namespace Caster.Parse

open TokenParser Driver
open Caster.Lex (LexesTo EndsDigits LexState)

/-! ### Chains -/

/-- A step of a chain. -/
inductive Step where
  | name (word : Text)
  | numeral (digits : Text)
deriving DecidableEq

/-- The characters of a step. -/
def Step.text : Step → Text
  | name word => word
  | numeral digits => digits

/-- A step is a numeral. -/
def Step.isNumeral : Step → Bool
  | name _ => false
  | numeral _ => true

/-- A text is an identifier and no keyword. -/
def IsName (word : Text) : Prop :=
  (∀ c ∈ word.head?, isIdentStart c = true) ∧ (∀ c ∈ word, isIdentChar c = true) ∧ word ≠ [] ∧
    Lex.keywordKind (String.ofList word) = .NAME

/-- A text is a decimal numeral. -/
def IsNumeral (digits : Text) : Prop := digits ≠ [] ∧ ∀ d ∈ digits, d.isDigit = true

/-- A step is a name or a numeral as the text it has. -/
def Step.WellFormed : Step → Prop
  | name word => IsName word
  | numeral digits => IsNumeral digits

/-- The text of some steps and of the end of the line. -/
def stepsText (steps : List Step) : Text := steps.flatMap (fun step => '.' :: step.text) ++ ['\n']

/-- The text of a chain. -/
def chainText (x : Text) (steps : List Step) : Text := x ++ stepsText steps

/-- The value of a numeral. -/
def numeralValue (digits : Text) : ℤ := Nat.ofDigitChars 10 digits 0

/-- The node of a step behind an object, where the value of a numeral is given. -/
def Step.NodeOf (value : Text → ℤ) (object : Node) : Step → Node → Prop
  | name word, n => ∃ line col,
      n = { kind := .DOT, line, col, object := some object, name := some (String.ofList word) }
  | numeral digits, n => ∃ line col line' col',
      n = {
        kind := .DOT, line, col, object := some object
        index := some { kind := .INT, line := line', col := col', intValue := value digits } }

/-- The node of a chain, which is nested to the left. -/
def ChainFrom (value : Text → ℤ) : Node → List Step → Node → Prop
  | object, [], n => n = object
  | object, step :: steps, n => ∃ n', step.NodeOf value object n' ∧ ChainFrom value n' steps n

/-- A chain before the end of a line is lexed and parsed to its nodes, up to the end of the line. -/
def ParsesAsChain (x : Text) (steps : List Step) : Prop :=
  ∃ tokens n c, Lex.lexSource (chainText x steps) = .ok tokens ∧
    Returns tokens (parseExpression 0) ⟨0, false⟩ n c ∧
    (tokens[c.pos]?).map Token.kind = some .NEWLINE ∧
    ∃ line col, ChainFrom numeralValue { kind := .NAME, line, col, name := some (String.ofList x) } steps n

/-- No numeral follows a numeral. -/
def NumeralsApart (steps : List Step) : Prop :=
  steps.IsChain fun step step' => ¬ (step.isNumeral = true ∧ step'.isNumeral = true)

/-! ### Tokens -/

/-- The tokens of some steps. -/
def stepLexemes : List Step → List Lexeme
  | [] => []
  | .name word :: steps => ⟨.DOT, "."⟩ :: ⟨.NAME, String.ofList word⟩ :: stepLexemes steps
  | .numeral digits :: .numeral digits' :: steps =>
    ⟨.DOT, "."⟩ :: ⟨.FLT_LITERAL, String.ofList (digits ++ '.' :: digits')⟩ :: stepLexemes steps
  | .numeral digits :: steps =>
    ⟨.DOT, "."⟩ :: ⟨.INT_LITERAL, String.ofList digits⟩ :: stepLexemes steps

theorem stepsText_cons (step : Step) (steps : List Step) :
  stepsText (step :: steps) = '.' :: (step.text ++ stepsText steps)
  := by
  simp [stepsText]

/-- Behind a step is a dot or the end of the line. -/
theorem head_stepsText (steps : List Step) :
  (stepsText steps).head? = some '.' ∨ (stepsText steps).head? = some '\n'
  := by
  cases steps with
  | nil => exact Or.inr rfl
  | cons step steps => exact Or.inl (by rw [stepsText_cons]; rfl)

theorem head_stepsText_any {q : Char → Bool} (hdot : q '.' = false) (hline : q '\n' = false)
    (steps : List Step) :
  (stepsText steps).head?.any q = false
  := by
  rcases head_stepsText steps with h | h <;> rw [h]
  · exact hdot
  · exact hline

theorem exponentMark_stepsText (steps : List Step) : Lex.exponentMark (stepsText steps) = [] := by
  rw [Lex.exponentMark_eq_nil_iff]
  rcases head_stepsText steps with h | h <;> rw [h] <;> decide

/-- No fraction starts before a step that is no numeral. -/
theorem endsDigits_stepsText {steps : List Step} (h : ∀ step ∈ steps, step.WellFormed)
    (hfirst : ∀ step ∈ steps.head?, step.isNumeral = false) :
  EndsDigits (stepsText steps)
  := by
  refine ⟨head_stepsText_any rfl rfl steps, ?_, exponentMark_stepsText steps⟩
  cases steps with
  | nil => rfl
  | cons step steps =>
    cases step with
    | numeral digits => cases hfirst _ rfl
    | name word =>
      obtain ⟨hstart, -, hne, -⟩ := h _ List.mem_cons_self
      obtain ⟨c, word, rfl⟩ := List.exists_cons_of_ne_nil hne
      have hdigit : c.isDigit = false := by
        by_contra hdigit
        have hletter := hstart c rfl
        rw [(Lex.isDigit_identChar (by simpa using hdigit)).2] at hletter
        cases hletter
      rw [stepsText_cons]
      simp [Step.text, Lex.fraction, hdigit]

/-- The lexer reads a name that no digit precedes. -/
theorem lexesTo_name {s : LexState} {word rest : Text} {lexemes : List Lexeme} (h : IsName word)
    (hbefore : s.before.head?.any Char.isDigit = false) (hrest : rest.head?.any isIdentChar = false)
    (hlexes : ∀ s, LexesTo s rest lexemes) :
  LexesTo s (word ++ rest) (⟨.NAME, String.ofList word⟩ :: lexemes)
  := by
  obtain ⟨hstart, hchars, hne, hkind⟩ := h
  obtain ⟨c, word, rfl⟩ := List.exists_cons_of_ne_nil hne
  have hmark : Lex.isShapeMark s.before c (word ++ rest) = false := by
    simp [Lex.isShapeMark, hbefore]
  have hword := LexesTo.word (hstart c rfl) (fun d hd => hchars d (List.mem_cons_of_mem _ hd)) hmark hrest
    (hlexes _)
  rwa [hkind] at hword

/-- The tokens of the text of some steps.  The cases are those of the tokens. -/
theorem lexesTo_stepsText {steps : List Step} (h : ∀ step ∈ steps, step.WellFormed) (s : LexState) :
  LexesTo s (stepsText steps) (stepLexemes steps ++ [⟨.NEWLINE, "\n"⟩])
  := by
  induction steps using stepLexemes.induct generalizing s with
  | case1 => exact Lex.lexesTo_newline s
  | case2 word steps ih =>
    rw [stepsText_cons]
    apply LexesTo.dot
    apply lexesTo_name (h _ List.mem_cons_self) rfl (head_stepsText_any rfl rfl steps)
    exact ih fun step hstep => h step (List.mem_cons_of_mem _ hstep)
  | case3 digits digits' steps ih =>
    obtain ⟨hne, hdigits⟩ := h _ List.mem_cons_self
    obtain ⟨hne', hdigits'⟩ := h _ (List.mem_cons_of_mem _ List.mem_cons_self)
    rw [stepsText_cons, stepsText_cons]
    apply LexesTo.dot
    apply LexesTo.fraction hne hdigits hne' hdigits' (head_stepsText_any rfl rfl steps)
      (exponentMark_stepsText steps)
    exact ih (fun step hstep => h step (List.mem_cons_of_mem _ (List.mem_cons_of_mem _ hstep))) _
  | case4 digits steps hnext ih =>
    obtain ⟨hne, hdigits⟩ := h _ List.mem_cons_self
    have hsteps : ∀ step ∈ steps, step.WellFormed := fun step hstep => h step (List.mem_cons_of_mem _ hstep)
    have hfirst : ∀ step ∈ steps.head?, step.isNumeral = false := by
      intro step hstep
      cases step with
      | name word => rfl
      | numeral digits' =>
        obtain ⟨steps', rfl⟩ := List.head?_eq_some_iff.mp hstep
        exact absurd rfl (hnext digits' steps')
    have hlexemes : stepLexemes (.numeral digits :: steps) =
        ⟨.DOT, "."⟩ :: ⟨.INT_LITERAL, String.ofList digits⟩ :: stepLexemes steps := by
      rw [stepLexemes]
      exact hnext
    rw [stepsText_cons, hlexemes]
    apply LexesTo.dot
    apply LexesTo.integer hne hdigits (endsDigits_stepsText hsteps hfirst)
    exact ih hsteps _

/-- The tokens of a chain. -/
theorem lexSource_chainText {x : Text} (hx : IsName x) {steps : List Step}
    (h : ∀ step ∈ steps, step.WellFormed) :
  ∃ tokens, Lex.lexSource (chainText x steps) = .ok tokens ∧
    tokens.map Token.lexeme =
      ⟨.NAME, String.ofList x⟩ :: stepLexemes steps ++ [⟨.NEWLINE, "\n"⟩, ⟨.EOF, ""⟩]
  := by
  have hchain := lexesTo_name (s := .start) hx rfl (head_stepsText_any rfl rfl steps) (lexesTo_stepsText h)
  obtain ⟨tokens, hlex, hlexemes⟩ := hchain.lexSource
  refine ⟨tokens, hlex, ?_⟩
  rw [hlexemes]
  simp

/-! ### Passes through the loop over the dots -/

section

variable {tokens : List Token} {c : Cursor} {self : Entry → P Node} {object : Node}

/-- A pass at a dot is what `parse_postfix` does behind it. -/
theorem postfixPass_dot {dot : Token} (hdot : tokens[c.pos]? = some dot) (hkind : dot.kind = .DOT) :
  postfixPass self object tokens c =
    (parseDot self dot object >>= fun d => pure (.inl d) : P (Node ⊕ Node)) tokens (next c)
  := by
  have hskip : Returns tokens skipNewlinesBeforeDot c () c :=
    skipNewlinesBeforeDot_returns hdot (by simp [hkind])
  have hparen : Returns tokens (matchToken .LPAREN) c false c :=
    matchToken_returns_false hdot (by simp [hkind])
  have hprev : Returns tokens (prev : P Token) (next c) dot (next c) := by
    unfold Returns prev
    simp only [next, hdot]
  rw [postfixPass, bind_of_returns hskip, bind_of_returns hparen, if_neg Bool.false_ne_true,
    bind_of_returns (matchToken_returns_true hdot hkind), if_pos rfl, bind_of_returns hprev]

theorem postfixPass_returns {dot : Token} {n : Node} {c' : Cursor} (hdot : tokens[c.pos]? = some dot)
    (hkind : dot.kind = .DOT) (hparse : Returns tokens (parseDot self dot object) (next c) n c') :
  Returns tokens (postfixPass self object) c (.inl n) c'
  := by
  unfold Returns
  rw [postfixPass_dot hdot hkind, bind_of_returns hparse]
  rfl

section

variable {tok : Token} (htok : tokens[c.pos]? = some tok)

include htok

theorem parseDot_numeral (hkind : tok.kind = .INT_LITERAL) (dot : Token) :
  Returns tokens (parseDot self dot object) c
    { nodeNew .DOT dot with
      object := some object, index := some { nodeNew .INT tok with intValue := strtoll tok.text } } (next c)
  := by
  have hprev : Returns tokens (prev : P Token) (next c) tok (next c) := by
    unfold Returns prev
    simp only [next, htok]
  apply returns_then (matchToken_returns_true htok hkind)
  exact returns_bind hprev (returns_pure _)

theorem parseDot_name {after : Token} (hkind : tok.kind = .NAME) (hafter : tokens[c.pos + 1]? = some after)
    (hparen : after.kind ≠ .LPAREN) (dot : Token) :
  Returns tokens (parseDot self dot object) c
    { nodeNew .DOT dot with object := some object, name := some tok.text } (next c)
  := by
  have hno {k : TokenKind} (hk : .NAME ≠ k) : Returns tokens (matchToken k) c false c :=
    matchToken_returns_false htok (hkind ▸ hk)
  have hname : Returns tokens matchMethodName c (some tok) (next c) := by
    apply returns_bind (cur_returns htok)
    rw [if_pos (by simp [hkind])]
    exact returns_bind returns_advance (returns_pure _)
  iterate 3 apply returns_else (hno (by decide))
  apply returns_bind hname
  have hcall : Returns tokens (curIs .LPAREN) (next c) false (next c) := by
    simpa [hparen] using curIs_returns (c := next c) hafter .LPAREN
  exact returns_else hcall (returns_pure _)

/-- No number with a fraction is a step. -/
theorem not_parseDot_fraction (hkind : tok.kind = .FLT_LITERAL) (dot : Token) (n : Node) (c' : Cursor) :
  ¬ Returns tokens (parseDot self dot object) c n c'
  := by
  have hno {k : TokenKind} (hk : .FLT_LITERAL ≠ k) : Returns tokens (matchToken k) c false c :=
    matchToken_returns_false htok (hkind ▸ hk)
  have hname : Returns tokens matchMethodName c none c := by
    apply returns_bind (cur_returns htok)
    rw [if_neg (by simp [hkind])]
    exact returns_pure _
  intro h
  unfold Returns at h
  rw [parseDot, bind_of_returns (hno (by decide)), if_neg Bool.false_ne_true,
    bind_of_returns (hno (by decide)), if_neg Bool.false_ne_true, bind_of_returns (hno (by decide)),
    if_neg Bool.false_ne_true, bind_of_returns hname] at h
  change (cur >>= fun tok => (dieAt tok.line tok.col _ : P Node)) tokens c = _ at h
  rw [bind_of_returns (cur_returns htok)] at h
  cases h

end

/-- The value that `strtoll` reads of a numeral. -/
def readNumeral (digits : Text) : ℤ := strtoll (String.ofList digits)

/-- What the loop does at some steps: without two numerals in succession it passes them, otherwise it
returns nothing. -/
def LoopsOver (tokens : List Token) (self : Entry → P Node) (object : Node) (steps : List Step)
    (c : Cursor) : Prop :=
  (NumeralsApart steps → ∃ n, ChainFrom readNumeral object steps n ∧
    Passes tokens (postfixPass self) object c n { c with pos := c.pos + 2 * steps.length }) ∧
  (¬ NumeralsApart steps → ∀ m n c', ¬ Returns tokens (iterate (postfixPass self) m object) c n c')

theorem LoopsOver.cons {step : Step} {steps : List Step} {n : Node}
    (hnode : step.NodeOf readNumeral object n)
    (hpass : Returns tokens (postfixPass self object) c (.inl n) (next (next c)))
    (hapart : NumeralsApart (step :: steps) ↔ NumeralsApart steps)
    (h : LoopsOver tokens self n steps (next (next c))) :
  LoopsOver tokens self object (step :: steps) c
  := by
  obtain ⟨hpasses, hfails⟩ := h
  constructor
  · intro hsteps
    obtain ⟨n', hchain, hpasses⟩ := hpasses (hapart.mp hsteps)
    refine ⟨n', ⟨n, hnode, hchain⟩, ?_⟩
    have hend : c.pos + 2 * (step :: steps).length = (next (next c)).pos + 2 * steps.length := by
      simp only [List.length_cons, next]
      omega
    rw [hend]
    exact hpasses.head hpass (by simp only [next]; omega)
  · intro hsteps m n' c' hreturns
    cases m with
    | zero => cases hreturns
    | succ m =>
      unfold Returns at hreturns
      rw [iterate, bind_of_returns hpass] at hreturns
      exact hfails (fun h => hsteps (hapart.mpr h)) m n' c' hreturns

theorem numeralsApart_name (word : Text) (steps : List Step) :
  NumeralsApart (.name word :: steps) ↔ NumeralsApart steps
  := by
  cases steps with
  | nil => simp [NumeralsApart]
  | cons step steps => simp [NumeralsApart, Step.isNumeral]

theorem numeralsApart_numeral (digits : Text) {steps : List Step}
    (h : ∀ digits' steps', steps ≠ .numeral digits' :: steps') :
  NumeralsApart (.numeral digits :: steps) ↔ NumeralsApart steps
  := by
  cases steps with
  | nil => simp [NumeralsApart]
  | cons step steps =>
    cases step with
    | name word => simp [NumeralsApart, Step.isNumeral]
    | numeral digits' => exact absurd rfl (h digits' steps)

theorem not_numeralsApart (digits digits' : Text) (steps : List Step) :
  ¬ NumeralsApart (.numeral digits :: .numeral digits' :: steps)
  := by
  simp [NumeralsApart, Step.isNumeral]

/-- No call starts where a step or the end of the line follows. -/
theorem kind_behind {steps : List Step} {pos : ℕ} {rest : List Lexeme}
    (h : Spells tokens pos (stepLexemes steps ++ ⟨.NEWLINE, "\n"⟩ :: rest)) :
  ∃ after, tokens[pos]? = some after ∧ after.kind ≠ .LPAREN
  := by
  have hhead : ∃ lexeme lexemes, stepLexemes steps ++ ⟨.NEWLINE, "\n"⟩ :: rest = lexeme :: lexemes ∧
      lexeme.kind ≠ .LPAREN := by
    unfold stepLexemes
    split
    · exact ⟨_, _, rfl, by decide⟩
    · exact ⟨_, _, rfl, by decide⟩
    · exact ⟨_, _, rfl, by decide⟩
    · exact ⟨_, _, rfl, by decide⟩
  obtain ⟨lexeme, lexemes, heq, hkind⟩ := hhead
  rw [heq] at h
  obtain ⟨after, hafter, hlexeme⟩ := h.head
  refine ⟨after, hafter, ?_⟩
  rw [show after.kind = lexeme.kind from congrArg Lexeme.kind hlexeme]
  exact hkind

/-- The loop at the tokens of some steps.  The cases are those of the tokens. -/
theorem loopsOver {steps : List Step} {rest : List Lexeme}
    (hspells : Spells tokens c.pos (stepLexemes steps ++ ⟨.NEWLINE, "\n"⟩ :: rest)) :
  LoopsOver tokens self object steps c
  := by
  induction steps using stepLexemes.induct generalizing c object with
  | case1 => exact ⟨fun _ => ⟨object, rfl, Passes.refl _ _⟩, fun h => absurd List.IsChain.nil h⟩
  | case2 word steps ih =>
    obtain ⟨dot, hdot, hdotLexeme⟩ := hspells.head
    obtain ⟨tok, htok, hlexeme⟩ := hspells.tail.head
    obtain ⟨after, hafter, hparen⟩ := kind_behind hspells.tail.tail
    have htext : tok.text = String.ofList word := congrArg Lexeme.text hlexeme
    have hparse : Returns tokens (parseDot self dot object) (next c) _ (next (next c)) :=
      parseDot_name htok (congrArg Lexeme.kind hlexeme) hafter hparen dot
    have hpass := postfixPass_returns hdot (congrArg Lexeme.kind hdotLexeme) hparse
    refine LoopsOver.cons ⟨dot.line, dot.col, ?_⟩ hpass (numeralsApart_name word steps)
      (ih hspells.tail.tail)
    rw [← htext]
    rfl
  | case3 digits digits' steps ih =>
    refine ⟨fun h => absurd h (not_numeralsApart _ _ _), fun _ m n c' hreturns => ?_⟩
    obtain ⟨dot, hdot, hdotLexeme⟩ := hspells.head
    obtain ⟨tok, htok, hlexeme⟩ := hspells.tail.head
    have hstop : ∀ r c'', ¬ Returns tokens (postfixPass self object) c r c'' := by
      intro r c'' hpass
      unfold Returns at hpass
      rw [postfixPass_dot hdot (congrArg Lexeme.kind hdotLexeme)] at hpass
      exact not_returns_bind
        (not_parseDot_fraction (c := next c) htok (congrArg Lexeme.kind hlexeme) dot) r c'' hpass
    exact (Passes.refl object c).not_returns hstop m n c' hreturns
  | case4 digits steps hnext ih =>
    have hlexemes : stepLexemes (.numeral digits :: steps) =
        ⟨.DOT, "."⟩ :: ⟨.INT_LITERAL, String.ofList digits⟩ :: stepLexemes steps := by
      rw [stepLexemes]
      exact hnext
    rw [hlexemes] at hspells
    obtain ⟨dot, hdot, hdotLexeme⟩ := hspells.head
    obtain ⟨tok, htok, hlexeme⟩ := hspells.tail.head
    have htext : tok.text = String.ofList digits := congrArg Lexeme.text hlexeme
    have hparse : Returns tokens (parseDot self dot object) (next c) _ (next (next c)) :=
      parseDot_numeral htok (congrArg Lexeme.kind hlexeme) dot
    have hpass := postfixPass_returns hdot (congrArg Lexeme.kind hdotLexeme) hparse
    refine LoopsOver.cons ⟨dot.line, dot.col, tok.line, tok.col, ?_⟩ hpass
      (numeralsApart_numeral digits hnext) (ih hspells.tail.tail)
    rw [readNumeral, ← htext]
    rfl

/-! ### Chains before the end of a line -/

/-- A name is parsed with what is behind it. -/
theorem parsePrefix_word {tok : Token} (htok : tokens[c.pos]? = some tok) (hkind : tok.kind = .NAME) :
  parsePrefix self tokens c =
    parsePostfix self { nodeNew .NAME tok with name := some tok.text } tokens (next c)
  := by
  have hno {k : TokenKind} (hk : .NAME ≠ k) : Returns tokens (matchToken k) c false c :=
    matchToken_returns_false htok (hkind ▸ hk)
  have htype := matchTypeName_returns_false htok (by simp [hkind])
  rw [parsePrefix, bind_of_returns (cur_returns htok)]
  iterate 6 rw [bind_of_returns (hno (by decide)), if_neg Bool.false_ne_true]
  rw [if_neg (by simp [hkind]), bind_of_returns (hno (by decide)), if_neg Bool.false_ne_true,
    bind_of_returns htype, if_neg Bool.false_ne_true,
    bind_of_returns (matchToken_returns_true htok hkind), if_pos rfl]

/-- The nodes of a chain determine the values of its numerals. -/
theorem ChainFrom.unique {value value' : Text → ℤ} {object object' n : Node} {steps : List Step}
    (h : ChainFrom value object steps n) (h' : ChainFrom value' object' steps n) :
  object = object' ∧ ∀ digits, .numeral digits ∈ steps → value digits = value' digits
  := by
  induction steps generalizing object object' with
  | nil => exact ⟨h.symm.trans h', by simp⟩
  | cons step steps ih =>
    obtain ⟨n₁, hnode, hchain⟩ := h
    obtain ⟨n₂, hnode', hchain'⟩ := h'
    obtain ⟨rfl, hsteps⟩ := ih hchain hchain'
    cases step with
    | name word =>
      obtain ⟨line, col, rfl⟩ := hnode
      obtain ⟨line', col', heq⟩ := hnode'
      simp only [Node.mk.injEq, Option.some.injEq] at heq
      refine ⟨by tauto, fun digits hmem => hsteps digits ?_⟩
      simpa using hmem
    | numeral digits =>
      obtain ⟨line, col, line₁, col₁, rfl⟩ := hnode
      obtain ⟨line', col', line₁', col₁', heq⟩ := hnode'
      simp only [Node.mk.injEq, Option.some.injEq] at heq
      refine ⟨by tauto, fun digits' hmem => ?_⟩
      rcases List.mem_cons.mp hmem with hhere | hmem
      · cases hhere
        tauto
      · exact hsteps digits' hmem

theorem ChainFrom.congr {value value' : Text → ℤ} {object n : Node} {steps : List Step}
    (hvalue : ∀ digits, .numeral digits ∈ steps → value digits = value' digits)
    (h : ChainFrom value object steps n) :
  ChainFrom value' object steps n
  := by
  induction steps generalizing object with
  | nil => exact h
  | cons step steps ih =>
    obtain ⟨n', hnode, hchain⟩ := h
    refine ⟨n', ?_, ih (fun digits hmem => hvalue digits (List.mem_cons_of_mem _ hmem)) hchain⟩
    cases step with
    | name word => exact hnode
    | numeral digits =>
      rw [Step.NodeOf, ← hvalue digits List.mem_cons_self]
      exact hnode

/-- `strtoll` reads the value of a numeral unless it is too large. -/
theorem readNumeral_eq_iff {digits : Text} (h : IsNumeral digits) :
  readNumeral digits = numeralValue digits ↔ numeralValue digits < 2 ^ 63
  := by
  have htake : digits.takeWhile Char.isDigit = digits := List.takeWhile_eq_self_iff.mpr h.2
  rw [readNumeral, strtoll, String.toList_ofList, htake, numeralValue]
  omega

theorem length_stepLexemes {steps : List Step} (h : NumeralsApart steps) :
  (stepLexemes steps).length = 2 * steps.length
  := by
  induction steps using stepLexemes.induct with
  | case1 => rfl
  | case2 word steps ih =>
    have hlength := ih ((numeralsApart_name word steps).mp h)
    simp only [stepLexemes, List.length_cons, hlength]
    omega
  | case3 digits digits' steps ih => exact absurd h (not_numeralsApart digits digits' steps)
  | case4 digits steps hnext ih =>
    have hlength := ih ((numeralsApart_numeral digits hnext).mp h)
    rw [stepLexemes]
    · simp only [List.length_cons, hlength]
      omega
    · exact hnext

/-- At the end of a line without a dot behind it no call and no dot follows. -/
theorem postfixStops_newline {pos : ℕ} {newline after : Token} (hnewline : tokens[pos]? = some newline)
    (hkind : newline.kind = .NEWLINE) (hafter : tokens[pos + 1]? = some after)
    (hlast : after.kind ≠ .NEWLINE) (hdot : after.kind ≠ .DOT) :
  PostfixStops tokens pos
  := by
  have hrun : run isNewline (tokens.drop pos) = some 1 := by
    rw [List.drop_eq_getElem?_toList_append, hnewline, List.drop_eq_getElem?_toList_append, hafter]
    simp [run, isNewline, hkind, hlast]
  exact ⟨newline, 1, after, hnewline, by simp [hkind], hrun, hafter, hdot⟩

/-- The tokens of a text of steps, and how the loop of its chain runs. -/
theorem chain_parsed {x : Text} (hx : IsName x) {steps : List Step} (h : ∀ step ∈ steps, step.WellFormed) :
  ∃ tokens, Lex.lexSource (chainText x steps) = .ok tokens ∧
    (NumeralsApart steps → ∃ n c, Returns tokens (parseExpression 0) ⟨0, false⟩ n c ∧
      (tokens[c.pos]?).map Token.kind = some .NEWLINE ∧
      ∃ line col, ChainFrom readNumeral
        { kind := .NAME, line, col, name := some (String.ofList x) } steps n) ∧
    (¬ NumeralsApart steps → ∀ n c, ¬ Returns tokens (parseExpression 0) ⟨0, false⟩ n c)
  := by
  obtain ⟨tokens, hlex, hlexemes⟩ := lexSource_chainText hx h
  refine ⟨tokens, hlex, ?_⟩
  have hspells : Spells tokens 0 (⟨.NAME, String.ofList x⟩ ::
      (stepLexemes steps ++ [⟨.NEWLINE, "\n"⟩, ⟨.EOF, ""⟩])) := by
    have hall := @spells_append [] tokens [] _ hlexemes
    rwa [List.nil_append, List.append_nil] at hall
  obtain ⟨word, hword, hwordLexeme⟩ := hspells.head
  have hkind : word.kind = .NAME := congrArg Lexeme.kind hwordLexeme
  have htext : word.text = String.ofList x := congrArg Lexeme.text hwordLexeme
  have hsteps : Spells tokens 1 (stepLexemes steps ++ [⟨.NEWLINE, "\n"⟩, ⟨.EOF, ""⟩]) := hspells.tail
  -- The loop over the dots starts behind the name.
  let self := fixFuel parseBody (2 * tokens.length + 1)
  let object : Node := { nodeNew .NAME word with name := some word.text }
  obtain ⟨hpasses, hfails⟩ := @loopsOver tokens ⟨1, false⟩ self object steps _ hsteps
  have hloop : parsePrefix self tokens ⟨0, false⟩ =
      iterate (postfixPass self) (tokens.length + 1) object tokens ⟨1, false⟩ := by
    rw [parsePrefix_word (c := ⟨0, false⟩) hword hkind, parsePostfix_eq]
    rfl
  constructor
  · intro hapart
    obtain ⟨n, hchain, hpasses⟩ := hpasses hapart
    have hend := hsteps.right
    rw [length_stepLexemes hapart] at hend
    obtain ⟨newline, hnewline, hnewlineLexeme⟩ := hend.head
    obtain ⟨eof, heof, heofLexeme⟩ := hend.tail.head
    have hnewlineKind : newline.kind = .NEWLINE := congrArg Lexeme.kind hnewlineLexeme
    have heofKind : eof.kind = .EOF := congrArg Lexeme.kind heofLexeme
    have hpost := postfixStops_newline hnewline hnewlineKind heof (by simp [heofKind]) (by simp [heofKind])
    have hstart : Returns tokens (parsePrefix self) ⟨0, false⟩ n ⟨1 + 2 * steps.length, false⟩ := by
      unfold Returns
      rw [hloop]
      exact returns_loop hpasses (List.getElem?_eq_some_iff.mp hnewline).1.le
        (postfixPass_stops (c := ⟨1 + 2 * steps.length, false⟩) hpost)
    have hparse := parseExpression_of_passes hstart (Passes.refl _ _)
      (stops_of_token 0 hnewline (by simp [hnewlineKind]))
    refine ⟨n, ⟨1 + 2 * steps.length, false⟩, ?_, ?_, word.line, word.col, ?_⟩
    · exact returns_parseExpression_iff.mpr hparse
    · rw [hnewline, Option.map_some, hnewlineKind]
    · rw [← htext]
      exact hchain
  · intro hapart n c hreturns
    refine not_returns_bind (fun left c' hleft => ?_) n c (returns_parseExpression_iff.mp hreturns)
    unfold Returns at hleft
    rw [hloop] at hleft
    exact hfails hapart _ _ _ hleft

end

/-! ### Every chain -/

/-- A chain is parsed as it is written exactly when no numeral follows a numeral and every numeral is
one of 63 bits. -/
theorem parsesAsChain_iff {x : Text} (hx : IsName x) {steps : List Step}
    (h : ∀ step ∈ steps, step.WellFormed) :
  ParsesAsChain x steps ↔
    NumeralsApart steps ∧ ∀ digits, .numeral digits ∈ steps → numeralValue digits < 2 ^ 63
  := by
  obtain ⟨tokens, hlex, hparses, hfails⟩ := chain_parsed hx h
  constructor
  · rintro ⟨tokens', n, c, hlex', hreturns, -, line, col, hchain⟩
    rw [hlex, Except.ok.injEq] at hlex'
    subst hlex'
    have hapart : NumeralsApart steps := by
      by_contra hapart
      exact hfails hapart n c hreturns
    refine ⟨hapart, fun digits hmem => ?_⟩
    obtain ⟨n', c', hreturns', -, line', col', hchain'⟩ := hparses hapart
    unfold Returns at hreturns hreturns'
    rw [hreturns] at hreturns'
    cases hreturns'
    obtain ⟨-, hvalues⟩ := hchain'.unique hchain
    exact (readNumeral_eq_iff (h _ hmem)).mp (hvalues digits hmem)
  · rintro ⟨hapart, hvalues⟩
    obtain ⟨n, c, hreturns, hnewline, line, col, hchain⟩ := hparses hapart
    refine ⟨tokens, n, c, hlex, hreturns, hnewline, line, col, ?_⟩
    exact hchain.congr fun digits hmem => (readNumeral_eq_iff (h _ hmem)).mpr (hvalues digits hmem)

/-- The chain `x.a.1` is parsed as it is written. -/
theorem parsesAsChain_name_numeral : ParsesAsChain ['x'] [.name ['a'], .numeral ['1']] := by
  have hname (word : Text) (hword : word ∈ [['x'], ['a']]) : IsName word := by
    simp only [List.mem_cons, List.not_mem_nil, or_false] at hword
    rcases hword with rfl | rfl
    · exact ⟨by simp [isIdentStart], by simp [isIdentChar], by simp, by decide⟩
    · exact ⟨by simp [isIdentStart], by simp [isIdentChar], by simp, by decide⟩
  have hsteps : ∀ step ∈ [Step.name ['a'], .numeral ['1']], step.WellFormed := by
    simp only [List.mem_cons, List.not_mem_nil, or_false, forall_eq_or_imp, forall_eq]
    exact ⟨hname _ (by simp), by simp, by simp⟩
  apply (parsesAsChain_iff (hname _ (by simp)) hsteps).mpr
  constructor
  · simp [NumeralsApart, Step.isNumeral]
  · intro digits hmem
    simp only [List.mem_cons, List.not_mem_nil, or_false, reduceCtorEq, false_or,
      Step.numeral.injEq] at hmem
    subst hmem
    decide

/-- The chain `x.1.2` is not: the lexer reads one number behind the dot. -/
theorem not_parsesAsChain :
  ¬ ∀ (x : Text) (steps : List Step), IsName x → (∀ step ∈ steps, step.WellFormed) → ParsesAsChain x steps
  := by
  intro h
  have hx : IsName ['x'] := ⟨by simp [isIdentStart], by simp [isIdentChar], by simp, by decide⟩
  have hsteps : ∀ step ∈ [Step.numeral ['1'], .numeral ['2']], step.WellFormed := by
    simp only [List.mem_cons, List.not_mem_nil, or_false, forall_eq_or_imp, forall_eq]
    exact ⟨⟨by simp, by simp⟩, by simp, by simp⟩
  have hchain := h _ _ hx hsteps
  obtain ⟨tokens, n, c, hlex, hreturns, -, -⟩ := hchain
  obtain ⟨tokens', hlex', -, hfails⟩ := chain_parsed hx hsteps
  rw [hlex', Except.ok.injEq] at hlex
  subst hlex
  exact hfails (not_numeralsApart _ _ []) n c hreturns

end Caster.Parse
