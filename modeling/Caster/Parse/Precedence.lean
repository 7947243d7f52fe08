import Caster.Parse.Printing
import Caster.Parse.SafeProgram
import Mathlib.Data.List.TakeWhile

/-!
# Operators are parsed by precedence

The printing of a tree of operators is parsed to this tree, up to its last token and no
further.
-/

namespace Caster.Parse

open TokenParser

variable {tokens : List Token} {c : Cursor}

/-! ### Printed tokens -/

/-- The tokens from a position on are printed lexemes. -/
def Spells (tokens : List Token) (pos : ℕ) (lexemes : List Lexeme) : Prop :=
  ∀ i (h : i < lexemes.length), ∃ tok, tokens[pos + i]? = some tok ∧ tok.lexeme = lexemes[i]

theorem Spells.head {pos : ℕ} {lexeme : Lexeme} {lexemes : List Lexeme}
    (h : Spells tokens pos (lexeme :: lexemes)) :
  ∃ tok, tokens[pos]? = some tok ∧ tok.lexeme = lexeme
  := h 0 (Nat.succ_pos _)

theorem Spells.tail {pos : ℕ} {lexeme : Lexeme} {lexemes : List Lexeme}
    (h : Spells tokens pos (lexeme :: lexemes)) :
  Spells tokens (pos + 1) lexemes
  := by
  intro i hi
  obtain ⟨tok, htok, hlexeme⟩ := h (i + 1) (Nat.succ_lt_succ hi)
  rw [show pos + (i + 1) = pos + 1 + i by omega] at htok
  exact ⟨tok, htok, hlexeme⟩

theorem Spells.left {pos : ℕ} {lexemes lexemes' : List Lexeme} (h : Spells tokens pos (lexemes ++ lexemes')) :
  Spells tokens pos lexemes
  := by
  intro i hi
  obtain ⟨tok, htok, hlexeme⟩ := h i (by rw [List.length_append]; omega)
  rw [List.getElem_append_left hi] at hlexeme
  exact ⟨tok, htok, hlexeme⟩

theorem Spells.right {pos : ℕ} {lexemes lexemes' : List Lexeme} (h : Spells tokens pos (lexemes ++ lexemes')) :
  Spells tokens (pos + lexemes.length) lexemes'
  := by
  intro i hi
  obtain ⟨tok, htok, hlexeme⟩ := h (lexemes.length + i) (by rw [List.length_append]; omega)
  rw [List.getElem_append_right (Nat.le_add_right _ _)] at hlexeme
  simp only [Nat.add_sub_cancel_left] at hlexeme
  rw [← Nat.add_assoc] at htok
  exact ⟨tok, htok, hlexeme⟩

/-! ### What may follow -/

/-- The token at the position is not an operator that goes on with an expression of a
precedence. -/
def Stops (tokens : List Token) (pos minPrec : ℕ) : Prop :=
  ∃ tok, tokens[pos]? = some tok ∧ tok.kind ≠ .ARROW ∧
    (tok.kind = .ELSE ∨ tok.kind = .IS → 0 < minPrec) ∧
    ((precedence tok.kind).1 < minPrec ∨ (precedence tok.kind).1 = 0)

/-- No call and no dot follows, not even behind the ends of lines. -/
def PostfixStops (tokens : List Token) (pos : ℕ) : Prop :=
  ∃ tok n tok', tokens[pos]? = some tok ∧ tok.kind ≠ .LPAREN ∧
    run isNewline (tokens.drop pos) = some n ∧ tokens[pos + n]? = some tok' ∧ tok'.kind ≠ .DOT

theorem Stops.mono {pos minPrec minPrec' : ℕ} (h : Stops tokens pos minPrec) (hle : minPrec ≤ minPrec') :
  Stops tokens pos minPrec'
  := by
  obtain ⟨tok, htok, harrow, hzero, hprec⟩ := h
  exact ⟨tok, htok, harrow, fun hkind => (hzero hkind).trans_le hle, hprec.imp_left fun h => h.trans_le hle⟩

variable {self : Entry → P Node}

theorem parseOperator_stops {minPrec : ℕ} {left : Node} (hflag : c.flag = false)
    (h : Stops tokens c.pos minPrec) :
  Returns tokens (parseOperator self minPrec left) c (.inr left) c
  := by
  obtain ⟨tok, htok, harrow, hzero, hprec⟩ := h
  have hskip : Returns tokens skipOperatorNewlines c () c := by
    apply returns_else _ (returns_pure ())
    rw [← hflag]
    exact returns_flag
  apply returns_bind hskip
  apply returns_bind (cur_returns htok)
  split_ifs with helse hmin his hmin
  · exact returns_pure _
  · exact absurd (hzero (Or.inl helse)) hmin
  · exact returns_pure _
  · exact absurd (hzero (Or.inr his)) hmin
  · dsimp only
    rw [if_pos hprec]
    exact returns_pure _

/-- Where no dot follows, the ends of lines are not passed. -/
theorem skipNewlinesBeforeDot_stops (h : PostfixStops tokens c.pos) :
  Returns tokens skipNewlinesBeforeDot c () c
  := by
  obtain ⟨_, n, tok', _, _, hrun, htok', hdot⟩ := h
  apply returns_bind returns_position
  apply returns_bind
  · apply returns_bind returns_position
    apply returns_bind (returns_scan hrun)
    exact returns_seek (c.pos + n)
  · apply returns_bind (curIs_returns (c := { c with pos := c.pos + n }) htok' .DOT)
    rw [if_neg (by simpa using hdot)]
    exact returns_seek c.pos

/-- A pass through the loop of `parse_postfix`. -/
def postfixPass (self : Entry → P Node) (expr : Node) : P (Node ⊕ Node) := do
  skipNewlinesBeforeDot
  if ← matchToken .LPAREN then
    let opened ← prev
    let args ← parseCallArgs self
    let _ ← expect .RPAREN "expected ')' after call arguments"
    pure (.inl { nodeNew .CALL opened with callee := some expr, args })
  else if ← matchToken .DOT then
    let dot ← prev
    let d ← parseDot self dot expr
    pure (.inl d)
  else pure (.inr expr)

theorem parsePostfix_eq (expr : Node) : parsePostfix self expr = loop (postfixPass self) expr := rfl

/-- A pass that no call and no dot follows breaks the loop. -/
theorem postfixPass_stops {expr : Node} (h : PostfixStops tokens c.pos) :
  Returns tokens (postfixPass self expr) c (.inr expr) c
  := by
  have hskip := skipNewlinesBeforeDot_stops h
  obtain ⟨tok, n, tok', htok, hparen, hrun, htok', hdot⟩ := h
  have hdot' : tok.kind ≠ .DOT := by
    intro hkind
    rw [List.drop_eq_getElem?_toList_append, htok] at hrun
    have hn : n = 0 := by simpa [run, isNewline, hkind] using hrun.symm
    subst hn
    rw [Nat.add_zero, htok, Option.some.injEq] at htok'
    exact hdot (htok' ▸ hkind)
  apply returns_bind hskip
  apply returns_else (matchToken_returns_false htok hparen)
  apply returns_else (matchToken_returns_false htok hdot')
  exact returns_pure _

theorem parsePostfix_stops {expr : Node} (h : PostfixStops tokens c.pos) :
  Returns tokens (parsePostfix self expr) c expr c
  := by
  have hpos : c.pos < tokens.length := by
    obtain ⟨tok, _, _, htok, _⟩ := h
    exact (List.getElem?_eq_some_iff.mp htok).1
  exact returns_loop (Passes.refl expr c) hpos.le (postfixPass_stops h)

/-! ### What an expression starts with -/

theorem parseUnary_returns (tok : Token) {expr : Node} {c' : Cursor}
    (hoperand : Returns tokens (self (.expression 7)) c expr c') :
  Returns tokens (parseUnary self tok) c
    { nodeNew .UNARY tok with op := some tok.text, expr := some expr } c'
  := returns_bind hoperand (returns_pure _)

section

variable {tok : Token} (htok : tokens[c.pos]? = some tok)

include htok

theorem matchTypeName_returns_false (hkind : tok.kind ∉ [TokenKind.INT, .FLT, .STR, .ARR]) :
  Returns tokens matchTypeName c false c
  := by
  have hno {k : TokenKind} (hk : k ∈ [TokenKind.INT, .FLT, .STR, .ARR]) :
      Returns tokens (matchToken k) c false c :=
    matchToken_returns_false htok fun h => hkind (h ▸ hk)
  iterate 3 apply returns_else (hno (by decide))
  exact hno (by decide)

theorem parsePrefix_int (hkind : tok.kind = .INT_LITERAL) :
  Returns tokens (parsePrefix self) c { nodeNew .INT tok with intValue := strtoll tok.text } (next c)
  := by
  apply returns_bind (cur_returns htok)
  apply returns_then (matchToken_returns_true htok hkind)
  exact returns_pure _

theorem parsePrefix_name (hkind : tok.kind = .NAME) (hpost : PostfixStops tokens (c.pos + 1)) :
  Returns tokens (parsePrefix self) c { nodeNew .NAME tok with name := some tok.text } (next c)
  := by
  have hno {k : TokenKind} (hk : .NAME ≠ k) : Returns tokens (matchToken k) c false c :=
    matchToken_returns_false htok (hkind ▸ hk)
  apply returns_bind (cur_returns htok)
  iterate 6 apply returns_else (hno (by decide))
  rw [if_neg (by simp [hkind])]
  apply returns_else (hno (by decide))
  apply returns_else (matchTypeName_returns_false htok (by simp [hkind]))
  apply returns_then (matchToken_returns_true htok hkind)
  exact parsePostfix_stops hpost

theorem matchPrefixOp_returns {op : PrefixOp} (hop : tok.kind = op.lexeme.kind) :
  Returns tokens (either (matchToken .MINUS) (matchToken .BANG)) c true (next c)
  := by
  cases op with
  | neg => exact returns_then (matchToken_returns_true htok hop) (returns_pure true)
  | not =>
    apply returns_else (matchToken_returns_false htok (by simp [hop, PrefixOp.lexeme]))
    exact matchToken_returns_true htok hop

theorem parsePrefix_unary {op : PrefixOp} {expr : Node} {c' : Cursor} (hop : tok.kind = op.lexeme.kind)
    (hoperand : Returns tokens (self (.expression 7)) (next c) expr c')
    (hpost : PostfixStops tokens c'.pos) :
  Returns tokens (parsePrefix self) c { nodeNew .UNARY tok with op := some tok.text, expr := some expr } c'
  := by
  have hno {k : TokenKind} (hk : k ≠ .MINUS ∧ k ≠ .BANG) : Returns tokens (matchToken k) c false c := by
    apply matchToken_returns_false htok
    rw [hop]
    cases op with
    | neg => exact hk.1.symm
    | not => exact hk.2.symm
  apply returns_bind (cur_returns htok)
  iterate 6 apply returns_else (hno (by decide))
  rw [if_neg (by cases op <;> simp [hop, PrefixOp.lexeme])]
  apply returns_else (hno (by decide))
  apply returns_else (matchTypeName_returns_false htok (by cases op <;> simp [hop, PrefixOp.lexeme]))
  iterate 4 apply returns_else (hno (by decide))
  apply returns_then (matchPrefixOp_returns htok hop)
  apply returns_bind (parseUnary_returns tok hoperand)
  exact parsePostfix_stops hpost

theorem parsePrefix_group {first closing : Token} {n : Node} {c' : Cursor} (hkind : tok.kind = .LPAREN)
    (hfirst : tokens[c.pos + 1]? = some first) (hnewline : first.kind ≠ .NEWLINE)
    (hfield : Returns tokens (both (curIs .NAME) (peekIs 1 .EQUAL)) (next c) false (next c))
    (hinner : Returns tokens (self (.expression 0)) (next c) n c')
    (hclosing : tokens[c'.pos]? = some closing) (hparen : closing.kind = .RPAREN)
    (hpost : PostfixStops tokens (c'.pos + 1)) :
  Returns tokens (parsePrefix self) c n (next c')
  := by
  have hno {k : TokenKind} (hk : .LPAREN ≠ k) : Returns tokens (matchToken k) c false c :=
    matchToken_returns_false htok (hkind ▸ hk)
  apply returns_bind (cur_returns htok)
  iterate 6 apply returns_else (hno (by decide))
  rw [if_neg (by simp [hkind])]
  apply returns_else (hno (by decide))
  apply returns_else (matchTypeName_returns_false htok (by simp [hkind]))
  iterate 4 apply returns_else (hno (by decide))
  apply returns_else (returns_else (hno (by decide)) (hno (by decide)))
  apply returns_else (returns_else (hno (by decide)) (hno (by decide)))
  apply returns_then (matchToken_returns_true htok hkind)
  apply returns_bind (skipNewlines_returns (c := next c) hfirst hnewline)
  apply returns_else hfield
  apply returns_bind hinner
  apply returns_bind (expect_returns hclosing hparen _)
  exact parsePostfix_stops hpost

end

/-! ### The tokens of a tree -/

theorem precedence_lt (k : TokenKind) : (precedence k).1 < 7 := by
  cases k <;> decide

/-- No token of a tree ends a line or sets a field. -/
theorem Tree.print_kind (t : Tree) : ∀ lexeme ∈ t.print, lexeme.kind ≠ .NEWLINE ∧ lexeme.kind ≠ .EQUAL := by
  have hparen {needed : Bool} {lexemes : List Lexeme}
      (h : ∀ lexeme ∈ lexemes, lexeme.kind ≠ .NEWLINE ∧ lexeme.kind ≠ .EQUAL) :
      ∀ lexeme ∈ parenthesize needed lexemes, lexeme.kind ≠ .NEWLINE ∧ lexeme.kind ≠ .EQUAL := by
    intro lexeme hmem
    unfold parenthesize at hmem
    split at hmem
    · simp only [List.cons_append, List.mem_cons, List.mem_append, List.not_mem_nil, or_false] at hmem
      rcases hmem with rfl | hmem | rfl
      · exact ⟨by decide, by decide⟩
      · exact h lexeme hmem
      · exact ⟨by decide, by decide⟩
    · exact h lexeme hmem
  induction t with
  | name text => simp [Tree.print]
  | int value => simp [Tree.print]
  | unary op operand ih =>
    intro lexeme hmem
    rcases List.mem_cons.mp hmem with rfl | hmem
    · cases op <;> exact ⟨by decide, by decide⟩
    · exact hparen ih lexeme hmem
  | binary op left right ihl ihr =>
    intro lexeme hmem
    rcases List.mem_append.mp hmem with hmem | hmem
    · exact hparen ihl lexeme hmem
    rcases List.mem_cons.mp hmem with rfl | hmem
    · cases op <;> exact ⟨by decide, by decide⟩
    · exact hparen ihr lexeme hmem

theorem Tree.print_ne_nil (t : Tree) : t.print ≠ [] := by
  cases t <;> simp [Tree.print]

/-- What is read of the digits of a number. -/
theorem strtoll_toString (value : ℕ) : strtoll (toString value) = min (value : ℤ) (2 ^ 63 - 1) := by
  have hdigits : (toString value).toList = Nat.toDigits 10 value := by
    simp [toString, Nat.repr]
  have htake : (Nat.toDigits 10 value).takeWhile Char.isDigit = Nat.toDigits 10 value := by
    apply List.takeWhile_eq_self_iff.mpr
    intro d hd
    exact Nat.isDigit_of_mem_toDigits (by decide) (by decide) hd
  unfold strtoll
  rw [hdigits, htake, Nat.ofDigitChars_ten_toDigits]

/-! ### Trees -/

theorem stops_of_token {pos : ℕ} {tok : Token} (minPrec : ℕ) (htok : tokens[pos]? = some tok)
    (hkind : tok.kind ∈ [TokenKind.RPAREN, .NEWLINE, .EOF]) :
  Stops tokens pos minPrec
  := by
  refine ⟨tok, htok, ?_⟩
  simp only [List.mem_cons, List.not_mem_nil, or_false] at hkind
  rcases hkind with hkind | hkind | hkind <;> simp [hkind, precedence]

theorem postfixStops_of_token {pos : ℕ} {tok : Token} (htok : tokens[pos]? = some tok)
    (hkind : tok.kind ∉ [TokenKind.LPAREN, .NEWLINE, .DOT]) :
  PostfixStops tokens pos
  := by
  simp only [List.mem_cons, List.not_mem_nil, or_false, not_or] at hkind
  obtain ⟨hparen, hnewline, hdot⟩ := hkind
  have hrun : run isNewline (tokens.drop pos) = some 0 := by
    rw [List.drop_eq_getElem?_toList_append, htok]
    exact if_neg (by simpa [isNewline] using hnewline)
  exact ⟨tok, 0, tok, htok, hparen, hrun, htok, hdot⟩

/-- The tokens of a tree and of the parenthesis that closes it. -/
theorem Spells.closed_kind {t : Tree} {pos i : ℕ} {tok : Token}
    (h : Spells tokens pos (t.print ++ [⟨.RPAREN, ")"⟩])) (hi : i ≤ t.print.length)
    (htok : tokens[pos + i]? = some tok) :
  tok.kind ≠ .NEWLINE ∧ tok.kind ≠ .EQUAL
  := by
  obtain ⟨tok', htok', hlexeme⟩ := h i (by simpa using Nat.lt_succ_of_le hi)
  rw [htok, Option.some.injEq] at htok'
  subst htok'
  have hmem : tok.lexeme ∈ t.print ++ [⟨.RPAREN, ")"⟩] := hlexeme ▸ List.getElem_mem _
  rcases List.mem_append.mp hmem with hmem | hmem
  · exact t.print_kind _ hmem
  · have hkind : tok.kind = .RPAREN := congrArg Lexeme.kind (List.mem_singleton.mp hmem)
    rw [hkind]
    exact ⟨by decide, by decide⟩

/-- No field of a fixed map is set where a tree in parentheses starts. -/
theorem notField_returns {t : Tree} (h : Spells tokens c.pos (t.print ++ [⟨.RPAREN, ")"⟩])) :
  Returns tokens (both (curIs .NAME) (peekIs 1 .EQUAL)) c false c
  := by
  have hlength : 0 < t.print.length := List.length_pos_iff.mpr t.print_ne_nil
  obtain ⟨first, hfirst, _⟩ := h 0 (by simp)
  obtain ⟨second, hsecond, _⟩ := h 1 (by simpa using hlength)
  obtain ⟨_, hkind⟩ := h.closed_kind hlength hsecond
  by_cases hname : first.kind = .NAME
  · have htrue : Returns tokens (curIs .NAME) c true c := by
      simpa [hname] using curIs_returns hfirst .NAME
    apply returns_then htrue
    apply returns_bind (returns_peek hsecond)
    rw [decide_eq_false hkind]
    exact returns_pure false
  · have hfalse : Returns tokens (curIs .NAME) c false c := by
      simpa [hname] using curIs_returns hfirst .NAME
    exact returns_else hfalse (returns_pure false)

/-- A tree at a position is parsed by a first node and passes through the loop over the
operators behind it, given fuel for its tokens. -/
def Tree.Reached (tokens : List Token) (t : Tree) : Prop :=
  ∀ n minPrec (c : Cursor), c.flag = false → minPrec ≤ t.level → t.print.length ≤ n →
    Spells tokens c.pos t.print →
    Stops tokens (c.pos + t.print.length) (t.level + 1) →
    (t.endsBare = false → PostfixStops tokens (c.pos + t.print.length)) →
    ∃ left c' node, t.Matches node ∧ Returns tokens (parsePrefix (fixFuel parseBody n)) c left c' ∧
      Passes tokens (parseOperator (fixFuel parseBody n) minPrec) left c' node
        ⟨c.pos + t.print.length, false⟩

/-- The loop ends where no operator goes on with the expression. -/
theorem parseExpression_of_passes {n minPrec pos : ℕ} {left node : Node} {c' : Cursor}
    (hstart : Returns tokens (parsePrefix (fixFuel parseBody n)) c left c')
    (hpasses : Passes tokens (parseOperator (fixFuel parseBody n) minPrec) left c' node ⟨pos, false⟩)
    (hstop : Stops tokens pos minPrec) :
  Returns tokens (fixFuel parseBody (n + 1) (.expression minPrec)) c node ⟨pos, false⟩
  := by
  have hpos : pos < tokens.length := by
    obtain ⟨tok, htok, _⟩ := hstop
    exact (List.getElem?_eq_some_iff.mp htok).1
  apply returns_bind hstart
  exact returns_loop hpasses hpos.le (parseOperator_stops rfl hstop)

/-- An expression is parsed with the fuel for all tokens. -/
theorem returns_parseExpression_iff {minPrec : ℕ} {node : Node} {c' : Cursor} :
  Returns tokens (parseExpression minPrec) c node c' ↔
    Returns tokens (fixFuel parseBody (2 * tokens.length + 1 + 1) (.expression minPrec)) c node c'
  := by
  have hfuel : 2 * (tokens.length + 1) = 2 * tokens.length + 1 + 1 := by omega
  unfold Returns parseExpression parse fix
  rw [hfuel]

/-- A pass of the loop at a precedence, in the loop at a lower one: it goes on alike, and it ends alike
where no operator of the lower precedence stands. -/
theorem parseOperator_lower {self : Entry → P Node} {minPrec minPrec' : ℕ} (hpos : 0 < minPrec')
    (hle : minPrec' ≤ minPrec) {left : Node} {r : Node ⊕ Node} {c' : Cursor}
    (h : Returns tokens (parseOperator self minPrec left) c r c')
    (hstop : r.isRight = true → Stops tokens c'.pos minPrec') :
  Returns tokens (parseOperator self minPrec' left) c r c'
  := by
  rw [parseOperator, returns_bind_iff] at h
  obtain ⟨_, c₁, hskip, h⟩ := h
  rw [returns_bind_iff] at h
  obtain ⟨tok, c₂, hcur, h⟩ := h
  obtain ⟨htok, rfl⟩ := returns_cur_iff.mp hcur
  apply returns_bind hskip
  apply returns_bind (cur_returns htok)
  split_ifs at h ⊢ with helse hmin his hmin' harrow
  · exact h
  · exact absurd (hpos.trans_le hle) hmin
  · exact h
  · exact absurd (hpos.trans_le hle) hmin'
  · exact h
  · dsimp only at h ⊢
    split_ifs at h with hbreak
    · obtain ⟨rfl, rfl⟩ := returns_pure_iff.mp h
      obtain ⟨tok', htok', -, -, hstops⟩ := hstop rfl
      rw [htok, Option.some.injEq] at htok'
      subst htok'
      rw [if_pos hstops]
      exact h
    · rw [if_neg (by omega)]
      exact h

/-- An expression of a precedence is one of a lower precedence where no operator of that one follows. -/
theorem returns_lower {n minPrec minPrec' : ℕ} (hpos : 0 < minPrec') (hle : minPrec' ≤ minPrec)
    {node : Node} {c' : Cursor}
    (h : Returns tokens (fixFuel parseBody (n + 1) (.expression minPrec)) c node c')
    (hstop : Stops tokens c'.pos minPrec') :
  Returns tokens (fixFuel parseBody (n + 1) (.expression minPrec')) c node c'
  := by
  have hloop : ∀ m left c, Returns tokens (iterate (parseOperator (fixFuel parseBody n) minPrec) m left) c node c' →
      Returns tokens (iterate (parseOperator (fixFuel parseBody n) minPrec') m left) c node c' := by
    intro m
    induction m with
    | zero => exact fun left c h => h
    | succ m ih =>
      intro left c h
      rw [iterate, returns_bind_iff] at h
      obtain ⟨r, c₁, hpass, h⟩ := h
      cases r with
      | inl left' =>
        apply returns_bind (parseOperator_lower hpos hle hpass fun h => by cases h)
        exact ih left' c₁ h
      | inr left' =>
        obtain ⟨rfl, rfl⟩ := returns_pure_iff.mp h
        apply returns_bind (parseOperator_lower hpos hle hpass fun _ => hstop)
        exact h
  obtain ⟨left, c₁, hstart, hrest⟩ := returns_bind_iff.mp h
  exact returns_bind hstart (hloop _ left c₁ hrest)

/-- An operand is parsed by a first node and passes as well: in parentheses it is the first
node itself. -/
theorem operand_reached {t : Tree} (ht : t.Reached tokens) {n minPrec level : ℕ} (hflag : c.flag = false)
    (hmin : minPrec ≤ level) (hn : (parenthesize (t.level < level) t.print).length ≤ n)
    (hspells : Spells tokens c.pos (parenthesize (t.level < level) t.print))
    (hstop : Stops tokens (c.pos + (parenthesize (t.level < level) t.print).length) (level + 1))
    (hpost : t.level < level ∨ t.endsBare = false →
      PostfixStops tokens (c.pos + (parenthesize (t.level < level) t.print).length)) :
  ∃ left c' node, t.Matches node ∧ Returns tokens (parsePrefix (fixFuel parseBody n)) c left c' ∧
    Passes tokens (parseOperator (fixFuel parseBody n) minPrec) left c' node
      ⟨c.pos + (parenthesize (t.level < level) t.print).length, false⟩
  := by
  by_cases hparen : t.level < level
  · simp only [parenthesize, hparen, decide_true, if_true, List.length_append, List.length_cons,
      List.length_nil, List.cons_append, true_or, forall_const] at hn hspells hstop hpost ⊢
    have hend : c.pos + (t.print.length + 0 + 1 + 1) = c.pos + 1 + t.print.length + 1 := by omega
    rw [hend] at hstop hpost ⊢
    obtain ⟨n, rfl⟩ : ∃ m, n = m + 1 := ⟨n - 1, by omega⟩
    have hinner := hspells.tail
    obtain ⟨opening, hopening, hopenLexeme⟩ := hspells.head
    obtain ⟨first, hfirst, _⟩ := hinner 0 (by simp)
    obtain ⟨hnewline, _⟩ := hinner.closed_kind (Nat.zero_le _) hfirst
    obtain ⟨closing, hclosing, hcloseLexeme⟩ := hinner.right.head
    have hcloseKind : closing.kind = .RPAREN := congrArg Lexeme.kind hcloseLexeme
    have hpostfix : PostfixStops tokens (c.pos + 1 + t.print.length) :=
      postfixStops_of_token hclosing (by simp [hcloseKind])
    obtain ⟨left, c', node, hmatches, hstart, hpasses⟩ := ht n 0 (next c) hflag (Nat.zero_le _)
      (by omega) hinner.left (stops_of_token _ hclosing (by simp [hcloseKind])) fun _ => hpostfix
    have hexpression := parseExpression_of_passes hstart hpasses
      (stops_of_token 0 hclosing (by simp [hcloseKind]))
    refine ⟨node, _, node, hmatches, ?_, Passes.refl _ _⟩
    exact parsePrefix_group hopening (congrArg Lexeme.kind hopenLexeme) hfirst hnewline
      (notField_returns (c := next c) hinner) hexpression hclosing hcloseKind hpost
  · simp only [parenthesize, hparen, decide_false, Bool.false_eq_true, if_false, false_or] at hn hspells hstop hpost ⊢
    apply ht n minPrec c hflag (by omega) hn hspells (hstop.mono (by omega)) hpost

/-- An operand of its own, behind which no operator binds as tightly. -/
theorem operand_returns {t : Tree} (ht : t.Reached tokens) {n level : ℕ} (hflag : c.flag = false)
    (hn : (parenthesize (t.level < level) t.print).length ≤ n)
    (hspells : Spells tokens c.pos (parenthesize (t.level < level) t.print))
    (hstop : Stops tokens (c.pos + (parenthesize (t.level < level) t.print).length) level)
    (hpost : t.level < level ∨ t.endsBare = false →
      PostfixStops tokens (c.pos + (parenthesize (t.level < level) t.print).length)) :
  ∃ node, t.Matches node ∧ Returns tokens (fixFuel parseBody (n + 1) (.expression level)) c node
    ⟨c.pos + (parenthesize (t.level < level) t.print).length, false⟩
  := by
  obtain ⟨left, c', node, hmatches, hstart, hpasses⟩ :=
    operand_reached ht hflag le_rfl hn hspells (hstop.mono (Nat.le_succ _)) hpost
  exact ⟨node, hmatches, parseExpression_of_passes hstart hpasses hstop⟩

/-- A pass of the loop at a binary operator. -/
theorem parseOperator_goesOn {n minPrec : ℕ} {op : InfixOp} {tok : Token} {left right : Node} {c' : Cursor}
    (hflag : c.flag = false) (htok : tokens[c.pos]? = some tok) (hop : tok.lexeme = op.lexeme)
    (hmin : minPrec ≤ op.level)
    (hright : Returns tokens (fixFuel parseBody n (.expression (op.level + 1))) (next c) right c') :
  Returns tokens (parseOperator (fixFuel parseBody n) minPrec left) c
    (.inl (binaryNode tok (some op.lexeme.text) left right)) c'
  := by
  have hkind : tok.kind = op.lexeme.kind := congrArg Lexeme.kind hop
  have hskip : Returns tokens skipOperatorNewlines c () c := by
    apply returns_else _ (returns_pure ())
    rw [← hflag]
    exact returns_flag
  apply returns_bind hskip
  apply returns_bind (cur_returns htok)
  by_cases helse : op = .orElse
  · subst helse
    have hzero : ¬ 0 < minPrec := by simpa [InfixOp.level, InfixOp.lexeme, precedence] using hmin
    have hkind : tok.kind = .ELSE := hkind
    rw [if_pos hkind, if_neg hzero]
    apply returns_bind returns_advance
    exact returns_bind hright (returns_pure _)
  · have hsome : (precedence tok.kind).1 ≠ 0 ∧ (precedence tok.kind).2 = some op.lexeme.text ∧
        tok.kind ≠ .ELSE ∧ tok.kind ≠ .IS ∧ tok.kind ≠ .ARROW := by
      rw [hkind]
      cases op <;> first | exact absurd rfl helse | decide
    have hlevel : (precedence tok.kind).1 = op.level := by rw [hkind]; rfl
    obtain ⟨hne, htext, hne', his, harrow⟩ := hsome
    rw [if_neg hne', if_neg his, if_neg harrow]
    dsimp only
    rw [if_neg (by omega), hlevel, htext]
    apply returns_bind returns_advance
    exact returns_bind hright (returns_pure _)

theorem stops_of_binary {pos : ℕ} {op : InfixOp} {tok : Token} (htok : tokens[pos]? = some tok)
    (hop : tok.lexeme = op.lexeme) :
  Stops tokens pos (op.level + 1)
  := by
  have hkind : tok.kind = op.lexeme.kind := congrArg Lexeme.kind hop
  refine ⟨tok, htok, ?_, fun _ => Nat.succ_pos _, ?_⟩
  · rw [hkind]
    cases op <;> decide
  · left
    rw [hkind]
    exact Nat.lt_succ_self op.level

/-- Behind the operand of a prefix operator no binary operator goes on with it. -/
theorem Stops.operand {pos minPrec : ℕ} (h : Stops tokens pos minPrec) : Stops tokens pos 7 := by
  obtain ⟨tok, htok, harrow, _, _⟩ := h
  exact ⟨tok, htok, harrow, fun _ => Nat.succ_pos _, Or.inl (precedence_lt tok.kind)⟩

theorem reached_name (text : String) : (Tree.name text).Reached tokens := by
  rintro n minPrec ⟨pos, flag⟩ rfl _ _ hspells _ hpost
  obtain ⟨tok, htok, hlexeme⟩ := hspells.head
  have htext : tok.text = text := congrArg Lexeme.text hlexeme
  have hstart : Returns tokens (parsePrefix (fixFuel parseBody n)) ⟨pos, false⟩ _ _ :=
    parsePrefix_name htok (congrArg Lexeme.kind hlexeme) (hpost rfl)
  exact ⟨_, _, _, ⟨tok.line, tok.col, rfl⟩, htext ▸ hstart, Passes.refl _ _⟩

theorem reached_int (value : ℕ) : (Tree.int value).Reached tokens := by
  rintro n minPrec ⟨pos, flag⟩ rfl _ _ hspells _ _
  obtain ⟨tok, htok, hlexeme⟩ := hspells.head
  have htext : tok.text = toString value := congrArg Lexeme.text hlexeme
  have hstart : Returns tokens (parsePrefix (fixFuel parseBody n)) ⟨pos, false⟩ _ _ :=
    parsePrefix_int htok (congrArg Lexeme.kind hlexeme)
  rw [htext, strtoll_toString] at hstart
  exact ⟨_, _, _, ⟨tok.line, tok.col, rfl⟩, hstart, Passes.refl _ _⟩

theorem reached_unary (op : PrefixOp) {operand : Tree} (ih : operand.Reached tokens) :
  (Tree.unary op operand).Reached tokens
  := by
  rintro n minPrec ⟨pos, flag⟩ rfl _ hn hspells hstop hpost
  obtain ⟨tok, htok, hlexeme⟩ := hspells.head
  have htext : tok.text = op.lexeme.text := congrArg Lexeme.text hlexeme
  simp only [Tree.print, List.length_cons] at hn hstop hpost ⊢
  obtain ⟨n, rfl⟩ : ∃ m, n = m + 1 := ⟨n - 1, by omega⟩
  generalize hprinted : parenthesize (operand.level < 7) operand.print = printed at *
  have hend : pos + (printed.length + 1) = pos + 1 + printed.length := by omega
  rw [hend] at hstop hpost ⊢
  obtain ⟨expr, hmatches, hexpr⟩ : ∃ expr, operand.Matches expr ∧
      Returns tokens (fixFuel parseBody (n + 1) (.expression 7)) ⟨pos + 1, false⟩ expr
        ⟨pos + 1 + printed.length, false⟩ := by
    subst hprinted
    apply operand_returns ih rfl (by omega) hspells.tail hstop.operand
    intro _
    exact hpost rfl
  have hstart := parsePrefix_unary htok (congrArg Lexeme.kind hlexeme) hexpr (hpost rfl)
  rw [htext] at hstart
  exact ⟨_, _, _, ⟨tok.line, tok.col, expr, hmatches, rfl⟩, hstart, Passes.refl _ _⟩

theorem reached_binary (op : InfixOp) {left right : Tree} (ihl : left.Reached tokens)
    (ihr : right.Reached tokens) :
  (Tree.binary op left right).Reached tokens
  := by
  rintro n minPrec ⟨pos, flag⟩ rfl hmin hn hspells hstop hpost
  have hlevel : (Tree.binary op left right).level = op.level := rfl
  rw [hlevel] at hmin hstop
  have hendsBare : right.level < op.level + 1 ∨ right.endsBare = false →
      (Tree.binary op left right).endsBare = false := by
    rintro (hlt | hbare)
    · simp [Tree.endsBare, Nat.le_of_lt_succ hlt]
    · simp [Tree.endsBare, hbare]
  simp only [Tree.print, List.length_append, List.length_cons] at hn hspells hstop hpost ⊢
  obtain ⟨n, rfl⟩ : ∃ m, n = m + 1 := ⟨n - 1, by omega⟩
  generalize hleft : parenthesize (left.level < op.level) left.print = printedLeft at *
  generalize hright : parenthesize (right.level < op.level + 1) right.print = printedRight at *
  have hend : pos + (printedLeft.length + (printedRight.length + 1)) =
      pos + printedLeft.length + 1 + printedRight.length := by omega
  rw [hend] at hstop hpost ⊢
  obtain ⟨tok, htok, hlexeme⟩ := hspells.right.head
  have hkind : tok.kind = op.lexeme.kind := congrArg Lexeme.kind hlexeme
  have hpostfix : PostfixStops tokens (pos + printedLeft.length) := by
    apply postfixStops_of_token htok
    rw [hkind]
    cases op <;> decide
  obtain ⟨first, c', l, hl, hstart, hpasses⟩ : ∃ first c' l, left.Matches l ∧
      Returns tokens (parsePrefix (fixFuel parseBody (n + 1))) ⟨pos, false⟩ first c' ∧
      Passes tokens (parseOperator (fixFuel parseBody (n + 1)) minPrec) first c' l
        ⟨pos + printedLeft.length, false⟩ := by
    subst hleft
    exact operand_reached ihl rfl hmin (by omega) hspells.left (stops_of_binary htok hlexeme)
      fun _ => hpostfix
  obtain ⟨r, hr, hreturns⟩ : ∃ r, right.Matches r ∧
      Returns tokens (fixFuel parseBody (n + 1) (.expression (op.level + 1)))
        ⟨pos + printedLeft.length + 1, false⟩ r
        ⟨pos + printedLeft.length + 1 + printedRight.length, false⟩ := by
    subst hright
    exact operand_returns ihr rfl (by omega) hspells.right.tail hstop fun h => hpost (hendsBare h)
  have hpass := fun l => @parseOperator_goesOn tokens ⟨pos + printedLeft.length, false⟩ (n + 1) minPrec op
    tok l r _ rfl htok hlexeme hmin hreturns
  refine ⟨first, c', _, ⟨tok.line, tok.col, l, r, hl, hr, rfl⟩, hstart, hpasses.tail (hpass l) ?_⟩
  show pos + printedLeft.length < pos + printedLeft.length + 1 + printedRight.length
  omega

/-- The induction is on the tree: its left operand is parsed by the passes before the one that
parses its right operand. -/
theorem Tree.reached (t : Tree) : t.Reached tokens := by
  induction t with
  | name text => exact reached_name text
  | int value => exact reached_int value
  | unary op operand ih => exact reached_unary op ih
  | binary op left right ihl ihr => exact reached_binary op ihl ihr

/-! ### Printed trees -/

theorem spells_append {before printed rest : List Token} {lexemes : List Lexeme}
    (hprinted : printed.map Token.lexeme = lexemes) :
  Spells (before ++ printed ++ rest) before.length lexemes
  := by
  subst hprinted
  intro i hi
  rw [List.length_map] at hi
  use printed[i]
  constructor
  · rw [List.append_assoc, List.getElem?_append_right (Nat.le_add_right _ _), Nat.add_sub_cancel_left,
      List.getElem?_append_left hi, List.getElem?_eq_getElem hi]
  · rw [List.getElem_map]

/-- Behind a list of tokens are those that follow it. -/
theorem getElem?_behind (before rest : List Token) (n : ℕ) :
  (before ++ rest)[before.length + n]? = rest[n]?
  := by
  rw [List.getElem?_append_right (Nat.le_add_right _ _), Nat.add_sub_cancel_left]

/-- The tokens of a tree that the end of a line or of the program follows are parsed to this
tree and no further, unless they end with a token a dot may apply to and the next line starts
with a dot. -/
theorem parseExpression_print {t : Tree} {before printed rest : List Token}
    (hprinted : printed.map Token.lexeme = t.print)
    (hrest : ∃ tok, rest.head? = some tok ∧ (tok.kind = .NEWLINE ∨ tok.kind = .EOF))
    (hdot : t.endsBare = true ∨
      ∃ tok, rest.find? (fun tok => !isNewline tok) = some tok ∧ tok.kind ≠ .DOT) :
  ∃ node, t.Matches node ∧ parseExpression 0 (before ++ printed ++ rest) ⟨before.length, false⟩ =
    .ok node ⟨before.length + printed.length, false⟩
  := by
  have hlength : t.print.length = printed.length := by rw [← hprinted, List.length_map]
  have hat (n : ℕ) : (before ++ printed ++ rest)[before.length + printed.length + n]? = rest[n]? := by
    rw [← List.length_append]
    exact getElem?_behind _ _ n
  obtain ⟨tok, htok, hkind⟩ := hrest
  have htok : (before ++ printed ++ rest)[before.length + printed.length]? = some tok := by
    rw [← htok, List.head?_eq_getElem?]
    exact hat 0
  have hstop (minPrec : ℕ) : Stops (before ++ printed ++ rest) (before.length + printed.length) minPrec :=
    stops_of_token minPrec htok (by rcases hkind with hkind | hkind <;> simp [hkind])
  have hpost (hbare : t.endsBare = false) :
      PostfixStops (before ++ printed ++ rest) (before.length + printed.length) := by
    obtain ⟨tok', hfind, hdot⟩ := hdot.resolve_left (by simp [hbare])
    obtain ⟨n, hrun, htok'⟩ := run_of_find? hfind
    refine ⟨tok, n, tok', htok, by rcases hkind with hkind | hkind <;> simp [hkind], ?_, ?_, hdot⟩
    · rw [← List.length_append, List.drop_left]
      exact hrun
    · rw [hat, htok']
  obtain ⟨left, c', node, hmatches, hstart, hpasses⟩ :=
    @Tree.reached (before ++ printed ++ rest) t
      (2 * (before ++ printed ++ rest).length + 1) 0 ⟨before.length, false⟩ rfl (Nat.zero_le _)
      (by simp only [List.length_append]; omega) (spells_append hprinted)
      (hlength ▸ hstop _) (hlength ▸ hpost)
  rw [hlength] at hpasses
  exact ⟨node, hmatches, parseExpression_of_passes hstart hpasses (hstop 0)⟩

/-- The tokens of `a * (b else 2)` before the end of a line. -/
theorem parseExpression_print_group :
  ∃ node,
    Tree.Matches (.binary .mul (.name "a") (.binary .orElse (.name "b") (.int 2))) node ∧
    parseExpression 0
      ([] ++ [⟨.NAME, "a", 1, 1⟩, ⟨.STAR, "*", 1, 3⟩, ⟨.LPAREN, "(", 1, 5⟩, ⟨.NAME, "b", 1, 6⟩,
        ⟨.ELSE, "else", 1, 8⟩, ⟨.INT_LITERAL, "2", 1, 13⟩, ⟨.RPAREN, ")", 1, 14⟩] ++
        [⟨.NEWLINE, "\n", 1, 15⟩, ⟨.EOF, "", 2, 1⟩]) ⟨0, false⟩ = .ok node ⟨7, false⟩
  := @parseExpression_print _ [] _ [⟨.NEWLINE, "\n", 1, 15⟩, ⟨.EOF, "", 2, 1⟩] (by decide)
    ⟨_, rfl, Or.inl rfl⟩ (Or.inr ⟨_, rfl, by decide⟩)

/-- A dot at the start of the next line goes on with the name before it, as in `a` and `.b`. -/
theorem not_parseExpression_print_dot :
  ¬ ∀ (t : Tree) (printed rest : List Token), printed.map Token.lexeme = t.print →
    EndsWithEof (printed ++ rest) →
    (∃ tok, rest.head? = some tok ∧ (tok.kind = .NEWLINE ∨ tok.kind = .EOF)) →
    ∃ node, t.Matches node ∧
      parseExpression 0 (printed ++ rest) ⟨0, false⟩ = .ok node ⟨printed.length, false⟩
  := by
  intro h
  obtain ⟨node, hmatches, hparse⟩ := h (.name "a") [⟨.NAME, "a", 1, 1⟩]
    [⟨.NEWLINE, "\n", 1, 2⟩, ⟨.DOT, ".", 2, 1⟩, ⟨.NAME, "b", 2, 2⟩, ⟨.EOF, "", 2, 3⟩] rfl
    ⟨[⟨.NAME, "a", 1, 1⟩, ⟨.NEWLINE, "\n", 1, 2⟩, ⟨.DOT, ".", 2, 1⟩, ⟨.NAME, "b", 2, 2⟩],
      ⟨.EOF, "", 2, 3⟩, rfl, rfl, by simp⟩
    ⟨_, rfl, Or.inl rfl⟩
  have hpos : (match parseExpression 0 ([⟨.NAME, "a", 1, 1⟩] ++
      [⟨.NEWLINE, "\n", 1, 2⟩, ⟨.DOT, ".", 2, 1⟩, ⟨.NAME, "b", 2, 2⟩, ⟨.EOF, "", 2, 3⟩]) ⟨0, false⟩ with
    | .ok _ c => c.pos
    | _ => 0) = 4 := by decide
  rw [hparse] at hpos
  cases hpos

end Caster.Parse
