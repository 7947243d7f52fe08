import Caster.Library.PrecedenceClimbing
import Caster.Parse.Precedence
import Caster.SelfHosting.ParserResults
import Caster.SelfHosting.SharedText

/-!
# Both parsers of expressions agree

Names, integers, parentheses, the prefix operators `-` and `!` and the binary operators of both
tables make the shared fragment.  For the tokens of an expression of the fragment both parsers
follow the rules of precedence climbing, so both return the one tree that follows the levels.
-/

namespace Caster.SelfHosting

open PrecedenceClimbing
open TokenParser (Returns returns_bind returns_pure)
open Parse (Node TokenKind binaryNode nodeNew strtoll)

/-! ### Trees without groups -/

mutual

/-- An expression in which each group is replaced by what it contains. -/
def Expr.eraseGroups : Expr → Expr
  | ⟨.group, _, _, [inner], _⟩ => inner.eraseGroups
  | ⟨kind, text, op, children, span⟩ => ⟨kind, text, op, eraseGroupsAll children, span⟩

/-- Expressions in which each group is replaced by what it contains. -/
def eraseGroupsAll : List Expr → List Expr
  | [] => []
  | child :: children => child.eraseGroups :: eraseGroupsAll children

end

/-- The node the compiler has for an expression without groups. -/
def Expr.node : Expr → Option Node
  | ⟨.name, text, _, [], span⟩ =>
    some { kind := .NAME, line := span.line, col := span.col, name := some text }
  | ⟨.int, text, _, [], span⟩ =>
    some { kind := .INT, line := span.line, col := span.col, intValue := strtoll text }
  | ⟨.unary, _, op, [operand], span⟩ =>
    operand.node.map fun operand =>
      { kind := .UNARY, line := span.line, col := span.col, op := some op, expr := some operand }
  | ⟨.binary, _, op, [left, right], span⟩ => do
    let left ← left.node
    let right ← right.node
    some { kind := .BINARY, line := span.line, col := span.col, op := some op, left := some left,
           right := some right }
  | _ => none

/-! ### The shared fragment -/

/-- The level of a binary operator that both tables contain. -/
def sharedLevel (kind : TokenKind) : ℕ :=
  if 0 < precedence (kindOf kind) then (Parse.precedence kind).1 else 0

/-- The shared fragment. -/
def shared : Grammar Parse.Token where
  atom tok := tok.kind ∈ [TokenKind.NAME, .INT_LITERAL]
  opening tok := tok.kind = .LPAREN
  closing tok := tok.kind = .RPAREN
  prefixOp tok := tok.kind ∈ [TokenKind.MINUS, .BANG]
  level tok := sharedLevel tok.kind
  final tok := tok.kind = .EOF
  level_closing tok h := by
    rw [of_decide_eq_true h]
    rfl
  level_final tok h := by
    rw [of_decide_eq_true h]
    rfl

/-- Both tables have the level of an operator, and its text. -/
theorem sharedLevel_pos {kind : TokenKind} (h : 0 < sharedLevel kind) :
  (Parse.precedence kind).1 = sharedLevel kind ∧ precedence (kindOf kind) = sharedLevel kind ∧
    (Parse.precedence kind).2 = some (binaryOp (kindOf kind))
  := by
  cases kind <;> first | exact absurd h (by decide) | decide

theorem sharedLevel_lt (kind : TokenKind) : sharedLevel kind < 7 := by
  cases kind <;> decide

/-- What is behind an operand is no call, no dot, no end of a line and no other operator. -/
theorem ends_kind {t : Parse.Token} {ts : List Parse.Token} (h : shared.Ends (t :: ts)) :
  t.kind ∉ [TokenKind.LPAREN, .NEWLINE, .DOT, .EQUAL, .ELSE, .IS, .ARROW] ∧
    (sharedLevel t.kind = 0 → t.kind = .RPAREN ∨ t.kind = .EOF)
  := by
  obtain ⟨u, us, htokens, hends⟩ := h
  obtain ⟨rfl, rfl⟩ := List.cons.inj htokens
  rcases hends with hlevel | hclosing | hfinal
  · constructor
    · intro hkind
      have hlevel : 0 < sharedLevel t.kind := hlevel
      revert hlevel
      generalize t.kind = kind at hkind
      revert kind
      decide
    · exact fun hzero => absurd hlevel (by simp [shared, hzero])
  · have hkind : t.kind = .RPAREN := of_decide_eq_true hclosing
    exact ⟨by simp [hkind], fun _ => .inl hkind⟩
  · have hkind : t.kind = .EOF := of_decide_eq_true hfinal
    exact ⟨by simp [hkind], fun _ => .inr hkind⟩

/-- A tree of operators of the compiler's tokens. -/
abbrev TokenTree : Type := PrecedenceClimbing.Tree Parse.Token

/-- The node of a tree. -/
def nodeOf : TokenTree → Node
  | .leaf tok =>
    if tok.kind = .INT_LITERAL then { nodeNew .INT tok with intValue := strtoll tok.text }
    else { nodeNew .NAME tok with name := some tok.text }
  | .group _ inner _ => nodeOf inner
  | .unary tok operand => { nodeNew .UNARY tok with op := some tok.text, expr := some (nodeOf operand) }
  | .binary tok left right => binaryNode tok (Parse.precedence tok.kind).2 (nodeOf left) (nodeOf right)

/-! ### The parser of the compiler -/

section

variable (tokens : List Parse.Token)

/-- The state before the last ones of the tokens. -/
def before (ts : List Parse.Token) : Cursor := ⟨tokens.length - ts.length, false⟩

variable {tokens}

theorem before_cons {t : Parse.Token} {ts : List Parse.Token} (h : t :: ts <:+ tokens) :
  tokens[(before tokens (t :: ts)).pos]? = some t ∧ Parse.next (before tokens (t :: ts)) = before tokens ts
  := by
  obtain ⟨passed, rfl⟩ := h
  constructor
  · simp [before]
  · simp only [before, Parse.next, List.length_append, List.length_cons]
    congr 1
    omega

/-- Some tokens start neither with the end of a line nor with a field that is set. -/
def StartsOperand (ts : List Parse.Token) : Prop :=
  ∃ t u us, ts = t :: u :: us ∧ t.kind ≠ .NEWLINE ∧ (t.kind = .NAME → u.kind ≠ .EQUAL)

variable (tokens)

/-- A parser with fuel for some tokens returns the node of a tree before the rest of them. -/
structure Reads (parser : ℕ → Parse.P Node) (ts : List Parse.Token) (tree : TokenTree)
    (rest : List Parse.Token) : Prop where
  starts : StartsOperand ts
  suffix : rest <:+ ts
  shorter : rest.length < ts.length
  returns : ts <:+ tokens → ∀ n, ts.length ≤ n →
    Returns tokens (parser n) (before tokens ts) (nodeOf tree) (before tokens rest)

/-- What the loop over the operators behind an expression does. -/
def LoopReads (minPrec : ℕ) (left : TokenTree) (ts : List Parse.Token)
    (tree : TokenTree) (rest : List Parse.Token) : Prop :=
  rest <:+ ts ∧ (ts <:+ tokens → ∀ n m, ts.length ≤ n → ts.length ≤ m →
    Returns tokens
      (TokenParser.iterate (Parse.parseOperator (TokenParser.fixFuel Parse.parseBody n) minPrec) m (nodeOf left))
      (before tokens ts) (nodeOf tree) (before tokens rest))

variable {tokens} {ts rest : List Parse.Token}

theorem postfixStops_of_ends (hends : shared.Ends rest) (h : rest <:+ tokens) :
  Parse.PostfixStops tokens (before tokens rest).pos
  := by
  obtain ⟨t, ts, rfl, _⟩ := id hends
  apply Parse.postfixStops_of_token (before_cons h).1
  exact fun hkind => (ends_kind hends).1 (by
    simp only [List.mem_cons, List.not_mem_nil, or_false] at hkind ⊢
    tauto)

theorem stops_of_ends {minPrec : ℕ} (hends : shared.Ends rest) (hstops : shared.Stops minPrec rest)
    (h : rest <:+ tokens) :
  Parse.Stops tokens (before tokens rest).pos minPrec
  := by
  obtain ⟨t, ts, rfl, _⟩ := id hends
  obtain ⟨hkind, hzero⟩ := ends_kind hends
  simp only [List.mem_cons, List.not_mem_nil, or_false, not_or] at hkind
  obtain ⟨_, _, _, _, helse, his, harrow⟩ := hkind
  refine ⟨t, (before_cons h).1, harrow, ?_, ?_⟩
  · rintro (hkind | hkind)
    · exact absurd hkind helse
    · exact absurd hkind his
  · by_cases hlevel : 0 < sharedLevel t.kind
    · rw [(sharedLevel_pos hlevel).1]
      rcases hstops t rfl with hstop | hstop
      · exact .inr hstop
      · exact .inl hstop
    · right
      rcases hzero (Nat.eq_zero_of_not_pos hlevel) with hkind | hkind <;> rw [hkind] <;> rfl

/-- Behind the operand of a prefix operator no binary operator goes on with it. -/
theorem stops_seven (rest : List Parse.Token) : shared.Stops 7 rest :=
  fun t _ => .inr (sharedLevel_lt t.kind)

/-- A parser of operands. -/
def prefixParser (n : ℕ) : Parse.P Node := Parse.parsePrefix (TokenParser.fixFuel Parse.parseBody n)

/-- A parser of expressions from a level on. -/
def expressionParser (minPrec n : ℕ) : Parse.P Node :=
  TokenParser.fixFuel Parse.parseBody (n + 1) (.expression minPrec)

theorem reads_leaf {t : Parse.Token} (ht : shared.atom t = true) (hends : shared.Ends rest) :
  Reads tokens prefixParser (t :: rest) (.leaf t) rest
  := by
  have hkind : t.kind = .NAME ∨ t.kind = .INT_LITERAL := by simpa [shared] using ht
  refine ⟨?_, List.suffix_cons _ _, Nat.lt_succ_self _, fun h n _ => ?_⟩
  · obtain ⟨u, us, rfl, _⟩ := id hends
    refine ⟨t, u, us, rfl, by rcases hkind with hkind | hkind <;> simp [hkind], fun _ hequal => ?_⟩
    exact (ends_kind hends).1 (by simp [hequal])
  · obtain ⟨htok, hnext⟩ := before_cons h
    rw [← hnext]
    rcases hkind with hkind | hkind
    · rw [nodeOf, if_neg (by simp [hkind])]
      apply Parse.parsePrefix_name htok hkind
      rw [← Parse.next_pos, hnext]
      exact postfixStops_of_ends hends ((List.suffix_cons _ _).trans h)
    · rw [nodeOf, if_pos hkind]
      exact Parse.parsePrefix_int htok hkind

theorem reads_unary {t : Parse.Token} {tree : TokenTree} (ht : shared.prefixOp t = true)
    (h : Reads tokens prefixParser ts tree rest) (hends : shared.Ends rest) :
  Reads tokens prefixParser (t :: ts) (.unary t tree) rest
  := by
  have hkind : t.kind = .MINUS ∨ t.kind = .BANG := by simpa [shared] using ht
  obtain ⟨u, v, us, rfl, _, _⟩ := h.starts
  refine ⟨⟨t, u, v :: us, rfl, ?_, ?_⟩, h.suffix.trans (List.suffix_cons _ _),
    h.shorter.trans (Nat.lt_succ_self _), fun hsuffix n hn => ?_⟩
  · rcases hkind with hkind | hkind <;> simp [hkind]
  · rcases hkind with hkind | hkind <;> simp [hkind]
  obtain ⟨htok, hnext⟩ := before_cons hsuffix
  have hts := (List.suffix_cons _ _).trans hsuffix
  have hrest := h.suffix.trans hts
  obtain ⟨n, rfl⟩ : ∃ m, n = m + 1 := ⟨n - 1, by simp at hn; omega⟩
  have hoperand : Returns tokens (TokenParser.fixFuel Parse.parseBody (n + 1) (.expression 7))
      (Parse.next (before tokens (t :: u :: v :: us))) (nodeOf tree) (before tokens rest) := by
    rw [hnext]
    apply Parse.parseExpression_of_passes (h.returns hts n (Nat.le_of_succ_le_succ hn)) (.refl _ _)
    exact stops_of_ends hends (stops_seven rest) hrest
  have hop : ∃ op : Parse.PrefixOp, t.kind = op.lexeme.kind := by
    rcases hkind with hkind | hkind
    · exact ⟨.neg, hkind⟩
    · exact ⟨.not, hkind⟩
  obtain ⟨op, hop⟩ := hop
  exact Parse.parsePrefix_unary htok hop hoperand (postfixStops_of_ends hends hrest)

theorem reads_group {o c : Parse.Token} {tree : TokenTree} (ho : shared.opening o = true)
    (hc : shared.closing c = true) (h : Reads tokens (expressionParser 0) ts tree (c :: rest))
    (hends : shared.Ends rest) :
  Reads tokens prefixParser (o :: ts) (.group o tree c) rest
  := by
  have hopen : o.kind = .LPAREN := of_decide_eq_true ho
  have hclose : c.kind = .RPAREN := of_decide_eq_true hc
  obtain ⟨u, v, us, rfl, hnewline, hfield⟩ := h.starts
  have hsuffix := (List.suffix_cons c rest).trans h.suffix
  refine ⟨⟨o, u, v :: us, rfl, by simp [hopen], by simp [hopen]⟩, hsuffix.trans (List.suffix_cons _ _),
    ?_, fun htokens n hn => ?_⟩
  · have := h.shorter
    simp only [List.length_cons] at this ⊢
    omega
  obtain ⟨htok, hnext⟩ := before_cons htokens
  have hts := (List.suffix_cons _ _).trans htokens
  obtain ⟨hu, hnextu⟩ := before_cons hts
  obtain ⟨hv, _⟩ := before_cons ((List.suffix_cons _ _).trans hts)
  obtain ⟨hcTok, hnextc⟩ := before_cons (h.suffix.trans hts)
  obtain ⟨n, rfl⟩ : ∃ m, n = m + 1 := ⟨n - 1, by simp at hn; omega⟩
  have hinner := h.returns hts n (Nat.le_of_succ_le_succ hn)
  rw [← hnext] at hinner hu hnextu
  rw [← hnextu] at hv
  have hnotField : Returns tokens (TokenParser.both (Parse.curIs .NAME) (Parse.peekIs 1 .EQUAL))
      (Parse.next (before tokens (o :: u :: v :: us))) false
      (Parse.next (before tokens (o :: u :: v :: us))) := by
    have hcur := Parse.curIs_returns hu .NAME
    by_cases hname : u.kind = .NAME
    · rw [decide_eq_true hname] at hcur
      apply TokenParser.returns_then hcur
      apply returns_bind (TokenParser.returns_peek hv)
      rw [decide_eq_false (hfield hname)]
      exact returns_pure false
    · rw [decide_eq_false hname] at hcur
      exact TokenParser.returns_else hcur (returns_pure false)
  rw [← hnextc]
  apply Parse.parsePrefix_group htok hopen hu hnewline hnotField hinner hcTok hclose
  rw [← Parse.next_pos, hnextc]
  exact postfixStops_of_ends hends (hsuffix.trans hts)

theorem reads_start {minPrec : ℕ} {first tree : TokenTree} {mid : List Parse.Token}
    (h : Reads tokens prefixParser ts first mid) (hloop : LoopReads tokens minPrec first mid tree rest) :
  Reads tokens (expressionParser minPrec) ts tree rest
  := by
  refine ⟨h.starts, hloop.1.trans h.suffix, hloop.1.length_le.trans_lt h.shorter, fun hts n hn => ?_⟩
  apply returns_bind (h.returns hts n hn)
  have hmid := h.suffix.trans hts
  exact hloop.2 hmid n _ (h.shorter.le.trans hn) (hmid.length_le.trans (Nat.le_succ _))

theorem loopReads_step {minPrec : ℕ} {t : Parse.Token} {left right tree : TokenTree}
    {mid : List Parse.Token} (ht : 0 < shared.level t) (hmin : minPrec ≤ shared.level t)
    (hright : Reads tokens (expressionParser (shared.level t + 1)) ts right mid)
    (hloop : LoopReads tokens minPrec (.binary t left right) mid tree rest) :
  LoopReads tokens minPrec left (t :: ts) tree rest
  := by
  obtain ⟨hprec, _, _⟩ := sharedLevel_pos ht
  refine ⟨(hloop.1.trans hright.suffix).trans (List.suffix_cons _ _), fun htokens n m hn hm => ?_⟩
  obtain ⟨htok, hnext⟩ := before_cons htokens
  have hts := (List.suffix_cons _ _).trans htokens
  obtain ⟨n, rfl⟩ : ∃ k, n = k + 1 := ⟨n - 1, by simp at hn; omega⟩
  obtain ⟨m, rfl⟩ : ∃ k, m = k + 1 := ⟨m - 1, by simp at hm; omega⟩
  have hlength := Nat.le_of_succ_le_succ hn
  have hpass : Returns tokens
      (Parse.parseOperator (TokenParser.fixFuel Parse.parseBody (n + 1)) minPrec (nodeOf left))
      (before tokens (t :: ts)) (.inl (nodeOf (.binary t left right))) (before tokens mid) := by
    have hends : shared.Ends (t :: ts) := ⟨t, ts, rfl, .inl ht⟩
    obtain ⟨hkind, _⟩ := ends_kind hends
    simp only [List.mem_cons, List.not_mem_nil, or_false, not_or] at hkind
    obtain ⟨_, _, _, _, helse, his, harrow⟩ := hkind
    have hskip : Returns tokens Parse.skipOperatorNewlines (before tokens (t :: ts)) ()
        (before tokens (t :: ts)) :=
      TokenParser.returns_else TokenParser.returns_flag (returns_pure ())
    apply returns_bind hskip
    apply returns_bind (Parse.cur_returns htok)
    rw [if_neg helse, if_neg his, if_neg harrow]
    dsimp only
    have hmin : minPrec ≤ sharedLevel t.kind := hmin
    have ht : 0 < sharedLevel t.kind := ht
    rw [hprec, if_neg (by omega)]
    apply returns_bind TokenParser.returns_advance
    have hreads := hright.returns hts n hlength
    rw [← hnext] at hreads
    exact returns_bind hreads (returns_pure _)
  apply returns_bind hpass
  apply hloop.2 (hright.suffix.trans hts)
  · exact (hright.shorter.le.trans hlength).trans (Nat.le_succ n)
  · exact hright.shorter.le.trans (Nat.le_of_succ_le_succ hm)

theorem loopReads_stop {minPrec : ℕ} {tree : TokenTree} (hends : shared.Ends rest)
    (hstops : shared.Stops minPrec rest) :
  LoopReads tokens minPrec tree rest tree rest
  := by
  refine ⟨List.suffix_refl _, fun hrest n m _ hm => ?_⟩
  obtain ⟨t, ts, hcons, _⟩ := id hends
  obtain ⟨m, rfl⟩ : ∃ k, m = k + 1 := ⟨m - 1, by simp [hcons] at hm; omega⟩
  apply returns_bind (Parse.parseOperator_stops rfl (stops_of_ends hends hstops hrest))
  exact returns_pure _

variable (tokens)

/-- The parser of the compiler follows the rules of precedence climbing. -/
def climber : Climber shared where
  base := 0
  base_le := Nat.zero_le 1
  operand := Reads tokens prefixParser
  expression minPrec := Reads tokens (expressionParser minPrec)
  loop := LoopReads tokens
  leaf ht hends := reads_leaf ht hends
  group ho hc _ h hends := reads_group ho hc h hends
  unary ht h hends := reads_unary ht h hends
  start h hloop := reads_start h hloop
  step ht hmin hright hloop := loopReads_step ht hmin hright hloop
  stop hends hstops := loopReads_stop hends hstops

end

/-! ### The parser written in Caster -/

section

variable {tokens : List Parse.Token} {s : State} (hs : List.Forall₂ Corresponds tokens s.tokens)

/-- The state before the last ones of the tokens. -/
def State.before (s : State) (ts : List Parse.Token) : State :=
  { s with pos := s.tokens.length - ts.length }

/-- The state behind the token at the position. -/
def State.next (s : State) : State := { s with pos := s.pos + 1 }

include hs in
theorem State.before_cons {t : Parse.Token} {ts : List Parse.Token} (h : t :: ts <:+ tokens) :
  ∃ tok, (s.before (t :: ts)).tokens[(s.before (t :: ts)).pos]? = some tok ∧ Corresponds t tok ∧
    (s.before (t :: ts)).next = s.before ts
  := by
  obtain ⟨passed, rfl⟩ := h
  have hlength := hs.length_eq
  rw [List.length_append, List.length_cons] at hlength
  have hpos : (s.before (t :: ts)).pos = passed.length := by
    simp only [State.before, List.length_cons]
    omega
  have hlt : passed.length < s.tokens.length := by omega
  refine ⟨s.tokens[passed.length], ?_, ?_, ?_⟩
  · rw [hpos]
    exact List.getElem?_eq_getElem hlt
  · have := hs.get (i := passed.length) (by simp) hlt
    simpa using this
  · simp only [State.next, State.before, List.length_cons]
    congr 1
    omega

variable (tokens s)

/-- A parser with fuel for some tokens gives an expression for a tree before the rest of them. -/
structure SelfReads (parser : ℕ → Parser Expr) (ts : List Parse.Token) (tree : TokenTree)
    (rest : List Parse.Token) : Prop where
  suffix : rest <:+ ts
  shorter : rest.length < ts.length
  gives : ts <:+ tokens → ∀ n, ts.length ≤ n → ∃ expr : Expr,
    expr.eraseGroups.node = some (nodeOf tree) ∧ Gives (parser n) (s.before ts) expr (s.before rest)

/-- What the loop over the operators behind an expression does. -/
def SelfLoopReads (minPrecedence : ℕ) (left : TokenTree) (ts : List Parse.Token) (tree : TokenTree)
    (rest : List Parse.Token) : Prop :=
  rest <:+ ts ∧ (ts <:+ tokens → ∀ n m, ts.length ≤ n → ts.length ≤ m → ∀ out : Expr,
    out.eraseGroups.node = some (nodeOf left) → ∃ expr : Expr,
      expr.eraseGroups.node = some (nodeOf tree) ∧
      Gives (iterate (parseOperator (fixFuel n) minPrecedence) m out) (s.before ts) expr
        (s.before rest))

variable {tokens s} {ts rest : List Parse.Token} {self : Entry → Parser Expr}

/-- A parser of operands. -/
def unaryParser (n : ℕ) : Parser Expr := parseUnary (fixFuel n)

/-- A parser of expressions from a level on. -/
def climbingParser (minPrecedence n : ℕ) : Parser Expr := fixFuel (n + 1) (.expression minPrecedence)

theorem kindOf_ne {kind : TokenKind} (h : kind ∉ [TokenKind.LPAREN, .DOT]) :
  kindOf kind ≠ .LPAREN ∧ kindOf kind ≠ .DOT
  := by
  cases kind <;> first | exact absurd h (by decide) | exact ⟨by decide, by decide⟩

theorem not_isExpressionBoundary {kind : Kind} (h : 0 < precedence kind) :
  kind ≠ .EOF ∧ isExpressionBoundary kind = false
  := by
  cases kind <;> first | exact absurd h (by decide) | exact ⟨by decide, by decide⟩

include hs

/-- Nothing that is called or has members is before the end of an operand. -/
theorem parsePostfix_gives (hends : shared.Ends rest) (h : rest <:+ tokens) (out : Expr) :
  Gives (parsePostfix self out) (s.before rest) out (s.before rest)
  := by
  obtain ⟨t, ts, rfl, _⟩ := id hends
  obtain ⟨tok, htok, hcorr, _⟩ := State.before_cons hs h
  obtain ⟨hkind, _⟩ := ends_kind hends
  have hno : t.kind ∉ [TokenKind.LPAREN, .DOT] := by
    simp only [List.mem_cons, List.not_mem_nil, or_false] at hkind ⊢
    tauto
  obtain ⟨hparen, hdot⟩ := kindOf_ne hno
  rw [← hcorr.kind] at hparen hdot
  have hbody : Gives (do
      if ← atEnd then pure (.inr out)
      else if ← atKind .LPAREN then
        let call ← parseCall self out
        pure (.inl call)
      else if ← atKind .DOT then
        let dot ← parseDot self out
        pure (.inl dot)
      else pure (.inr out)) (s.before (t :: ts)) (.inr out : Expr ⊕ Expr) (s.before (t :: ts)) := by
    by_cases hend : tok.kind = .EOF
    · exact gives_then (atKind_gives_true htok hend) (gives_pure _ _)
    · apply gives_else (atKind_gives_false htok hend)
      apply gives_else (atKind_gives_false htok hparen)
      apply gives_else (atKind_gives_false htok hdot)
      exact gives_pure _ _
  exact gives_bind hbody (gives_pure _ _)

theorem parsePrimary_gives {t : Parse.Token} {expr : Expr} (h : t :: ts <:+ tokens)
    (hkind : isPrefixOp (kindOf t.kind) = false)
    (hprimary : Gives (parsePrimary self) (s.before (t :: ts)) expr (s.before rest))
    (hends : shared.Ends rest) (hrest : rest <:+ tokens) :
  Gives (parseUnary self) (s.before (t :: ts)) expr (s.before rest)
  := by
  obtain ⟨tok, htok, hcorr, _⟩ := State.before_cons hs h
  apply gives_bind (current_gives htok)
  rw [if_neg (by simp [hcorr.kind, hkind])]
  exact gives_bind hprimary (parsePostfix_gives hs hends hrest expr)

theorem selfReads_leaf {t : Parse.Token} (ht : shared.atom t = true) (hends : shared.Ends rest) :
  SelfReads tokens s unaryParser (t :: rest) (.leaf t) rest
  := by
  have hkind : t.kind = .NAME ∨ t.kind = .INT_LITERAL := by simpa [shared] using ht
  refine ⟨List.suffix_cons _ _, Nat.lt_succ_self _, fun h n _ => ?_⟩
  obtain ⟨tok, htok, hcorr, hnext⟩ := State.before_cons hs h
  have hrest := (List.suffix_cons _ _).trans h
  rcases hkind with hkind | hkind
  · have htokKind : tok.kind = .NAME := by rw [hcorr.kind, hkind]; rfl
    refine ⟨{ kind := .name, text := tok.lexeme, span := tok.span }, ?_, ?_⟩
    · show some _ = some _
      rw [hcorr.text, hcorr.line, hcorr.col, nodeOf, if_neg (by simp [hkind])]
      rfl
    · apply parsePrimary_gives hs h (by rw [hkind]; rfl) _ hends hrest
      apply gives_bind (current_gives htok)
      rw [htokKind, ← hnext]
      exact gives_bind (advance_gives htok) (gives_pure _ _)
  · have htokKind : tok.kind = .INT_LITERAL := by rw [hcorr.kind, hkind]; rfl
    refine ⟨{ kind := .int, text := tok.lexeme, span := tok.span }, ?_, ?_⟩
    · show some _ = some _
      rw [hcorr.text, hcorr.line, hcorr.col, nodeOf, if_pos hkind]
      rfl
    · apply parsePrimary_gives hs h (by rw [hkind]; rfl) _ hends hrest
      apply gives_bind (current_gives htok)
      rw [htokKind, ← hnext]
      exact gives_bind (advance_gives htok) (gives_pure _ _)

theorem selfReads_unary {t : Parse.Token} {tree : TokenTree} (ht : shared.prefixOp t = true)
    (h : SelfReads tokens s unaryParser ts tree rest) :
  SelfReads tokens s unaryParser (t :: ts) (.unary t tree) rest
  := by
  have hkind : t.kind = .MINUS ∨ t.kind = .BANG := by simpa [shared] using ht
  refine ⟨h.suffix.trans (List.suffix_cons _ _), h.shorter.trans (Nat.lt_succ_self _),
    fun htokens n hn => ?_⟩
  obtain ⟨tok, htok, hcorr, hnext⟩ := State.before_cons hs htokens
  have hts := (List.suffix_cons _ _).trans htokens
  have hlength := Nat.zero_lt_of_lt h.shorter
  obtain ⟨n, rfl⟩ : ∃ m, n = m + 1 := ⟨n - 1, by simp at hn; omega⟩
  obtain ⟨operand, hnode, hoperand⟩ := h.gives hts n (Nat.le_of_succ_le_succ hn)
  have htext : isPrefixOp tok.kind = true ∧ tokenText tok = t.text := by
    rw [tokenText, hcorr.kind, hcorr.text]
    rcases hkind with hkind | hkind <;> rw [hkind] <;> exact ⟨rfl, rfl⟩
  refine ⟨{ kind := .unary, op := tokenText tok, children := [operand], span := tok.span }, ?_, ?_⟩
  · show operand.eraseGroups.node.map _ = some _
    rw [hnode, htext.2, hcorr.line, hcorr.col]
    rfl
  · apply gives_bind (current_gives htok)
    rw [if_pos htext.1]
    apply gives_bind (advance_gives htok)
    rw [← State.next, hnext]
    exact gives_bind hoperand (gives_pure _ _)

theorem selfReads_group {o c : Parse.Token} {tree : TokenTree} (ho : shared.opening o = true)
    (hc : shared.closing c = true) (h : SelfReads tokens s (climbingParser 1) ts tree (c :: rest))
    (hends : shared.Ends rest) :
  SelfReads tokens s unaryParser (o :: ts) (.group o tree c) rest
  := by
  have hopen : o.kind = .LPAREN := of_decide_eq_true ho
  have hclose : c.kind = .RPAREN := of_decide_eq_true hc
  have hsuffix := (List.suffix_cons c rest).trans h.suffix
  have hshorter := h.shorter
  rw [List.length_cons] at hshorter
  refine ⟨hsuffix.trans (List.suffix_cons _ _), by rw [List.length_cons]; omega, fun htokens n hn => ?_⟩
  obtain ⟨tok, htok, hcorr, hnext⟩ := State.before_cons hs htokens
  have hts := (List.suffix_cons _ _).trans htokens
  obtain ⟨ctok, hctok, hccorr, hcnext⟩ := State.before_cons hs (h.suffix.trans hts)
  obtain ⟨n, rfl⟩ : ∃ m, n = m + 1 := ⟨n - 1, by simp at hn; omega⟩
  obtain ⟨inner, hnode, hinner⟩ := h.gives hts n (Nat.le_of_succ_le_succ hn)
  have hcKind : ctok.kind = .RPAREN := by rw [hccorr.kind, hclose]; rfl
  refine ⟨{ kind := .group, children := [inner], span := tok.span }, hnode, ?_⟩
  apply parsePrimary_gives hs htokens (by rw [hopen]; rfl) _ hends (hsuffix.trans hts)
  apply gives_bind (current_gives htok)
  rw [hcorr.kind, hopen]
  apply gives_bind (advance_gives htok)
  rw [← State.next, hnext]
  apply gives_bind hinner
  rw [← hcnext]
  exact gives_bind (expect_gives hctok hcKind _) (gives_pure _ _)

theorem selfReads_start {minPrecedence : ℕ} {first tree : TokenTree} {mid : List Parse.Token}
    (h : SelfReads tokens s unaryParser ts first mid)
    (hloop : SelfLoopReads tokens s minPrecedence first mid tree rest) :
  SelfReads tokens s (climbingParser minPrecedence) ts tree rest
  := by
  refine ⟨hloop.1.trans h.suffix, hloop.1.length_le.trans_lt h.shorter, fun hts n hn => ?_⟩
  obtain ⟨left, hleft, hgives⟩ := h.gives hts n hn
  have hmid := h.suffix.trans hts
  have hfuel : mid.length ≤ s.tokens.length + 1 :=
    (hmid.length_le.trans_eq hs.length_eq).trans (Nat.le_succ _)
  obtain ⟨expr, hexpr, hrest⟩ := hloop.2 hmid n _ (h.shorter.le.trans hn) hfuel left hleft
  exact ⟨expr, hexpr, gives_bind hgives hrest⟩

theorem selfLoopReads_step {minPrecedence : ℕ} {t : Parse.Token} {left right tree : TokenTree}
    {mid : List Parse.Token} (ht : 0 < shared.level t) (hmin : minPrecedence ≤ shared.level t)
    (hright : SelfReads tokens s (climbingParser (shared.level t + 1)) ts right mid)
    (hloop : SelfLoopReads tokens s minPrecedence (.binary t left right) mid tree rest) :
  SelfLoopReads tokens s minPrecedence left (t :: ts) tree rest
  := by
  have hmin : minPrecedence ≤ sharedLevel t.kind := hmin
  have ht : 0 < sharedLevel t.kind := ht
  obtain ⟨_, hprec, htext⟩ := sharedLevel_pos ht
  refine ⟨(hloop.1.trans hright.suffix).trans (List.suffix_cons _ _), fun htokens n m hn hm out hout => ?_⟩
  obtain ⟨tok, htok, hcorr, hnext⟩ := State.before_cons hs htokens
  have hts := (List.suffix_cons _ _).trans htokens
  have hshorter := hright.shorter
  rw [List.length_cons] at hn hm
  obtain ⟨n, rfl⟩ : ∃ k, n = k + 1 := ⟨n - 1, by omega⟩
  obtain ⟨m, rfl⟩ : ∃ k, m = k + 1 := ⟨m - 1, by omega⟩
  obtain ⟨operand, hnode, hoperand⟩ := hright.gives hts n (by omega)
  let joined : Expr :=
    { kind := .binary, op := binaryOp tok.kind, children := [out, operand], span := tok.span }
  have hjoined : joined.eraseGroups.node = some (nodeOf (.binary t left right)) := by
    show (out.eraseGroups.node.bind fun l => operand.eraseGroups.node.bind fun r => some _) = some _
    rw [hout, hnode, hcorr.kind, hcorr.line, hcorr.col, nodeOf, htext]
    rfl
  have hpass : Gives (parseOperator (fixFuel (n + 1)) minPrecedence out) (s.before (t :: ts))
      (.inl joined) (s.before mid) := by
    have hlevel : precedence tok.kind = sharedLevel t.kind := by rw [hcorr.kind, hprec]
    obtain ⟨heof, hboundary⟩ := not_isExpressionBoundary (hlevel ▸ ht)
    apply gives_else (atKind_gives_false htok heof)
    apply gives_bind (current_gives htok)
    dsimp only
    rw [hlevel, hboundary, if_neg (by simp only [Bool.false_eq_true, or_false]; omega)]
    apply gives_bind (advance_gives htok)
    rw [← State.next, hnext]
    exact gives_bind hoperand (gives_pure _ _)
  obtain ⟨expr, hexpr, hrest⟩ := hloop.2 (hright.suffix.trans hts) (n + 1) m (by omega) (by omega)
    joined hjoined
  exact ⟨expr, hexpr, gives_bind hpass hrest⟩

theorem selfLoopReads_stop {minPrecedence : ℕ} {tree : TokenTree} (hends : shared.Ends rest)
    (hstops : shared.Stops minPrecedence rest) :
  SelfLoopReads tokens s minPrecedence tree rest tree rest
  := by
  refine ⟨List.suffix_refl _, fun hrest n m _ hm out hout => ⟨out, hout, ?_⟩⟩
  obtain ⟨t, ts, rfl, _⟩ := id hends
  obtain ⟨tok, htok, hcorr, _⟩ := State.before_cons hs hrest
  obtain ⟨m, rfl⟩ : ∃ k, m = k + 1 := ⟨m - 1, by simp at hm; omega⟩
  have hbreak : Gives (parseOperator (fixFuel n) minPrecedence out) (s.before (t :: ts)) (.inr out)
      (s.before (t :: ts)) := by
    by_cases hend : tok.kind = .EOF
    · exact gives_then (atKind_gives_true htok hend) (gives_pure _ _)
    · apply gives_else (atKind_gives_false htok hend)
      apply gives_bind (current_gives htok)
      dsimp only
      rw [if_pos]
      · exact gives_pure _ _
      · by_cases hlevel : 0 < sharedLevel t.kind
        · obtain ⟨_, hprec, _⟩ := sharedLevel_pos hlevel
          rw [hcorr.kind, hprec]
          rcases hstops t rfl with hstop | hstop
          · exact .inl hstop
          · exact .inr (.inl hstop)
        · left
          rw [hcorr.kind]
          rcases (ends_kind hends).2 (Nat.eq_zero_of_not_pos hlevel) with hkind | hkind <;>
            rw [hkind] <;> rfl
  exact gives_bind hbreak (gives_pure _ _)

omit hs

variable (s) in
/-- The parser written in Caster follows the rules of precedence climbing. -/
def selfClimber (hs : List.Forall₂ Corresponds tokens s.tokens) : Climber shared where
  base := 1
  base_le := le_rfl
  operand := SelfReads tokens s unaryParser
  expression minPrecedence := SelfReads tokens s (climbingParser minPrecedence)
  loop := SelfLoopReads tokens s
  leaf ht hends := selfReads_leaf hs ht hends
  group ho hc _ h hends := selfReads_group hs ho hc h hends
  unary ht h _ := selfReads_unary hs ht h
  start h hloop := selfReads_start hs h hloop
  step ht hmin hright hloop := selfLoopReads_step hs ht hmin hright hloop
  stop hends hstops := selfLoopReads_stop hs hends hstops

end

/-! ### Agreement -/

/-- Both parsers accept the tokens of an expression of the shared fragment before the end of the
file.  Without its groups the expression of the parser written in Caster is the node of the
compiler. -/
theorem parsers_agree {toks : List Parse.Token} {eof : Parse.Token} {toks' : List Token}
    (h : shared.Complete toks) (heof : eof.kind = .EOF)
    (htoks : List.Forall₂ Corresponds (toks ++ [eof]) toks') (file : String) :
  ∃ node expr, Parse.parseExpression 0 (toks ++ [eof]) ⟨0, false⟩ = .ok node ⟨toks.length, false⟩ ∧
    parse (.expression 1) (State.new file toks') =
      some (expr, { State.new file toks' with pos := toks.length }) ∧
    expr.eraseGroups.node = some node
  := by
  obtain ⟨tree, hfollows, rfl⟩ := h.tree
  have hends : shared.Ends [eof] := ⟨eof, [], rfl, .inr (.inr (decide_eq_true heof))⟩
  have hstops (min : ℕ) : shared.Stops min [eof] := by
    intro t ht
    obtain rfl : eof = t := Option.some.inj ht
    exact .inl (shared.level_final eof (decide_eq_true heof))
  have hreads := (climber (tree.tokens ++ [eof])).returns hfollows hends hstops
  have hgives := (selfClimber (State.new file toks') htoks).returns hfollows hends hstops
  have hlength : tree.tokens.length + 1 = toks'.length := by simpa using htoks.length_eq
  have hstart : before (tree.tokens ++ [eof]) (tree.tokens ++ [eof]) = ⟨0, false⟩ := by simp [before]
  have hend : before (tree.tokens ++ [eof]) [eof] = ⟨tree.tokens.length, false⟩ := by simp [before]
  have hselfStart : (State.new file toks').before (tree.tokens ++ [eof]) = State.new file toks' := by
    simp [State.before, State.new, ← hlength]
  have hselfEnd : (State.new file toks').before [eof] =
      { State.new file toks' with pos := tree.tokens.length } := by
    simp [State.before, State.new, ← hlength]
  obtain ⟨expr, hnode, hparse⟩ := hgives.gives (List.suffix_refl _) toks'.length htoks.length_eq.le
  have hreturns := hreads.returns (List.suffix_refl _) (2 * (tree.tokens ++ [eof]).length + 1) (by omega)
  rw [hstart, hend] at hreturns
  rw [hselfStart, hselfEnd] at hparse
  exact ⟨nodeOf tree, expr, hreturns, hparse, hnode⟩

/-- The tokens of `-(a) + 2 * !b`. -/
theorem parsers_agree_operators :
  ∃ node expr, Parse.parseExpression 0
      ([⟨.MINUS, "-", 1, 1⟩, ⟨.LPAREN, "(", 1, 2⟩, ⟨.NAME, "a", 1, 3⟩, ⟨.RPAREN, ")", 1, 4⟩,
        ⟨.PLUS, "+", 1, 6⟩, ⟨.INT_LITERAL, "2", 1, 8⟩, ⟨.STAR, "*", 1, 10⟩, ⟨.BANG, "!", 1, 12⟩,
        ⟨.NAME, "b", 1, 13⟩] ++ [⟨.EOF, "", 1, 14⟩]) ⟨0, false⟩ = .ok node ⟨9, false⟩ ∧
    parse (.expression 1) (State.new "main.cast"
      [⟨.MINUS, "-", ⟨1, 1, 1, 2⟩⟩, ⟨.LPAREN, "(", ⟨1, 2, 1, 3⟩⟩, ⟨.NAME, "a", ⟨1, 3, 1, 4⟩⟩,
       ⟨.RPAREN, ")", ⟨1, 4, 1, 5⟩⟩, ⟨.PLUS, "+", ⟨1, 6, 1, 7⟩⟩, ⟨.INT_LITERAL, "2", ⟨1, 8, 1, 9⟩⟩,
       ⟨.STAR, "*", ⟨1, 10, 1, 11⟩⟩, ⟨.BANG, "!", ⟨1, 12, 1, 13⟩⟩, ⟨.NAME, "b", ⟨1, 13, 1, 14⟩⟩,
       ⟨.EOF, "", ⟨1, 14, 1, 14⟩⟩]) =
      some (expr, { State.new "main.cast"
        [⟨.MINUS, "-", ⟨1, 1, 1, 2⟩⟩, ⟨.LPAREN, "(", ⟨1, 2, 1, 3⟩⟩, ⟨.NAME, "a", ⟨1, 3, 1, 4⟩⟩,
         ⟨.RPAREN, ")", ⟨1, 4, 1, 5⟩⟩, ⟨.PLUS, "+", ⟨1, 6, 1, 7⟩⟩, ⟨.INT_LITERAL, "2", ⟨1, 8, 1, 9⟩⟩,
         ⟨.STAR, "*", ⟨1, 10, 1, 11⟩⟩, ⟨.BANG, "!", ⟨1, 12, 1, 13⟩⟩, ⟨.NAME, "b", ⟨1, 13, 1, 14⟩⟩,
         ⟨.EOF, "", ⟨1, 14, 1, 14⟩⟩] with pos := 9 }) ∧
    expr.eraseGroups.node = some node
  := by
  have hsum : shared.Complete
      ([⟨.MINUS, "-", 1, 1⟩, ⟨.LPAREN, "(", 1, 2⟩, ⟨.NAME, "a", 1, 3⟩, ⟨.RPAREN, ")", 1, 4⟩] ++
        ⟨.PLUS, "+", 1, 6⟩ :: ([⟨.INT_LITERAL, "2", 1, 8⟩] ++
          ⟨.STAR, "*", 1, 10⟩ :: [⟨.BANG, "!", 1, 12⟩, ⟨.NAME, "b", 1, 13⟩])) := by
    have hgroup : shared.Complete (⟨.LPAREN, "(", 1, 2⟩ :: [⟨.NAME, "a", 1, 3⟩] ++ [⟨.RPAREN, ")", 1, 4⟩]) :=
      .group (by decide) (by decide) (.atom (by decide))
    apply Grammar.Complete.binary (by decide)
    · exact .unary (by decide) hgroup
    · apply Grammar.Complete.binary (by decide) (.atom (by decide))
      exact .unary (by decide) (.atom (by decide))
  apply parsers_agree hsum rfl
  repeat' constructor

end Caster.SelfHosting
