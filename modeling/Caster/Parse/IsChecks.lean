import Caster.Library.Connectives
import Caster.Parse.DotChains

/-!
# Checks `IS`

A check `IS` compares one subject with several clauses.  Its meaning is compared with the one of the
comparisons written out.
-/

namespace Caster.Parse

open TokenParser Connectives

/-! ### Texts -/

/-- The relations of a comparison. -/
inductive Relation where
  | eq | neq | lt | lte | gt | gte
deriving DecidableEq

/-- The operator of a relation. -/
def Relation.op : Relation → InfixOp
  | eq => .eq
  | neq => .neq
  | lt => .lt
  | lte => .lte
  | gt => .gt
  | gte => .gte

/-- Whether two numbers are related. -/
def Relation.holds : Relation → ℤ → ℤ → Bool
  | eq, x, v => x = v
  | neq, x, v => x ≠ v
  | lt, x, v => x < v
  | lte, x, v => x ≤ v
  | gt, x, v => x > v
  | gte, x, v => x ≥ v

/-- The relation of an operator of a node. -/
def relationOf : Option String → Option Relation
  | some "==" => some .eq
  | some "!=" => some .neq
  | some "<" => some .lt
  | some "<=" => some .lte
  | some ">" => some .gt
  | some ">=" => some .gte
  | _ => none

/-- A clause: an expression behind a relation, which may be left out. -/
structure Clause where
  relation : Option Relation
  expr : List Lexeme

/-- The relation of a clause. -/
def Clause.related (clause : Clause) : Relation := clause.relation.getD .eq

/-- The operator of a connective. -/
def connectiveOp : Connective → InfixOp
  | .and => .and
  | .or => .or

/-- The tokens of a clause in a check. -/
def Clause.isPiece (clause : Clause) : List Lexeme :=
  clause.relation.toList.map (fun r => r.op.lexeme) ++ clause.expr

/-- The tokens of a clause that is written out. -/
def Clause.spelledOut (subject : List Lexeme) (clause : Clause) : List Lexeme :=
  subject ++ clause.related.op.lexeme :: clause.expr

/-- The tokens of clauses behind others. -/
def restText (text : Clause → List Lexeme) (rest : List (Connective × Clause)) : List Lexeme :=
  rest.flatMap fun (op, clause) => (connectiveOp op).lexeme :: text clause

/-- The tokens of a check. -/
def isText (subject : List Lexeme) (first : Clause) (rest : List (Connective × Clause)) : List Lexeme :=
  subject ++ ⟨.IS, "IS"⟩ :: (first.isPiece ++ restText Clause.isPiece rest)

/-- The tokens of a check that is written out. -/
def spelledText (subject : List Lexeme) (first : Clause) (rest : List (Connective × Clause)) :
    List Lexeme :=
  first.spelledOut subject ++ restText (Clause.spelledOut subject) rest

/-- An expression ends before a token, with no dot behind the ends of lines. -/
def EndsBefore (kinds : List TokenKind) (tokens : List Token) (pos : ℕ) : Prop :=
  PostfixStops tokens pos ∧ ∃ tok, tokens[pos]? = some tok ∧ tok.kind ∈ kinds

/-- The tokens behind an expression. -/
def endKinds : List TokenKind := [.RPAREN, .NEWLINE, .EOF]

/-- The tokens behind a clause. -/
def clauseEndKinds : List TokenKind := .ANDAND :: .OROR :: endKinds

/-- Wherever the tokens stand they are parsed as what an expression starts with. -/
def IsSubject (subject : List Lexeme) : Prop :=
  subject ≠ [] ∧ ∀ (tokens : List Token) (c : Cursor) (n : ℕ), c.flag = false →
    2 * subject.length ≤ n → Spells tokens c.pos subject → PostfixStops tokens (c.pos + subject.length) →
      ∃ node, Returns tokens (parsePrefix (fixFuel parseBody n)) c node ⟨c.pos + subject.length, false⟩

/-- Wherever the tokens stand as a clause they are parsed as an expression of precedence at least that
of `+`. -/
def IsOperand (expr : List Lexeme) : Prop :=
  ∀ (tokens : List Token) (c : Cursor) (n : ℕ), c.flag = false → 2 * expr.length ≤ n →
    Spells tokens c.pos expr → EndsBefore clauseEndKinds tokens (c.pos + expr.length) →
      ∃ node, Returns tokens (fixFuel parseBody (n + 1) (.expression 5)) c node
        ⟨c.pos + expr.length, false⟩

/-! ### Meanings -/

/-- The connective of a node. -/
def connectiveOf : Option String → Option Connective
  | some "&&" => some .and
  | some "||" => some .or
  | _ => none

/-- The connectives of a node over nodes without one. -/
def connected (n : Node) : ClauseTree Node :=
  match n.kind, connectiveOf n.op, _hl : n.left, _hr : n.right with
  | .BINARY, some op, some left, some right => .join op (connected left) (connected right)
  | _, _, _, _ => .leaf n
termination_by sizeOf n
decreasing_by
  all_goals
    cases n
    simp only at _hl _hr
    subst _hl _hr
    simp only [Node.mk.sizeOf_spec, Option.some.sizeOf_spec]
    omega

/-- A comparison of a subject with an operand holds for values of these. -/
def comparisonHolds (x : ℤ) (n : Node) (value : ℤ) : Bool :=
  (relationOf n.op).any fun r => r.holds x value

/-- The parser makes a node of tokens at some place. -/
def ReadAs (entry : (Entry → P Node) → P Node) (lexemes : List Lexeme) (n : Node) : Prop :=
  ∃ (tokens : List Token) (c c' : Cursor) (fuel : ℕ), Spells tokens c.pos lexemes ∧
    c'.pos = c.pos + lexemes.length ∧ Returns tokens (entry (fixFuel parseBody fuel)) c n c'

/-- A node compares the subject with the expression of a clause. -/
def Compares (subject : List Lexeme) (clause : Clause) (n : Node) : Prop :=
  ∃ line col left right, ReadAs parsePrefix subject left ∧
    ReadAs (fun self => parseExpressionBody self 5) clause.expr right ∧
    n = { kind := .BINARY, line, col, op := some clause.related.op.lexeme.text
          left := some left, right := some right }

/-- Tokens are parsed to comparisons of the subject with some clauses, in their order. -/
def ParsesTo (subject : List Lexeme) (clauses : List Clause) (tokens : List Token) (c : Cursor)
    (length : ℕ) (n : Node) : Prop :=
  Returns tokens (parseExpression 0) c n ⟨c.pos + length, false⟩ ∧
    List.Forall₂ (Compares subject) clauses (connected n).leaves

/-- Wherever they stand, a check and the comparisons written out are parsed to trees of the same truth,
for all values of the subject and of the expressions of the clauses. -/
def MeansExpansion (subject : List Lexeme) (first : Clause) (rest : List (Connective × Clause)) : Prop :=
  ∀ (tokens tokens' : List Token) (c c' : Cursor), c.flag = false → c'.flag = false →
    Spells tokens c.pos (isText subject first rest) →
    EndsBefore endKinds tokens (c.pos + (isText subject first rest).length) →
    Spells tokens' c'.pos (spelledText subject first rest) →
    EndsBefore endKinds tokens' (c'.pos + (spelledText subject first rest).length) →
      ∃ n n', ParsesTo subject (first :: rest.map Prod.snd) tokens c (isText subject first rest).length n ∧
        ParsesTo subject (first :: rest.map Prod.snd) tokens' c' (spelledText subject first rest).length n' ∧
        ∀ (x : ℤ) (values : List ℤ), values.length = rest.length + 1 →
          (connected n).truth (comparisonHolds x) values = (connected n').truth (comparisonHolds x) values

/-! ### Nodes -/

theorem connected_binaryNode (op : Connective) (tok : Token) (left right : Node) :
  connected (binaryNode tok (some (connectiveOp op).lexeme.text) left right) =
    .join op (connected left) (connected right)
  := by
  rw [connected]
  cases op <;> rfl

theorem Compares.connected {subject : List Lexeme} {clause : Clause} {n : Node}
    (h : Compares subject clause n) :
  connected n = .leaf n
  := by
  obtain ⟨line, col, left, right, -, -, rfl⟩ := h
  rw [Parse.connected]
  cases clause.related <;> rfl

/-- The clauses of a comparison may hold and may not. -/
theorem exists_value (r : Relation) (x : ℤ) (b : Bool) : ∃ value, r.holds x value = b := by
  cases r with
  | eq => cases b with
    | true => exact ⟨x, by simp [Relation.holds]⟩
    | false => exact ⟨x + 1, by simp [Relation.holds]⟩
  | neq => cases b with
    | true => exact ⟨x + 1, by simp [Relation.holds]⟩
    | false => exact ⟨x, by simp [Relation.holds]⟩
  | lt => cases b with
    | true => exact ⟨x + 1, by simp [Relation.holds]⟩
    | false => exact ⟨x, by simp [Relation.holds]⟩
  | lte => cases b with
    | true => exact ⟨x, by simp [Relation.holds]⟩
    | false => exact ⟨x - 1, by simp [Relation.holds]⟩
  | gt => cases b with
    | true => exact ⟨x - 1, by simp [Relation.holds]⟩
    | false => exact ⟨x, by simp [Relation.holds]⟩
  | gte => cases b with
    | true => exact ⟨x, by simp [Relation.holds]⟩
    | false => exact ⟨x + 1, by simp [Relation.holds]⟩

/-! ### Clauses of a check -/

section

variable {tokens : List Token} {c : Cursor}

/-- No expression starts with a relation. -/
theorem not_parsePrefix_relation {self : Entry → P Node} {tok : Token} (htok : tokens[c.pos]? = some tok)
    (hkind : isIsCheckOp tok.kind = true) (n : Node) (c' : Cursor) :
  ¬ Returns tokens (parsePrefix self) c n c'
  := by
  have hno {k : TokenKind} (hk : isIsCheckOp k = false) : Returns tokens (matchToken k) c false c := by
    apply matchToken_returns_false htok
    rintro rfl
    rw [hkind] at hk
    cases hk
  have htype : Returns tokens matchTypeName c false c := by
    apply matchTypeName_returns_false htok
    intro hmem
    revert hkind
    simp only [List.mem_cons, List.not_mem_nil, or_false] at hmem
    rcases hmem with h | h | h | h <;> rw [h] <;> decide
  have heither {k k' : TokenKind} (hk : isIsCheckOp k = false) (hk' : isIsCheckOp k' = false) :
      Returns tokens (either (matchToken k) (matchToken k')) c false c :=
    returns_else (hno hk) (hno hk')
  have hdot : tok.kind ≠ .DOT := by
    intro h
    rw [h] at hkind
    cases hkind
  intro h
  unfold Returns at h
  rw [parsePrefix, bind_of_returns (cur_returns htok)] at h
  iterate 6 rw [bind_of_returns (hno (by decide)), if_neg Bool.false_ne_true] at h
  rw [if_neg hdot, bind_of_returns (hno (by decide)), if_neg Bool.false_ne_true,
    bind_of_returns htype, if_neg Bool.false_ne_true] at h
  iterate 4 rw [bind_of_returns (hno (by decide)), if_neg Bool.false_ne_true] at h
  rw [bind_of_returns (heither (by decide) (by decide)), if_neg Bool.false_ne_true,
    bind_of_returns (heither (by decide) (by decide)), if_neg Bool.false_ne_true,
    bind_of_returns (hno (by decide)), if_neg Bool.false_ne_true] at h
  exact not_returns_fail _ _ h

theorem exists_first {n minPrec : ℕ} {node : Node} {c' : Cursor}
    (h : Returns tokens (fixFuel parseBody (n + 1) (.expression minPrec)) c node c') :
  ∃ tok, tokens[c.pos]? = some tok ∧ isIsCheckOp tok.kind = false
  := by
  obtain ⟨left, c₁, hstart, -⟩ := returns_bind_iff.mp h
  obtain ⟨tok, c₂, hcur, -⟩ := returns_bind_iff.mp hstart
  obtain ⟨htok, -⟩ := returns_cur_iff.mp hcur
  refine ⟨tok, htok, ?_⟩
  by_contra hkind
  exact not_parsePrefix_relation htok (by simpa using hkind) _ _ hstart

theorem relation_kind (r : Relation) : isIsCheckOp r.op.lexeme.kind = true := by
  cases r <;> rfl

theorem tokenBinaryOp_relation (r : Relation) : tokenBinaryOp r.op.lexeme.kind = some r.op.lexeme.text := by
  cases r <;> rfl

/-- A clause of a check is a comparison of the subject with its expression. -/
theorem parseIsPiece_returns {subject : List Lexeme} {clause : Clause} {node : Node} {n : ℕ}
    (hsubject : ReadAs parsePrefix subject node) (hexpr : IsOperand clause.expr) (hflag : c.flag = false)
    (hn : 2 * clause.expr.length ≤ n) (hspells : Spells tokens c.pos clause.isPiece)
    (hends : EndsBefore clauseEndKinds tokens (c.pos + clause.isPiece.length)) :
  ∃ cmp, Compares subject clause cmp ∧
    Returns tokens (parseIsPiece (fixFuel parseBody (n + 1)) node) c cmp
      ⟨c.pos + clause.isPiece.length, false⟩
  := by
  obtain ⟨relation, expr⟩ := clause
  cases relation with
  | none =>
    have hpiece : (Clause.mk none expr).isPiece = expr := rfl
    rw [hpiece] at hspells hends ⊢
    obtain ⟨right, hright⟩ := hexpr tokens c n hflag hn hspells hends
    obtain ⟨tok, htok, hkind⟩ := exists_first hright
    refine ⟨binaryNode tok (some "==") node right,
      ⟨tok.line, tok.col, node, right, hsubject, ⟨tokens, c, _, n, hspells, rfl, hright⟩, rfl⟩, ?_⟩
    apply returns_bind (cur_returns htok)
    rw [if_neg (by simp [hkind])]
    exact returns_bind hright (returns_pure _)
  | some r =>
    have hpiece : (Clause.mk (some r) expr).isPiece = r.op.lexeme :: expr := rfl
    rw [hpiece] at hspells hends ⊢
    have hend : c.pos + (r.op.lexeme :: expr).length = (next c).pos + expr.length := by
      simp only [List.length_cons, next_pos]
      omega
    rw [hend] at hends ⊢
    obtain ⟨right, hright⟩ := hexpr tokens (next c) n hflag hn hspells.tail hends
    obtain ⟨tok, htok, hlexeme⟩ := hspells.head
    have hkind : tok.kind = r.op.lexeme.kind := congrArg Lexeme.kind hlexeme
    refine ⟨binaryNode tok (some r.op.lexeme.text) node right,
      ⟨tok.line, tok.col, node, right, hsubject, ⟨tokens, next c, _, n, hspells.tail, rfl, hright⟩, rfl⟩, ?_⟩
    apply returns_bind (cur_returns htok)
    rw [if_pos (by rw [hkind, relation_kind]), hkind, tokenBinaryOp_relation]
    apply returns_bind returns_advance
    exact returns_bind hright (returns_pure _)

theorem EndsBefore.mono {kinds kinds' : List TokenKind} {pos : ℕ} (h : EndsBefore kinds tokens pos)
    (hsub : kinds ⊆ kinds') :
  EndsBefore kinds' tokens pos
  := by
  obtain ⟨hpost, tok, htok, hkind⟩ := h
  exact ⟨hpost, tok, htok, hsub hkind⟩

/-- A clause ends before another one. -/
theorem endsBefore_connective {op : Connective} {tok : Token} {pos : ℕ} (htok : tokens[pos]? = some tok)
    (hlexeme : tok.lexeme = (connectiveOp op).lexeme) :
  EndsBefore [(connectiveOp op).lexeme.kind] tokens pos
  := by
  have hkind : tok.kind = (connectiveOp op).lexeme.kind := congrArg Lexeme.kind hlexeme
  refine ⟨postfixStops_of_token htok ?_, tok, htok, by simp [hkind]⟩
  rw [hkind]
  cases op <;> decide

/-- Behind a clause is another one or the end of the expression. -/
theorem endsBefore_rest {text : Clause → List Lexeme} {rest : List (Connective × Clause)} {pos : ℕ}
    (hspells : Spells tokens pos (restText text rest))
    (hends : EndsBefore clauseEndKinds tokens (pos + (restText text rest).length)) :
  EndsBefore clauseEndKinds tokens pos
  := by
  cases rest with
  | nil => exact hends
  | cons first rest =>
    obtain ⟨op, clause⟩ := first
    obtain ⟨tok, htok, hlexeme⟩ := hspells.head
    apply (endsBefore_connective htok hlexeme).mono
    cases op <;> decide

theorem endKinds_subset : endKinds ⊆ clauseEndKinds := by decide

/-- A pass of the loop of `parse_is_check`. -/
def isPass (self : Entry → P Node) (subject : Node) : Node × ℕ → P ((Node × ℕ) ⊕ (Node × ℕ)) :=
  fun (expr, pieces) => do
    let tok ← cur
    if tok.kind = .ANDAND ∨ tok.kind = .OROR then
      advance
      let right ← parseIsPiece self subject
      pure (.inl (binaryNode tok (tokenBinaryOp tok.kind) expr right, pieces + 1))
    else pure (.inr (expr, pieces))

theorem parseIsCheck_eq (self : Entry → P Node) (isTok : Token) (subject : Node) :
  parseIsCheck self isTok subject = (do
    let first ← parseIsPiece self subject
    let (expr, pieces) ← loop (isPass self subject) (first, 1)
    if pieces < 2 then
      dieAt isTok.line isTok.col
        "IS expects at least two comparison clauses; use an ordinary comparison for one clause"
    else pure expr)
  := rfl

theorem connective_kind (op : Connective) :
  ((connectiveOp op).lexeme.kind = .ANDAND ∨ (connectiveOp op).lexeme.kind = .OROR) ∧
    tokenBinaryOp (connectiveOp op).lexeme.kind = some (connectiveOp op).lexeme.text
  := by
  cases op
  · exact ⟨Or.inl rfl, rfl⟩
  · exact ⟨Or.inr rfl, rfl⟩

/-- The loop joins the clauses from left to right. -/
theorem isPass_passes {subject : List Lexeme} {node : Node} {n pieces : ℕ}
    {rest : List (Connective × Clause)} (hsubject : ReadAs parsePrefix subject node)
    (hexprs : ∀ clause ∈ rest.map Prod.snd, IsOperand clause.expr ∧ 2 * clause.expr.length ≤ n)
    {expr : Node} (hflag : c.flag = false) (hspells : Spells tokens c.pos (restText Clause.isPiece rest))
    (hends : EndsBefore endKinds tokens (c.pos + (restText Clause.isPiece rest).length)) :
  ∃ cmps : List (Connective × Node), cmps.map Prod.fst = rest.map Prod.fst ∧
    List.Forall₂ (Compares subject) (rest.map Prod.snd) (cmps.map Prod.snd) ∧
    ∃ node', connected node' = fold (connected expr) cmps ∧
      Passes tokens (isPass (fixFuel parseBody (n + 1)) node) (expr, pieces) c
        (node', pieces + rest.length) ⟨c.pos + (restText Clause.isPiece rest).length, false⟩
  := by
  induction rest generalizing c expr pieces with
  | nil =>
    obtain ⟨pos, flag⟩ := c
    obtain rfl : flag = false := hflag
    exact ⟨[], rfl, List.Forall₂.nil, expr, rfl, Passes.refl _ _⟩
  | cons first rest ih =>
    obtain ⟨op, clause⟩ := first
    obtain ⟨⟨hexpr, hn⟩, hexprs⟩ := List.forall_mem_cons.mp hexprs
    have htext : restText Clause.isPiece ((op, clause) :: rest) =
        (connectiveOp op).lexeme :: (clause.isPiece ++ restText Clause.isPiece rest) := rfl
    rw [htext] at hspells hends ⊢
    obtain ⟨tok, htok, hlexeme⟩ := hspells.head
    have hkind : tok.kind = (connectiveOp op).lexeme.kind := congrArg Lexeme.kind hlexeme
    have hend : c.pos + ((connectiveOp op).lexeme :: (clause.isPiece ++ restText Clause.isPiece rest)).length =
        c.pos + 1 + clause.isPiece.length + (restText Clause.isPiece rest).length := by
      simp only [List.length_cons, List.length_append]
      omega
    rw [hend] at hends ⊢
    have hafter := hspells.tail.right
    obtain ⟨cmp, hcompares, hpiece⟩ := parseIsPiece_returns (c := next c) hsubject hexpr hflag hn
      hspells.tail.left (endsBefore_rest hafter (hends.mono endKinds_subset))
    have hpass : Returns tokens (isPass (fixFuel parseBody (n + 1)) node (expr, pieces)) c
        (.inl (binaryNode tok (some (connectiveOp op).lexeme.text) expr cmp, pieces + 1))
        ⟨c.pos + 1 + clause.isPiece.length, false⟩ := by
      apply returns_bind (cur_returns htok)
      rw [if_pos (hkind ▸ (connective_kind op).1), hkind, (connective_kind op).2]
      apply returns_bind returns_advance
      exact returns_bind hpiece (returns_pure _)
    obtain ⟨cmps, hops, hall, node', hconnected, hpasses⟩ :=
      @ih ⟨c.pos + 1 + clause.isPiece.length, false⟩ (pieces + 1) hexprs
        (binaryNode tok (some (connectiveOp op).lexeme.text) expr cmp) rfl hafter hends
    refine ⟨(op, cmp) :: cmps, ?_, List.Forall₂.cons hcompares hall, node', ?_, ?_⟩
    · rw [List.map_cons, List.map_cons, hops]
    · rw [hconnected, connected_binaryNode, hcompares.connected]
      rfl
    · have hpieces : pieces + ((op, clause) :: rest).length = pieces + 1 + rest.length := by
        simp only [List.length_cons]
        omega
      rw [hpieces]
      apply hpasses.head hpass
      show c.pos < c.pos + 1 + clause.isPiece.length
      omega

theorem EndsBefore.lt_length {kinds : List TokenKind} {pos : ℕ} (h : EndsBefore kinds tokens pos) :
  pos < tokens.length
  := by
  obtain ⟨-, tok, htok, -⟩ := h
  exact (List.getElem?_eq_some_iff.mp htok).1

theorem EndsBefore.stops {pos : ℕ} (h : EndsBefore endKinds tokens pos) (minPrec : ℕ) :
  Stops tokens pos minPrec
  := by
  obtain ⟨-, tok, htok, hkind⟩ := h
  exact stops_of_token minPrec htok hkind

theorem length_le_restText {text : Clause → List Lexeme} {rest : List (Connective × Clause)} {clause : Clause}
    (h : clause ∈ rest.map Prod.snd) :
  (text clause).length ≤ (restText text rest).length
  := by
  obtain ⟨⟨op, clause⟩, hmem, rfl⟩ := List.mem_map.mp h
  have hsub : ((connectiveOp op).lexeme :: text clause).Sublist (restText text rest) :=
    List.sublist_flatten_of_mem (List.mem_map_of_mem hmem)
  have hlength := hsub.length_le
  rw [List.length_cons] at hlength
  exact (Nat.le_succ _).trans hlength

theorem length_isPiece (clause : Clause) : clause.expr.length ≤ clause.isPiece.length := by
  simp [Clause.isPiece]

/-- The comparisons that a sequence of clauses is parsed to. -/
theorem parsesTo_of_leaves {subject : List Lexeme} {first : Clause} {rest : List (Connective × Clause)}
    {length : ℕ} {n cmp : Node} {cmps : List (Connective × Node)}
    (hreturns : Returns tokens (parseExpression 0) c n ⟨c.pos + length, false⟩)
    (hfirst : Compares subject first cmp)
    (hrest : List.Forall₂ (Compares subject) (rest.map Prod.snd) (cmps.map Prod.snd))
    (hleaves : (connected n).leaves = cmp :: cmps.map Prod.snd) :
  ParsesTo subject (first :: rest.map Prod.snd) tokens c length n
  := by
  refine ⟨hreturns, ?_⟩
  rw [hleaves]
  exact List.Forall₂.cons hfirst hrest

/-- A check is parsed to its clauses, joined from left to right. -/
theorem isText_parsed {subject : List Lexeme} {first : Clause} {rest : List (Connective × Clause)}
    (hsubject : IsSubject subject) (hexprs : ∀ clause ∈ first :: rest.map Prod.snd, IsOperand clause.expr)
    (hrest : rest ≠ []) (hflag : c.flag = false) (hspells : Spells tokens c.pos (isText subject first rest))
    (hends : EndsBefore endKinds tokens (c.pos + (isText subject first rest).length)) :
  ∃ n cmp, ∃ cmps : List (Connective × Node),
    ParsesTo subject (first :: rest.map Prod.snd) tokens c (isText subject first rest).length n ∧
    Compares subject first cmp ∧ cmps.map Prod.fst = rest.map Prod.fst ∧
    List.Forall₂ (Compares subject) (rest.map Prod.snd) (cmps.map Prod.snd) ∧
    connected n = fold (.leaf cmp) cmps
  := by
  obtain ⟨hne, hsubject⟩ := hsubject
  have hlt := hends.lt_length
  have hlength : (isText subject first rest).length =
      subject.length + 1 + first.isPiece.length + (restText Clause.isPiece rest).length := by
    simp only [isText, List.length_append, List.length_cons]
    omega
  have hend : c.pos + (isText subject first rest).length =
      c.pos + subject.length + 1 + first.isPiece.length + (restText Clause.isPiece rest).length := by
    rw [hlength]
    omega
  have hfuel : ∀ clause ∈ first :: rest.map Prod.snd, 2 * clause.expr.length ≤ 2 * tokens.length := by
    intro clause hmem
    have hpiece := length_isPiece clause
    rcases List.mem_cons.mp hmem with rfl | hmem
    · omega
    · have hle := @length_le_restText Clause.isPiece rest clause hmem
      omega
  -- The subject, the sign `IS` and the first clause.
  have hbehind : Spells tokens (c.pos + subject.length) (⟨.IS, "IS"⟩ ::
      (first.isPiece ++ restText Clause.isPiece rest)) := hspells.right
  obtain ⟨isTok, hisTok, hisLexeme⟩ := hbehind.head
  have hisKind : isTok.kind = .IS := congrArg Lexeme.kind hisLexeme
  obtain ⟨node, hstart⟩ := hsubject tokens c (2 * tokens.length + 1) hflag (by omega) hspells.left
    (postfixStops_of_token hisTok (by simp [hisKind]))
  have hread : ReadAs parsePrefix subject node := ⟨tokens, c, _, _, hspells.left, rfl, hstart⟩
  have hafter := hbehind.tail.right
  rw [hend] at hends
  obtain ⟨cmp, hcompares, hpiece⟩ := parseIsPiece_returns (c := ⟨c.pos + subject.length + 1, false⟩) hread
    (hexprs first List.mem_cons_self) rfl (hfuel first List.mem_cons_self) hbehind.tail.left
    (endsBefore_rest hafter (hends.mono endKinds_subset))
  obtain ⟨cmps, hops, hall, n, hconnected, hpasses⟩ :=
    @isPass_passes tokens ⟨c.pos + subject.length + 1 + first.isPiece.length, false⟩ subject node
      (2 * tokens.length) 1 rest hread
      (fun clause hmem => ⟨hexprs clause (List.mem_cons_of_mem _ hmem),
        hfuel clause (List.mem_cons_of_mem _ hmem)⟩) cmp rfl hafter hends
  -- The loop over the clauses ends where the expression ends.
  have hcheck : Returns tokens (parseIsCheck (fixFuel parseBody (2 * tokens.length + 1)) isTok node)
      ⟨c.pos + subject.length + 1, false⟩ n ⟨c.pos + (isText subject first rest).length, false⟩ := by
    rw [parseIsCheck_eq, hend]
    apply returns_bind hpiece
    have hpos := hends.lt_length
    obtain ⟨-, tok, htok, hkind⟩ := hends
    have hbreak : Returns tokens (isPass (fixFuel parseBody (2 * tokens.length + 1)) node (n, 1 + rest.length))
        ⟨c.pos + subject.length + 1 + first.isPiece.length + (restText Clause.isPiece rest).length, false⟩
        (.inr (n, 1 + rest.length)) ⟨c.pos + subject.length + 1 + first.isPiece.length +
          (restText Clause.isPiece rest).length, false⟩ := by
      apply returns_bind (cur_returns htok)
      rw [if_neg]
      · exact returns_pure _
      · simp only [endKinds, List.mem_cons, List.not_mem_nil, or_false] at hkind
        rcases hkind with hkind | hkind | hkind <;> simp [hkind]
    apply returns_bind (returns_loop hpasses hpos.le hbreak)
    have hpieces : ¬ 1 + rest.length < 2 := by
      have := List.length_pos_iff.mpr hrest
      omega
    dsimp only
    rw [if_neg hpieces]
    exact returns_pure _
  have hpass : Returns tokens (parseOperator (fixFuel parseBody (2 * tokens.length + 1)) 0 node)
      ⟨c.pos + subject.length, false⟩ (.inl n) ⟨c.pos + (isText subject first rest).length, false⟩ := by
    have hskip : Returns tokens skipOperatorNewlines ⟨c.pos + subject.length, false⟩ ()
        ⟨c.pos + subject.length, false⟩ := returns_else returns_flag (returns_pure ())
    apply returns_bind hskip
    apply returns_bind (cur_returns hisTok)
    rw [if_neg (by simp [hisKind]), if_pos hisKind, if_neg (lt_irrefl 0)]
    apply returns_bind returns_advance
    exact returns_bind hcheck (returns_pure _)
  have hpasses := (Passes.refl node ⟨c.pos + subject.length, false⟩).tail hpass (by rw [hlength]; dsimp only; omega)
  rw [← hend] at hends
  have hparse := parseExpression_of_passes hstart hpasses (hends.stops 0)
  have hreturns : Returns tokens (parseExpression 0) c n ⟨c.pos + (isText subject first rest).length, false⟩ :=
    returns_parseExpression_iff.mpr hparse
  have hfold : connected n = fold (.leaf cmp) cmps := by rw [hconnected, hcompares.connected]
  refine ⟨n, cmp, cmps, ?_, hcompares, hops, hall, hfold⟩
  apply parsesTo_of_leaves hreturns hcompares hall
  rw [hfold, leaves_fold]
  rfl

/-! ### Comparisons that are written out -/

theorem EndsBefore.stops_of_lt {kinds : List TokenKind} {pos minPrec : ℕ} (h : EndsBefore kinds tokens pos)
    (hkinds : kinds ⊆ clauseEndKinds) (hlt : ∀ k ∈ kinds, (precedence k).1 < minPrec) :
  Stops tokens pos minPrec
  := by
  obtain ⟨-, tok, htok, hkind⟩ := h
  have hend := hkinds hkind
  simp only [clauseEndKinds, endKinds, List.mem_cons, List.not_mem_nil, or_false] at hend
  refine ⟨tok, htok, ?_, ?_, Or.inl (hlt _ hkind)⟩
  · rcases hend with h | h | h | h | h <;> simp [h]
  · rcases hend with h | h | h | h | h <;> simp [h]

theorem stops_clause {pos : ℕ} (h : EndsBefore clauseEndKinds tokens pos) : Stops tokens pos 3 :=
  h.stops_of_lt (List.Subset.refl _) (by decide)

/-- Behind a run is another one or the end of the expression. -/
theorem endsBefore_runs {subject : List Lexeme} {runs : List (Clause × List Clause)} {pos : ℕ}
    (hspells : Spells tokens pos (restText (Clause.spelledOut subject) (orRuns runs)))
    (hends : EndsBefore endKinds tokens
      (pos + (restText (Clause.spelledOut subject) (orRuns runs)).length)) :
  EndsBefore (.OROR :: endKinds) tokens pos
  := by
  cases runs with
  | nil => exact hends.mono (List.subset_cons_self _ _)
  | cons r runs =>
    obtain ⟨tok, htok, hlexeme⟩ := hspells.head
    apply (endsBefore_connective htok hlexeme).mono
    decide

theorem restText_append (text : Clause → List Lexeme) (rest rest' : List (Connective × Clause)) :
  restText text (rest ++ rest') = restText text rest ++ restText text rest'
  := List.flatMap_append

section

variable {subject : List Lexeme} (hsubject : IsSubject subject)

include hsubject

/-- A comparison is parsed by its subject and a pass through the loop. -/
theorem comparison_passes {clause : Clause} {n minPrec : ℕ} (hexpr : IsOperand clause.expr)
    (hmin : minPrec ≤ 3) (hflag : c.flag = false) (hn : 2 * (subject.length + clause.expr.length) ≤ n)
    (hspells : Spells tokens c.pos (clause.spelledOut subject))
    (hends : EndsBefore clauseEndKinds tokens (c.pos + (clause.spelledOut subject).length)) :
  ∃ left c' cmp, Compares subject clause cmp ∧
    Returns tokens (parsePrefix (fixFuel parseBody (n + 1))) c left c' ∧
    Passes tokens (parseOperator (fixFuel parseBody (n + 1)) minPrec) left c' cmp
      ⟨c.pos + (clause.spelledOut subject).length, false⟩
  := by
  obtain ⟨hne, hsubject⟩ := hsubject
  have hbehind : Spells tokens (c.pos + subject.length) (clause.related.op.lexeme :: clause.expr) :=
    hspells.right
  have hend : c.pos + (clause.spelledOut subject).length =
      c.pos + subject.length + 1 + clause.expr.length := by
    simp only [Clause.spelledOut, List.length_append, List.length_cons]
    omega
  rw [hend] at hends ⊢
  obtain ⟨tok, htok, hlexeme⟩ := hbehind.head
  have hkind : tok.kind = clause.related.op.lexeme.kind := congrArg Lexeme.kind hlexeme
  have hpost : PostfixStops tokens (c.pos + subject.length) := by
    apply postfixStops_of_token htok
    rw [hkind]
    cases clause.related <;> decide
  obtain ⟨left, hstart⟩ := hsubject tokens c (n + 1) hflag (by omega) hspells.left hpost
  obtain ⟨right, hright⟩ := hexpr tokens ⟨c.pos + subject.length + 1, false⟩ n rfl (by omega) hbehind.tail hends
  -- The operand of `==` and `!=` may be a comparison, but its clause ends before one.
  have hoperand : Returns tokens (fixFuel parseBody (n + 1) (.expression (clause.related.op.level + 1)))
      ⟨c.pos + subject.length + 1, false⟩ right ⟨c.pos + subject.length + 1 + clause.expr.length, false⟩ := by
    apply returns_lower (Nat.succ_pos _) _ hright
    · apply (stops_clause hends).mono
      cases clause.related <;> decide
    · cases clause.related <;> decide
  have hlevel : minPrec ≤ clause.related.op.level := by
    apply hmin.trans
    cases clause.related <;> decide
  have hpass : Returns tokens (parseOperator (fixFuel parseBody (n + 1)) minPrec left)
      ⟨c.pos + subject.length, false⟩ _ _ := parseOperator_goesOn rfl htok hlexeme hlevel hoperand
  refine ⟨left, _, _, ?_, hstart, (Passes.refl left _).tail hpass (by dsimp only; omega)⟩
  exact ⟨tok.line, tok.col, left, right, ⟨tokens, c, _, _, hspells.left, rfl, hstart⟩,
    ⟨tokens, _, _, n, hbehind.tail, rfl, hright⟩, rfl⟩

/-- Fuel for the subject and for the expression of a clause. -/
def Fueled (subject : List Lexeme) (n : ℕ) (clause : Clause) : Prop :=
  IsOperand clause.expr ∧ 2 * (subject.length + clause.expr.length) ≤ n

/-- The passes through the loop over the clauses of a run. -/
theorem run_passes {run : List Clause} {n minPrec : ℕ} (hrun : ∀ clause ∈ run, Fueled subject n clause)
    (hmin : minPrec ≤ 2) {left : Node} (hflag : c.flag = false)
    (hspells : Spells tokens c.pos (restText (Clause.spelledOut subject) (andRun run)))
    (hends : EndsBefore clauseEndKinds tokens
      (c.pos + (restText (Clause.spelledOut subject) (andRun run)).length)) :
  ∃ cmps, List.Forall₂ (Compares subject) run cmps ∧
    ∃ node, connected node = fold (connected left) (andRun cmps) ∧
      Passes tokens (parseOperator (fixFuel parseBody (n + 2)) minPrec) left c node
        ⟨c.pos + (restText (Clause.spelledOut subject) (andRun run)).length, false⟩
  := by
  induction run generalizing c left with
  | nil =>
    obtain ⟨pos, flag⟩ := c
    obtain rfl : flag = false := hflag
    exact ⟨[], List.Forall₂.nil, left, rfl, Passes.refl _ _⟩
  | cons clause run ih =>
    obtain ⟨⟨hexpr, hn⟩, hrun⟩ := List.forall_mem_cons.mp hrun
    have htext : restText (Clause.spelledOut subject) (andRun (clause :: run)) =
        (connectiveOp .and).lexeme :: (clause.spelledOut subject ++
          restText (Clause.spelledOut subject) (andRun run)) := rfl
    rw [htext] at hspells hends ⊢
    generalize hrest : restText (Clause.spelledOut subject) (andRun run) = rest at *
    have hend : c.pos + ((connectiveOp .and).lexeme :: (clause.spelledOut subject ++ rest)).length =
        c.pos + 1 + (clause.spelledOut subject).length + rest.length := by
      simp only [List.length_cons, List.length_append]
      omega
    rw [hend] at hends ⊢
    obtain ⟨tok, htok, hlexeme⟩ := hspells.head
    have hafter := hspells.tail.right
    have hends' : EndsBefore clauseEndKinds tokens (c.pos + 1 + (clause.spelledOut subject).length) := by
      subst hrest
      exact endsBefore_rest hafter hends
    obtain ⟨first, c', cmp, hcompares, hstart, hpasses⟩ :=
      @comparison_passes tokens (next c) subject hsubject clause n 3 hexpr le_rfl hflag hn
        hspells.tail.left hends'
    have hright := parseExpression_of_passes hstart hpasses (stops_clause hends')
    have hpass : Returns tokens (parseOperator (fixFuel parseBody (n + 2)) minPrec left) c _ _ :=
      parseOperator_goesOn hflag htok hlexeme hmin hright
    obtain ⟨cmps, hall, node, hconnected, hpasses⟩ :=
      @ih ⟨c.pos + 1 + (clause.spelledOut subject).length, false⟩ hrun
        (binaryNode tok (some (connectiveOp .and).lexeme.text) left cmp) rfl hafter hends
    refine ⟨cmp :: cmps, List.Forall₂.cons hcompares hall, node, ?_, ?_⟩
    · rw [hconnected, connected_binaryNode, hcompares.connected]
      rfl
    · apply hpasses.head hpass
      show c.pos < c.pos + 1 + (clause.spelledOut subject).length
      omega

/-- A run is an expression above the precedence of `||`. -/
theorem run_returns {first : Clause} {run : List Clause} {n minPrec : ℕ}
    (hrun : ∀ clause ∈ first :: run, Fueled subject n clause) (hmin : minPrec ≤ 2) (hflag : c.flag = false)
    (hspells : Spells tokens c.pos
      (first.spelledOut subject ++ restText (Clause.spelledOut subject) (andRun run)))
    (hends : EndsBefore clauseEndKinds tokens (c.pos +
      (first.spelledOut subject ++ restText (Clause.spelledOut subject) (andRun run)).length)) :
  ∃ left c' cmp cmps node, Compares subject first cmp ∧ List.Forall₂ (Compares subject) run cmps ∧
    connected node = fold (.leaf cmp) (andRun cmps) ∧
    Returns tokens (parsePrefix (fixFuel parseBody (n + 2))) c left c' ∧
    Passes tokens (parseOperator (fixFuel parseBody (n + 2)) minPrec) left c' node ⟨c.pos +
      (first.spelledOut subject ++ restText (Clause.spelledOut subject) (andRun run)).length, false⟩
  := by
  obtain ⟨⟨hexpr, hn⟩, hrun⟩ := List.forall_mem_cons.mp hrun
  rw [List.length_append, ← Nat.add_assoc] at hends ⊢
  have hends' := endsBefore_rest hspells.right hends
  obtain ⟨left, c', cmp, hcompares, hstart, hfirst⟩ :=
    @comparison_passes tokens c subject hsubject first (n + 1) minPrec hexpr (hmin.trans (by decide)) hflag
      (hn.trans (Nat.le_succ n)) hspells.left hends'
  obtain ⟨cmps, hall, node, hconnected, hpasses⟩ :=
    @run_passes tokens ⟨c.pos + (first.spelledOut subject).length, false⟩ subject hsubject run n minPrec
      hrun hmin cmp rfl hspells.right hends
  refine ⟨left, c', cmp, cmps, node, hcompares, hall, ?_, hstart, hfirst.trans hpasses⟩
  rw [hconnected, hcompares.connected]

/-- The passes through the loop over the runs behind the first one. -/
theorem runs_passes {runs : List (Clause × List Clause)} {n : ℕ}
    (hruns : ∀ r ∈ runs, ∀ clause ∈ r.1 :: r.2, Fueled subject n clause) {left : Node}
    (hflag : c.flag = false)
    (hspells : Spells tokens c.pos (restText (Clause.spelledOut subject) (orRuns runs)))
    (hends : EndsBefore endKinds tokens
      (c.pos + (restText (Clause.spelledOut subject) (orRuns runs)).length)) :
  ∃ cmpRuns : List (Node × List Node),
    List.Forall₂ (fun r r' => Compares subject r.1 r'.1 ∧ List.Forall₂ (Compares subject) r.2 r'.2)
      runs cmpRuns ∧
    ∃ node, connected node = climb (connected left) cmpRuns ∧
      Passes tokens (parseOperator (fixFuel parseBody (n + 3)) 0) left c node
        ⟨c.pos + (restText (Clause.spelledOut subject) (orRuns runs)).length, false⟩
  := by
  induction runs generalizing c left with
  | nil =>
    obtain ⟨pos, flag⟩ := c
    obtain rfl : flag = false := hflag
    exact ⟨[], List.Forall₂.nil, left, rfl, Passes.refl _ _⟩
  | cons r runs ih =>
    obtain ⟨first, run⟩ := r
    obtain ⟨hrun, hruns⟩ := List.forall_mem_cons.mp hruns
    have htext : restText (Clause.spelledOut subject) (orRuns ((first, run) :: runs)) =
        (connectiveOp .or).lexeme :: ((first.spelledOut subject ++
          restText (Clause.spelledOut subject) (andRun run)) ++
            restText (Clause.spelledOut subject) (orRuns runs)) := by
      have hrest : restText (Clause.spelledOut subject) (orRuns ((first, run) :: runs)) =
          (connectiveOp .or).lexeme :: (first.spelledOut subject ++
            restText (Clause.spelledOut subject) (andRun run ++ orRuns runs)) := rfl
      rw [hrest, restText_append, List.append_assoc]
    rw [htext] at hspells hends ⊢
    have hafter := hspells.tail.right
    generalize hgroup : first.spelledOut subject ++ restText (Clause.spelledOut subject) (andRun run) = group at *
    generalize hrest : restText (Clause.spelledOut subject) (orRuns runs) = rest at *
    have hend : c.pos + ((connectiveOp .or).lexeme :: (group ++ rest)).length =
        c.pos + 1 + group.length + rest.length := by
      simp only [List.length_cons, List.length_append]
      omega
    rw [hend] at hends ⊢
    obtain ⟨tok, htok, hlexeme⟩ := hspells.head
    have hends' : EndsBefore (.OROR :: endKinds) tokens (c.pos + 1 + group.length) := by
      subst hrest
      exact endsBefore_runs hafter hends
    subst hgroup
    obtain ⟨start, c', cmp, cmps, right, hcompares, hall, hconnected, hstart, hpasses⟩ :=
      @run_returns tokens (next c) subject hsubject first run n 2 hrun le_rfl hflag hspells.tail.left
        (hends'.mono (by decide))
    have hright := parseExpression_of_passes hstart hpasses (hends'.stops_of_lt (by decide) (by decide))
    have hpass : Returns tokens (parseOperator (fixFuel parseBody (n + 3)) 0 left) c _ _ :=
      parseOperator_goesOn hflag htok hlexeme (Nat.zero_le _) hright
    obtain ⟨cmpRuns, hallRuns, node, hconnected', hpasses'⟩ :=
      @ih ⟨c.pos + 1 + (first.spelledOut subject ++
          restText (Clause.spelledOut subject) (andRun run)).length, false⟩ hruns
        (binaryNode tok (some (connectiveOp .or).lexeme.text) left right) rfl hafter hends
    refine ⟨(cmp, cmps) :: cmpRuns, List.Forall₂.cons ⟨hcompares, hall⟩ hallRuns, node, ?_, ?_⟩
    · rw [hconnected', connected_binaryNode, hconnected]
      rfl
    · apply hpasses'.head hpass
      show c.pos < c.pos + 1 + _
      omega

/-- Comparisons that are written out are parsed to their runs, joined by precedence. -/
theorem spelledText_parsed {first : Clause} {run : List Clause} {runs : List (Clause × List Clause)}
    (hexprs : ∀ clause ∈ first :: (andRun run ++ orRuns runs).map Prod.snd, IsOperand clause.expr)
    (hflag : c.flag = false) (hspells : Spells tokens c.pos (spelledText subject first (andRun run ++ orRuns runs)))
    (hends : EndsBefore endKinds tokens
      (c.pos + (spelledText subject first (andRun run ++ orRuns runs)).length)) :
  ∃ n cmp cmps, ∃ cmpRuns : List (Node × List Node),
    ParsesTo subject (first :: (andRun run ++ orRuns runs).map Prod.snd) tokens c
      (spelledText subject first (andRun run ++ orRuns runs)).length n ∧
    Compares subject first cmp ∧ List.Forall₂ (Compares subject) run cmps ∧
    List.Forall₂ (fun r r' => Compares subject r.1 r'.1 ∧ List.Forall₂ (Compares subject) r.2 r'.2)
      runs cmpRuns ∧
    connected n = climb (fold (.leaf cmp) (andRun cmps)) cmpRuns
  := by
  have htext : spelledText subject first (andRun run ++ orRuns runs) =
      (first.spelledOut subject ++ restText (Clause.spelledOut subject) (andRun run)) ++
        restText (Clause.spelledOut subject) (orRuns runs) := by
    rw [spelledText, restText_append, List.append_assoc]
  have hlt := hends.lt_length
  obtain ⟨m, hm⟩ : ∃ m, tokens.length = m + 1 := ⟨tokens.length - 1, by omega⟩
  have hfueled : ∀ clause ∈ first :: (andRun run ++ orRuns runs).map Prod.snd, Fueled subject (2 * m) clause := by
    intro clause hmem
    refine ⟨hexprs clause hmem, ?_⟩
    have hspelled : (clause.spelledOut subject).length =
        subject.length + 1 + clause.expr.length := by
      simp only [Clause.spelledOut, List.length_append, List.length_cons]
      omega
    simp only [spelledText, List.length_append] at hlt
    rcases List.mem_cons.mp hmem with rfl | hmem
    · omega
    · have hle := @length_le_restText (Clause.spelledOut subject) _ clause hmem
      omega
  have hrun : ∀ clause ∈ first :: run, Fueled subject (2 * m) clause := by
    intro clause hmem
    apply hfueled
    rcases List.mem_cons.mp hmem with rfl | hmem
    · exact List.mem_cons_self
    · apply List.mem_cons_of_mem
      rw [List.map_append, List.mem_append]
      exact Or.inl (List.mem_map_of_mem (List.mem_map_of_mem hmem))
  have hruns : ∀ r ∈ runs, ∀ clause ∈ r.1 :: r.2, Fueled subject (2 * m) clause := by
    intro r hr clause hmem
    apply hfueled
    apply List.mem_cons_of_mem
    rw [List.map_append, List.mem_append]
    right
    have hgroup : (.or, r.1) :: andRun r.2 ⊆ orRuns runs := fun a ha => List.mem_flatMap.mpr ⟨r, hr, ha⟩
    rcases List.mem_cons.mp hmem with rfl | hmem
    · exact List.mem_map_of_mem (hgroup List.mem_cons_self)
    · exact List.mem_map_of_mem (hgroup (List.mem_cons_of_mem _ (List.mem_map_of_mem hmem)))
  rw [htext] at hspells hends
  rw [htext]
  rw [List.length_append, ← Nat.add_assoc] at hends
  have hends' := endsBefore_runs hspells.right hends
  obtain ⟨left, c', cmp, cmps, node, hcompares, hall, hconnected, hstart, hpasses⟩ :=
    @run_returns tokens c subject hsubject first run (2 * m + 1) 0
      (fun clause hmem => ⟨(hrun clause hmem).1, (hrun clause hmem).2.trans (Nat.le_succ _)⟩)
      (Nat.zero_le _) hflag hspells.left (hends'.mono (by decide))
  obtain ⟨cmpRuns, hallRuns, n, hconnected', hpasses'⟩ :=
    @runs_passes tokens ⟨_, false⟩ subject hsubject runs (2 * m) hruns node rfl hspells.right hends
  have hparse := parseExpression_of_passes hstart (hpasses.trans hpasses') (hends.stops 0)
  have hreturns : Returns tokens (parseExpression 0) c n ⟨c.pos + ((first.spelledOut subject ++
      restText (Clause.spelledOut subject) (andRun run)) ++
        restText (Clause.spelledOut subject) (orRuns runs)).length, false⟩ := by
    rw [returns_parseExpression_iff, hm, List.length_append, ← Nat.add_assoc]
    exact hparse
  have hjoined : connected n = climb (fold (.leaf cmp) (andRun cmps)) cmpRuns := by
    rw [hconnected', hconnected]
  refine ⟨n, cmp, cmps, cmpRuns, ?_, hcompares, hall, hallRuns, hjoined⟩
  refine @parsesTo_of_leaves tokens c subject first _ _ n cmp (andRun cmps ++ orRuns cmpRuns) hreturns
    hcompares (forall₂_runs hall hallRuns) ?_
  rw [hjoined, leaves_climb, leaves_fold, List.map_append]
  rfl

end

end

/-! ### Subjects and operands -/

/-- The tokens of a step of a chain of dots. -/
def dotLexemes : Step → List Lexeme
  | .name word => [⟨.DOT, "."⟩, ⟨.NAME, String.ofList word⟩]
  | .numeral digits => [⟨.DOT, "."⟩, ⟨.INT_LITERAL, String.ofList digits⟩]

/-- The tokens of a chain of dots behind a name. -/
def chainLexemes (x : String) (steps : List Step) : List Lexeme :=
  ⟨.NAME, x⟩ :: steps.flatMap dotLexemes

section

variable {tokens : List Token} {c : Cursor} {self : Entry → P Node}

/-- A pass through the loop over the dots. -/
theorem postfixPass_step {step : Step} {after : Token} (hspells : Spells tokens c.pos (dotLexemes step))
    (hafter : tokens[c.pos + 2]? = some after) (hparen : after.kind ≠ .LPAREN) (object : Node) :
  ∃ node, Returns tokens (postfixPass self object) c (.inl node) (next (next c))
  := by
  cases step with
  | name word =>
    obtain ⟨dot, hdot, hdotLexeme⟩ := hspells.head
    obtain ⟨tok, htok, hlexeme⟩ := hspells.tail.head
    exact ⟨_, postfixPass_returns hdot (congrArg Lexeme.kind hdotLexeme)
      (parseDot_name (c := next c) htok (congrArg Lexeme.kind hlexeme) hafter hparen dot)⟩
  | numeral digits =>
    obtain ⟨dot, hdot, hdotLexeme⟩ := hspells.head
    obtain ⟨tok, htok, hlexeme⟩ := hspells.tail.head
    exact ⟨_, postfixPass_returns hdot (congrArg Lexeme.kind hdotLexeme)
      (parseDot_numeral (c := next c) htok (congrArg Lexeme.kind hlexeme) dot)⟩

theorem length_dotLexemes (step : Step) : (dotLexemes step).length = 2 := by
  cases step <;> rfl

theorem chain_passes {steps : List Step} {object : Node}
    (hspells : Spells tokens c.pos (steps.flatMap dotLexemes))
    (hpost : PostfixStops tokens (c.pos + (steps.flatMap dotLexemes).length)) :
  ∃ node, Passes tokens (postfixPass self) object c node
    { c with pos := c.pos + (steps.flatMap dotLexemes).length }
  := by
  induction steps generalizing c object with
  | nil => exact ⟨object, Passes.refl _ _⟩
  | cons step steps ih =>
    rw [List.flatMap_cons] at hspells hpost ⊢
    have hend : c.pos + (dotLexemes step ++ steps.flatMap dotLexemes).length =
        (next (next c)).pos + (steps.flatMap dotLexemes).length := by
      simp only [List.length_append, length_dotLexemes, next_pos]
      omega
    rw [hend] at hpost ⊢
    have hrest : Spells tokens (c.pos + 2) (steps.flatMap dotLexemes) := by
      have hright := hspells.right
      rwa [length_dotLexemes] at hright
    -- Another step or the end of the chain follows.
    have hafter : ∃ after, tokens[c.pos + 2]? = some after ∧ after.kind ≠ .LPAREN := by
      cases steps with
      | nil =>
        obtain ⟨after, _, _, hafter, hparen, -⟩ := hpost
        exact ⟨after, hafter, hparen⟩
      | cons step' steps =>
        have hdot : ∃ lexemes, (step' :: steps).flatMap dotLexemes = ⟨.DOT, "."⟩ :: lexemes := by
          cases step' <;> exact ⟨_, rfl⟩
        obtain ⟨lexemes, hlexemes⟩ := hdot
        rw [hlexemes] at hrest
        obtain ⟨after, hafter, hlexeme⟩ := hrest.head
        have hkind : after.kind = .DOT := congrArg Lexeme.kind hlexeme
        exact ⟨after, hafter, by simp [hkind]⟩
    obtain ⟨after, hafter, hparen⟩ := hafter
    obtain ⟨node, hpass⟩ := @postfixPass_step tokens c self step after hspells.left hafter hparen object
    obtain ⟨node', hpasses⟩ := @ih (next (next c)) node hrest hpost
    refine ⟨node', hpasses.head hpass ?_⟩
    simp only [next_pos]
    omega

end

/-- Names and chains of dots may be subjects. -/
theorem isSubject_chain (x : String) (steps : List Step) : IsSubject (chainLexemes x steps) := by
  refine ⟨List.cons_ne_nil _ _, ?_⟩
  intro tokens c n hflag _ hspells hpost
  obtain ⟨tok, htok, hlexeme⟩ := hspells.head
  have hend : c.pos + (chainLexemes x steps).length = (next c).pos + (steps.flatMap dotLexemes).length := by
    simp only [chainLexemes, List.length_cons, next_pos]
    omega
  rw [hend] at hpost ⊢
  obtain ⟨node, hpasses⟩ := @chain_passes tokens (next c) (fixFuel parseBody n) steps
    { nodeNew .NAME tok with name := some tok.text } hspells.tail hpost
  refine ⟨node, ?_⟩
  unfold Returns
  rw [parsePrefix_word htok (congrArg Lexeme.kind hlexeme), parsePostfix_eq]
  have hle : (next c).pos + (steps.flatMap dotLexemes).length ≤ tokens.length := by
    obtain ⟨last, _, _, hlast, -⟩ := hpost
    exact (List.getElem?_eq_some_iff.mp hlast).1.le
  have hreturns := returns_loop hpasses hle (postfixPass_stops hpost)
  dsimp only at hreturns
  rw [next_flag, hflag] at hreturns
  exact hreturns

/-- Trees of operators that bind at least as tightly as `+` may be operands. -/
theorem isOperand_tree {t : Tree} (h : 5 ≤ t.level) : IsOperand t.print := by
  intro tokens c n hflag hn hspells hends
  have hstops := (stops_clause hends).mono (show 3 ≤ t.level + 1 by omega)
  obtain ⟨left, c', node, -, hstart, hpasses⟩ :=
    t.reached n 5 c hflag h (by omega) hspells hstops fun _ => hends.1
  exact ⟨node, parseExpression_of_passes hstart hpasses ((stops_clause hends).mono (by decide))⟩

/-! ### The meaning of a check -/

/-- Whether numbers are related, where the relation may be missing. -/
def relatedHolds (x : ℤ) (r : Option Relation) (value : ℤ) : Bool := r.any fun r => r.holds x value

theorem Compares.relation {subject : List Lexeme} {clause : Clause} {n : Node}
    (h : Compares subject clause n) :
  relationOf n.op = some clause.related
  := by
  obtain ⟨line, col, left, right, -, -, rfl⟩ := h
  cases clause.related <;> rfl

theorem map_relationOf {subject : List Lexeme} {clauses : List Clause} {nodes : List Node}
    (h : List.Forall₂ (Compares subject) clauses nodes) :
  nodes.map (fun n => relationOf n.op) = clauses.map fun clause => some clause.related
  := by
  induction h with
  | nil => rfl
  | cons hhead _ ih => rw [List.map_cons, List.map_cons, hhead.relation, ih]

theorem map_relationOf_ops {subject : List Lexeme} {rest : List (Connective × Clause)}
    {cmps : List (Connective × Node)} (hops : cmps.map Prod.fst = rest.map Prod.fst)
    (h : List.Forall₂ (Compares subject) (rest.map Prod.snd) (cmps.map Prod.snd)) :
  cmps.map (Prod.map id fun n => relationOf n.op) = rest.map (Prod.map id fun clause => some clause.related)
  := by
  have hnodes := map_relationOf h
  rw [List.map_map, List.map_map] at hnodes
  have hleft : cmps.map (Prod.map id fun n => relationOf n.op) =
      (rest.map Prod.fst).zip (rest.map ((fun clause => some clause.related) ∘ Prod.snd)) := by
    apply List.zip_of_prod
    · rw [List.map_map, ← hops]
      rfl
    · rw [List.map_map, ← hnodes]
      rfl
  rw [hleft]
  symm
  apply List.zip_of_prod
  · rw [List.map_map]
    rfl
  · rw [List.map_map]
    rfl

/-- The truth of a check. -/
theorem truth_of_fold {subject : List Lexeme} {first : Clause} {rest : List (Connective × Clause)}
    {n cmp : Node} {cmps : List (Connective × Node)} (hcompares : Compares subject first cmp)
    (hops : cmps.map Prod.fst = rest.map Prod.fst)
    (hall : List.Forall₂ (Compares subject) (rest.map Prod.snd) (cmps.map Prod.snd))
    (hfold : connected n = fold (.leaf cmp) cmps) (x : ℤ) (values : List ℤ) :
  (connected n).truth (comparisonHolds x) values =
    (fold (.leaf (some first.related))
      (rest.map (Prod.map id fun clause => some clause.related))).truth (relatedHolds x) values
  := by
  have hmap := @truth_map Node _ ℤ (relatedHolds x) (fun n => relationOf n.op) (connected n) values
  rw [hfold, map_fold, map_relationOf_ops hops hall, ClauseTree.map, hcompares.relation] at hmap
  rw [hmap, hfold]
  rfl

/-- The truth of comparisons that are written out. -/
theorem truth_of_climb {subject : List Lexeme} {first : Clause} {run : List Clause}
    {runs : List (Clause × List Clause)} {n cmp : Node} {cmps : List Node} {cmpRuns : List (Node × List Node)}
    (hcompares : Compares subject first cmp) (hall : List.Forall₂ (Compares subject) run cmps)
    (hallRuns : List.Forall₂ (fun r r' => Compares subject r.1 r'.1 ∧
      List.Forall₂ (Compares subject) r.2 r'.2) runs cmpRuns)
    (hclimb : connected n = climb (fold (.leaf cmp) (andRun cmps)) cmpRuns) (x : ℤ) (values : List ℤ) :
  (connected n).truth (comparisonHolds x) values =
    (climb (fold (.leaf (some first.related)) (andRun (run.map fun clause => some clause.related)))
      (runs.map (Prod.map (fun clause => some clause.related)
        (List.map fun clause => some clause.related)))).truth (relatedHolds x) values
  := by
  have hruns : cmpRuns.map (Prod.map (fun n => relationOf n.op) (List.map fun n => relationOf n.op)) =
      runs.map (Prod.map (fun clause => some clause.related)
        (List.map fun clause => some clause.related)) := by
    clear hclimb
    induction hallRuns with
    | nil => rfl
    | cons hr _ ih =>
      rw [List.map_cons, List.map_cons, ih, Prod.map, Prod.map, hr.1.relation, map_relationOf hr.2]
  have hmap := @truth_map Node _ ℤ (relatedHolds x) (fun n => relationOf n.op) (connected n) values
  rw [hclimb, map_climb, map_fold, map_andRun, map_relationOf hall, hruns, ClauseTree.map,
    hcompares.relation] at hmap
  rw [hmap, hclimb]
  rfl

/-- Every text stands before the end of some tokens. -/
theorem exists_tokens (lexemes : List Lexeme) :
  ∃ tokens, Spells tokens 0 lexemes ∧ EndsBefore endKinds tokens lexemes.length
  := by
  let place (lexeme : Lexeme) : Token := ⟨lexeme.kind, lexeme.text, 0, 0⟩
  let eof : Token := ⟨.EOF, "", 0, 0⟩
  have hspells : Spells (lexemes.map place ++ [eof]) 0 lexemes := by
    have hall := @spells_append [] (lexemes.map place) [eof] lexemes (by simp [place, Function.comp_def, Token.lexeme])
    rwa [List.nil_append] at hall
  have heof : (lexemes.map place ++ [eof])[lexemes.length]? = some eof := by simp
  exact ⟨_, hspells, postfixStops_of_token heof (by decide), eof, heof, by decide⟩

/-- A check means the comparisons written out exactly when no `&&` stands behind an `||`. -/
theorem meansExpansion_iff {subject : List Lexeme} {first : Clause} {rest : List (Connective × Clause)}
    (hsubject : IsSubject subject) (hexprs : ∀ clause ∈ first :: rest.map Prod.snd, IsOperand clause.expr)
    (hrest : rest ≠ []) :
  MeansExpansion subject first rest ↔ AndsFirst (rest.map Prod.fst)
  := by
  obtain ⟨run, runs, rfl⟩ := exists_runs rest
  let relate (clause : Clause) : Option Relation := some clause.related
  let checked := fold (.leaf (relate first)) (andRun (run.map relate) ++
    orRuns (runs.map (Prod.map relate (List.map relate))))
  let spelled := climb (fold (.leaf (relate first)) (andRun (run.map relate)))
    (runs.map (Prod.map relate (List.map relate)))
  have hrelate : (andRun run ++ orRuns runs).map (Prod.map id relate) =
      andRun (run.map relate) ++ orRuns (runs.map (Prod.map relate (List.map relate))) := by
    rw [List.map_append, map_andRun, map_orRuns]
  have hops : (andRun (run.map relate) ++ orRuns (runs.map (Prod.map relate (List.map relate)))).map Prod.fst =
      (andRun run ++ orRuns runs).map Prod.fst := by
    rw [← hrelate, List.map_map]
    rfl
  have hlength : (andRun (run.map relate) ++ orRuns (runs.map (Prod.map relate (List.map relate)))).length =
      (andRun run ++ orRuns runs).length := by
    rw [← hrelate, List.length_map]
  -- The relations of a clause hold and fail for some values.
  have htruth (x : ℤ) : (∀ values : List ℤ, values.length = (andRun run ++ orRuns runs).length + 1 →
      checked.truth (relatedHolds x) values = spelled.truth (relatedHolds x) values) ↔
        AndsFirst ((andRun run ++ orRuns runs).map Prod.fst) := by
    rw [← hops, ← hlength]
    refine @truth_eq_iff _ _ _ (fun b r => (exists_value (r.getD .eq) x b).choose) _ _ _ ?_
    intro b r hr
    have hsome : ∃ clause, r = relate clause := by
      rcases List.mem_cons.mp hr with rfl | hr
      · exact ⟨first, rfl⟩
      · rw [← hrelate, List.map_map] at hr
        obtain ⟨clause, -, rfl⟩ := List.mem_map.mp hr
        exact ⟨clause.2, rfl⟩
    obtain ⟨clause, rfl⟩ := hsome
    exact (exists_value clause.related x b).choose_spec
  have hparsed {tokens tokens' : List Token} {c c' : Cursor} (hflag : c.flag = false) (hflag' : c'.flag = false)
      (hspells : Spells tokens c.pos (isText subject first (andRun run ++ orRuns runs)))
      (hends : EndsBefore endKinds tokens
        (c.pos + (isText subject first (andRun run ++ orRuns runs)).length))
      (hspells' : Spells tokens' c'.pos (spelledText subject first (andRun run ++ orRuns runs)))
      (hends' : EndsBefore endKinds tokens'
        (c'.pos + (spelledText subject first (andRun run ++ orRuns runs)).length)) :
      ∃ n n', ParsesTo subject (first :: (andRun run ++ orRuns runs).map Prod.snd) tokens c
          (isText subject first (andRun run ++ orRuns runs)).length n ∧
        ParsesTo subject (first :: (andRun run ++ orRuns runs).map Prod.snd) tokens' c'
          (spelledText subject first (andRun run ++ orRuns runs)).length n' ∧
        ∀ x values, (connected n).truth (comparisonHolds x) values = checked.truth (relatedHolds x) values ∧
          (connected n').truth (comparisonHolds x) values = spelled.truth (relatedHolds x) values := by
    obtain ⟨n, cmp, cmps, hparses, hcompares, hops, hall, hfold⟩ :=
      isText_parsed hsubject hexprs hrest hflag hspells hends
    obtain ⟨n', cmp', cmps', cmpRuns, hparses', hcompares', hall', hallRuns, hclimb⟩ :=
      spelledText_parsed hsubject hexprs hflag' hspells' hends'
    refine ⟨n, n', hparses, hparses', fun x values => ⟨?_, ?_⟩⟩
    · rw [truth_of_fold hcompares hops hall hfold x values]
      exact congrArg (fun rest => (fold _ rest).truth _ _) hrelate
    · exact truth_of_climb hcompares' hall' hallRuns hclimb x values
  constructor
  · intro h
    obtain ⟨tokens, hspells, hends⟩ := exists_tokens (isText subject first (andRun run ++ orRuns runs))
    obtain ⟨tokens', hspells', hends'⟩ :=
      exists_tokens (spelledText subject first (andRun run ++ orRuns runs))
    rw [← Nat.zero_add (List.length _)] at hends hends'
    obtain ⟨n, n', hparses, hparses', hsame⟩ :=
      h tokens tokens' ⟨0, false⟩ ⟨0, false⟩ rfl rfl hspells hends hspells' hends'
    obtain ⟨n₁, n₁', hparses₁, hparses₁', htruths⟩ :=
      @hparsed tokens tokens' ⟨0, false⟩ ⟨0, false⟩ rfl rfl hspells hends hspells' hends'
    obtain ⟨rfl, -⟩ := hparses.1.unique hparses₁.1
    obtain ⟨rfl, -⟩ := hparses'.1.unique hparses₁'.1
    apply (htruth 0).mp
    intro values hvalues
    rw [← (htruths 0 values).1, ← (htruths 0 values).2]
    exact hsame 0 values hvalues
  · intro hands tokens tokens' c c' hflag hflag' hspells hends hspells' hends'
    obtain ⟨n, n', hparses, hparses', htruths⟩ := hparsed hflag hflag' hspells hends hspells' hends'
    refine ⟨n, n', hparses, hparses', fun x values hvalues => ?_⟩
    rw [(htruths x values).1, (htruths x values).2]
    exact (htruth x).mpr hands values hvalues

/-- The check `x IS >= 200 && < 300` means `x >= 200 && x < 300`. -/
theorem meansExpansion_between :
  MeansExpansion [⟨.NAME, "x"⟩] ⟨some .gte, [⟨.INT_LITERAL, toString 200⟩]⟩
    [(.and, ⟨some .lt, [⟨.INT_LITERAL, toString 300⟩]⟩)]
  := by
  apply (meansExpansion_iff (isSubject_chain "x" []) _ (by simp)).mpr
  · exact List.pairwise_singleton _ _
  · intro clause hmem
    simp only [List.map_cons, List.map_nil, List.mem_cons, List.not_mem_nil, or_false] at hmem
    rcases hmem with rfl | rfl
    · exact @isOperand_tree (.int 200) (by decide)
    · exact @isOperand_tree (.int 300) (by decide)

/-- The check `x IS 1 || 2 && 3` does not mean `x == 1 || x == 2 && x == 3`. -/
theorem not_meansExpansion :
  ¬ ∀ (subject : List Lexeme) (first : Clause) (rest : List (Connective × Clause)), IsSubject subject →
    (∀ clause ∈ first :: rest.map Prod.snd, IsOperand clause.expr) → rest ≠ [] →
      MeansExpansion subject first rest
  := by
  intro h
  let clause (value : ℕ) : Clause := ⟨none, [⟨.INT_LITERAL, toString value⟩]⟩
  have hexprs : ∀ c ∈ clause 1 :: [(Connective.or, clause 2), (.and, clause 3)].map Prod.snd,
      IsOperand c.expr := by
    intro c hmem
    simp only [List.map_cons, List.map_nil, List.mem_cons, List.not_mem_nil, or_false] at hmem
    rcases hmem with rfl | rfl | rfl
    · exact @isOperand_tree (.int 1) (by decide)
    · exact @isOperand_tree (.int 2) (by decide)
    · exact @isOperand_tree (.int 3) (by decide)
  have hmeans := h _ _ _ (isSubject_chain "x" []) hexprs (by simp)
  rw [meansExpansion_iff (isSubject_chain "x" []) hexprs (by simp)] at hmeans
  exact absurd hmeans (by decide)

end Caster.Parse
