import Caster.Parse.IsChecks
import Caster.SelfHosting.ExpressionRuns
import Caster.SelfHosting.IsEmission

/-!
# Checks `IS` of the self-hosted compiler

The parser written in Caster takes `IS` for a binary operator that binds tighter than `&&` and `||`,
so what it reads compares the subject with the first clause only.
-/

namespace Caster.SelfHosting

open Connectives (Connective ClauseTree)
open Parse (Clause Lexeme Step Spells EndsBefore chainLexemes connected endKinds isText restText)

/-! ### Texts of clauses -/

/-- The text of a tree of texts, as the emitter writes connectives. -/
def treeText : ClauseTree (List Char) → List Char
  | .leaf text => text
  | .join op left right =>
    ['('] ++ treeText left ++ [' '] ++ (Parse.connectiveOp op).lexeme.text.toList ++ [' '] ++
      treeText right ++ [')']

/-- The lengths of clauses that are joined, with the signs each connective is written with. -/
def joinedLength (texts : List (List Char)) : ℕ := (texts.map fun text => text.length + 6).sum

/-- The length of a text of clauses does not depend on how they are joined. -/
theorem length_treeText (t : ClauseTree (List Char)) :
  (treeText t).length + 6 = joinedLength t.leaves
  := by
  induction t with
  | leaf text => rfl
  | join op left right ihl ihr =>
    have hop : (Parse.connectiveOp op).lexeme.text.toList.length = 2 := by cases op <;> rfl
    have hsum : joinedLength (left.leaves ++ right.leaves) =
        joinedLength left.leaves + joinedLength right.leaves := by
      rw [joinedLength, List.map_append, List.sum_append]
      rfl
    rw [ClauseTree.leaves, hsum, ← ihl, ← ihr]
    simp only [treeText, List.length_append, List.length_singleton, hop]
    omega

section

variable (typeOf : Expr → String) (emit : Expr → List Char)

/-- The comparison of a subject with the operand of a clause, as the emitter writes it. -/
def comparisonText (subject : Expr) (clause : Clause) (operand : Expr) : List Char :=
  match clause.relation with
  | none => emitSubjectCompare typeOf emit subject operand
  | some r => emitRelation emit r.op.lexeme.text subject operand

/-- A comparison is longer than its operand. -/
theorem length_lt_comparisonText (subject : Expr) (clause : Clause) (operand : Expr) :
  (emit operand).length < (comparisonText typeOf emit subject clause operand).length
  := by
  unfold comparisonText
  split
  · unfold emitSubjectCompare
    split_ifs
    · simp only [List.length_append, List.length_cons]
      omega
    · simp only [List.length_append, List.length_cons]
      omega
  · simp only [emitRelation, List.length_append, List.length_cons]
    omega

/-- Comparisons with operands are longer than the operands. -/
theorem joinedLength_lt (subject : Expr) {clauses : List Clause} {operands : List Expr}
    (hlength : clauses.length = operands.length) (hne : operands ≠ []) :
  joinedLength (operands.map emit) <
    joinedLength (List.zipWith (comparisonText typeOf emit subject) clauses operands)
  := by
  have hle {clauses : List Clause} {operands : List Expr} (hlength : clauses.length = operands.length) :
      joinedLength (operands.map emit) ≤
        joinedLength (List.zipWith (comparisonText typeOf emit subject) clauses operands) := by
    induction clauses generalizing operands with
    | nil =>
      obtain rfl := List.length_eq_zero_iff.mp hlength.symm
      exact le_refl _
    | cons clause clauses ih =>
      obtain ⟨operand, operands, rfl⟩ := List.exists_cons_of_length_eq_add_one hlength.symm
      have hrest := ih (Nat.succ.inj hlength)
      have hfirst := length_lt_comparisonText typeOf emit subject clause operand
      simp only [joinedLength, List.map_cons, List.sum_cons, List.zipWith_cons_cons] at hrest ⊢
      omega
  obtain ⟨operand, operands, rfl⟩ := List.exists_cons_of_ne_nil hne
  obtain ⟨clause, clauses, rfl⟩ := List.exists_cons_of_length_eq_add_one hlength
  have hrest := hle (Nat.succ.inj hlength)
  have hfirst := length_lt_comparisonText typeOf emit subject clause operand
  simp only [joinedLength, List.map_cons, List.sum_cons, List.zipWith_cons_cons] at hrest ⊢
  omega

end

/-! ### Agreement -/

section

variable (file : String) (toks : List Token)

/-- The state before a position of a file, where nothing is reported. -/
def place (pos : ℕ) : State := { State.new file toks with pos }

/-- From a position on, the operands of clauses are read where they stand. -/
inductive ReadsOperands : ℕ → List Clause → List Expr → Prop
  | nil (pos : ℕ) : ReadsOperands pos [] []
  | cons {pos : ℕ} {clause : Clause} {clauses : List Clause} {operand : Expr} {operands : List Expr}
      (hread : Gives (parse (.expression 5)) (place file toks (pos + 1 + clause.relation.toList.length)) operand
        (place file toks (pos + 1 + clause.isPiece.length)))
      (hrest : ReadsOperands (pos + 1 + clause.isPiece.length) clauses operands) :
    ReadsOperands pos (clause :: clauses) (operand :: operands)

variable (names types : List String) (otherType : Expr → String) (other : Expr → List Char)
  (refDotTarget : Expr → Option (List Char)) (tokens : List Parse.Token) (pos : ℕ)

/-- The parser written in Caster accepts a check, and what is written for it compares the subject with
every clause and combines the comparisons as the tree of the compiler does. -/
def ComparesAll (subject : List Lexeme) (first : Clause) (rest : List (Connective × Clause)) : Prop :=
  ∃ (n : Parse.Node) (expr x : Expr) (operands : List Expr) (t : ClauseTree (List Char)),
    TokenParser.Returns tokens (Parse.parseExpression 0) ⟨pos, false⟩ n
      ⟨pos + (isText subject first rest).length, false⟩ ∧
    Gives (parse (.expression 1)) (place file toks pos) expr
      (place file toks (pos + (isText subject first rest).length)) ∧
    Gives (parse .unary) (place file toks pos) x (place file toks (pos + subject.length)) ∧
    ReadsOperands file toks (pos + subject.length) (first :: rest.map Prod.snd) operands ∧
    t.map (fun _ => ()) = (connected n).map (fun _ => ()) ∧
    t.leaves = List.zipWith (comparisonText (exprType names types otherType)
      (emitItem names types otherType other refDotTarget) x) (first :: rest.map Prod.snd) operands ∧
    emitItem names types otherType other refDotTarget expr = treeText t

end

theorem length_of_reads {file : String} {toks : List Token} {pos : ℕ} {clauses : List Clause}
    {operands : List Expr} (h : ReadsOperands file toks pos clauses operands) :
  clauses.length = operands.length
  := by
  induction h with
  | nil => rfl
  | cons _ _ ih => rw [List.length_cons, List.length_cons, ih]

/-! ### What is read -/

/-- The tokens of the comparisons. -/
def relationKinds : List Kind := [.EQEQ, .NEQ, .LT, .LTE, .GT, .GTE]

theorem relation_mem (r : Parse.Relation) : kindOf r.op.lexeme.kind ∈ relationKinds := by
  cases r <;> decide

/-- No expression starts with a comparison. -/
theorem Runs.reports {m : ℕ} {expr : Expr} {s s' : State} {tok : Token} (htok : s.tokens[s.pos]? = some tok)
    (hkind : tok.kind ∈ relationKinds) (h : Runs (.expression m) s expr s') :
  s'.diagnostics ≠ []
  := by
  intro hclean
  obtain ⟨left, s₁, ⟨n, hleft⟩, hloop⟩ := h.exists_operand
  have hclean := hloop.grows.clean hclean
  cases n with
  | zero => cases hleft
  | succ n =>
    have hop : isPrefixOp tok.kind = false := by
      revert hkind
      generalize tok.kind = kind
      revert kind
      decide
    have hleft : Gives (parseUnary (fixFuel n)) s left s₁ := hleft
    rw [parseUnary, gives_bind_iff (current_gives htok), if_neg (by simp [hop])] at hleft
    obtain ⟨primary, s₂, hprimary, hpostfix⟩ := gives_bind_inv hleft
    have hself := lifts_fixFuel (le_refl n)
    have hclean := (lifts_parsePostfix hself primary s₂ left s₁ hpostfix).2.clean hclean
    rw [parsePrimary, gives_bind_iff (current_gives htok)] at hprimary
    have hmissing : Gives (parseMissing tok) s primary s₂ := by
      simp only [relationKinds, List.mem_cons, List.not_mem_nil, or_false] at hkind
      rcases hkind with hkind | hkind | hkind | hkind | hkind | hkind <;> rwa [hkind] at hprimary
    obtain ⟨_, s₃, herror, hrest⟩ := gives_bind_inv hmissing
    have hgrows : Grows s₃ s₂ := by
      have hlifts : Lifts (do
          if ← atEnd then pure ({ kind := .missing, text := tokenText tok, span := tok.span } : Expr)
          else
            let _ ← advance
            pure { kind := .missing, text := tokenText tok, span := tok.span }) _ :=
        lifts_then (lifts_atKind _) (lifts_pure _) (lifts_advance.bind fun _ => lifts_pure _)
      exact (hlifts s₃ primary s₂ hrest).2
    have hclean := hgrows.clean hclean
    cases herror
    simp at hclean

/-! ### The loop over the connectives -/

section

variable {file : String} {toks : List Token}

/-- The tokens of the connectives. -/
def connectiveKinds : List Kind := [.ANDAND, .OROR]

/-- The tokens behind a check. -/
def behindKinds : List Kind := [.RPAREN, .NEWLINE, .EOF]

/-- What stands from a position on: clauses behind connectives, of which the operands are read where they
stand, up to a comparison or to the end. -/
inductive ClausesAt (file : String) (toks : List Token) : ℕ → List Expr → Prop
  | stop {pos : ℕ} {tok : Token} (htok : toks[pos]? = some tok) (hkind : tok.kind ∈ behindKinds) :
    ClausesAt file toks pos []
  | related {pos : ℕ} {tok relation : Token} (htok : toks[pos]? = some tok)
      (hkind : tok.kind ∈ connectiveKinds) (hrelation : toks[pos + 1]? = some relation)
      (hrelated : relation.kind ∈ relationKinds) (operands : List Expr) :
    ClausesAt file toks pos operands
  | clause {pos pos' : ℕ} {tok : Token} {operand : Expr} {operands : List Expr}
      (htok : toks[pos]? = some tok) (hkind : tok.kind ∈ connectiveKinds)
      (hread : Runs (.expression 5) (place file toks (pos + 1)) operand (place file toks pos'))
      (hrest : ClausesAt file toks pos' operands) :
    ClausesAt file toks pos (operand :: operands)

/-- An expression goes on from its operand. -/
theorem Runs.resume {m m' : ℕ} {operand expr : Expr} {s s₁ s' : State} (hle : m ≤ m')
    (hread : Runs (.expression m') s operand s₁) (h : Runs (.expression m) s expr s') :
  LoopRuns m operand s₁ expr s'
  := by
  obtain ⟨left, s₂, hleft, hmid⟩ := hread.exists_operand
  obtain ⟨left', s₂', hleft', hloop⟩ := h.exists_operand
  obtain ⟨rfl, rfl⟩ := hleft.unique hleft'
  exact hmid.resume hle hloop

theorem precedence_connective {kind : Kind} (h : kind ∈ connectiveKinds) :
  0 < precedence kind ∧ precedence kind < 3 ∧ (binaryOp kind = "&&" ∨ binaryOp kind = "||")
  := by
  revert h kind
  decide

theorem precedence_behind {kind : Kind} (h : kind ∈ behindKinds) : precedence kind = 0 := by
  revert h kind
  decide

variable {emit : Expr → List Char} (hjoin : ∀ (left right : Expr) (text op : String) (span : Span),
  op = "&&" ∨ op = "||" → (emit ⟨.binary, text, op, [left, right], span⟩).length =
    (emit left).length + (emit right).length + 6)

include hjoin

/-- The loop reads operands as they are, so its text has their lengths. -/
theorem length_loop {m : ℕ} {pos : ℕ} {operands : List Expr} {left expr : Expr} {s' : State}
    (hclauses : ClausesAt file toks pos operands) (hloop : LoopRuns m left (place file toks pos) expr s')
    (hclean : s'.diagnostics = []) :
  ∃ pos' operands', ClausesAt file toks pos' operands' ∧ s' = place file toks pos' ∧
    operands'.length ≤ operands.length ∧
    (∀ tok, toks[pos']? = some tok → precedence tok.kind = 0 ∨ precedence tok.kind < m) ∧
    (emit expr).length + joinedLength (operands'.map emit) =
      (emit left).length + joinedLength (operands.map emit)
  := by
  induction hn : operands.length using Nat.strong_induction_on generalizing m pos operands left expr s' with
  | _ n ih =>
  have hstay {tok : Token} (htok : toks[pos]? = some tok)
      (hstop : precedence tok.kind = 0 ∨ precedence tok.kind < m) :
      ∃ pos' operands', ClausesAt file toks pos' operands' ∧ s' = place file toks pos' ∧
        operands'.length ≤ n ∧
        (∀ tok, toks[pos']? = some tok → precedence tok.kind = 0 ∨ precedence tok.kind < m) ∧
        (emit expr).length + joinedLength (operands'.map emit) =
          (emit left).length + joinedLength (operands.map emit) := by
    obtain ⟨rfl, rfl⟩ := hloop.stop htok hstop
    refine ⟨pos, operands, hclauses, rfl, hn.le, fun tok' htok' => ?_, rfl⟩
    obtain rfl := Option.some.inj (htok.symm.trans htok')
    exact hstop
  -- The loop stops here, or it passes a connective and reads what stands behind it.
  have hpass {tok : Token} (htok : toks[pos]? = some tok) (hkind : tok.kind ∈ connectiveKinds)
      (hmin : m ≤ precedence tok.kind) :
      ∃ right s₁, Runs (.expression (precedence tok.kind + 1)) (place file toks (pos + 1)) right s₁ ∧
        s₁.diagnostics = [] ∧
        LoopRuns m ⟨.binary, "", binaryOp tok.kind, [left, right], tok.span⟩ s₁ expr s' := by
    obtain ⟨right, s₁, hright, hrest⟩ := hloop.pass htok (precedence_connective hkind).1 hmin
    exact ⟨right, s₁, hright, hrest.grows.clean hclean, hrest⟩
  cases hclauses with
  | stop htok hkind => exact hstay htok (.inl (precedence_behind hkind))
  | @related _ tok relation htok hkind hrelation hrelated _ =>
    rcases Nat.lt_or_ge (precedence tok.kind) m with hlt | hmin
    · exact hstay htok (.inr hlt)
    · obtain ⟨right, s₁, hright, hclean₁, -⟩ := hpass htok hkind hmin
      exact absurd hclean₁ (Runs.reports (s := place file toks (pos + 1)) hrelation hrelated hright)
  | @clause _ pos₁ tok operand operands htok hkind hread hclauses =>
    rcases Nat.lt_or_ge (precedence tok.kind) m with hlt | hmin
    · exact hstay htok (.inr hlt)
    · obtain ⟨right, s₁, hright, hclean₁, hrest⟩ := hpass htok hkind hmin
      obtain ⟨-, hlow, hop⟩ := precedence_connective hkind
      rw [List.length_cons] at hn
      have hloop := hread.resume (show precedence tok.kind + 1 ≤ 5 by omega) hright
      obtain ⟨pos₂, operands₂, hclauses₂, rfl, hle₂, -, hlength₂⟩ :=
        ih operands.length (by omega) hclauses hloop hclean₁ rfl
      obtain ⟨pos₃, operands₃, hclauses₃, rfl, hle₃, hstops, hlength₃⟩ :=
        ih operands₂.length (by omega) hclauses₂ hrest hclean rfl
      refine ⟨pos₃, operands₃, hclauses₃, rfl, by omega, hstops, ?_⟩
      rw [hjoin left right _ _ _ hop] at hlength₃
      simp only [joinedLength, List.map_cons, List.sum_cons] at hlength₂ hlength₃ ⊢
      omega

end

theorem binaryOp_operand {kind : Kind} (h : 5 ≤ precedence kind) :
  ¬ (binaryOp kind = "||" ∨ binaryOp kind = "&&") ∧
    binaryOp kind ∉ ["==", "!=", "<", ">", "<=", ">="]
  := by
  cases kind <;> first | exact absurd h (by decide) | exact ⟨by decide, by decide⟩

/-- A clause of the level of `+` is compared with the subject as it is. -/
theorem emitIsExpr_operand {typeOf : Expr → String} {emit : Expr → List Char} {clause : Expr}
    (h : OfLevel 5 clause) (subject : Expr) :
  emitIsExpr typeOf emit subject clause = emitSubjectCompare typeOf emit subject clause
  := by
  unfold emitIsExpr
  split
  · rename_i text op left right children span
    rcases h with hbinary | ⟨kind, hle, -, hop⟩
    · exact absurd rfl hbinary
    · obtain ⟨hconnective, hrelation⟩ := binaryOp_operand hle
      obtain rfl : op = binaryOp kind := hop
      rw [if_neg hconnective, if_neg hrelation]
  · rfl

/-! ### Checks that are read -/

section

variable {file : String} {tokens : List Parse.Token} {toks : List Token}
  (htokens : List.Forall₂ Corresponds tokens toks)

include htokens

theorem exists_corresponding {pos : ℕ} {tok : Parse.Token} (htok : tokens[pos]? = some tok) :
  ∃ tok', toks[pos]? = some tok' ∧ tok'.kind = kindOf tok.kind
  := by
  obtain ⟨hpos, rfl⟩ := List.getElem?_eq_some_iff.mp htok
  have hpos' : pos < toks.length := htokens.length_eq ▸ hpos
  exact ⟨toks[pos], List.getElem?_eq_getElem hpos', (htokens.get hpos hpos').kind⟩

theorem exists_spelled {pos : ℕ} {lexeme : Lexeme} {lexemes : List Lexeme}
    (h : Spells tokens pos (lexeme :: lexemes)) :
  ∃ tok, toks[pos]? = some tok ∧ tok.kind = kindOf lexeme.kind
  := by
  obtain ⟨tok, htok, hlexeme⟩ := h.head
  obtain ⟨tok', htok', hkind⟩ := exists_corresponding htokens htok
  exact ⟨tok', htok', hkind.trans (congrArg (fun l => kindOf l.kind) hlexeme)⟩

/-- The clauses of a check stand behind the first one. -/
theorem clausesAt_of_reads {pos : ℕ} {rest : List (Connective × Clause)} {operands : List Expr}
    (hspells : Spells tokens pos (restText Clause.isPiece rest))
    (hends : EndsBefore endKinds tokens (pos + (restText Clause.isPiece rest).length))
    (hreads : ReadsOperands file toks pos (rest.map Prod.snd) operands) :
  ClausesAt file toks pos operands
  := by
  induction rest generalizing pos operands with
  | nil =>
    cases hreads
    obtain ⟨-, tok, htok, hkind⟩ := hends
    obtain ⟨tok', htok', hkind'⟩ := exists_corresponding htokens htok
    apply ClausesAt.stop htok'
    rw [hkind']
    simp only [endKinds, List.mem_cons, List.not_mem_nil, or_false] at hkind
    rcases hkind with hkind | hkind | hkind <;> rw [hkind] <;> decide
  | cons head rest ih =>
    obtain ⟨op, clause⟩ := head
    cases hreads with
    | @cons _ _ _ operand operands hread hrest =>
      have htext : restText Clause.isPiece ((op, clause) :: rest) =
          (Parse.connectiveOp op).lexeme :: (clause.isPiece ++ restText Clause.isPiece rest) := rfl
      rw [htext] at hspells hends
      obtain ⟨tok, htok, hkind⟩ := exists_spelled htokens hspells
      have hconnective : tok.kind ∈ connectiveKinds := by
        rw [hkind]
        cases op <;> decide
      rcases hrelation : clause.relation with _ | r
      · rw [hrelation] at hread
        apply ClausesAt.clause htok hconnective (runs_of_parse hread)
        have hlength : pos + ((Parse.connectiveOp op).lexeme ::
            (clause.isPiece ++ restText Clause.isPiece rest)).length =
            pos + 1 + clause.isPiece.length + (restText Clause.isPiece rest).length := by
          simp only [List.length_cons, List.length_append]
          omega
        rw [hlength] at hends
        exact ih hspells.tail.right hends hrest
      · have hpiece : clause.isPiece = r.op.lexeme :: clause.expr := by
          rw [Clause.isPiece, hrelation]
          rfl
        have hbehind := hspells.tail
        rw [hpiece] at hbehind
        obtain ⟨relation, hrelationTok, hrelationKind⟩ := exists_spelled htokens hbehind
        exact .related htok hconnective hrelationTok (hrelationKind ▸ relation_mem r) _

/-- A comparison of the subject with the first clause stands before the other clauses. -/
theorem exists_loop {pos : ℕ} {subject : List Lexeme} {first : Clause} {rest : List (Connective × Clause)}
    {expr x : Expr} {operands : List Expr} (hspells : Spells tokens pos (isText subject first rest))
    (hends : EndsBefore endKinds tokens (pos + (isText subject first rest).length)) (hrest : rest ≠ [])
    (haccepts : Gives (parse (.expression 1)) (place file toks pos) expr
      (place file toks (pos + (isText subject first rest).length)))
    (hsubject : Gives (parse .unary) (place file toks pos) x (place file toks (pos + subject.length)))
    (hreads : ReadsOperands file toks (pos + subject.length) (first :: rest.map Prod.snd) operands) :
  ∃ pos' operand operands' span, operands = operand :: operands' ∧ first.relation = none ∧
    OfLevel 5 operand ∧ (rest.map Prod.snd).length = operands'.length ∧ ClausesAt file toks pos' operands' ∧
    LoopRuns 1 ⟨.binary, "", "IS", [x, operand], span⟩ (place file toks pos') expr
      (place file toks (pos + (isText subject first rest).length))
  := by
  cases hreads with
  | @cons _ _ _ operand operands hread hreads =>
    -- The subject and the sign `IS`.
    have hbehind : Spells tokens (pos + subject.length) (⟨.IS, "IS"⟩ ::
        (first.isPiece ++ restText Clause.isPiece rest)) := hspells.right
    obtain ⟨isTok, hisTok, hisKind⟩ := exists_spelled htokens hbehind
    have hprecedence : precedence isTok.kind = 3 := by rw [hisKind]; rfl
    have hop : binaryOp isTok.kind = "IS" := by rw [hisKind]; rfl
    obtain ⟨x', s₁, hx', hloop⟩ := (runs_of_parse haccepts).exists_operand
    obtain ⟨rfl, rfl⟩ := (runs_of_parse hsubject).unique hx'
    obtain ⟨right, s₂, hright, hloop⟩ := hloop.pass hisTok (by omega) (by omega)
    have hclean₂ := hloop.grows.clean rfl
    rw [hprecedence] at hright
    rw [hop] at hloop
    have hfirst : first.relation = none := by
      rcases hrelation : first.relation with _ | r
      · rfl
      · have hpiece : first.isPiece = r.op.lexeme :: first.expr := by
          rw [Clause.isPiece, hrelation]
          rfl
        have hpieces := hbehind.tail
        rw [hpiece] at hpieces
        obtain ⟨relation, hrelationTok, hrelationKind⟩ := exists_spelled htokens hpieces
        exact absurd hclean₂ (hright.reports hrelationTok (hrelationKind ▸ relation_mem r))
    rw [hfirst] at hread
    have hread := runs_of_parse hread
    have hlength : pos + (isText subject first rest).length =
        pos + subject.length + 1 + first.isPiece.length + (restText Clause.isPiece rest).length := by
      simp only [isText, List.length_append, List.length_cons]
      omega
    have hclauses := clausesAt_of_reads htokens hbehind.tail.right (hlength ▸ hends) hreads
    -- The first operand ends before a connective, which binds less tightly than `IS`.
    have hconnective : ∃ tok : Token, toks[pos + subject.length + 1 + first.isPiece.length]? = some tok ∧
        tok.kind ∈ connectiveKinds := by
      cases hclauses with
      | stop htok hkind =>
        have hnil := List.length_eq_zero_iff.mp (length_of_reads hreads)
        exact absurd (List.map_eq_nil_iff.mp hnil) hrest
      | related htok hkind _ _ _ => exact ⟨_, htok, hkind⟩
      | clause htok hkind _ _ => exact ⟨_, htok, hkind⟩
    obtain ⟨tok, htok, hkind⟩ := hconnective
    have hlow := (precedence_connective hkind).2.1
    obtain ⟨rfl, rfl⟩ := (hread.resume (show 4 ≤ 5 by omega) hright).stop htok (.inr (by omega))
    exact ⟨_, right, operands, isTok.span, rfl, hfirst, hread.ofLevel, length_of_reads hreads, hclauses, hloop⟩

variable {names types : List String} {otherType : Expr → String} {other : Expr → List Char}
  {refDotTarget : Expr → Option (List Char)}

/-- What is written for a check is too short: the operands behind the first one are not compared. -/
theorem length_lt_of_accepts {pos : ℕ} {subject : List Lexeme} {first : Clause}
    {rest : List (Connective × Clause)} {expr x : Expr} {operands : List Expr} {t : ClauseTree (List Char)}
    (hspells : Spells tokens pos (isText subject first rest))
    (hends : EndsBefore endKinds tokens (pos + (isText subject first rest).length)) (hrest : rest ≠ [])
    (haccepts : Gives (parse (.expression 1)) (place file toks pos) expr
      (place file toks (pos + (isText subject first rest).length)))
    (hsubject : Gives (parse .unary) (place file toks pos) x (place file toks (pos + subject.length)))
    (hreads : ReadsOperands file toks (pos + subject.length) (first :: rest.map Prod.snd) operands)
    (hleaves : t.leaves = List.zipWith (comparisonText (exprType names types otherType)
      (emitItem names types otherType other refDotTarget) x) (first :: rest.map Prod.snd) operands) :
  (emitItem names types otherType other refDotTarget expr).length < (treeText t).length
  := by
  set emit := emitItem names types otherType other refDotTarget with hemit
  have hjoin (left right : Expr) (text op : String) (span : Span) (hop : op = "&&" ∨ op = "||") :
      (emit ⟨.binary, text, op, [left, right], span⟩).length =
        (emit left).length + (emit right).length + 6 := by
    have hlength : op.toList.length = 2 := by rcases hop with rfl | rfl <;> rfl
    simp only [hemit, emitItem_join hop, List.length_append, List.length_singleton, hlength]
    omega
  obtain ⟨pos', operand, operands, span, rfl, hfirst, hlevel, hlength, hclauses, hloop⟩ :=
    exists_loop htokens hspells hends hrest haccepts hsubject hreads
  obtain ⟨pos'', operands', hclauses', -, -, hstops, htext⟩ := length_loop hjoin hclauses hloop rfl
  -- No connective is left where the check ends.
  have hno {tok : Token} (htok : toks[pos'']? = some tok) : tok.kind ∉ connectiveKinds := by
    intro hkind
    have hpos := (precedence_connective hkind).1
    rcases hstops tok htok with hstop | hstop <;> omega
  have hnil : operands' = [] := by
    cases hclauses' with
    | stop htok hkind => rfl
    | related htok hkind _ _ _ => exact absurd hkind (hno htok)
    | clause htok hkind _ _ => exact absurd hkind (hno htok)
  have hcompare : emit ⟨.binary, "", "IS", [x, operand], span⟩ =
      comparisonText (exprType names types otherType) emit x first operand := by
    rw [comparisonText, hfirst]
    exact (emitItem_is x operand).trans (emitIsExpr_operand hlevel x)
  have hne : operands ≠ [] := by
    rintro rfl
    exact hrest (List.map_eq_nil_iff.mp (List.length_eq_zero_iff.mp hlength))
  have htree := length_treeText t
  have hshorter := joinedLength_lt (exprType names types otherType) emit x hlength hne
  rw [hleaves] at htree
  rw [hnil, hcompare] at htext
  simp only [joinedLength, List.map_nil, List.sum_nil, List.zipWith_cons_cons, List.map_cons,
    List.sum_cons] at htree htext hshorter
  omega

end

/-! ### The check `x IS 1 || 2` -/

/-- The tokens of the compiler before the end of the file. -/
def isTokens : List Parse.Token :=
  [⟨.NAME, "x", 1, 1⟩, ⟨.IS, "IS", 1, 3⟩, ⟨.INT_LITERAL, "1", 1, 6⟩, ⟨.OROR, "||", 1, 8⟩,
   ⟨.INT_LITERAL, "2", 1, 11⟩]

/-- The tokens of the lexer written in Caster. -/
def isToks : List Token :=
  [⟨.NAME, "x", ⟨1, 1, 1, 2⟩⟩, ⟨.IS, "IS", ⟨1, 3, 1, 5⟩⟩, ⟨.INT_LITERAL, "1", ⟨1, 6, 1, 7⟩⟩,
   ⟨.OROR, "||", ⟨1, 8, 1, 10⟩⟩, ⟨.INT_LITERAL, "2", ⟨1, 11, 1, 12⟩⟩, ⟨.EOF, "", ⟨1, 12, 1, 12⟩⟩]

/-- The clause of a number. -/
def numberClause (value : ℕ) : Clause := ⟨none, [⟨.INT_LITERAL, toString value⟩]⟩

theorem corresponds_isTokens : List.Forall₂ Corresponds (isTokens ++ [⟨.EOF, "", 1, 12⟩]) isToks := by
  repeat' constructor

theorem spells_isTokens :
  Spells (isTokens ++ [⟨.EOF, "", 1, 12⟩]) 0
    (isText (chainLexemes "x" []) (numberClause 1) [(.or, numberClause 2)])
  := @Parse.spells_append [] isTokens [⟨.EOF, "", 1, 12⟩] _ rfl

theorem endsBefore_isTokens : EndsBefore endKinds (isTokens ++ [⟨.EOF, "", 1, 12⟩]) 5 :=
  ⟨Parse.postfixStops_of_token rfl (by decide), ⟨.EOF, "", 1, 12⟩, rfl, by decide⟩

section

variable {file : String} {tokens : List Parse.Token} {toks : List Token}
  (htokens : List.Forall₂ Corresponds tokens toks) {names types : List String} {otherType : Expr → String}
  {other : Expr → List Char} {refDotTarget : Expr → Option (List Char)}

include htokens

/-- For no check with several clauses the parser written in Caster reads, and the emitter writes, the
comparisons of the compiler. -/
theorem comparesAll_never {pos : ℕ} (x : String) (steps : List Step) (first : Clause)
    {rest : List (Connective × Clause)} (hrest : rest ≠ [])
    (hspells : Spells tokens pos (isText (chainLexemes x steps) first rest))
    (hends : EndsBefore endKinds tokens (pos + (isText (chainLexemes x steps) first rest).length)) :
  ¬ ComparesAll file toks names types otherType other refDotTarget tokens pos (chainLexemes x steps) first rest
  := by
  rintro ⟨n, expr, subject, operands, t, -, haccepts, hsubject, hreads, -, hleaves, htext⟩
  have hlt := length_lt_of_accepts htokens hspells hends hrest haccepts hsubject hreads hleaves
  rw [htext] at hlt
  exact lt_irrefl _ hlt

end

theorem comparesAll_never_or :
  ¬ ComparesAll "main.cast" isToks ["x"] ["INT"] (fun _ => "") (fun _ => []) (fun _ => none)
    (isTokens ++ [⟨.EOF, "", 1, 12⟩]) 0 (chainLexemes "x" []) (numberClause 1) [(.or, numberClause 2)]
  := comparesAll_never corresponds_isTokens "x" [] (numberClause 1) (by simp) spells_isTokens
    endsBefore_isTokens

/-- The check `x IS 1 || 2` is not read as the compiler reads it. -/
theorem not_comparesAll :
  ¬ ∀ (file : String) (tokens : List Parse.Token) (toks : List Token) (names types : List String)
      (otherType : Expr → String) (other : Expr → List Char) (refDotTarget : Expr → Option (List Char))
      (pos : ℕ) (x : String) (steps : List Step) (first : Clause) (rest : List (Connective × Clause)),
    (∀ clause ∈ first :: rest.map Prod.snd, Parse.IsOperand clause.expr) → rest ≠ [] →
    List.Forall₂ Corresponds tokens toks →
    Spells tokens pos (isText (chainLexemes x steps) first rest) →
    EndsBefore endKinds tokens (pos + (isText (chainLexemes x steps) first rest).length) →
      ComparesAll file toks names types otherType other refDotTarget tokens pos (chainLexemes x steps) first rest
  := by
  intro h
  have hexprs : ∀ clause ∈ numberClause 1 :: [(Connective.or, numberClause 2)].map Prod.snd,
      Parse.IsOperand clause.expr := by
    intro clause hmem
    simp only [List.map_cons, List.map_nil, List.mem_cons, List.not_mem_nil, or_false] at hmem
    rcases hmem with rfl | rfl
    · exact @Parse.isOperand_tree (.int 1) (by decide)
    · exact @Parse.isOperand_tree (.int 2) (by decide)
  obtain ⟨n, expr, subject, operands, t, -, haccepts, hsubject, hreads, -, hleaves, htext⟩ :=
    h "main.cast" _ isToks ["x"] ["INT"] (fun _ => "") (fun _ => []) (fun _ => none) 0 "x" []
      (numberClause 1) [(.or, numberClause 2)] hexprs (by simp) corresponds_isTokens spells_isTokens
      endsBefore_isTokens
  have hlt := length_lt_of_accepts corresponds_isTokens spells_isTokens endsBefore_isTokens (by simp)
    haccepts hsubject hreads hleaves
  rw [htext] at hlt
  exact lt_irrefl _ hlt

/-- The parser written in Caster accepts the check, and its text is the comparison of `x` with `1` or the
truth of `2`. -/
example :
  (parse (.expression 1) (place "main.cast" isToks 0)).map (fun r =>
    (emitItem ["x"] ["INT"] (fun _ => "") (fun _ => []) (fun _ => none) r.1, r.2.diagnostics, r.2.pos)) =
      some ("((x == 1) || 2)".toList, [], 5)
  := by decide

end Caster.SelfHosting
