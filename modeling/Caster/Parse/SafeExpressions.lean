import Caster.Parse.Results
import Caster.Parse.SafeTypes

/-!
# Expressions are parsed within bounds

Each function of the parser of expressions moves on, or forward where it parses something,
if the parsers of expressions and statements it calls move forward.  Only the function that
parses what an expression starts with, and the one around it, call them no earlier than
behind their own first token.
-/

namespace Caster.Parse

open TokenParser

/-- The parsers of expressions and statements move forward. -/
def Calls (tokens : List Token) (last lo : ℕ) (self : Entry → P Node) : Prop :=
  ∀ i, Forward tokens last lo (self i)

variable {tokens : List Token} {last lo : ℕ} {self : Entry → P Node}

theorem Calls.succ (hself : Calls tokens last lo self) : Calls tokens last (lo + 1) self :=
  fun i => (hself i).succ

section

variable (hend : Ended tokens last)

include hend

/-! ### Looks at tokens -/

theorem matchMethodName_moves : Moves tokens last Option.isSome lo matchMethodName := by
  apply cur_bind hend
  intro tok
  split_ifs with hname
  · right
    exact ⟨fun h => by simp [h] at hname, _, rfl, onward_pure _⟩
  · left
    exact moves_pure rfl

theorem startsMethodBody_onward (name : String) : Onward tokens last lo (startsMethodBody name) := by
  apply onward_of_stays
  intro c hpos
  apply safe_then (peek_safe hend (c := c) hpos)
  rintro tok c ⟨rfl, heof⟩
  dsimp only
  split_ifs with _ _ _ hname
  · exact safe_pure rfl
  · exact safe_pure rfl
  · exact safe_pure rfl
  · have hlt : c.pos + 1 ≤ last :=
      lt_of_le_of_ne hpos fun h => TokenKind.noConfusion (hname.symm.trans (heof.mpr h))
    apply safe_then (peek_safe hend hlt)
    rintro tok c ⟨rfl, _⟩
    exact safe_pure rfl
  · exact safe_pure rfl

theorem isShapeSeparator_looks : Looks tokens last 0 1 isShapeSeparator := by
  intro c hpos
  apply safe_then (peek_safe hend (c := c) hpos)
  rintro tok c ⟨rfl, heof⟩
  refine safe_pure ⟨rfl, ?_⟩
  intro hb
  have hname : tok.kind = .NAME := (of_decide_eq_true hb).1
  exact lt_of_le_of_ne hpos fun h => TokenKind.noConfusion (hname.symm.trans (heof.mpr h))

omit hend in
/-- A token that a look found is passed. -/
theorem Looks.ite {α : Type} {far : α → Bool} {p : P Bool} {yes : Unit → P α} {no : P α}
    (hp : Looks tokens last 0 1 p) (hyes : Onward tokens last (lo + 1) (yes ()))
    (hno : Moves tokens last far lo no) :
  Moves tokens last far lo (p >>= fun b => if b = true then advance >>= yes else no)
  := by
  intro c hlo hpos
  apply safe_ite (hp c hpos)
  · rintro c ⟨rfl, hfound⟩
    have hfound := hfound rfl
    apply safe_then safe_advance
    intro _ c' hc'
    apply safe_mono (hyes c' (by omega) (by omega))
    rintro a c'' ⟨hle, hlast, _⟩
    exact ⟨by omega, hlast, fun _ => by omega⟩
  · rintro c ⟨rfl, _⟩
    exact hno c hlo hpos

section

variable (hself : Calls tokens last lo self)

include hself

/-! ### Conditional values -/

theorem parseParenValueExpr_forward (message : String) :
  Forward tokens last lo (parseParenValueExpr self message)
  := by
  apply Forward.bind (expect_forward hend (by decide) _)
  intro _
  apply Onward.bind onward_flag
  intro _
  apply Onward.bind (onward_setFlag _)
  intro _
  apply Onward.bind (skipNewlines_onward hend)
  intro _
  apply Forward.bind (hself _)
  intro _
  apply Onward.bind (skipNewlines_onward hend)
  intro _
  apply Onward.bind (onward_setFlag _)
  intro _
  apply Forward.bind (expect_forward hend (by decide) _)
  intro _
  exact onward_pure _

theorem parseCondition_forward (openMessage closeMessage : String) :
  Forward tokens last lo (parseCondition self openMessage closeMessage)
  := by
  apply Forward.bind (expect_forward hend (by decide) _)
  intro _
  apply Forward.bind (hself _)
  intro _
  apply Forward.bind (expect_forward hend (by decide) _)
  intro _
  exact onward_pure _

theorem parseIfValueExpr_forward (ifTok : Token) :
  Forward tokens last lo (parseIfValueExpr self ifTok)
  := by
  apply Forward.bind (parseCondition_forward hend hself _ _)
  intro _
  apply Forward.bind (parseParenValueExpr_forward hend hself _)
  intro _
  apply Onward.bind (skipNewlines_onward hend)
  intro _
  apply Forward.bind (expect_forward hend (by decide) _)
  intro _
  apply Forward.bind (parseParenValueExpr_forward hend hself _)
  intro _
  exact onward_pure _

/-! ### Bodies and arguments of methods -/

omit hself in
theorem parseAggOp_forward (tok : Token) : Forward tokens last lo (parseAggOp tok) := by
  apply Takes.ite (matchToken_takes hend (by decide))
  · exact onward_pure _
  apply Takes.ite (matchToken_takes hend (by decide))
  · exact onward_pure _
  · exact moves_fail _

theorem parseAggValue_forward : Forward tokens last lo (parseAggValue self) := by
  apply cur_bind hend
  intro tok
  dsimp only
  split_ifs with hif
  · right
    refine ⟨fun h => TokenKind.noConfusion (hif.symm.trans h), _, rfl, ?_⟩
    apply Forward.bind (parseCondition_forward hend hself.succ _ _)
    intro _
    apply Forward.bind (parseParenValueExpr_forward hend hself.succ _)
    intro _
    apply Onward.bind (skipNewlines_onward hend)
    intro _
    apply Takes.ite (matchToken_takes hend (by decide))
    · apply Forward.bind (parseParenValueExpr_forward hend hself.succ.succ _)
      intro _
      exact onward_pure _
    · exact onward_pure _
  · left
    exact hself _

theorem parseAggCondition_onward (value : Node) :
  Onward tokens last lo (parseAggCondition self value)
  := by
  apply Takes.ite (matchToken_takes hend (by decide))
  · apply Onward.bind (onward_prev (Nat.succ_pos _) hend.lt_length)
    intro _
    apply Forward.bind (parseCondition_forward hend hself.succ _ _)
    intro _
    apply Takes.ite (matchToken_takes hend (by decide))
    · apply Forward.bind (hself.succ.succ _)
      intro _
      exact onward_pure _
    · exact onward_pure _
  · exact onward_pure _

theorem parseAggStep_forward (tok : Token) : Forward tokens last lo (parseAggStep self tok) := by
  apply Forward.bind (parseAggOp_forward hend tok)
  intro _
  apply Onward.bind (skipNewlines_onward hend)
  intro _
  apply Onward.bind onward_flag
  intro _
  apply Onward.bind (onward_setFlag _)
  intro _
  apply Forward.bind (parseAggValue_forward hend hself)
  intro _
  apply Onward.bind (parseAggCondition_onward hend hself _)
  intro _
  apply Onward.bind (onward_setFlag _)
  intro _
  exact onward_pure _

theorem parseAggMethodBody_onward (opened : Token) :
  Onward tokens last lo (parseAggMethodBody self opened)
  := by
  apply Onward.bind (skipNewlines_onward hend)
  intro _
  apply Onward.bind
  · apply onward_loop hend.lt_length
    intro _
    apply Onward.bind (cur_onward hend)
    intro tok
    split_ifs
    · exact moves_pure rfl
    · exact moves_fail _
    · apply Forward.bind (parseAggStep_forward hend hself tok)
      intro _
      apply Onward.bind (skipNewlines_onward hend)
      intro _
      exact onward_pure _
  · intro _
    exact onward_pure _

theorem parseStatements_onward (message : String) :
  Onward tokens last lo (parseStatements self message)
  := by
  apply onward_loop hend.lt_length
  intro _
  apply Onward.bind (cur_onward hend)
  intro tok
  split_ifs
  · exact moves_pure rfl
  · exact moves_fail _
  · apply Forward.bind (hself _)
    intro _
    apply Onward.bind (skipNewlines_onward hend)
    intro _
    exact onward_pure _

theorem parseMethodBody_onward (opened : Token) :
  Onward tokens last lo (parseMethodBody self opened)
  := by
  apply Onward.bind (skipNewlines_onward hend)
  intro _
  apply Onward.bind (parseStatements_onward hend hself _)
  intro _
  exact onward_pure _

theorem parseBlock_forward : Forward tokens last lo (parseBlock self) := by
  apply Forward.bind (expect_forward hend (by decide) _)
  intro _
  apply Onward.bind (skipNewlines_onward hend)
  intro _
  apply Onward.bind (parseStatements_onward hend hself _)
  intro _
  apply Forward.bind (expect_forward hend (by decide) _)
  intro _
  exact onward_pure _

theorem parseAggArgument_onward (methodName : String) (arg : Node) :
  Onward tokens last lo (parseAggArgument self methodName arg)
  := by
  apply Takes.ite (Takes.both (onward_pure _) (matchToken_takes hend (by decide)))
  · apply Onward.bind (onward_prev (Nat.succ_pos _) hend.lt_length)
    intro _
    apply Forward.bind (parseCondition_forward hend hself.succ _ _)
    intro _
    exact onward_pure _
  · exact onward_pure _

theorem parseMethodArgument_forward (methodName : String) :
  Forward tokens last lo (parseMethodArgument self methodName)
  := by
  apply Onward.bind onward_flag
  intro _
  apply Onward.bind (onward_setFlag _)
  intro _
  apply Forward.bind (hself _)
  intro _
  apply Onward.bind (onward_setFlag _)
  intro _
  exact parseAggArgument_onward hend hself _ _

theorem parseSortArgs_onward (m : Node) : Onward tokens last lo (parseSortArgs self m) := by
  apply Forward.bind (hself _)
  intro _
  apply Onward.bind (skipNewlines_onward hend)
  intro _
  have hrest (key : Node) (sortDir : String) : Onward tokens last lo (do
      skipNewlines
      let tok' ← cur
      if tok'.kind = .COMMA then
        dieAt tok'.line tok'.col ".sort() expects one key expression and optional ASC or DESC"
      else
        pure { m with args := [key], sortDir := some sortDir }) := by
    apply Onward.bind (skipNewlines_onward hend)
    intro _
    apply Onward.bind (cur_onward hend)
    intro tok'
    split_ifs
    · exact moves_fail _
    · exact onward_pure _
  apply cur_bind hend
  intro tok
  by_cases hsorted : tok.kind = .NAME ∧ (tok.text = "ASC" ∨ tok.text = "DESC")
  · right
    simp only [if_pos hsorted]
    exact ⟨fun h => TokenKind.noConfusion (hsorted.1.symm.trans h), _, rfl, (hrest _ _).succ⟩
  · left
    simp only [if_neg hsorted]
    exact hrest _ _

theorem parseMethodArgs_onward (m : Node) (name : String) :
  Onward tokens last lo (parseMethodArgs self m name)
  := by
  apply Onward.bind (cur_onward hend)
  intro tok
  split_ifs
  · exact moves_fail _
  apply Onward.bind
  · apply onward_loop hend.lt_length
    intro _
    apply Forward.bind (parseMethodArgument_forward hend hself name)
    intro _
    apply Onward.bind (skipNewlines_onward hend)
    intro _
    apply Takes.ite (matchToken_takes hend (by decide))
    · apply Onward.bind (skipNewlines_onward hend)
      intro _
      exact onward_pure _
    · exact onward_pure _
  · intro _
    exact onward_pure _

theorem parseMethodInner_onward (opened : Token) (m : Node) (name : String) :
  Onward tokens last lo (parseMethodInner self opened m name)
  := by
  apply Onward.bind (cur_onward hend)
  intro tok
  dsimp only
  split
  · exact onward_pure _
  apply Onward.ite (startsMethodBody_onward hend name)
  · split
    · apply Onward.bind (parseAggMethodBody_onward hend hself opened)
      intro _
      exact onward_pure _
    · apply Onward.bind (parseMethodBody_onward hend hself opened)
      intro _
      exact onward_pure _
  · split
    · exact parseSortArgs_onward hend hself m
    · exact parseMethodArgs_onward hend hself m name

theorem parseMethodCall_forward (dot : Token) (expr : Node) (name : String) :
  Forward tokens last lo (parseMethodCall self dot expr name)
  := by
  apply Forward.bind (expect_forward hend (by decide) _)
  intro _
  apply Onward.bind (skipNewlines_onward hend)
  intro _
  apply Onward.bind (parseMethodInner_onward hend hself _ _ _)
  intro _
  apply Forward.bind (expect_forward hend (by decide) _)
  intro _
  apply Onward.ite (Onward.both (onward_pure _) (curIs_onward hend))
  · apply Forward.bind (parseBlock_forward hend hself)
    intro _
    exact onward_pure _
  · exact onward_pure _

/-! ### Calls and dots -/

theorem parseCallArgs_onward : Onward tokens last lo (parseCallArgs self) := by
  apply Onward.ite (curIs_onward hend)
  · exact onward_pure _
  apply onward_loop hend.lt_length
  intro _
  apply Forward.bind (hself _)
  intro _
  apply Takes.ite (matchToken_takes hend (by decide))
  · exact onward_pure _
  · exact onward_pure _

theorem parseDot_forward (dot : Token) (expr : Node) :
  Forward tokens last lo (parseDot self dot expr)
  := by
  apply Takes.ite (matchToken_takes hend (by decide))
  · apply Onward.bind (onward_prev (Nat.succ_pos _) hend.lt_length)
    intro _
    exact onward_pure _
  apply Takes.ite (matchToken_takes hend (by decide))
  · apply Forward.bind (hself.succ _)
    intro _
    apply Forward.bind (expect_forward hend (by decide) _)
    intro _
    exact onward_pure _
  apply Takes.ite (matchToken_takes hend (by decide))
  · apply Onward.bind (onward_prev (Nat.succ_pos _) hend.lt_length)
    intro _
    exact moves_fail _
  intro c hlo hpos
  apply safe_then (matchMethodName_moves hend c hlo hpos)
  rintro (_ | name) c' ⟨hle, hlast, hlt⟩
  · apply safe_then (cur_onward hend c' (hlo.trans hle) hlast)
    intro tok c'' _
    exact safe_fail _
  · have hcall : Onward tokens last lo (do
        if ← curIs .LPAREN then parseMethodCall self dot expr name.text
        else pure { nodeNew .DOT dot with object := some expr, name := some name.text }) := by
      apply Onward.ite (curIs_onward hend)
      · exact (parseMethodCall_forward hend hself dot expr _).onward
      · exact onward_pure _
    have hlt := hlt rfl
    apply safe_mono (hcall c' (hlo.trans hle) hlast)
    rintro d c'' ⟨hle', hlast', _⟩
    exact ⟨hle.trans hle', hlast', fun _ => hlt.trans_le hle'⟩

omit hself in
theorem skipNewlinesBeforeDot_onward : Onward tokens last lo skipNewlinesBeforeDot := by
  intro c _ hpos
  apply safe_then safe_position
  rintro _ c ⟨rfl, rfl⟩
  apply safe_then (skipNewlines_onward hend c le_rfl hpos)
  rintro _ c' ⟨hle, hlast, _⟩
  apply safe_ite (curIs_looks hend (by decide) c' hlast)
  · rintro c' ⟨rfl, _⟩
    exact safe_pure ⟨hle, hlast, fun h => nomatch h⟩
  · rintro c' ⟨rfl, _⟩
    apply safe_mono (safe_seek _)
    rintro _ c'' hc''
    exact ⟨hc''.ge, hc''.le.trans hpos, fun h => nomatch h⟩

omit hself in
/-- A pass through the loop calls the parsers only behind the token it starts with. -/
theorem parsePostfix_pass (hself : Calls tokens last (lo + 1) self) (expr : Node) :
  Moves tokens last Sum.isLeft lo (do
    skipNewlinesBeforeDot
    if ← matchToken .LPAREN then
      let opened ← prev
      let args ← parseCallArgs self
      let _ ← expect .RPAREN "expected ')' after call arguments"
      pure (.inl { nodeNew .CALL opened with callee := some expr, args })
    else if ← matchToken .DOT then
      let dot ← prev
      let d ← parseDot self dot expr
      pure (.inl d)
    else pure (.inr expr : Node ⊕ Node))
  := by
  apply Onward.bind (skipNewlinesBeforeDot_onward hend)
  intro _
  apply Takes.ite (matchToken_takes hend (by decide))
  · apply Onward.bind (onward_prev (Nat.succ_pos _) hend.lt_length)
    intro _
    apply Onward.bind (parseCallArgs_onward hend hself)
    intro _
    apply Forward.bind (expect_forward hend (by decide) _)
    intro _
    exact onward_pure _
  apply Takes.ite (matchToken_takes hend (by decide))
  · apply Onward.bind (onward_prev (Nat.succ_pos _) hend.lt_length)
    intro _
    apply Forward.bind (parseDot_forward hend hself _ _)
    intro _
    exact onward_pure _
  · exact moves_pure rfl

theorem parsePostfix_onward (expr : Node) : Onward tokens last lo (parsePostfix self expr) :=
  onward_loop hend.lt_length (parsePostfix_pass hend hself.succ)

/-! ### Literals -/

theorem parseShape_onward (opened : Token) (first : Node) :
  Onward tokens last lo (parseShape self opened first)
  := by
  apply Onward.bind
  · apply onward_loop hend.lt_length
    intro _
    apply Looks.ite (isShapeSeparator_looks hend)
    · apply Onward.bind (skipNewlines_onward hend)
      intro _
      apply Onward.bind (cur_onward hend)
      intro tok
      split_ifs
      · exact moves_fail _
      · apply Forward.bind (hself.succ _)
        intro _
        apply Onward.bind (skipNewlines_onward hend)
        intro _
        exact onward_pure _
    · exact moves_pure rfl
  · intro _
    apply Forward.bind (expect_forward hend (by decide) _)
    intro _
    exact onward_pure _

theorem parseElements_onward (first : Node) :
  Onward tokens last lo (parseElements self first)
  := by
  apply onward_loop hend.lt_length
  intro _
  apply Onward.ite (curIs_onward hend)
  · exact moves_pure rfl
  apply Takes.ite (matchToken_takes hend (by decide))
  · apply Onward.bind (skipNewlines_onward hend)
    intro _
    apply Onward.ite (curIs_onward hend)
    · exact onward_pure _
    · apply Forward.bind (hself.succ _)
      intro _
      apply Onward.bind (skipNewlines_onward hend)
      intro _
      exact onward_pure _
  · exact moves_pure rfl

theorem parseArrayLiteral_onward (opened : Token) :
  Onward tokens last lo (parseArrayLiteral self opened)
  := by
  apply Onward.bind (skipNewlines_onward hend)
  intro _
  apply Onward.ite (curIs_onward hend)
  · apply Forward.bind (expect_forward hend (by decide) _)
    intro _
    exact onward_pure _
  apply Forward.bind (hself _)
  intro first
  apply Onward.bind (skipNewlines_onward hend)
  intro _
  apply Onward.ite (isShapeSeparator_looks hend).onward
  · exact parseShape_onward hend hself opened first
  · apply Onward.bind (parseElements_onward hend hself first)
    intro _
    apply Forward.bind (expect_forward hend (by decide) _)
    intro _
    exact onward_pure _

omit hself in
theorem skipEntrySeparator_onward : Onward tokens last lo skipEntrySeparator := by
  apply Onward.bind (skipNewlines_onward hend)
  intro _
  apply Onward.bind (matchToken_takes hend (by decide)).onward
  intro _
  exact skipNewlines_onward hend

theorem parseMapKey_forward : Forward tokens last lo (parseMapKey self) := by
  apply Takes.ite (matchToken_takes hend (by decide))
  · apply Forward.bind (hself.succ _)
    intro _
    apply Forward.bind (expect_forward hend (by decide) _)
    intro _
    exact onward_pure _
  · exact hself _

theorem parseMapEntry_forward : Forward tokens last lo (parseMapEntry self) := by
  apply Forward.bind (parseMapKey_forward hend hself)
  intro key
  apply Forward.bind (expect_forward hend (by decide) _)
  intro _
  apply Forward.bind (hself _)
  intro value
  exact onward_pure _

theorem parseMapLiteralAfterOpen_onward (opened : Token) :
  Onward tokens last lo (parseMapLiteralAfterOpen self opened)
  := by
  apply Onward.bind (skipNewlines_onward hend)
  intro _
  apply Onward.bind
  · apply onward_loop hend.lt_length
    intro _
    apply Onward.bind (cur_onward hend)
    intro tok
    split_ifs
    · exact moves_pure rfl
    · exact moves_fail _
    · apply Forward.bind (parseMapEntry_forward hend hself)
      intro _
      apply Onward.bind (skipEntrySeparator_onward hend)
      intro _
      exact onward_pure _
  · intro _
    apply Forward.bind (expect_forward hend (by decide) _)
    intro _
    exact onward_pure _

theorem parseRecordField_forward : Forward tokens last lo (parseRecordField self) := by
  apply Forward.bind (expect_forward hend (by decide) _)
  intro _
  apply Forward.bind (expect_forward hend (by decide) _)
  intro _
  apply Forward.bind (hself _)
  intro _
  exact onward_pure _

theorem parseRecordLiteralUntil_onward (opened : Token) {closeKind : TokenKind} (hk : closeKind ≠ .EOF)
    (closeMessage : String) :
  Onward tokens last lo (parseRecordLiteralUntil self opened closeKind closeMessage)
  := by
  apply Onward.bind (skipNewlines_onward hend)
  intro _
  apply Onward.bind
  · apply onward_loop hend.lt_length
    intro _
    apply Onward.bind (cur_onward hend)
    intro tok
    split_ifs
    · exact moves_pure rfl
    · exact moves_fail _
    · apply Forward.bind (parseRecordField_forward hend hself)
      intro _
      apply Onward.bind (skipEntrySeparator_onward hend)
      intro _
      exact onward_pure _
  · intro _
    apply Forward.bind (expect_forward hend hk _)
    intro _
    exact onward_pure _

/-- Without a closing brace behind the expression, the position is set back to where it was. -/
theorem parseWrapped_onward : Onward tokens last lo (parseWrapped self) := by
  apply Onward.ite (curIs_onward hend)
  · exact onward_pure _
  intro c hlo hpos
  apply safe_then safe_position
  rintro _ c ⟨rfl, rfl⟩
  apply safe_then safe_flag
  rintro saveNewlineOps c ⟨rfl⟩
  apply safe_then (hself _ c hlo hpos)
  rintro wrapped c₁ ⟨hle₁, hlast₁, _⟩
  apply safe_then (skipNewlines_onward hend c₁ (hlo.trans hle₁) hlast₁)
  rintro _ c₂ ⟨hle₂, hlast₂, _⟩
  apply safe_ite (matchToken_takes hend (by decide) c₂ (show lo ≤ c₂.pos by omega) hlast₂)
  · rintro c₃ ⟨hle₃, hlast₃, _⟩
    exact safe_pure ⟨by omega, hlast₃, fun h => nomatch h⟩
  · rintro c₃ _
    apply safe_then (safe_seek _)
    intro _ c₄ hc₄
    apply safe_then (safe_setFlag _)
    intro _ c₅ hc₅
    exact safe_pure ⟨by omega, by omega, fun h => nomatch h⟩

theorem parseBraceLiteral_onward (opened : Token) :
  Onward tokens last lo (parseBraceLiteral self opened)
  := by
  apply Onward.bind (skipNewlines_onward hend)
  intro _
  apply Onward.ite ((curIs_looks hend (by decide)).both (peekIs_looks hend 1 (by decide))).onward
  · exact parseRecordLiteralUntil_onward hend hself opened (by decide) _
  apply Onward.bind (parseWrapped_onward hend hself)
  rintro (_ | wrapped)
  · exact parseMapLiteralAfterOpen_onward hend hself opened
  · exact onward_pure wrapped

/-! ### Prefixes and operators -/

omit hend in
theorem parseUnary_forward (tok : Token) : Forward tokens last lo (parseUnary self tok) := by
  apply Forward.bind (hself _)
  intro _
  exact onward_pure _

theorem parseDeref_forward (tok : Token) : Forward tokens last lo (parseDeref self tok) := by
  apply Forward.bind (parseUnary_forward hself tok)
  intro n
  split
  · split_ifs
    · exact parsePostfix_onward hend hself _
    · exact parsePostfix_onward hend hself _
  · exact parsePostfix_onward hend hself _

theorem parseGroup_forward (opened : Token) : Forward tokens last lo (parseGroup self opened) := by
  apply Onward.bind (skipNewlines_onward hend)
  intro _
  apply Onward.ite ((curIs_looks hend (by decide)).both (peekIs_looks hend 1 (by decide))).onward
  · exact moves_fail _
  apply Forward.bind (hself _)
  intro _
  apply Forward.bind (expect_forward hend (by decide) _)
  intro _
  exact parsePostfix_onward hend hself _

omit hself in
theorem matchTypeName_takes : Takes tokens last lo matchTypeName := by
  apply Takes.either (matchToken_takes hend (by decide))
  apply Takes.either (matchToken_takes hend (by decide))
  apply Takes.either (matchToken_takes hend (by decide))
  exact matchToken_takes hend (by decide)

theorem parseIsPiece_forward (subject : Node) :
  Forward tokens last lo (parseIsPiece self subject)
  := by
  apply cur_bind hend
  intro tok
  split_ifs with hop
  · right
    refine ⟨fun h => by simp [isIsCheckOp, h] at hop, _, rfl, ?_⟩
    apply Forward.bind (hself.succ _)
    intro _
    exact onward_pure _
  · left
    apply Forward.bind (hself _)
    intro _
    exact onward_pure _

theorem parseIsCheck_forward (isTok : Token) (subject : Node) :
  Forward tokens last lo (parseIsCheck self isTok subject)
  := by
  apply Forward.bind (parseIsPiece_forward hend hself subject)
  intro first
  apply Onward.bind
  · apply onward_loop hend.lt_length
    rintro ⟨expr, pieces⟩
    apply cur_bind hend
    intro tok
    split_ifs with hop
    · right
      refine ⟨fun h => by simp [h] at hop, _, rfl, ?_⟩
      apply Forward.bind (parseIsPiece_forward hend hself.succ subject)
      intro _
      exact onward_pure _
    · left
      exact moves_pure rfl
  · rintro ⟨expr, pieces⟩
    dsimp only
    split_ifs
    · exact moves_fail _
    · exact onward_pure _

omit hself in
theorem skipOperatorNewlines_onward : Onward tokens last lo skipOperatorNewlines := by
  apply Onward.ite onward_flag
  · exact skipNewlines_onward hend
  · exact onward_pure _

omit hend hself in
theorem precedence_eof {tok : Token} (h : (precedence tok.kind).1 ≠ 0) : tok.kind ≠ .EOF := by
  intro heof
  rw [heof] at h
  exact h rfl

theorem parseOperator_moves (minPrec : ℕ) (left : Node) :
  Moves tokens last Sum.isLeft lo (parseOperator self minPrec left)
  := by
  apply Onward.bind (skipOperatorNewlines_onward hend)
  intro _
  apply cur_bind hend
  intro tok
  split_ifs with helse _ his _ harrow
  · exact Or.inl (moves_pure rfl)
  · right
    refine ⟨fun h => TokenKind.noConfusion (helse.symm.trans h), _, rfl, ?_⟩
    apply Forward.bind (hself.succ _)
    intro _
    exact onward_pure _
  · exact Or.inl (moves_pure rfl)
  · right
    refine ⟨fun h => TokenKind.noConfusion (his.symm.trans h), _, rfl, ?_⟩
    apply Forward.bind (parseIsCheck_forward hend hself.succ tok left)
    intro _
    exact onward_pure _
  · exact Or.inl (moves_fail _)
  · dsimp only
    split_ifs with hprec
    · exact Or.inl (moves_pure rfl)
    · right
      refine ⟨precedence_eof fun h => hprec (Or.inr h), _, rfl, ?_⟩
      apply Forward.bind (hself.succ _)
      intro _
      exact onward_pure _

end

/-- At a dot the first pass of the loop does not break. -/
theorem parsePostfix_atDot (hself : Calls tokens last (lo + 1) self) (expr : Node) {c : Cursor}
    {tok : Token} (htok : tokens[c.pos]? = some tok) (hdot : tok.kind = .DOT) (hlo : lo ≤ c.pos)
    (hpos : c.pos ≤ last) :
  Safe tokens (parsePostfix self expr) c fun _ c' => c.pos < c'.pos ∧ c'.pos ≤ last
  := by
  have hlt : c.pos < last := by
    have heof := hend.eof_iff c.pos tok htok
    exact lt_of_le_of_ne hpos fun h => TokenKind.noConfusion (hdot.symm.trans (heof.mpr h))
  apply safe_loop (fun _ c' => c' = c ∨ c.pos < c'.pos) hend.lt_length hpos (Or.inl rfl)
  rintro expr c' hpos' (rfl | hlt')
  · apply safe_after (skipNewlinesBeforeDot_returns htok fun h => TokenKind.noConfusion (hdot.symm.trans h))
    apply safe_else (matchToken_returns_false htok fun h => TokenKind.noConfusion (hdot.symm.trans h))
    apply safe_after (matchToken_returns_true htok hdot)
    have hpos' : (next c').pos ≤ last := hlt
    have hlo' : lo + 1 ≤ (next c').pos := Nat.succ_le_succ hlo
    apply safe_then (onward_prev (Nat.succ_pos _) hend.lt_length _ hlo' hpos')
    rintro dot c₁ ⟨hle₁, hlast₁, _⟩
    rw [next_pos] at hle₁
    apply safe_then (parseDot_forward hend hself dot expr c₁ (by omega) hlast₁)
    rintro d c₂ ⟨hle₂, hlast₂, _⟩
    exact safe_pure ⟨by omega, hlast₂, Or.inr (by omega)⟩
  · apply safe_mono (parsePostfix_pass hend hself expr c' (by omega) hpos')
    rintro (d | d) c'' ⟨hle, hlast, hlt⟩
    · exact ⟨hlt rfl, hlast, Or.inr (by omega)⟩
    · exact ⟨by omega, hlast⟩

theorem parsePrefix_forward (hself : Calls tokens last (lo + 1) self) :
  Forward tokens last lo (parsePrefix self)
  := by
  have hpostfix (expr : Node) : Onward tokens last (lo + 1) (parsePostfix self expr) :=
    parsePostfix_onward hend hself expr
  have hunary (tok : Token) : Onward tokens last (lo + 1) (parseUnary self tok >>= parsePostfix self) :=
    Forward.bind (parseUnary_forward hself tok) hpostfix
  intro c hlo hpos
  have hlength := hend.lt_length
  obtain ⟨tok, htok⟩ : ∃ tok, tokens[c.pos]? = some tok :=
    ⟨_, List.getElem?_eq_getElem (hpos.trans_lt hlength)⟩
  apply safe_after (cur_returns htok)
  by_cases hdot : tok.kind = .DOT
  · have hno {k : TokenKind} (hk : .DOT ≠ k) : Returns tokens (matchToken k) c false c :=
      matchToken_returns_false htok fun h => hk (hdot.symm.trans h)
    apply safe_else (hno (by decide))
    apply safe_else (hno (by decide))
    apply safe_else (hno (by decide))
    apply safe_else (hno (by decide))
    apply safe_else (hno (by decide))
    apply safe_else (hno (by decide))
    rw [if_pos hdot]
    apply safe_mono (parsePostfix_atDot hend hself _ htok hdot hlo hpos)
    rintro n c' ⟨hlt, hlast⟩
    exact ⟨hlt.le, hlast, fun _ => hlt⟩
  · refine (?_ : Forward tokens last lo _) c hlo hpos
    apply Takes.ite (matchToken_takes hend (by decide))
    · exact onward_pure _
    apply Takes.ite (matchToken_takes hend (by decide))
    · exact onward_pure _
    apply Takes.ite (matchToken_takes hend (by decide))
    · exact onward_pure _
    apply Takes.ite (matchToken_takes hend (by decide))
    · exact hpostfix _
    apply Takes.ite (matchToken_takes hend (by decide))
    · exact onward_pure _
    apply Takes.ite (matchToken_takes hend (by decide))
    · exact onward_pure _
    rw [if_neg hdot]
    apply Takes.ite (matchToken_takes hend (by decide))
    · exact Forward.bind (parseIfValueExpr_forward hend hself tok) hpostfix
    apply Takes.ite (matchTypeName_takes hend)
    · exact hpostfix _
    apply Takes.ite (matchToken_takes hend (by decide))
    · exact hpostfix _
    apply Takes.ite (matchToken_takes hend (by decide))
    · exact Onward.bind (parseArrayLiteral_onward hend hself tok) hpostfix
    apply Takes.ite (matchToken_takes hend (by decide))
    · exact Onward.bind (parseBraceLiteral_onward hend hself tok) hpostfix
    apply Takes.ite (matchToken_takes hend (by decide))
    · exact (parseDeref_forward hend hself tok).onward
    apply Takes.ite ((matchToken_takes hend (by decide)).either (matchToken_takes hend (by decide)))
    · exact hunary tok
    apply Takes.ite ((matchToken_takes hend (by decide)).either (matchToken_takes hend (by decide)))
    · exact hunary tok
    apply Takes.ite (matchToken_takes hend (by decide))
    · exact (parseGroup_forward hend hself tok).onward
    · exact moves_fail _

theorem parseExpressionBody_forward (hself : Calls tokens last (lo + 1) self) (minPrec : ℕ) :
  Forward tokens last lo (parseExpressionBody self minPrec)
  := by
  apply Forward.bind_succ (parsePrefix_forward hend hself)
  intro left
  exact onward_loop hend.lt_length fun left => parseOperator_moves hend hself minPrec left

end

end Caster.Parse
