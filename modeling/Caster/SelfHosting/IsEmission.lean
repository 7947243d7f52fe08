import Caster.SelfHosting.Emission

/-!
# The emitter of checks `IS`

What the self-hosted compiler writes for a check `IS`, and for the expressions that contain one.
-/

namespace Caster.SelfHosting

section

variable (typeOf : Expr → String) (emit : Expr → List Char)

/-- The comparison of a subject with a clause. -/
def emitSubjectCompare (subject clause : Expr) : List Char :=
  if typeOf subject = "STR" ∨ typeOf clause = "STR" then
    "flx_str_eq(".toList ++ emit subject ++ [',', ' '] ++ emit clause ++ [')']
  else ['('] ++ emit subject ++ [' ', '=', '=', ' '] ++ emit clause ++ [')']

/-- The comparison of a subject by an operator. -/
def emitRelation (op : String) (subject right : Expr) : List Char :=
  ['('] ++ emit subject ++ [' '] ++ op.toList ++ [' '] ++ emit right ++ [')']

/-- The text of a check. -/
def emitIsExpr (subject : Expr) : Expr → List Char
  | ⟨.binary, text, op, left :: right :: children, span⟩ =>
    if op = "||" ∨ op = "&&" then
      ['('] ++ emitIsExpr subject left ++ [' '] ++ op.toList ++ [' '] ++ emitIsExpr subject right ++ [')']
    else if op ∈ ["==", "!=", "<", ">", "<=", ">="] then emitRelation emit op subject right
    else emitSubjectCompare typeOf emit subject ⟨.binary, text, op, left :: right :: children, span⟩
  | clause => emitSubjectCompare typeOf emit subject clause

end

/-! ### Expressions with checks -/

mutual

/-- The number of expressions in an expression. -/
def Expr.size : Expr → ℕ
  | ⟨_, _, _, children, _⟩ => sizeAll children + 1

/-- The number of expressions in some expressions. -/
def sizeAll : List Expr → ℕ
  | [] => 0
  | child :: children => child.size + sizeAll children

end

section

variable (names types : List String) (otherType : Expr → String) (other : Expr → List Char)
  (refDotTarget : Expr → Option (List Char))

/-- The text of a check, or of what is written elsewhere. -/
def emitOther (emit : Expr → List Char) : Expr → List Char
  | ⟨.binary, text, op, subject :: clause :: children, span⟩ =>
    if op = "IS" then emitIsExpr (exprType names types otherType) emit subject clause
    else other ⟨.binary, text, op, subject :: clause :: children, span⟩
  | item => other item

/-- The text of an expression, with fuel for the checks in each other. -/
def emitFuel : ℕ → Expr → List Char
  | 0, _ => []
  | n + 1, item =>
    emitExpr names types otherType (emitOther names types otherType other (emitFuel n)) refDotTarget item

/-- The text of an expression that may contain checks. -/
def emitItem (item : Expr) : List Char :=
  emitFuel names types otherType other refDotTarget item.size item

end

/-! ### Enough fuel -/

theorem size_binary {left right : Expr} {text op : String} {children : List Expr} {span : Span} :
  (⟨.binary, text, op, left :: right :: children, span⟩ : Expr).size =
    left.size + (right.size + sizeAll children) + 1
  := by rw [Expr.size, sizeAll, sizeAll]

/-- The texts of smaller expressions make the text of a check. -/
theorem emitIsExpr_congr {typeOf : Expr → String} {emit emit' : Expr → List Char} {subject clause : Expr}
    (hsubject : emit subject = emit' subject)
    (h : ∀ item : Expr, item.size ≤ clause.size → emit item = emit' item) :
  emitIsExpr typeOf emit subject clause = emitIsExpr typeOf emit' subject clause
  := by
  have hcompare (clause : Expr) (hclause : emit clause = emit' clause) :
      emitSubjectCompare typeOf emit subject clause = emitSubjectCompare typeOf emit' subject clause := by
    rw [emitSubjectCompare, emitSubjectCompare, hsubject, hclause]
  induction clause using emitIsExpr.induct with
  | case1 text op left right children span hop ihl ihr =>
    rw [size_binary] at h
    rw [emitIsExpr, emitIsExpr, if_pos hop, if_pos hop, ihl fun item hle => h item (by omega),
      ihr fun item hle => h item (by omega)]
  | case2 text op left right children span hop hrel =>
    rw [size_binary] at h
    rw [emitIsExpr, emitIsExpr, if_neg hop, if_neg hop, if_pos hrel, if_pos hrel, emitRelation,
      emitRelation, hsubject, h right (by omega)]
  | case3 text op left right children span hop hrel =>
    rw [emitIsExpr, emitIsExpr, if_neg hop, if_neg hop, if_neg hrel, if_neg hrel]
    exact hcompare _ (h _ (le_refl _))
  | case4 clause hclause =>
    rw [emitIsExpr, emitIsExpr]
    · exact hcompare _ (h _ (le_refl _))
    · exact hclause
    · exact hclause

section

variable {names types : List String} {otherType : Expr → String} {other other' : Expr → List Char}
  {refDotTarget : Expr → Option (List Char)}

/-- What is written elsewhere for smaller expressions makes the text of an expression. -/
theorem emitExpr_congr {e : Expr} (h : ∀ item : Expr, item.size ≤ e.size → other item = other' item) :
  emitExpr names types otherType other refDotTarget e = emitExpr names types otherType other' refDotTarget e
  := by
  induction e using emitExpr.induct names types otherType refDotTarget with
  | case1 => rfl
  | case2 => rfl
  | case3 => rfl
  | case4 => rfl
  | case5 => rfl
  | case6 => rfl
  | case7 text op inner children span ih =>
    rw [Expr.size, sizeAll] at h
    rw [emitExpr, emitExpr, ih fun item hle => h item (by omega)]
  | case8 text operand children span ih =>
    rw [Expr.size, sizeAll] at h
    rw [emitExpr, emitExpr, if_pos rfl, if_pos rfl, ih fun item hle => h item (by omega)]
  | case9 text op operand children span hop target htarget =>
    rw [emitExpr, emitExpr, if_neg hop, if_neg hop, htarget]
  | case10 text op operand children span hop htarget ih =>
    rw [Expr.size, sizeAll] at h
    rw [emitExpr, emitExpr, if_neg hop, if_neg hop, htarget]
    dsimp only
    rw [ih fun item hle => h item (by omega)]
  | case11 text left right children span =>
    rw [emitExpr, emitExpr, if_pos rfl, if_pos rfl, h _ (le_refl _)]
  | case12 text op left right children span _ _ hop hstr ihl ihr =>
    rw [size_binary] at h
    rw [emitExpr, emitExpr, ihl fun item hle => h item (by omega), ihr fun item hle => h item (by omega),
      if_neg hop, if_neg hop]
  | case13 text op left right children span _ _ hop _ hstr ihl ihr =>
    rw [size_binary] at h
    rw [emitExpr, emitExpr, ihl fun item hle => h item (by omega), ihr fun item hle => h item (by omega),
      if_neg hop, if_neg hop]
  | case14 text op left right children span _ _ hop _ _ hstr ihl ihr =>
    rw [size_binary] at h
    rw [emitExpr, emitExpr, ihl fun item hle => h item (by omega), ihr fun item hle => h item (by omega),
      if_neg hop, if_neg hop]
  | case15 text op left right children span _ _ hop _ _ _ ihl ihr =>
    rw [size_binary] at h
    rw [emitExpr, emitExpr, ihl fun item hle => h item (by omega), ihr fun item hle => h item (by omega),
      if_neg hop, if_neg hop]
  | case16 item =>
    rw [emitExpr, emitExpr]
    · exact h _ (le_refl _)
    all_goals assumption

/-- More fuel than expressions changes no text. -/
theorem emitFuel_eq {n m : ℕ} {e : Expr} (hn : e.size ≤ n) (hm : e.size ≤ m) :
  emitFuel names types otherType other refDotTarget n e = emitFuel names types otherType other refDotTarget m e
  := by
  induction n generalizing m e with
  | zero =>
    cases e
    rw [Expr.size] at hn
    omega
  | succ n ih =>
    obtain ⟨m, rfl⟩ : ∃ k, m = k + 1 := by
      cases e
      rw [Expr.size] at hm
      exact ⟨m - 1, by omega⟩
    apply emitExpr_congr
    intro item hle
    have hsmall (item : Expr) (hn : item.size ≤ n) (hm : item.size ≤ m) := ih hn hm
    unfold emitOther
    split
    · rename_i text op subject clause children span
      rw [size_binary] at hle
      split_ifs
      · apply emitIsExpr_congr
        · exact hsmall subject (by omega) (by omega)
        · exact fun item hitem => hsmall item (by omega) (by omega)
      · rfl
    · rfl

variable {text op : String} {span : Span}

/-- The text of a check. -/
theorem emitItem_is (subject clause : Expr) :
  emitItem names types otherType other refDotTarget ⟨.binary, text, "IS", [subject, clause], span⟩ =
    emitIsExpr (exprType names types otherType) (emitItem names types otherType other refDotTarget) subject
      clause
  := by
  have hfuel (item : Expr) (hle : item.size ≤ subject.size + (clause.size + sizeAll [])) :=
    @emitFuel_eq names types otherType other refDotTarget _ _ item hle (le_refl _)
  rw [emitItem, size_binary, emitFuel, emitExpr, if_pos rfl, emitOther, if_pos rfl]
  apply emitIsExpr_congr
  · exact hfuel subject (by omega)
  · exact fun item hitem => hfuel item (by omega)

/-- The text of a connective between two expressions. -/
theorem emitItem_join (hop : op = "&&" ∨ op = "||") (left right : Expr) :
  emitItem names types otherType other refDotTarget ⟨.binary, text, op, [left, right], span⟩ =
    ['('] ++ emitItem names types otherType other refDotTarget left ++ [' '] ++ op.toList ++ [' '] ++
      emitItem names types otherType other refDotTarget right ++ [')']
  := by
  have hfuel (item : Expr) (hle : item.size ≤ left.size + (right.size + sizeAll []) + 1) :=
    @emitFuel_eq names types otherType other refDotTarget _ _ item hle (le_refl _)
  have hleft := hfuel left (by omega)
  have hright := hfuel right (by omega)
  rw [emitFuel] at hleft hright
  have hno : op ≠ "IS" ∧ op ≠ "+" ∧ op ≠ "==" ∧ op ≠ "!=" := by
    rcases hop with rfl | rfl <;> decide
  obtain ⟨his, hplus, heq, hneq⟩ := hno
  rw [emitItem, size_binary, emitFuel, emitExpr, if_neg his, if_neg fun h => hplus h.1,
    if_neg fun h => heq h.1, if_neg fun h => hneq h.1, hleft, hright]
  rfl

end

end Caster.SelfHosting
