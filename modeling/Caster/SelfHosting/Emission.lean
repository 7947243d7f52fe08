import Caster.Library.CArithmetic
import Caster.SelfHosting.Parser

/-!
# The emitter of expressions

What the self-hosted compiler writes for an expression.  Literals, names, groups and operators
are written here; what is written for other expressions, and the types of those, are parameters.
-/

namespace Caster.SelfHosting

open CLang (Op IntTy)

/-- The type of a local, which is empty for other names.  The last binding of a name counts. -/
def localType (names types : List String) (name : String) : String :=
  (names.zip types).foldl (fun found binding => if binding.1 = name then binding.2 else found) ""

/-- The name of a variable in C. -/
def cName (name : String) : List Char := name.toList.map fun c => if c = '.' then '_' else c

section

variable (names types : List String) (otherType : Expr → String) (other : Expr → List Char)
  (refDotTarget : Expr → Option (List Char))

/-- The type of an expression, which is empty where it is not known. -/
def exprType : Expr → String
  | ⟨.int, _, _, _, _⟩ => "INT"
  | ⟨.flt, _, _, _, _⟩ => "FLT"
  | ⟨.bol, _, _, _, _⟩ => "BOL"
  | ⟨.str, _, _, _, _⟩ => "STR"
  | ⟨.nul, _, _, _, _⟩ => "NUL"
  | ⟨.name, text, _, _, _⟩ => localType names types text
  | ⟨.unary, text, op, children, span⟩ =>
    if op = "*" ∨ op = "REF" then otherType ⟨.unary, text, op, children, span⟩ else ""
  | ⟨.group, _, _, _, _⟩ => ""
  | ⟨.binary, _, op, left :: right :: _, _⟩ =>
    let leftType := exprType left
    let rightType := exprType right
    if op = "+" ∧ (leftType = "STR" ∨ rightType = "STR") then "STR"
    else if op ∈ ["==", "!=", "<", ">", "<=", ">=", "&&", "||"] then "BOL"
    else if leftType = "FLT" ∨ rightType = "FLT" then "FLT"
    else leftType
  | item => otherType item

/-- The text of an expression. -/
def emitExpr : Expr → List Char
  | ⟨.int, text, _, _, _⟩ => text.toList
  | ⟨.flt, text, _, _, _⟩ => text.toList
  | ⟨.bol, text, _, _, _⟩ => text.toList
  | ⟨.nul, _, _, _, _⟩ => ['0']
  | ⟨.name, text, op, children, span⟩ =>
    if "REF[".toList <+: (exprType names types otherType ⟨.name, text, op, children, span⟩).toList then
      ['(', '*'] ++ cName text ++ [')']
    else cName text
  | ⟨.group, _, _, inner :: _, _⟩ => ['('] ++ emitExpr inner ++ [')']
  | ⟨.unary, text, op, operand :: children, span⟩ =>
    if op = "REF" then ['&'] ++ emitExpr operand
    else
      match if op = "*" then refDotTarget ⟨.unary, text, op, operand :: children, span⟩ else none with
      | some target => target
      | none => op.toList ++ emitExpr operand
  | ⟨.binary, text, op, left :: right :: children, span⟩ =>
    let leftType := exprType names types otherType left
    let rightType := exprType names types otherType right
    if op = "IS" then other ⟨.binary, text, op, left :: right :: children, span⟩
    else if op = "+" ∧ (leftType = "STR" ∨ rightType = "STR") then
      "flx_str_concat(".toList ++ emitExpr left ++ [',', ' '] ++ emitExpr right ++ [')']
    else if op = "==" ∧ (leftType = "STR" ∨ rightType = "STR") then
      "flx_str_eq(".toList ++ emitExpr left ++ [',', ' '] ++ emitExpr right ++ [')']
    else if op = "!=" ∧ (leftType = "STR" ∨ rightType = "STR") then
      "!flx_str_eq(".toList ++ emitExpr left ++ [',', ' '] ++ emitExpr right ++ [')']
    else ['('] ++ emitExpr left ++ [' '] ++ op.toList ++ [' '] ++ emitExpr right ++ [')']
  | item => other item

end

/-! ### Scalar expressions -/

/-- A word that is a name in both languages and no keyword of Caster. -/
def IsWord (word : List Char) : Prop :=
  (∀ c ∈ word.head?, CLang.isIdentStart c = true) ∧ (∀ c ∈ word, CLang.isIdentChar c = true) ∧ word ≠ [] ∧
    keywordKind (String.ofList word) = .NAME

/-- The text of an integer. -/
def IsDigits (digits : List Char) : Prop := digits ≠ [] ∧ ∀ d ∈ digits, d.isDigit = true

/-- An expression of integers and booleans.  The operators have the same texts in C. -/
inductive Scalar where
  | int (digits : List Char) (h : IsDigits digits)
  | bol (value : Bool)
  | name (word : List Char) (h : IsWord word)
  | group (inner : Scalar)
  | neg (operand : Scalar)
  | not (operand : Scalar)
  | binary (op : Op) (left right : Scalar)

namespace Scalar

/-- The expression of the parser is this one. -/
def Matches : Scalar → Expr → Prop
  | int digits _, e => e.kind = .int ∧ e.text = String.ofList digits
  | bol value, e => e.kind = .bol ∧ e.text = if value then "true" else "false"
  | name word _, e => e.kind = .name ∧ e.text = String.ofList word
  | group inner, e => e.kind = .group ∧ ∃ i, e.children = [i] ∧ inner.Matches i
  | neg operand, e => e.kind = .unary ∧ e.op = "-" ∧ ∃ o, e.children = [o] ∧ operand.Matches o
  | not operand, e => e.kind = .unary ∧ e.op = "!" ∧ ∃ o, e.children = [o] ∧ operand.Matches o
  | binary op left right, e =>
    e.kind = .binary ∧ e.op = String.ofList op.text ∧
      ∃ l r, e.children = [l, r] ∧ left.Matches l ∧ right.Matches r

/-- Every name is the one of a local whose type is `INT` or `BOL`. -/
def Named (names types : List String) : Scalar → Prop
  | int _ _ | bol _ => True
  | name word _ => localType names types (String.ofList word) ∈ ["INT", "BOL"]
  | group inner => inner.Named names types
  | neg operand => operand.Named names types
  | not operand => operand.Named names types
  | binary _ left right => left.Named names types ∧ right.Named names types

/-- The text that is written for an expression. -/
def emit : Scalar → List Char
  | int digits _ => digits
  | bol value => if value then ['t', 'r', 'u', 'e'] else ['f', 'a', 'l', 's', 'e']
  | name word _ => word
  | group inner => ['('] ++ inner.emit ++ [')']
  | neg operand => ['-'] ++ operand.emit
  | not operand => ['!'] ++ operand.emit
  | binary op left right => ['('] ++ left.emit ++ [' '] ++ op.text ++ [' '] ++ right.emit ++ [')']

end Scalar

section

variable {names types : List String} {otherType : Expr → String} {other : Expr → List Char}
  {refDotTarget : Expr → Option (List Char)}

/-- The type of an expression of integers and booleans is no other one, if it is known. -/
theorem exprType_scalar {t : Scalar} {e : Expr} (h : t.Matches e) (hnamed : t.Named names types) :
  exprType names types otherType e ∈ ["INT", "BOL", ""]
  := by
  induction t generalizing e with
  | int digits hdigits =>
    obtain ⟨kind, text, op, children, span⟩ := e
    obtain ⟨rfl, rfl⟩ := h
    exact List.mem_cons_self
  | bol value =>
    obtain ⟨kind, text, op, children, span⟩ := e
    obtain ⟨rfl, rfl⟩ := h
    exact List.mem_cons_of_mem _ List.mem_cons_self
  | name word hword =>
    obtain ⟨kind, text, op, children, span⟩ := e
    obtain ⟨rfl, rfl⟩ := h
    exact List.mem_append_left [""] hnamed
  | group inner ih =>
    obtain ⟨kind, text, op, children, span⟩ := e
    obtain ⟨rfl, i, rfl, _⟩ := h
    exact List.mem_append_right ["INT", "BOL"] List.mem_cons_self
  | neg operand ih =>
    obtain ⟨kind, text, op, children, span⟩ := e
    obtain ⟨rfl, rfl, o, rfl, _⟩ := h
    exact List.mem_append_right ["INT", "BOL"] List.mem_cons_self
  | not operand ih =>
    obtain ⟨kind, text, op, children, span⟩ := e
    obtain ⟨rfl, rfl, o, rfl, _⟩ := h
    exact List.mem_append_right ["INT", "BOL"] List.mem_cons_self
  | binary op left right ihl ihr =>
    obtain ⟨kind, text, op', children, span⟩ := e
    obtain ⟨rfl, rfl, l, r, rfl, hl, hr⟩ := h
    have hleft := ihl hl hnamed.1
    have hright := ihr hr hnamed.2
    have hstr : ¬ (exprType names types otherType l = "STR" ∨ exprType names types otherType r = "STR") := by
      rintro (heq | heq)
      · rw [heq] at hleft
        exact absurd hleft (by decide)
      · rw [heq] at hright
        exact absurd hright (by decide)
    have hflt : ¬ (exprType names types otherType l = "FLT" ∨ exprType names types otherType r = "FLT") := by
      rintro (heq | heq)
      · rw [heq] at hleft
        exact absurd hleft (by decide)
      · rw [heq] at hright
        exact absurd hright (by decide)
    rw [exprType, if_neg fun h => hstr h.2, if_neg hflt]
    split_ifs
    · exact List.mem_cons_of_mem _ List.mem_cons_self
    · exact hleft

/-- What is written for an expression of integers and booleans. -/
theorem emitExpr_scalar {t : Scalar} {e : Expr} (h : t.Matches e) (hnamed : t.Named names types) :
  emitExpr names types otherType other refDotTarget e = t.emit
  := by
  induction t generalizing e with
  | int digits hdigits =>
    obtain ⟨kind, text, op, children, span⟩ := e
    obtain ⟨rfl, rfl⟩ := h
    exact String.toList_ofList
  | bol value =>
    obtain ⟨kind, text, op, children, span⟩ := e
    obtain ⟨rfl, rfl⟩ := h
    cases value <;> rfl
  | name word hword =>
    obtain ⟨kind, text, op, children, span⟩ := e
    obtain ⟨rfl, rfl⟩ := h
    have htype : ∀ type ∈ ["INT", "BOL"], ¬ "REF[".toList <+: type.toList := by decide
    have hdot : ∀ c ∈ word, ¬ c = '.' := by
      rintro c hc rfl
      exact absurd (hword.2.1 _ hc) (by decide)
    rw [emitExpr, exprType, if_neg (htype _ hnamed), cName, String.toList_ofList]
    exact (List.map_congr_left fun c hc => if_neg (hdot c hc)).trans (List.map_id _)
  | group inner ih =>
    obtain ⟨kind, text, op, children, span⟩ := e
    obtain ⟨rfl, i, rfl, hi⟩ := h
    rw [emitExpr, ih hi hnamed]
    rfl
  | neg operand ih =>
    obtain ⟨kind, text, op, children, span⟩ := e
    obtain ⟨rfl, rfl, o, rfl, ho⟩ := h
    rw [emitExpr, if_neg (by decide), if_neg (by decide)]
    dsimp only
    rw [ih ho hnamed]
    rfl
  | not operand ih =>
    obtain ⟨kind, text, op, children, span⟩ := e
    obtain ⟨rfl, rfl, o, rfl, ho⟩ := h
    rw [emitExpr, if_neg (by decide), if_neg (by decide)]
    dsimp only
    rw [ih ho hnamed]
    rfl
  | binary op left right ihl ihr =>
    obtain ⟨kind, text, op', children, span⟩ := e
    obtain ⟨rfl, rfl, l, r, rfl, hl, hr⟩ := h
    have hleft := @exprType_scalar names types otherType left l hl hnamed.1
    have hright := @exprType_scalar names types otherType right r hr hnamed.2
    have hstr : ¬ (exprType names types otherType l = "STR" ∨ exprType names types otherType r = "STR") := by
      rintro (heq | heq)
      · rw [heq] at hleft
        exact absurd hleft (by decide)
      · rw [heq] at hright
        exact absurd hright (by decide)
    have his : String.ofList op.text ≠ "IS" := by cases op <;> decide
    rw [emitExpr, if_neg his, if_neg fun h => hstr h.2, if_neg fun h => hstr h.2, if_neg fun h => hstr h.2, ihl hl hnamed.1,
      ihr hr hnamed.2, String.toList_ofList]
    rfl

end

end Caster.SelfHosting
