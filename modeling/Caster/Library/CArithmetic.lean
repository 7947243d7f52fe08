import Caster.Library.CTokens
import Caster.Library.PrecedenceClimbing

/-!
# Integer expressions of C

Expressions of names and constants whose types are signed or `_Bool`, with the operators `-`, `!`
and `--` in front of an operand and the arithmetic, comparison and logical operators between two.
An operation has no value where its result is not in its type, which has 32 or 64 bits.
-/

namespace CLang

open PrecedenceClimbing

attribute [local instance] lawfulBEq_chars

/-! ### Operators -/

/-- An operator between two operands. -/
inductive Op where
  | add | sub | mul | div | rem | lt | gt | le | ge | eq | ne | and | or
deriving DecidableEq, Repr

namespace Op

def text : Op → List Char
  | add => ['+']
  | sub => ['-']
  | mul => ['*']
  | div => ['/']
  | rem => ['%']
  | lt => ['<']
  | gt => ['>']
  | le => ['<', '=']
  | ge => ['>', '=']
  | eq => ['=', '=']
  | ne => ['!', '=']
  | and => ['&', '&']
  | or => ['|', '|']

/-- How tightly an operator binds, where bitwise operators have levels as well. -/
def level : Op → ℕ
  | or => 1
  | and => 2
  | eq | ne => 6
  | lt | gt | le | ge => 7
  | add | sub => 9
  | mul | div | rem => 10

/-- The result of an operator is a number of the type of its operands. -/
def IsArithmetic (op : Op) : Prop := op ∈ [add, sub, mul, div, rem]

instance : DecidablePred IsArithmetic := fun _ => inferInstanceAs (Decidable (_ ∈ _))

def all : List Op := [add, sub, mul, div, rem, lt, gt, le, ge, eq, ne, and, or]

theorem level_pos (op : Op) : 0 < op.level := by cases op <;> decide

/-- The operator of a text. -/
def ofText (text : List Char) : Option Op := all.find? fun op => op.text = text

theorem ofText_text (op : Op) : ofText op.text = some op := by cases op <;> rfl

/-- The result of an operator, where numbers other than zero are true. -/
def apply (op : Op) (a b : ℤ) : ℤ :=
  let truth (p : Bool) : ℤ := if p then 1 else 0
  match op with
  | add => a + b
  | sub => a - b
  | mul => a * b
  | div => a.tdiv b
  | rem => a.tmod b
  | lt => truth (a < b)
  | gt => truth (a > b)
  | le => truth (a ≤ b)
  | ge => truth (a ≥ b)
  | eq => truth (a = b)
  | ne => truth (a ≠ b)
  | and => truth (a ≠ 0 ∧ b ≠ 0)
  | or => truth (a ≠ 0 ∨ b ≠ 0)

end Op

/-! ### Types -/

/-- A type of integers. -/
inductive IntTy where
  | bool | int | long
deriving DecidableEq, Repr

namespace IntTy

/-- The numbers of a type. -/
def Holds : IntTy → ℤ → Prop
  | bool, v => v = 0 ∨ v = 1
  | int, v => -2 ^ 31 ≤ v ∧ v < 2 ^ 31
  | long, v => -2 ^ 63 ≤ v ∧ v < 2 ^ 63

instance (t : IntTy) (v : ℤ) : Decidable (t.Holds v) := by
  cases t
  · exact inferInstanceAs (Decidable (_ ∨ _))
  · exact inferInstanceAs (Decidable (_ ∧ _))
  · exact inferInstanceAs (Decidable (_ ∧ _))

/-- The type of an operand. -/
def promote : IntTy → IntTy
  | bool => int
  | t => t

/-- The type two operands have in common. -/
def common (a b : IntTy) : IntTy := if a = long ∨ b = long then long else int

end IntTy

/-- An operator has a result for two numbers of a type: the result of an arithmetic operator is in
the type, and so is the quotient that belongs to a remainder. -/
def Op.Defined (op : Op) (t : IntTy) (a b : ℤ) : Prop :=
  match op with
  | .div | .rem => b ≠ 0 ∧ t.Holds (a.tdiv b)
  | .add | .sub | .mul => t.Holds (op.apply a b)
  | _ => True

instance (op : Op) (t : IntTy) (a b : ℤ) : Decidable (op.Defined t a b) := by
  cases op
  all_goals first
    | exact inferInstanceAs (Decidable (_ ∧ _))
    | exact inferInstanceAs (Decidable (IntTy.Holds _ _))
    | exact inferInstanceAs (Decidable True)

/-! ### Constants -/

/-- The number of some digits. -/
def digitsValue (base : ℕ) (digits : List Char) : ℕ :=
  digits.foldl (fun n d => base * n + (d.toNat - '0'.toNat)) 0

/-- The number and the type of a constant without a suffix, in decimal or, behind a zero, in octal.
The octal constants whose type is unsigned are left out. -/
def constant (text : List Char) : Option (ℤ × IntTy) :=
  if ¬ text.all Char.isDigit then none
  else if text.head? = some '0' then
    if text.all fun d => d ≤ '7' then
      let value : ℤ := digitsValue 8 text
      if IntTy.int.Holds value then some (value, .int)
      else if value ≥ 2 ^ 32 ∧ IntTy.long.Holds value then some (value, .long)
      else none
    else none
  else
    let value : ℤ := digitsValue 10 text
    if IntTy.int.Holds value then some (value, .int)
    else if IntTy.long.Holds value then some (value, .long)
    else none

/-! ### Expressions -/

/-- The operator of a token. -/
def Tok.op : Tok → Option Op
  | punct text => Op.ofText text
  | _ => none

/-- The operators in front of an operand. -/
def prefixOps : List Tok := [.punct ['-'], .punct ['!'], .punct ['-', '-']]

/-- The grammar of expressions. -/
def grammar : Grammar Tok where
  atom
    | .ident text => text ∉ keywords
    | .number _ => true
    | .punct _ => false
  opening t := t = .punct ['(']
  closing t := t = .punct [')']
  prefixOp t := t ∈ prefixOps
  level t := t.op.elim 0 Op.level
  final t := t = .punct [';']
  level_closing := by
    intro t ht
    rw [of_decide_eq_true ht]
    rfl
  level_final := by
    intro t ht
    rw [of_decide_eq_true ht]
    rfl

theorem mem_prefixOps {t : Tok} : t ∈ prefixOps ↔ t = .punct ['-'] ∨ t = .punct ['!'] ∨ t = .punct ['-', '-'] := by
  simp [prefixOps]

theorem grammar_apart : grammar.Apart where
  opening_atom := by
    intro t ht
    rw [of_decide_eq_true ht]
    rfl
  prefix_atom := by
    intro t ht
    rcases mem_prefixOps.mp (of_decide_eq_true ht) with rfl | rfl | rfl <;> rfl
  prefix_opening := by
    intro t ht
    rcases mem_prefixOps.mp (of_decide_eq_true ht) with rfl | rfl | rfl <;> rfl

/-- The macros `true` and `false` are replaced. -/
def expand : Tok → Tok
  | .ident text =>
    if text = ['t', 'r', 'u', 'e'] then .number ['1']
    else if text = ['f', 'a', 'l', 's', 'e'] then .number ['0']
    else .ident text
  | t => t

/-- An expression. -/
abbrev CTree := PrecedenceClimbing.Tree Tok

/-- The tokens are those of an expression. -/
def Parses (tokens : List Tok) (e : CTree) : Prop := grammar.Follows e ∧ e.tokens = tokens

/-- Tokens are those of one expression at most. -/
theorem Parses.unique {tokens : List Tok} {e e' : CTree} (h : Parses tokens e) (h' : Parses tokens e') :
  e = e'
  := by
  have hfinal : grammar.final (.punct [';']) = true := rfl
  exact h.1.unique grammar_apart hfinal h'.1 (h.2.trans h'.2.symm)

/-- The name of the variable an expression is, with parentheses or without. -/
def lvalue : CTree → Option (List Char)
  | .leaf (.ident name) => some name
  | .group _ inner _ => lvalue inner
  | _ => none

section

variable (types : List Char → Option IntTy)

/-- The type of an expression that keeps the constraints of C. -/
def typeOf : CTree → Option IntTy
  | .leaf (.ident name) => types name
  | .leaf (.number text) => (constant text).map Prod.snd
  | .leaf (.punct _) => none
  | .group _ inner _ => typeOf inner
  | .unary t operand =>
    if t = .punct ['-', '-'] then (lvalue operand).bind fun _ => typeOf operand
    else if t = .punct ['-'] then (typeOf operand).map IntTy.promote
    else (typeOf operand).map fun _ => .int
  | .binary t left right =>
    match t.op, typeOf left, typeOf right with
    | some op, some a, some b => some (if op.IsArithmetic then a.common b else .int)
    | _, _, _ => none

/-- The values of the variables. -/
abbrev Store := List Char → ℤ

/-- The value of an expression, the store behind it, and the variables that were assigned. -/
structure Outcome where
  value : ℤ
  store : Store
  assigned : List (List Char)

/-- The operand on the left decides what the result is. -/
def Decides (op : Op) (left : ℤ) : Prop := (op = .and ∧ left = 0) ∨ (op = .or ∧ left ≠ 0)

instance (op : Op) (left : ℤ) : Decidable (Decides op left) := inferInstanceAs (Decidable (_ ∨ _))

theorem Decides.apply_eq {op : Op} {left : ℤ} (h : Decides op left) (right : ℤ) :
  op.apply left left = op.apply left right
  := by
  rcases h with ⟨rfl, rfl⟩ | ⟨rfl, hne⟩
  · rfl
  · simp [Op.apply, hne]

/-- An operand that is not evaluated before it is known to be needed. -/
def logical (op : Op) (left : Outcome) (right : Store → Option Outcome) : Option Outcome :=
  if Decides op left.value then some { left with value := op.apply left.value left.value }
  else
    (right left.store).map fun right =>
      ⟨op.apply left.value right.value, right.store, left.assigned ++ right.assigned⟩

/-- The evaluation of an expression, which ends where an operation is not defined.  The operands of
an operator are evaluated from left to right, one of the orders C allows. -/
def eval : CTree → Store → Option Outcome
  | .leaf (.ident name), s => some ⟨s name, s, []⟩
  | .leaf (.number text), s => (constant text).map fun c => ⟨c.1, s, []⟩
  | .leaf (.punct _), _ => none
  | .group _ inner _, s => eval inner s
  | .unary t operand, s =>
    if t = .punct ['-', '-'] then
      match lvalue operand, typeOf types operand with
      | some name, some .bool =>
        let value : ℤ := if s name - 1 = 0 then 0 else 1
        some ⟨value, Function.update s name value, [name]⟩
      | some name, some t =>
        if t.Holds (s name - 1) then some ⟨s name - 1, Function.update s name (s name - 1), [name]⟩ else none
      | _, _ => none
    else if t = .punct ['-'] then
      match eval operand s, typeOf types operand with
      | some o, some t => if t.promote.Holds (-o.value) then some { o with value := -o.value } else none
      | _, _ => none
    else (eval operand s).map fun o => { o with value := if o.value = 0 then 1 else 0 }
  | .binary t left right, s =>
    match t.op, typeOf types left, typeOf types right with
    | some op, some a, some b =>
      if op = .and ∨ op = .or then (eval left s).bind fun l => logical op l (eval right)
      else
        (eval left s).bind fun l => (eval right l.store).bind fun r =>
          if op.Defined (a.common b) l.value r.value then
            some ⟨op.apply l.value r.value, r.store, l.assigned ++ r.assigned⟩
          else none
    | _, _, _ => none

/-- A text is an expression of C with a value, and evaluating it changes no variable. -/
def Denotes (text : List Char) (s : Store) (value : ℤ) : Prop :=
  ∃ tokens e t o, Lexes text tokens ∧ Parses (tokens.map expand) e ∧ typeOf types e = some t ∧ eval types e s = some o ∧
    o.value = value ∧ o.store = s ∧ o.assigned = []

variable {types : List Char → Option IntTy} {text : List Char} {s : Store}

/-- A text has one value at most. -/
theorem Denotes.unique {value value' : ℤ} (h : Denotes types text s value) (h' : Denotes types text s value') :
  value = value'
  := by
  obtain ⟨tokens, e, t, o, htokens, hparses, -, heval, rfl, -, -⟩ := h
  obtain ⟨tokens', e', t', o', htokens', hparses', -, heval', rfl, -, -⟩ := h'
  obtain rfl := htokens.unique htokens'
  obtain rfl := hparses.unique hparses'
  rw [heval, Option.some.injEq] at heval'
  rw [heval']

/-- A constant has its value. -/
theorem denotes_constant {digits : List Char} {value : ℤ} {t : IntTy} (hne : digits ≠ [])
    (hdigits : ∀ d ∈ digits, d.isDigit = true) (h : constant digits = some (value, t)) :
  Denotes types digits s value
  := by
  obtain ⟨d, digits, rfl⟩ := List.exists_cons_of_ne_nil hne
  have hlexes : Lexes (d :: digits) [.number (d :: digits)] := by
    have hnumber := @Lexes.number d digits [] [] (hdigits d List.mem_cons_self)
      (fun d' h => hdigits d' (List.mem_cons_of_mem _ h)) (fun c hc => nomatch hc) lexes_nil
    rwa [List.append_nil] at hnumber
  refine ⟨_, .leaf (.number (d :: digits)), t, ⟨value, s, []⟩, hlexes, ⟨rfl, rfl⟩, ?_, ?_, rfl, rfl, rfl⟩
  · rw [typeOf, h]
    rfl
  · rw [eval, h]
    rfl

/-- A constant with a minus sign, in parentheses, has the opposite value. -/
theorem denotes_negated {digits : List Char} {value : ℤ} {t : IntTy} (hne : digits ≠ [])
    (hdigits : ∀ d ∈ digits, d.isDigit = true) (h : constant digits = some (value, t))
    (hholds : t.promote.Holds (-value)) :
  Denotes types ('(' :: '-' :: (digits ++ [')'])) s (-value)
  := by
  obtain ⟨d, digits, rfl⟩ := List.exists_cons_of_ne_nil hne
  have hdigit : isIdentChar d = true := isIdentChar_of_isDigit (hdigits d List.mem_cons_self)
  have hclose : Lexes [')'] [.punct [')']] :=
    Lexes.char (by decide) (by decide) ⟨by decide, by decide⟩ lexes_nil
  have hnumber : Lexes (d :: digits ++ [')']) [.number (d :: digits), .punct [')']] := by
    apply Lexes.number (hdigits d List.mem_cons_self) (fun d' h => hdigits d' (List.mem_cons_of_mem _ h)) _ hclose
    intro c hc
    obtain rfl : ')' = c := by simpa using hc
    exact ⟨rfl, by decide⟩
  have hminus : Lexes ('-' :: (d :: digits ++ [')'])) [.punct ['-'], .number (d :: digits), .punct [')']] := by
    apply Lexes.char (by decide) _ ⟨by decide, by decide⟩ hnumber
    intro p hp hhead hlong heq
    have hp' : ∀ p ∈ punctuators, p.head? = some '-' → p.tail.head?.all fun c => isIdentChar c = false := by
      decide
    have hnot := hp' p hp hhead
    rw [heq] at hnot
    simp [hdigit] at hnot
  have hopen : Lexes ('(' :: '-' :: (d :: digits ++ [')']))
      [.punct ['('], .punct ['-'], .number (d :: digits), .punct [')']] := by
    have hlong : ∀ p ∈ punctuators, p.head? = some '(' → p.length > 1 → p.tail.head? ≠ some '-' := by decide
    exact Lexes.char (by decide) hlong ⟨by decide, by decide⟩ hminus
  refine ⟨_, .group (.punct ['(']) (.unary (.punct ['-']) (.leaf (.number (d :: digits)))) (.punct [')']),
    t.promote, ⟨-value, s, []⟩, hopen, ⟨⟨rfl, rfl, rfl, trivial, rfl⟩, rfl⟩, ?_, ?_, rfl, rfl, rfl⟩
  · rw [typeOf, typeOf, if_neg (by decide), if_pos rfl, typeOf, h]
    rfl
  · rw [eval, eval, if_neg (by decide), if_pos rfl, eval, typeOf, h]
    dsimp only [Option.map_some]
    rw [if_pos hholds]

end

end CLang
