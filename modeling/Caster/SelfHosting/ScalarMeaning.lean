import Caster.SelfHosting.ScalarText

/-!
# The meaning of scalar expressions

The exact value of an expression of integers and booleans, and when the C expression that is
written for it has this value and assigns no variable.
-/

namespace Caster.SelfHosting

open CLang

namespace Scalar

/-! ### Values -/

section

variable (s : Store)

/-- The exact value of an expression, where numbers other than zero are true. -/
def exactValue : Scalar → ℤ
  | int digits _ => digitsValue 10 digits
  | bol value => if value then 1 else 0
  | name word _ => s word
  | group inner => inner.exactValue
  | neg operand => -operand.exactValue
  | not operand => if operand.exactValue = 0 then 1 else 0
  | binary op left right => op.apply left.exactValue right.exactValue

/-- The exact values of an expression and of all its subexpressions exist and fit in 64 bits. -/
def Fits : Scalar → Prop
  | int digits h => IntTy.long.Holds ((int digits h).exactValue s)
  | bol _ => True
  | name word _ => IntTy.long.Holds (s word)
  | group inner => inner.Fits
  | neg operand => operand.Fits ∧ IntTy.long.Holds (-operand.exactValue s)
  | not operand => operand.Fits
  | binary op left right =>
    left.Fits ∧ right.Fits ∧ (op = .div ∨ op = .rem → right.exactValue s ≠ 0) ∧
      IntTy.long.Holds (op.apply (left.exactValue s) (right.exactValue s))

end

/-- The literals are decimal in C as well: a zero at the start is followed by zeros and one digit
less than eight, if at all. -/
def Decimal : Scalar → Prop
  | int digits _ =>
    digits.head? = some '0' → (∀ d ∈ digits.dropLast, d = '0') ∧ ∀ d ∈ digits.getLast?, d ≤ '7'
  | bol _ | name _ _ => True
  | group inner => inner.Decimal
  | neg operand => operand.Decimal
  | not operand => operand.Decimal
  | binary _ left right => left.Decimal ∧ right.Decimal

/-- A variable, with parentheses or without. -/
def IsVariable : Scalar → Prop
  | name _ _ => True
  | group inner => inner.IsVariable
  | _ => False

/-- Two minus signs are in front of a variable only. -/
def Legal : Scalar → Prop
  | int _ _ | bol _ | name _ _ => True
  | group inner => inner.Legal
  | neg (neg operand) => operand.IsVariable ∧ operand.Legal
  | neg operand => operand.Legal
  | not operand => operand.Legal
  | binary _ left right => left.Legal ∧ right.Legal

section

variable (types : List Char → Option IntTy)

/-- The variables are declared. -/
def Declared : Scalar → Prop
  | int _ _ | bol _ => True
  | name word _ => (types word).isSome
  | group inner => inner.Declared
  | neg operand => operand.Declared
  | not operand => operand.Declared
  | binary _ left right => left.Declared ∧ right.Declared

/-- The type of the C expression. -/
def rank : Scalar → IntTy
  | int digits _ => if IntTy.int.Holds (digitsValue 10 digits) then .int else .long
  | bol _ => .int
  | name word _ => (types word).getD .long
  | group inner => inner.rank
  | neg (neg operand) => operand.rank
  | neg operand => operand.rank.promote
  | not _ => .int
  | binary op left right => if op.IsArithmetic then left.rank.common right.rank else .int

variable (s : Store)

/-- Where C evaluates an operation its result is in its type, which has 32 bits if its operands are
literals, booleans and what is made of them, and no two minus signs are evaluated. -/
def Sound : Scalar → Prop
  | int _ _ | bol _ | name _ _ => True
  | group inner => inner.Sound
  | neg (neg _) => False
  | neg operand => operand.Sound ∧ (operand.rank types).promote.Holds (-operand.exactValue s)
  | not operand => operand.Sound
  | binary .and left right => left.Sound ∧ (left.exactValue s ≠ 0 → right.Sound)
  | binary .or left right => left.Sound ∧ (left.exactValue s = 0 → right.Sound)
  | binary op left right =>
    left.Sound ∧ right.Sound ∧
      op.Defined ((left.rank types).common (right.rank types)) (left.exactValue s) (right.exactValue s)

end

/-! ### Literals -/

theorem digitsValue_zeros (base : ℕ) {digits : List Char} (h : ∀ d ∈ digits, d = '0') (last : Char) :
  digitsValue base (digits ++ [last]) = last.toNat - '0'.toNat
  := by
  have hzero : digitsValue base digits = 0 := by
    unfold digitsValue
    induction digits with
    | nil => rfl
    | cons d digits ih =>
      rw [List.foldl_cons, h d List.mem_cons_self]
      exact ih fun d' hd' => h d' (List.mem_cons_of_mem _ hd')
  rw [digitsValue, List.foldl_append, ← digitsValue, hzero]
  simp

/-- A literal that is decimal in C has its value there. -/
theorem constant_of_decimal {digits : List Char} {hdigits : IsDigits digits} {types : List Char → Option IntTy}
    {s : Store} (h : (int digits hdigits).Decimal) (hfits : (int digits hdigits).Fits s) :
  constant digits = some ((int digits hdigits).exactValue s, (int digits hdigits).rank types)
  := by
  have hall : digits.all Char.isDigit = true := List.all_eq_true.mpr hdigits.2
  unfold constant
  rw [if_neg (not_not.mpr hall)]
  split_ifs with hzero hoctal
  · -- zeros and one digit
    obtain ⟨hzeros, hlast⟩ := h hzero
    obtain ⟨front, last, hconcat⟩ := (List.eq_nil_or_concat digits).resolve_left hdigits.1
    rw [List.concat_eq_append] at hconcat
    subst hconcat
    rw [List.dropLast_concat] at hzeros
    rw [List.getLast?_concat] at hlast
    have height : last ≤ '7' := hlast last rfl
    have hvalue : ((digitsValue 10 (front ++ [last]) : ℕ) : ℤ) = digitsValue 8 (front ++ [last]) := by
      rw [digitsValue_zeros 10 hzeros, digitsValue_zeros 8 hzeros]
    have hsmall : IntTy.int.Holds (digitsValue 8 (front ++ [last])) := by
      have hle : last.toNat ≤ 55 := height
      rw [digitsValue_zeros 8 hzeros]
      show -2 ^ 31 ≤ ((last.toNat - 48 : ℕ) : ℤ) ∧ ((last.toNat - 48 : ℕ) : ℤ) < 2 ^ 31
      omega
    dsimp only
    rw [if_pos hsmall, exactValue, rank, hvalue, if_pos hsmall]
  · obtain ⟨hzeros, hlast⟩ := h hzero
    apply absurd _ hoctal
    obtain ⟨front, last, hconcat⟩ := (List.eq_nil_or_concat digits).resolve_left hdigits.1
    rw [List.concat_eq_append] at hconcat
    subst hconcat
    rw [List.dropLast_concat] at hzeros
    rw [List.getLast?_concat] at hlast
    apply List.all_eq_true.mpr
    intro d hd
    rcases List.mem_append.mp hd with hd | hd
    · rw [hzeros d hd]
      decide
    · rw [List.mem_singleton.mp hd]
      exact decide_eq_true (hlast last rfl)
  · dsimp only
    split_ifs with hint hlong
    · rw [rank, if_pos hint]
      rfl
    · rw [rank, if_neg hint]
      rfl
    · exact absurd hfits hlong

theorem constant_bol (value : Bool) :
  constant (if value then ['1'] else ['0']) = some (if value then 1 else 0, .int)
  := by cases value <;> decide

/-! ### Types -/

theorem lvalue_ctree (t : Scalar) : (lvalue t.ctree).isSome ↔ t.IsVariable := by
  induction t with
  | int digits h => exact ⟨fun h => absurd h Bool.false_ne_true, False.elim⟩
  | bol value => exact ⟨fun h => absurd h Bool.false_ne_true, False.elim⟩
  | name word h => exact ⟨fun _ => trivial, fun _ => rfl⟩
  | group inner ih => exact ih
  | neg operand ih =>
    cases operand <;> exact ⟨fun h => absurd h Bool.false_ne_true, False.elim⟩
  | not operand ih => exact ⟨fun h => absurd h Bool.false_ne_true, False.elim⟩
  | binary op left right ihl ihr => exact ⟨fun h => absurd h Bool.false_ne_true, False.elim⟩

/-- The C expression has its type if it keeps the constraints of C. -/
theorem typeOf_ctree {types : List Char → Option IntTy} {s : Store} {t : Scalar} (hdecimal : t.Decimal)
    (hdeclared : t.Declared types) (hfits : t.Fits s) :
  (t.Legal → typeOf types t.ctree = some (t.rank types)) ∧
    ∀ r, typeOf types t.ctree = some r → t.Legal
  := by
  induction t using toks.induct with
  | case1 digits hdigits =>
    refine ⟨fun _ => ?_, fun _ _ => trivial⟩
    rw [ctree, typeOf, @constant_of_decimal digits hdigits types s hdecimal hfits, Option.map_some]
  | case2 value =>
    refine ⟨fun _ => ?_, fun _ _ => trivial⟩
    simp only [ctree, typeOf, constant_bol, Option.map_some, rank]
  | case3 word hword =>
    refine ⟨fun _ => ?_, fun _ _ => trivial⟩
    obtain ⟨type, htype⟩ := Option.isSome_iff_exists.mp hdeclared
    rw [ctree, typeOf, rank, htype]
    rfl
  | case4 inner ih => exact ih hdecimal hdeclared hfits
  | case5 operand ih =>
    obtain ⟨hlegal, hback⟩ := ih hdecimal hdeclared hfits.1.1
    rw [ctree, typeOf, if_pos rfl]
    constructor
    · rintro ⟨hvariable, hoperand⟩
      obtain ⟨name, hname⟩ := Option.isSome_iff_exists.mp ((lvalue_ctree operand).mpr hvariable)
      rw [hname, Option.bind_some, hlegal hoperand]
      rfl
    · intro r hr
      obtain ⟨name, hname, htype⟩ := Option.bind_eq_some_iff.mp hr
      exact ⟨(lvalue_ctree operand).mp (Option.isSome_iff_exists.mpr ⟨name, hname⟩), hback r htype⟩
  | case6 operand hneg ih =>
    obtain ⟨hlegal, hback⟩ := ih hdecimal hdeclared hfits.1
    rw [ctree, typeOf, if_neg (by decide), if_pos rfl, Legal, rank]
    · constructor
      · intro hoperand
        rw [hlegal hoperand]
        rfl
      · intro r hr
        obtain ⟨r', hr', _⟩ := Option.map_eq_some_iff.mp hr
        exact hback r' hr'
    · exact hneg
    · exact hneg
    · exact hneg
  | case7 operand ih =>
    obtain ⟨hlegal, hback⟩ := ih hdecimal hdeclared hfits
    rw [ctree, typeOf, if_neg (by decide), if_neg (by decide), rank]
    constructor
    · intro hoperand
      rw [hlegal hoperand]
      rfl
    · intro r hr
      obtain ⟨r', hr', _⟩ := Option.map_eq_some_iff.mp hr
      exact hback r' hr'
  | case8 op left right ihl ihr =>
    obtain ⟨hlegal, hback⟩ := ihl hdecimal.1 hdeclared.1 hfits.1
    obtain ⟨hlegal', hback'⟩ := ihr hdecimal.2 hdeclared.2 hfits.2.1
    have hop : (Tok.punct op.text).op = some op := op.ofText_text
    rw [ctree, typeOf, typeOf, hop, rank]
    constructor
    · rintro ⟨hleft, hright⟩
      rw [hlegal hleft, hlegal' hright]
    · intro r hr
      cases hl : typeOf types left.ctree with
      | none =>
        rw [hl] at hr
        cases hr
      | some a =>
        cases hr' : typeOf types right.ctree with
        | none =>
          rw [hl, hr'] at hr
          cases hr
        | some b => exact ⟨hback a hl, hback' b hr'⟩

/-! ### Evaluation -/

theorem sound_logical {types : List Char → Option IntTy} {s : Store} {op : Op} (left right : Scalar)
    (h : op = .and ∨ op = .or) :
  (binary op left right).Sound types s ↔
    left.Sound types s ∧ (¬ Decides op (left.exactValue s) → right.Sound types s)
  := by
  rcases h with rfl | rfl <;> simp [Sound, Decides]

theorem sound_strict {types : List Char → Option IntTy} {s : Store} {op : Op} (left right : Scalar)
    (h : ¬ (op = .and ∨ op = .or)) :
  (binary op left right).Sound types s ↔
    left.Sound types s ∧ right.Sound types s ∧
      op.Defined ((left.rank types).common (right.rank types)) (left.exactValue s) (right.exactValue s)
  := by
  cases op
  case and => exact absurd (Or.inl rfl) h
  case or => exact absurd (Or.inr rfl) h
  all_goals exact Iff.rfl

/-- The C expression has the exact value and assigns nothing if it is sound, and only then. -/
theorem eval_ctree {types : List Char → Option IntTy} {s : Store} {t : Scalar} (hdecimal : t.Decimal)
    (hdeclared : t.Declared types) (hfits : t.Fits s) (hlegal : t.Legal) :
  (t.Sound types s → eval types t.ctree s = some ⟨t.exactValue s, s, []⟩) ∧
    ∀ o, eval types t.ctree s = some o → o.assigned = [] → t.Sound types s
  := by
  have htype {t : Scalar} (hdecimal : t.Decimal) (hdeclared : t.Declared types) (hfits : t.Fits s)
      (hlegal : t.Legal) : typeOf types t.ctree = some (t.rank types) :=
    (typeOf_ctree hdecimal hdeclared hfits).1 hlegal
  induction t using toks.induct with
  | case1 digits hdigits =>
    refine ⟨fun _ => ?_, fun _ _ _ => trivial⟩
    rw [ctree, eval, @constant_of_decimal digits hdigits types s hdecimal hfits, Option.map_some]
  | case2 value =>
    refine ⟨fun _ => ?_, fun _ _ _ => trivial⟩
    simp only [ctree, eval, constant_bol, Option.map_some, exactValue]
  | case3 word hword =>
    exact ⟨fun _ => rfl, fun _ _ _ => trivial⟩
  | case4 inner ih => exact ih hdecimal hdeclared hfits hlegal
  | case5 operand ih =>
    -- a variable is assigned
    rw [Sound, ctree, eval, if_pos rfl]
    refine ⟨False.elim, fun o ho hquiet => ?_⟩
    split at ho
    · cases ho
      cases hquiet
    · split_ifs at ho
      cases ho
      cases hquiet
    · cases ho
  | case6 operand hneg ih =>
    have hoperand : operand.Legal := by
      rw [Legal] at hlegal
      · exact hlegal
      · exact hneg
    obtain ⟨hsound, hback⟩ := ih hdecimal hdeclared hfits.1 hoperand
    rw [ctree, eval, if_neg (by decide), if_pos rfl, Sound, @htype operand hdecimal hdeclared hfits.1 hoperand]
    · constructor
      · rintro ⟨hs, hholds⟩
        rw [hsound hs]
        dsimp only
        rw [if_pos hholds]
        rfl
      · intro o ho hquiet
        cases heval : eval types operand.ctree s with
        | none =>
          rw [heval] at ho
          cases ho
        | some o' =>
          rw [heval] at ho
          dsimp only at ho
          split_ifs at ho with hholds
          cases ho
          have hs := hback o' heval hquiet
          rw [hsound hs] at heval
          cases heval
          exact ⟨hs, hholds⟩
    · exact hneg
    · exact hneg
  | case7 operand ih =>
    obtain ⟨hsound, hback⟩ := ih hdecimal hdeclared hfits hlegal
    rw [ctree, eval, if_neg (by decide), if_neg (by decide)]
    constructor
    · intro hoperand
      rw [hsound hoperand]
      rfl
    · intro o ho hquiet
      obtain ⟨o', ho', rfl⟩ := Option.map_eq_some_iff.mp ho
      exact hback o' ho' hquiet
  | case8 op left right ihl ihr =>
    obtain ⟨hsound, hback⟩ := ihl hdecimal.1 hdeclared.1 hfits.1 hlegal.1
    obtain ⟨hsound', hback'⟩ := ihr hdecimal.2 hdeclared.2 hfits.2.1 hlegal.2
    have hop : (Tok.punct op.text).op = some op := op.ofText_text
    rw [ctree, eval, eval, hop, htype hdecimal.1 hdeclared.1 hfits.1 hlegal.1,
      htype hdecimal.2 hdeclared.2 hfits.2.1 hlegal.2]
    dsimp only
    by_cases hlogical : op = .and ∨ op = .or
    · rw [if_pos hlogical, sound_logical left right hlogical]
      constructor
      · rintro ⟨hl, hr⟩
        rw [hsound hl, Option.bind_some, logical]
        by_cases hdecides : Decides op (left.exactValue s)
        · rw [if_pos hdecides, exactValue, hdecides.apply_eq (right.exactValue s)]
        · rw [if_neg hdecides, hsound' (hr hdecides)]
          rfl
      · intro o ho hquiet
        obtain ⟨o', ho', hlog⟩ := Option.bind_eq_some_iff.mp ho
        unfold logical at hlog
        split_ifs at hlog with hdecides
        · cases hlog
          have hl := hback o' ho' hquiet
          rw [hsound hl] at ho'
          cases ho'
          exact ⟨hl, fun hnot => absurd hdecides hnot⟩
        · obtain ⟨o'', ho'', rfl⟩ := Option.map_eq_some_iff.mp hlog
          obtain ⟨hquiet, hquiet'⟩ := List.append_eq_nil_iff.mp hquiet
          have hl := hback o' ho' hquiet
          rw [hsound hl] at ho'
          cases ho'
          exact ⟨hl, fun _ => hback' o'' ho'' hquiet'⟩
    · rw [if_neg hlogical, sound_strict left right hlogical]
      constructor
      · rintro ⟨hl, hr, hdefined⟩
        rw [hsound hl, Option.bind_some, hsound' hr, Option.bind_some, if_pos hdefined]
        rfl
      · intro o ho hquiet
        obtain ⟨o', ho', hbind⟩ := Option.bind_eq_some_iff.mp ho
        obtain ⟨o'', ho'', hlast⟩ := Option.bind_eq_some_iff.mp hbind
        split_ifs at hlast with hdefined
        cases hlast
        obtain ⟨hquiet, hquiet'⟩ := List.append_eq_nil_iff.mp hquiet
        have hl := hback o' ho' hquiet
        rw [hsound hl] at ho'
        cases ho'
        have hr := hback' o'' ho'' hquiet'
        rw [hsound' hr] at ho''
        cases ho''
        exact ⟨hl, hr, hdefined⟩

/-- The text of an expression has the exact value in C if and only if C reads it as the expression
and each operation that it evaluates is sound. -/
theorem denotes_emit_iff {types : List Char → Option IntTy} {s : Store} {t : Scalar} (hdecimal : t.Decimal)
    (hdeclared : t.Declared types) (hfits : t.Fits s) :
  Denotes types t.emit s (t.exactValue s) ↔ t.Plain ∧ t.Legal ∧ t.Sound types s
  := by
  have hlexes : Lexes t.emit t.toks := by
    have hemit := @lexes_emit t [] [] (fun c hc => nomatch hc) lexes_nil
    rwa [List.append_nil, List.append_nil] at hemit
  obtain ⟨htype, hback⟩ := typeOf_ctree hdecimal hdeclared hfits
  constructor
  · rintro ⟨tokens, e, r, o, htokens, hparses, hr, ho, _, _, hquiet⟩
    rw [htokens.unique hlexes] at hparses
    have hplain := plain_of_parses hparses
    obtain rfl := hparses.unique ⟨follows_ctree hplain, (tokens_ctree t).symm⟩
    have hlegal := hback r hr
    exact ⟨hplain, hlegal, (eval_ctree hdecimal hdeclared hfits hlegal).2 o ho hquiet⟩
  · rintro ⟨hplain, hlegal, hsound⟩
    exact ⟨t.toks, t.ctree, _, _, hlexes, ⟨follows_ctree hplain, (tokens_ctree t).symm⟩, htype hlegal,
      (eval_ctree hdecimal hdeclared hfits hlegal).1 hsound, rfl, rfl, rfl⟩

end Scalar

/-! ### The emitter -/

/-- The C types of locals. -/
def localCTypes (names types : List String) (word : List Char) : Option IntTy :=
  if localType names types (String.ofList word) = "INT" then some .long
  else if localType names types (String.ofList word) = "BOL" then some .bool
  else none

theorem declared_of_named {names types : List String} {t : Scalar} (h : t.Named names types) :
  t.Declared (localCTypes names types)
  := by
  induction t with
  | int digits hdigits => trivial
  | bol value => trivial
  | name word hword =>
    unfold Scalar.Declared localCTypes
    split_ifs with hint hbol
    · rfl
    · rfl
    · rcases List.mem_cons.mp h with heq | hmem
      · exact absurd heq hint
      · exact absurd (List.mem_singleton.mp hmem) hbol
  | group inner ih => exact ih h
  | neg operand ih => exact ih h
  | not operand ih => exact ih h
  | binary op left right ihl ihr => exact ⟨ihl h.1, ihr h.2⟩

/-- The text of an expression has the value of the expression if all exact values fit in 64 bits. -/
def Preserves (names types : List String) (t : Scalar) (text : List Char) (s : Store) : Prop :=
  t.Fits s → Denotes (localCTypes names types) text s (t.exactValue s)

/-- What is written for an expression of integers and booleans has its value in C if its literals are
decimal there, its names are no keywords, and the minus signs and the operations with results of 32
bits are sound; and if its literals are decimal, only then. -/
theorem emitExpr_preserves_iff (names types : List String) (otherType : Expr → String)
    (other : Expr → List Char) (refDotTarget : Expr → Option (List Char)) (s : Store) {t : Scalar} {e : Expr}
    (h : t.Matches e) (hnamed : t.Named names types) :
  (t.Decimal ∧ t.Plain ∧ t.Legal ∧ t.Sound (localCTypes names types) s →
      Preserves names types t (emitExpr names types otherType other refDotTarget e) s) ∧
    (t.Decimal → t.Fits s →
      (Preserves names types t (emitExpr names types otherType other refDotTarget e) s ↔
        t.Plain ∧ t.Legal ∧ t.Sound (localCTypes names types) s))
  := by
  have hdeclared := declared_of_named hnamed
  rw [Preserves, emitExpr_scalar h hnamed]
  constructor
  · rintro ⟨hdecimal, hrest⟩ hfits
    exact (Scalar.denotes_emit_iff hdecimal hdeclared hfits).mpr hrest
  · intro hdecimal hfits
    rw [← Scalar.denotes_emit_iff hdecimal hdeclared hfits]
    exact ⟨fun hpreserves => hpreserves hfits, fun hdenotes _ => hdenotes⟩

/-- The parser returns an expression and reports nothing. -/
def Built (e : Expr) : Prop :=
  ∃ file tokens s, parse (.expression 1) (State.new file tokens) = some (e, s) ∧ s.diagnostics = []

theorem named_x : localType ["x"] ["INT"] (String.ofList ['x']) ∈ ["INT", "BOL"] := by decide

theorem isWord_x : IsWord ['x'] := by
  refine ⟨?_, ?_, by decide, by decide⟩
  · simp [isIdentStart]
  · simp [isIdentChar]

/-- The expression `x + 1`. -/
def incremented : Scalar := .binary .add (.name ['x'] isWord_x) (.int ['1'] ⟨by decide, by simp⟩)

/-- The expression `x + 1` of the parser. -/
def incrementedExpr : Expr where
  kind := .binary
  op := "+"
  children := [⟨.name, "x", "", [], ⟨1, 1, 1, 2⟩⟩, ⟨.int, "1", "", [], ⟨1, 5, 1, 6⟩⟩]
  span := ⟨1, 3, 1, 4⟩

theorem emitExpr_preserves_incremented :
  Preserves ["x"] ["INT"] incremented
    (emitExpr ["x"] ["INT"] (fun _ => "") (fun _ => []) (fun _ => none) incrementedExpr) (fun _ => 5)
  := by
  have hmatches : incremented.Matches incrementedExpr := ⟨rfl, rfl, _, _, rfl, ⟨rfl, rfl⟩, ⟨rfl, rfl⟩⟩
  have hdecimal : ['1'].head? ≠ some '0' := by decide
  have hplain : ['x'] ∉ CLang.keywords := by decide
  have hdefined : Op.add.Defined .long 5 1 := by decide
  apply (emitExpr_preserves_iff ["x"] ["INT"] _ _ _ (fun _ => 5) hmatches ⟨named_x, trivial⟩).1
  exact ⟨⟨trivial, fun hzero => absurd hzero hdecimal⟩, ⟨hplain, trivial⟩, ⟨trivial, trivial⟩, trivial, trivial,
    hdefined⟩

/-- The expression `- -x`. -/
def twiceNegated : Scalar := .neg (.neg (.name ['x'] isWord_x))

/-- The expression `- -x` of the parser. -/
def twiceNegatedExpr : Expr where
  kind := .unary
  op := "-"
  children := [⟨.unary, "", "-", [⟨.name, "x", "", [], ⟨1, 4, 1, 5⟩⟩], ⟨1, 3, 1, 4⟩⟩]
  span := ⟨1, 1, 1, 2⟩

/-- Two minus signs are written as a decrement. -/
theorem not_emitExpr_preserves :
  ¬ ∀ (names types : List String) (otherType : Expr → String) (other : Expr → List Char)
    (refDotTarget : Expr → Option (List Char)) (s : Store) (t : Scalar) (e : Expr),
    t.Matches e → t.Named names types → Built e →
      Preserves names types t (emitExpr names types otherType other refDotTarget e) s
  := by
  intro hall
  have hmatches : twiceNegated.Matches twiceNegatedExpr := ⟨rfl, rfl, _, rfl, rfl, rfl, _, rfl, rfl, rfl⟩
  have hnamed : twiceNegated.Named ["x"] ["INT"] := named_x
  have hbuilt : Built twiceNegatedExpr :=
    ⟨"main.cast", [⟨.MINUS, "-", ⟨1, 1, 1, 2⟩⟩, ⟨.MINUS, "-", ⟨1, 3, 1, 4⟩⟩, ⟨.NAME, "x", ⟨1, 4, 1, 5⟩⟩,
      ⟨.EOF, "", ⟨1, 5, 1, 5⟩⟩], _, rfl, rfl⟩
  have hx : IntTy.long.Holds 5 ∧ IntTy.long.Holds (-5) ∧ IntTy.long.Holds (-(-5)) := by decide
  have hfits : twiceNegated.Fits fun _ => 5 := ⟨⟨hx.1, hx.2.1⟩, hx.2.2⟩
  have hdecimal : twiceNegated.Decimal := trivial
  have hpreserves := hall ["x"] ["INT"] (fun _ => "") (fun _ => []) (fun _ => none) (fun _ => 5)
    twiceNegated twiceNegatedExpr hmatches hnamed hbuilt
  rw [Preserves, emitExpr_scalar hmatches hnamed] at hpreserves
  exact ((Scalar.denotes_emit_iff hdecimal (declared_of_named hnamed) hfits).mp (hpreserves hfits)).2.2

end Caster.SelfHosting
