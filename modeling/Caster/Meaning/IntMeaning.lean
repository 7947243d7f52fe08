import Caster.Meaning.Arithmetic

/-!
# The meaning of `INT` arithmetic

The values C gives the text emitted for an `INT` expression, with its own types: a decimal
constant that fits in 32 bits is an `int`, an operation is carried out in the wider type of
its operands, and an operation whose result does not fit in that type is undefined.

Parts of an expression that are no constants, no arithmetic and no conditional expressions
are atoms: C gives each a type and a value.
-/

namespace Caster

/-! ### C's integers -/

/-- The C types of integer expressions: 32 bits and 64. -/
inductive CInt where
  | int
  | int64
deriving DecidableEq, Repr

/-- A number fits in a type. -/
def CInt.Fits : CInt → ℤ → Prop
  | .int, v => -2 ^ 31 ≤ v ∧ v < 2 ^ 31
  | .int64, v => -2 ^ 63 ≤ v ∧ v < 2 ^ 63

instance (t : CInt) (v : ℤ) : Decidable (t.Fits v) := by
  cases t <;> exact inferInstanceAs (Decidable (_ ∧ _))

/-- The type of an unsuffixed decimal constant. -/
def constantType (value : ℤ) : CInt := if value < 2 ^ 31 then .int else .int64

/-- The type an operation on two types is carried out in. -/
def CInt.convert : CInt → CInt → CInt
  | .int, .int => .int
  | _, _ => .int64

/-- The exact result of an operation: division and remainder truncate towards zero. -/
def exactOp (op : String) (a b : ℤ) : Option ℤ :=
  if op = "+" then some (a + b)
  else if op = "-" then some (a - b)
  else if op = "*" then some (a * b)
  else if b = 0 then none
  else if op = "/" then some (a.tdiv b)
  else if op = "%" then some (a.tmod b)
  else none

/-- An operation is defined in a type: its result fits, and for a remainder the quotient
does. -/
def OpDefined (t : CInt) (op : String) (a b v : ℤ) : Prop :=
  t.Fits v ∧ (op = "%" → t.Fits (a.tdiv b))

instance (t : CInt) (op : String) (a b v : ℤ) : Decidable (OpDefined t op a b v) :=
  inferInstanceAs (Decidable (_ ∧ _))

section

variable (declared : CExpr → CInt) (env : CExpr → Option ℤ)

/-- The C type of an integer expression. -/
def CExpr.intType : CExpr → CInt
  | .intConst value => constantType value
  | .unary "-" e => e.intType
  | .binary _ left right => left.intType.convert right.intType
  | .conditional _ value right => value.intType.convert right.intType
  | e => declared e

/-- The value of an integer expression, where it is defined. -/
def CExpr.evalInt : CExpr → Option ℤ
  | .intConst value => some value
  | .unary "-" e => do
    let v ← e.evalInt
    if (e.intType declared).Fits (-v) then some (-v) else none
  | .binary op left right => do
    let a ← left.evalInt
    let b ← right.evalInt
    let v ← exactOp op a b
    if OpDefined ((left.intType declared).convert (right.intType declared)) op a b v then some v
    else none
  | .conditional condition value right => do
    let c ← env condition
    if c ≠ 0 then value.evalInt else right.evalInt
  | e => env e

end

/-! ### The exact meaning -/

variable (declared : CExpr → CInt) (env : CExpr → Option ℤ) (types : TypeTable)

/-- A result that fits in 64 bits. -/
def in64 (v : ℤ) : Option ℤ := if CInt.int64.Fits v then some v else none

/-- The exact value of an `INT` expression, when it and every value on the way to it fit in
64 bits and no divisor is zero.  An atom has the value C gives it. -/
def exactInt : Expr → Option ℤ
  | .int _ value => in64 value
  | .unary _ .neg e => do
    let v ← exactInt e
    in64 (-v)
  | .binary info op left right =>
    if isArithmeticOp op then do
      let a ← exactInt left
      let b ← exactInt right
      let v ← exactOp op.text a b
      in64 v
    else (CExpr.evalInt declared env (emitExpr types (.binary info op left right))).bind in64
  | .ifExpr _ condition value (some right) => do
    let c ← env (emitExpr types condition)
    if c ≠ 0 then exactInt value else exactInt right
  | .ifExpr _ _ value none => exactInt value
  | e => (CExpr.evalInt declared env (emitExpr types e)).bind in64

/-- The expressions of type `INT` as the analyzer leaves them: the operands of arithmetic and
the branches of a conditional expression have the type as well. -/
def IsInt : Expr → Prop
  | .unary info .neg e => info.checkedType = .INT ∧ IsInt e
  | .binary info op left right =>
    info.checkedType = .INT ∧ (isArithmeticOp op → IsInt left ∧ IsInt right)
  | .ifExpr info _ value (some right) => info.checkedType = .INT ∧ IsInt value ∧ IsInt right
  | .ifExpr info _ value none => info.checkedType = .INT ∧ IsInt value
  | e => e.checkedType = .INT

/-- The operations of an `INT` expression: its negations and its arithmetic. -/
def intOperations : Expr → List Expr
  | .unary info .neg e => .unary info .neg e :: intOperations e
  | .binary info op left right =>
    if isArithmeticOp op then
      .binary info op left right :: (intOperations left ++ intOperations right)
    else []
  | .ifExpr _ _ value (some right) => intOperations value ++ intOperations right
  | .ifExpr _ _ value none => intOperations value
  | _ => []

/-- An expression all of whose leaves are constants below `2 ^ 31` and atoms of 32 bits. -/
def isNarrow : Expr → Bool
  | .int _ value => value < 2 ^ 31
  | .unary _ .neg e => isNarrow e
  | .binary info op left right =>
    if isArithmeticOp op then isNarrow left && isNarrow right
    else (emitExpr types (.binary info op left right)).intType declared = .int
  | .ifExpr _ _ value (some right) => isNarrow value && isNarrow right
  | .ifExpr _ _ value none => isNarrow value
  | e => (emitExpr types e).intType declared = .int

/-- The type of the operands of an expression that is narrow or not. -/
def widthOf (narrow : Bool) : CInt := if narrow then .int else .int64

/-- Every operation that is carried out is defined in the type C carries it out in. -/
def IsDefined : Expr → Prop
  | .unary _ .neg e =>
    IsDefined e ∧ ∀ v, exactInt declared env types e = some v →
      (widthOf (isNarrow declared types e)).Fits (-v)
  | .binary _ op left right =>
    isArithmeticOp op → IsDefined left ∧ IsDefined right ∧
      ∀ a b v, exactInt declared env types left = some a →
        exactInt declared env types right = some b → exactOp op.text a b = some v →
        OpDefined (widthOf (isNarrow declared types left && isNarrow declared types right)) op.text a b v
  | .ifExpr _ condition value (some right) =>
    ∀ c, env (emitExpr types condition) = some c → if c ≠ 0 then IsDefined value else IsDefined right
  | .ifExpr _ _ value none => IsDefined value
  | _ => True

/-- No remainder that is taken is that of the least number by `-1`, whose quotient does not
fit. -/
def RemaindersDefined : Expr → Prop
  | .unary _ .neg e => RemaindersDefined e
  | .binary _ op left right =>
    isArithmeticOp op → RemaindersDefined left ∧ RemaindersDefined right ∧
      (op = .mod → exactInt declared env types left = some (-2 ^ 63) →
        exactInt declared env types right ≠ some (-1))
  | .ifExpr _ condition value (some right) =>
    ∀ c, env (emitExpr types condition) = some c →
      if c ≠ 0 then RemaindersDefined value else RemaindersDefined right
  | .ifExpr _ _ value none => RemaindersDefined value
  | _ => True

/-- The emitted text has the exact value, and none of its operations is carried out in a type
narrower than 64 bits. -/
def IntMeaning (e : Expr) (v : ℤ) : Prop :=
  (emitExpr types e).evalInt declared env = some v ∧
    ∀ node ∈ intOperations e, (emitExpr types node).intType declared = .int64

/-! ### The analyzed tree -/

variable {declared : CExpr → CInt} {env : CExpr → Option ℤ} {types : TypeTable}

theorem IsInt.checkedType_eq : {e : Expr} → IsInt e → e.checkedType = .INT
  | .unary _ op _, h => by cases op <;> first | exact h.1 | exact h
  | .binary _ _ _ _, h => h.1
  | .ifExpr _ _ _ (some _), h => h.1
  | .ifExpr _ _ _ none, h => h.1
  | .int _ _, h => h
  | .flt _ _, h => h
  | .bol _ _, h => h
  | .str _ _, h => h
  | .nil _, h => h
  | .name _ _, h => h
  | .array _ _, h => h
  | .shape _ _, h => h
  | .mapLiteral _ _, h => h
  | .recordLiteral _ _, h => h
  | .dot _ _ _, h => h
  | .dotIndex _ _ _, h => h
  | .dotTarget _ _ _, h => h
  | .call _ _ _, h => h
  | .methodCall _ _ _ _ _, h => h
  | .decode _ _, h => h

/-- The text of an arithmetic node of type `INT`. -/
theorem emit_intArithmetic {info : Info} {op : BinaryOp} {left right : Expr}
    (hop : isArithmeticOp op) (h : IsInt (.binary info op left right)) :
  emitExpr types (.binary info op left right) =
    .binary op.text (emitExpr types left) (emitExpr types right)
  := by
  apply emit_arithmetic hop
  · rw [h.1]
    rfl
  · rw [(h.2 hop).1.checkedType_eq]
    rfl

theorem convert_widthOf (m n : Bool) :
  (widthOf m).convert (widthOf n) = widthOf (m && n)
  := by
  cases m <;> cases n <;> rfl

theorem widthOf_decide (t : CInt) :
  widthOf (decide (t = .int)) = t
  := by
  cases t <;> rfl

/-- The C type of an `INT` expression is read off its leaves. -/
theorem intType_emitExpr : {e : Expr} → IsInt e →
    (emitExpr types e).intType declared = widthOf (isNarrow declared types e)
  | .int _ value, _ => by
    simp [emitExpr, CExpr.intType, constantType, isNarrow, widthOf]
  | .unary _ .neg e, h => by
    rw [emitExpr, CExpr.intType, isNarrow]
    exact intType_emitExpr h.2
  | .binary info op left right, h => by
    by_cases hop : isArithmeticOp op
    · rw [emit_intArithmetic hop h, CExpr.intType, isNarrow, if_pos hop,
        intType_emitExpr (h.2 hop).1, intType_emitExpr (h.2 hop).2, convert_widthOf]
    · rw [isNarrow, if_neg hop, widthOf_decide]
  | .ifExpr _ _ value (some right), h => by
    rw [emitExpr, CExpr.intType, isNarrow, intType_emitExpr h.2.1, intType_emitExpr h.2.2,
      convert_widthOf]
  | .ifExpr _ _ value none, h => by
    rw [emitExpr, isNarrow]
    exact intType_emitExpr h.2
  | .unary _ .REF _, _ => (widthOf_decide _).symm
  | .unary _ .deref _, _ => (widthOf_decide _).symm
  | .unary _ .hold _, _ => (widthOf_decide _).symm
  | .unary _ .not _, _ => (widthOf_decide _).symm
  | .flt _ _, _ => (widthOf_decide _).symm
  | .bol _ _, _ => (widthOf_decide _).symm
  | .str _ _, _ => (widthOf_decide _).symm
  | .nil _, _ => (widthOf_decide _).symm
  | .name _ _, _ => (widthOf_decide _).symm
  | .array _ _, _ => (widthOf_decide _).symm
  | .shape _ _, _ => (widthOf_decide _).symm
  | .mapLiteral _ _, _ => (widthOf_decide _).symm
  | .recordLiteral _ _, _ => (widthOf_decide _).symm
  | .dot _ _ _, _ => (widthOf_decide _).symm
  | .dotIndex _ _ _, _ => (widthOf_decide _).symm
  | .dotTarget _ _ _, _ => (widthOf_decide _).symm
  | .call _ _ _, _ => (widthOf_decide _).symm
  | .methodCall _ _ _ _ _, _ => (widthOf_decide _).symm
  | .decode _ _, _ => (widthOf_decide _).symm

/-! ### Values -/

theorem in64_eq_some {v w : ℤ} (h : in64 v = some w) :
  v = w ∧ CInt.int64.Fits w
  := by
  unfold in64 at h
  split at h
  · rename_i hfits
    cases h
    exact ⟨rfl, hfits⟩
  · cases h

theorem fits_of_bind_in64 {o : Option ℤ} {v : ℤ} (h : o.bind in64 = some v) :
  CInt.int64.Fits v
  := by
  obtain ⟨w, _, h⟩ := Option.bind_eq_some_iff.mp h
  exact (in64_eq_some h).2

/-- An exact value fits in 64 bits. -/
theorem fits_of_exactInt : {e : Expr} → {v : ℤ} → exactInt declared env types e = some v →
    CInt.int64.Fits v
  | .int _ _, _, h => (in64_eq_some h).2
  | .unary _ .neg e, v, h => by
    obtain ⟨a, _, h⟩ := Option.bind_eq_some_iff.mp h
    exact (in64_eq_some h).2
  | .binary info op left right, v, h => by
    rw [exactInt] at h
    split at h
    · obtain ⟨a, _, h⟩ := Option.bind_eq_some_iff.mp h
      obtain ⟨b, _, h⟩ := Option.bind_eq_some_iff.mp h
      exact fits_of_bind_in64 h
    · exact fits_of_bind_in64 h
  | .ifExpr _ condition value (some right), v, h => by
    obtain ⟨c, _, h⟩ := Option.bind_eq_some_iff.mp h
    split at h
    · exact fits_of_exactInt h
    · exact fits_of_exactInt h
  | .ifExpr _ _ value none, v, h => fits_of_exactInt (e := value) h
  | .unary _ .REF _, _, h => fits_of_bind_in64 h
  | .unary _ .deref _, _, h => fits_of_bind_in64 h
  | .unary _ .hold _, _, h => fits_of_bind_in64 h
  | .unary _ .not _, _, h => fits_of_bind_in64 h
  | .flt _ _, _, h => fits_of_bind_in64 h
  | .bol _ _, _, h => fits_of_bind_in64 h
  | .str _ _, _, h => fits_of_bind_in64 h
  | .nil _, _, h => fits_of_bind_in64 h
  | .name _ _, _, h => fits_of_bind_in64 h
  | .array _ _, _, h => fits_of_bind_in64 h
  | .shape _ _, _, h => fits_of_bind_in64 h
  | .mapLiteral _ _, _, h => fits_of_bind_in64 h
  | .recordLiteral _ _, _, h => fits_of_bind_in64 h
  | .dot _ _ _, _, h => fits_of_bind_in64 h
  | .dotIndex _ _ _, _, h => fits_of_bind_in64 h
  | .dotTarget _ _ _, _, h => fits_of_bind_in64 h
  | .call _ _ _, _, h => fits_of_bind_in64 h
  | .methodCall _ _ _ _ _, _, h => fits_of_bind_in64 h
  | .decode _ _, _, h => fits_of_bind_in64 h

/-- An atom has the value C gives it. -/
theorem evalInt_atom {c : CExpr} {v : ℤ} (h : (c.evalInt declared env).bind in64 = some v) :
  (True → c.evalInt declared env = some v) ∧ (¬ True → c.evalInt declared env = none)
  := by
  obtain ⟨w, hw, h⟩ := Option.bind_eq_some_iff.mp h
  obtain ⟨rfl, _⟩ := in64_eq_some h
  exact ⟨fun _ => hw, fun h => absurd trivial h⟩

/-- The emitted text has the exact value where every operation is defined, and no value
where one is not. -/
theorem evalInt_emitExpr : {e : Expr} → {v : ℤ} → IsInt e →
    exactInt declared env types e = some v →
    (IsDefined declared env types e → (emitExpr types e).evalInt declared env = some v) ∧
      (¬ IsDefined declared env types e → (emitExpr types e).evalInt declared env = none)
  | .int _ value, v, _, hv => by
    obtain ⟨rfl, _⟩ := in64_eq_some hv
    exact ⟨fun _ => rfl, fun h => absurd trivial h⟩
  | .unary _ .neg e, v, h, hv => by
    obtain ⟨a, ha, hv⟩ := Option.bind_eq_some_iff.mp hv
    obtain ⟨rfl, _⟩ := in64_eq_some hv
    obtain ⟨hpos, hneg⟩ := evalInt_emitExpr h.2 ha
    rw [emitExpr, CExpr.evalInt, intType_emitExpr h.2]
    constructor
    · rintro ⟨hdefined, hfits⟩
      simp [hpos hdefined, hfits a ha]
    · intro hundefined
      by_cases hdefined : IsDefined declared env types e
      · have hfits : ¬ (widthOf (isNarrow declared types e)).Fits (-a) := by
          intro hfits
          apply hundefined
          refine ⟨hdefined, fun w hw => ?_⟩
          rw [ha] at hw
          cases hw
          exact hfits
        simp [hpos hdefined, hfits]
      · simp [hneg hdefined]
  | .binary info op left right, v, h, hv => by
    by_cases hop : isArithmeticOp op
    · rw [exactInt, if_pos hop] at hv
      obtain ⟨a, ha, hv⟩ := Option.bind_eq_some_iff.mp hv
      obtain ⟨b, hb, hv⟩ := Option.bind_eq_some_iff.mp hv
      obtain ⟨w, hw, hv⟩ := Option.bind_eq_some_iff.mp hv
      obtain ⟨rfl, _⟩ := in64_eq_some hv
      obtain ⟨hleft, hright⟩ := h.2 hop
      obtain ⟨hposl, hnegl⟩ := evalInt_emitExpr hleft ha
      obtain ⟨hposr, hnegr⟩ := evalInt_emitExpr hright hb
      rw [emit_intArithmetic hop h, CExpr.evalInt, intType_emitExpr hleft, intType_emitExpr hright,
        convert_widthOf]
      constructor
      · intro hdefined
        obtain ⟨hdl, hdr, hop'⟩ := hdefined hop
        simp [hposl hdl, hposr hdr, hw, hop' a b w ha hb hw]
      · intro hundefined
        by_cases hdl : IsDefined declared env types left
        · by_cases hdr : IsDefined declared env types right
          · have hop' : ¬ OpDefined (widthOf (isNarrow declared types left &&
                isNarrow declared types right)) op.text a b w := by
              intro hop'
              apply hundefined
              refine fun _ => ⟨hdl, hdr, fun a' b' w' ha' hb' hw' => ?_⟩
              rw [ha] at ha'
              rw [hb] at hb'
              cases ha'
              cases hb'
              rw [hw] at hw'
              cases hw'
              exact hop'
            simp [hposl hdl, hposr hdr, hw, hop']
          · simp [hposl hdl, hnegr hdr]
        · simp [hnegl hdl]
    · rw [exactInt, if_neg hop] at hv
      obtain ⟨hpos, _⟩ := evalInt_atom hv
      exact ⟨fun _ => hpos trivial, fun hundefined => absurd (fun h => absurd h hop) hundefined⟩
  | .ifExpr info condition value (some right), v, h, hv => by
    obtain ⟨c, hc, hv⟩ := Option.bind_eq_some_iff.mp hv
    rw [emitExpr, CExpr.evalInt, hc]
    have hdefined : IsDefined declared env types (.ifExpr info condition value (some right)) ↔
        if c ≠ 0 then IsDefined declared env types value else IsDefined declared env types right := by
      constructor
      · intro hall
        exact hall c hc
      · intro hif c' hc'
        rw [hc] at hc'
        cases hc'
        exact hif
    rw [hdefined]
    by_cases hzero : c = 0
    · subst hzero
      exact evalInt_emitExpr h.2.2 hv
    · rw [if_pos hzero] at hv
      simpa [hzero] using evalInt_emitExpr h.2.1 hv
  | .ifExpr _ _ value none, v, h, hv => evalInt_emitExpr (e := value) h.2 hv
  | .unary _ .REF _, v, _, hv => evalInt_atom hv
  | .unary _ .deref _, v, _, hv => evalInt_atom hv
  | .unary _ .hold _, v, _, hv => evalInt_atom hv
  | .unary _ .not _, v, _, hv => evalInt_atom hv
  | .flt _ _, v, _, hv => evalInt_atom hv
  | .bol _ _, v, _, hv => evalInt_atom hv
  | .str _ _, v, _, hv => evalInt_atom hv
  | .nil _, v, _, hv => evalInt_atom hv
  | .name _ _, v, _, hv => evalInt_atom hv
  | .array _ _, v, _, hv => evalInt_atom hv
  | .shape _ _, v, _, hv => evalInt_atom hv
  | .mapLiteral _ _, v, _, hv => evalInt_atom hv
  | .recordLiteral _ _, v, _, hv => evalInt_atom hv
  | .dot _ _ _, v, _, hv => evalInt_atom hv
  | .dotIndex _ _ _, v, _, hv => evalInt_atom hv
  | .dotTarget _ _ _, v, _, hv => evalInt_atom hv
  | .call _ _ _, v, _, hv => evalInt_atom hv
  | .methodCall _ _ _ _ _, v, _, hv => evalInt_atom hv
  | .decode _ _, v, _, hv => evalInt_atom hv

/-! ### Operations in 64 bits -/

/-- A quotient of 64-bit numbers fits unless it is that of the least number by `-1`. -/
theorem fits_tdiv_iff {a b : ℤ} (ha : CInt.int64.Fits a) (hzero : b ≠ 0) :
  CInt.int64.Fits (a.tdiv b) ↔ ¬ (a = -2 ^ 63 ∧ b = -1)
  := by
  simp only [CInt.Fits] at ha ⊢
  by_cases hone : b = 1
  · subst hone
    rw [Int.tdiv_one]
    omega
  · by_cases hminus : b = -1
    · subst hminus
      rw [Int.tdiv_neg, Int.tdiv_one]
      omega
    · have hb : 2 ≤ b.natAbs := by omega
      have hquotient : (a.tdiv b).natAbs ≤ a.natAbs / 2 := by
        rw [Int.natAbs_tdiv]
        exact Nat.div_le_div_left hb (by decide)
      omega

/-- The result of an operation carried out in 64 bits is defined up to the quotient of a
remainder. -/
theorem opDefined_int64_iff {op : BinaryOp} {a b v : ℤ} (ha : CInt.int64.Fits a)
    (hv : CInt.int64.Fits v) (hexact : exactOp op.text a b = some v) :
  OpDefined .int64 op.text a b v ↔ (op = .mod → ¬ (a = -2 ^ 63 ∧ b = -1))
  := by
  have htext : op.text = "%" ↔ op = .mod := by cases op <;> decide
  have hzero : op = .mod → b ≠ 0 := by
    rintro rfl rfl
    simp [exactOp, BinaryOp.text] at hexact
  unfold OpDefined
  rw [htext]
  constructor
  · rintro ⟨_, hquotient⟩ hmod
    exact (fits_tdiv_iff ha (hzero hmod)).mp (hquotient hmod)
  · intro h
    exact ⟨hv, fun hmod => (fits_tdiv_iff ha (hzero hmod)).mpr (h hmod)⟩

/-- When every operation is carried out in 64 bits, all are defined if the remainders are. -/
theorem isDefined_iff_remainders : {e : Expr} → {v : ℤ} → IsInt e →
    exactInt declared env types e = some v →
    (∀ node ∈ intOperations e, isNarrow declared types node = false) →
    (IsDefined declared env types e ↔ RemaindersDefined declared env types e)
  | .unary info .neg e, v, h, hv, hwide => by
    obtain ⟨a, ha, hv⟩ := Option.bind_eq_some_iff.mp hv
    obtain ⟨rfl, hfits⟩ := in64_eq_some hv
    have hnarrow : isNarrow declared types e = false :=
      hwide (.unary info .neg e) List.mem_cons_self
    have ih := isDefined_iff_remainders h.2 ha fun node hnode =>
      hwide node (List.mem_cons_of_mem _ hnode)
    rw [IsDefined, RemaindersDefined, ih, hnarrow]
    apply and_iff_left
    intro w hw
    rw [ha] at hw
    cases hw
    exact hfits
  | .binary info op left right, v, h, hv, hwide => by
    by_cases hop : isArithmeticOp op
    · rw [exactInt, if_pos hop] at hv
      obtain ⟨a, ha, hv⟩ := Option.bind_eq_some_iff.mp hv
      obtain ⟨b, hb, hv⟩ := Option.bind_eq_some_iff.mp hv
      obtain ⟨w, hw, hv⟩ := Option.bind_eq_some_iff.mp hv
      obtain ⟨rfl, hfits⟩ := in64_eq_some hv
      rw [intOperations, if_pos hop] at hwide
      have hnarrow := hwide (.binary info op left right) List.mem_cons_self
      rw [isNarrow, if_pos hop] at hnarrow
      obtain ⟨hleft, hright⟩ := h.2 hop
      have ihl := isDefined_iff_remainders hleft ha fun node hnode =>
        hwide node (List.mem_cons_of_mem _ (List.mem_append_left _ hnode))
      have ihr := isDefined_iff_remainders hright hb fun node hnode =>
        hwide node (List.mem_cons_of_mem _ (List.mem_append_right _ hnode))
      have hdefined := opDefined_int64_iff (fits_of_exactInt ha) hfits hw
      rw [IsDefined, RemaindersDefined, ihl, ihr, hnarrow]
      simp only [hop, ha, hb, true_imp_iff]
      apply and_congr_right
      intro _
      apply and_congr_right
      intro _
      constructor
      · intro hall hmod ha' hb'
        cases ha'
        cases hb'
        exact hdefined.mp (hall _ _ _ rfl rfl hw) hmod ⟨rfl, rfl⟩
      · intro hmod a' b' w' ha' hb' hw'
        cases ha'
        cases hb'
        rw [hw] at hw'
        cases hw'
        apply hdefined.mpr
        rintro hop' ⟨rfl, rfl⟩
        exact hmod hop' rfl rfl
    · simp [IsDefined, RemaindersDefined, hop]
  | .ifExpr info condition value (some right), v, h, hv, hwide => by
    obtain ⟨c, hc, hv⟩ := Option.bind_eq_some_iff.mp hv
    have hvalue : ∀ node ∈ intOperations value, isNarrow declared types node = false :=
      fun node hnode => hwide node (List.mem_append_left _ hnode)
    have hright : ∀ node ∈ intOperations right, isNarrow declared types node = false :=
      fun node hnode => hwide node (List.mem_append_right _ hnode)
    rw [IsDefined, RemaindersDefined]
    simp only [hc, Option.some.injEq, forall_eq']
    by_cases hzero : c = 0
    · subst hzero
      exact isDefined_iff_remainders h.2.2 hv hright
    · rw [if_pos hzero] at hv
      simpa [hzero] using isDefined_iff_remainders h.2.1 hv hvalue
  | .ifExpr _ _ value none, v, h, hv, hwide =>
    isDefined_iff_remainders (e := value) h.2 hv hwide
  | .unary _ .REF _, _, _, _, _ => Iff.rfl
  | .unary _ .deref _, _, _, _, _ => Iff.rfl
  | .unary _ .hold _, _, _, _, _ => Iff.rfl
  | .unary _ .not _, _, _, _, _ => Iff.rfl
  | .int _ _, _, _, _, _ => Iff.rfl
  | .flt _ _, _, _, _, _ => Iff.rfl
  | .bol _ _, _, _, _, _ => Iff.rfl
  | .str _ _, _, _, _, _ => Iff.rfl
  | .nil _, _, _, _, _ => Iff.rfl
  | .name _ _, _, _, _, _ => Iff.rfl
  | .array _ _, _, _, _, _ => Iff.rfl
  | .shape _ _, _, _, _, _ => Iff.rfl
  | .mapLiteral _ _, _, _, _, _ => Iff.rfl
  | .recordLiteral _ _, _, _, _, _ => Iff.rfl
  | .dot _ _ _, _, _, _, _ => Iff.rfl
  | .dotIndex _ _ _, _, _, _, _ => Iff.rfl
  | .dotTarget _ _ _, _, _, _, _ => Iff.rfl
  | .call _ _ _, _, _, _, _ => Iff.rfl
  | .methodCall _ _ _ _ _, _, _, _, _ => Iff.rfl
  | .decode _ _, _, _, _, _ => Iff.rfl

/-! ### The meaning -/

theorem isInt_of_mem_intOperations : {e : Expr} → IsInt e → ∀ node ∈ intOperations e, IsInt node
  | .unary _ .neg e, h, node, hnode => by
    obtain rfl | hnode := List.mem_cons.mp hnode
    · exact h
    · exact isInt_of_mem_intOperations h.2 node hnode
  | .binary info op left right, h, node, hnode => by
    rw [intOperations] at hnode
    split at hnode
    · rename_i hop
      obtain rfl | hnode := List.mem_cons.mp hnode
      · exact h
      · obtain hnode | hnode := List.mem_append.mp hnode
        · exact isInt_of_mem_intOperations (h.2 hop).1 node hnode
        · exact isInt_of_mem_intOperations (h.2 hop).2 node hnode
    · cases hnode
  | .ifExpr _ _ value (some right), h, node, hnode => by
    obtain hnode | hnode := List.mem_append.mp hnode
    · exact isInt_of_mem_intOperations h.2.1 node hnode
    · exact isInt_of_mem_intOperations h.2.2 node hnode
  | .ifExpr _ _ value none, h, node, hnode =>
    isInt_of_mem_intOperations (e := value) h.2 node hnode
  | .unary _ .REF _, _, _, hnode => absurd hnode List.not_mem_nil
  | .unary _ .deref _, _, _, hnode => absurd hnode List.not_mem_nil
  | .unary _ .hold _, _, _, hnode => absurd hnode List.not_mem_nil
  | .unary _ .not _, _, _, hnode => absurd hnode List.not_mem_nil
  | .int _ _, _, _, hnode => absurd hnode List.not_mem_nil
  | .flt _ _, _, _, hnode => absurd hnode List.not_mem_nil
  | .bol _ _, _, _, hnode => absurd hnode List.not_mem_nil
  | .str _ _, _, _, hnode => absurd hnode List.not_mem_nil
  | .nil _, _, _, hnode => absurd hnode List.not_mem_nil
  | .name _ _, _, _, hnode => absurd hnode List.not_mem_nil
  | .array _ _, _, _, hnode => absurd hnode List.not_mem_nil
  | .shape _ _, _, _, hnode => absurd hnode List.not_mem_nil
  | .mapLiteral _ _, _, _, hnode => absurd hnode List.not_mem_nil
  | .recordLiteral _ _, _, _, hnode => absurd hnode List.not_mem_nil
  | .dot _ _ _, _, _, hnode => absurd hnode List.not_mem_nil
  | .dotIndex _ _ _, _, _, hnode => absurd hnode List.not_mem_nil
  | .dotTarget _ _ _, _, _, hnode => absurd hnode List.not_mem_nil
  | .call _ _ _, _, _, hnode => absurd hnode List.not_mem_nil
  | .methodCall _ _ _ _ _, _, _, hnode => absurd hnode List.not_mem_nil
  | .decode _ _, _, _, hnode => absurd hnode List.not_mem_nil

/-- The value alone is right exactly when every operation is defined in its type. -/
theorem evalInt_emitExpr_iff {e : Expr} {v : ℤ} (h : IsInt e)
    (hv : exactInt declared env types e = some v) :
  (emitExpr types e).evalInt declared env = some v ↔ IsDefined declared env types e
  := by
  obtain ⟨hpos, hneg⟩ := evalInt_emitExpr h hv
  constructor
  · intro heval
    by_contra hundefined
    rw [hneg hundefined] at heval
    cases heval
  · exact hpos

/-- An `INT` expression whose exact values all fit in 64 bits is emitted with its value, and
with every operation in 64 bits, exactly when no operation is over constants below `2 ^ 31`
and 32-bit atoms only and no remainder is that of the least number by `-1`. -/
theorem intMeaning_iff {e : Expr} {v : ℤ} (h : IsInt e)
    (hv : exactInt declared env types e = some v) :
  IntMeaning declared env types e v ↔
    (∀ node ∈ intOperations e, isNarrow declared types node = false) ∧
      RemaindersDefined declared env types e
  := by
  have hwide : (∀ node ∈ intOperations e, (emitExpr types node).intType declared = .int64) ↔
      ∀ node ∈ intOperations e, isNarrow declared types node = false := by
    apply forall₂_congr
    intro node hnode
    rw [intType_emitExpr (isInt_of_mem_intOperations h node hnode)]
    cases isNarrow declared types node <;> simp [widthOf]
  unfold IntMeaning
  rw [hwide, and_comm]
  apply and_congr_right
  intro hall
  rw [← isDefined_iff_remainders h hv hall]
  exact evalInt_emitExpr_iff h hv

/-! ### The analyzer's trees -/

variable {scope : Scope}

theorem isInt_read (n : ℕ) {e : Expr} (h : e.checkedType = .INT → IsInt e)
    (htype : (implicitRefReadValue^[n] e).checkedType = .INT) :
  IsInt (implicitRefReadValue^[n] e)
  := by
  induction n generalizing e with
  | zero => exact h htype
  | succ n ih =>
    rw [Function.iterate_succ_apply] at htype ⊢
    apply ih _ htype
    unfold implicitRefReadValue
    split
    · exact id
    · exact h

/-- An accepted arithmetic expression of type `INT` has `INT` operands throughout. -/
theorem isInt_of_analyze {ctx : AnalyzeCtx} (e : Expr) {e' : Expr} {expected : Option Ty}
    (he : isArithmetic e) (h : analyzeExprExpected types scope ctx e expected = .ok e')
    (htype : e'.checkedType = .INT) :
  IsInt e'
  := by
  induction e, he using isArithmetic_induction generalizing e' expected with
  | int info value =>
    cases h
    exact htype
  | flt info value =>
    cases h
    cases htype
  | name info name =>
    obtain ⟨a, ha, rfl | ⟨_, rfl⟩⟩ := analyzeExprExpected_name h
    · obtain ⟨info', rfl⟩ := analyzeName_isName ha
      exact htype
    · exact htype
  | neg info e _ ih =>
    obtain ⟨a, type, ha, hneg, rfl⟩ := analyzeExprExpected_neg h
    obtain ⟨htype', _⟩ := analyzeNegation_ok hneg
    have hread : (implicitRefReadValue^[1] a).checkedType = .INT := htype'.symm.trans htype
    exact ⟨htype, isInt_read 1 (ih ha) hread⟩
  | binary info op left right _ _ _ ihLeft ihRight =>
    obtain ⟨hop, l, r, type, m, n, hl, hr, rfl, harith⟩ := analyzeExprExpected_binary h
    have hint : type = .INT := htype
    subst hint
    obtain ⟨hstr, _⟩ | harith := harith
    · cases hstr
    · obtain ⟨_, _, ⟨_, hleft, hright⟩ | ⟨hflt, _⟩⟩ := analyzeArithmetic_ok harith
      · exact ⟨rfl, fun _ => ⟨isInt_read m (ihLeft hl) hleft, isInt_read n (ihRight hr) hright⟩⟩
      · cases hflt

/-! ### An expression in 64 bits -/

/-- The name `x` of type `INT`. -/
def xName : Expr := .name (Info.ofType .INT) "x"

/-- The expression `-x * 3000000000 + x % 7`. -/
def scaledX : Expr :=
  .binary (Info.ofType .INT) .add
    (.binary (Info.ofType .INT) .mul (.unary (Info.ofType .INT) .neg xName)
      (.int (Info.ofType .INT) 3000000000))
    (.binary (Info.ofType .INT) .mod xName (.int (Info.ofType .INT) 7))

/-- The variables are of 64 bits. -/
def int64Names (_ : CExpr) : CInt := .int64

/-- The variable `x` holds 2000000000. -/
def xIsLarge : CExpr → Option ℤ
  | .ident "x" => some 2000000000
  | _ => none

theorem intMeaning_scaledX :
  IntMeaning int64Names xIsLarge [] scaledX (-5999999999999999995)
  := by
  have hint : IsInt scaledX := by simp [scaledX, xName, IsInt, Expr.checkedType, Expr.info, Info.ofType]
  have hexact : exactInt int64Names xIsLarge [] scaledX = some (-5999999999999999995) := by decide
  apply (intMeaning_iff hint hexact).mpr
  constructor
  · simp [scaledX, xName, intOperations, isNarrow, isArithmeticOp, emitExpr, CExpr.intType,
      int64Names, Info.ofType]
  · simp [scaledX, xName, RemaindersDefined, isArithmeticOp, exactInt, emitExpr, CExpr.evalInt,
      xIsLarge, in64, CInt.Fits, Info.ofType]

/-! ### An expression in 32 bits -/

/-- The expression `2000000000 + 2000000000`. -/
def sumOfConstants : Expr :=
  .binary (Info.ofType .INT) .add (.int (Info.ofType .INT) 2000000000)
    (.int (Info.ofType .INT) 2000000000)

/-- The sum fits in 64 bits, and the text emitted for it overflows an `int`. -/
theorem not_intMeaning_sumOfConstants :
  analyzeExprExpected [] [] ⟨0, false⟩ sumOfConstants none = .ok sumOfConstants ∧
    IsInt sumOfConstants ∧
    exactInt int64Names xIsLarge [] sumOfConstants = some 4000000000 ∧
    (emitExpr [] sumOfConstants).evalInt int64Names xIsLarge = none ∧
    ¬ IntMeaning int64Names xIsLarge [] sumOfConstants 4000000000
  := by
  have hnone : (emitExpr [] sumOfConstants).evalInt int64Names xIsLarge = none := by decide
  refine ⟨rfl, ?_, by decide, hnone, ?_⟩
  · simp [sumOfConstants, IsInt, Expr.checkedType, Expr.info, Info.ofType]
  · rintro ⟨heval, _⟩
    rw [hnone] at heval
    cases heval

end Caster
