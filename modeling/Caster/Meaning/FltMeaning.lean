import Caster.Meaning.Arithmetic

/-!
# The meaning of `FLT` arithmetic

Which arithmetic expressions are emitted with their meaning: exactly those none of whose
`FLT` literals is printed as an integer constant or as no constant at all.
-/

namespace Caster

variable {I F : Type} {A : CArithmetic I F} {env : CExpr → Option (CVal I F)} {types : TypeTable}
variable {scope : Scope}

/-! ### Literals -/

/-- A literal printed as a double denotes its value. -/
theorem constant_of_printsAsFlt {value : Magnitude} (h : PrintsAsFlt value) :
  constant A value = some (.flt (A.ofBinary64 value))
  := by
  obtain ⟨x, rfl, hwhole⟩ := h
  rw [← Binary64.printG_isInteger_iff] at hwhole
  rw [constant, if_neg hwhole, Binary64.ofRat_printG]

/-- A literal that denotes a double was printed as one. -/
theorem printsAsFlt_of_constant {value : Magnitude} {x : F} (h : constant A value = some (.flt x)) :
  PrintsAsFlt value
  := by
  cases value with
  | infinite => cases h
  | finite y =>
    refine ⟨y, rfl, ?_⟩
    rw [← Binary64.printG_isInteger_iff]
    intro hinteger
    rw [constant, if_pos hinteger] at h
    cases h

/-! ### One node -/

attribute [local simp] denote CExpr.eval emitExpr

variable (A env types) in
/-- A node of a type that arithmetic reads is emitted with its value. -/
def Agrees (node : Expr) : Prop :=
  isNumericType node.checkedType || isRefType node.checkedType →
    ∃ v, denote A env node = some v ∧ CExpr.eval A env (emitExpr types node) = some v ∧
      HasType v node.checkedType

theorem agrees_int (info : Info) (value : ℤ) :
  Agrees A env types (.int { info with checkedType := .INT } value)
  := by
  intro _
  exact ⟨.int (A.ofConst value), rfl, rfl, .int _⟩

theorem agrees_flt (info : Info) {value : Magnitude} (h : PrintsAsFlt value) :
  Agrees A env types (.flt { info with checkedType := .FLT } value)
  := by
  intro _
  exact ⟨.flt (A.ofBinary64 value), rfl, constant_of_printsAsFlt h, .flt _⟩

theorem agrees_name {info : Info} {name : String} {e : Expr} (henv : HoldsTypes A env types scope)
    (h : analyzeName types scope info name = .ok e) :
  Agrees A env types e
  := by
  intro _
  obtain ⟨v, heval, htype⟩ := henv info name e h
  obtain ⟨info', rfl⟩ := analyzeName_isName h
  exact ⟨v, heval, heval, htype⟩

/-- Reading through a reference agrees when the reference does. -/
theorem agrees_wrap {e : Expr} (h : Agrees A env types e) (href : isRefType e.checkedType) :
  Agrees A env types (wrapExprAsImplicitDeref e e.checkedType)
  := by
  intro _
  obtain ⟨v, hdenote, heval, htype⟩ := h (by simp [href])
  cases htarget : e.checkedType with
  | REF target =>
    rw [htarget] at htype
    obtain ⟨w, rfl, hw⟩ := htype.ref_inv
    refine ⟨w, ?_, ?_, hw⟩
    · simp [wrapExprAsImplicitDeref, denote, hdenote]
    · simp [wrapExprAsImplicitDeref, emitExpr, CExpr.eval, heval]
  | _ =>
    rw [htarget] at href
    cases href

theorem agrees_neg {info : Info} {e : Expr} {type : Ty} (h : Agrees A env types e)
    (htype : analyzeNegation e.checkedType = .ok type) :
  Agrees A env types (.unary { info with checkedType := type } .neg e)
  := by
  intro _
  obtain ⟨rfl, hnum⟩ := analyzeNegation_ok htype
  obtain ⟨v, hdenote, heval, hv⟩ := h (by simp [hnum])
  have hemit : emitExpr types (.unary { info with checkedType := e.checkedType } .neg e) =
      .unary "-" (emitExpr types e) := rfl
  rw [hemit]
  rcases numeric_cases hnum with hint | hflt
  · rw [hint] at hv
    obtain ⟨i, rfl⟩ := hv.int_inv
    refine ⟨.int (A.negInt i), ?_, ?_, ?_⟩
    · simp [denote, hint, hdenote, asInt]
    · simp [CExpr.eval, heval, negate]
    · change HasType _ e.checkedType
      rw [hint]
      exact .int _
  · rw [hflt] at hv
    obtain ⟨x, rfl⟩ := hv.flt_inv
    refine ⟨.flt (A.negFlt x), ?_, ?_, ?_⟩
    · simp [denote, hflt, hdenote, asFlt]
    · simp [CExpr.eval, heval, negate]
    · change HasType _ e.checkedType
      rw [hflt]
      exact .flt _

/-- A number of a numeric type converts to a double. -/
theorem asFlt_of_hasType {v : CVal I F} {type : Ty} (h : HasType v type) (hnum : isNumericType type) :
  ∃ x, asFlt A v = some x
  := by
  rcases numeric_cases hnum with rfl | rfl
  · obtain ⟨i, rfl⟩ := h.int_inv
    exact ⟨A.toFlt i, rfl⟩
  · obtain ⟨x, rfl⟩ := h.flt_inv
    exact ⟨x, rfl⟩

/-- C takes the operation of the doubles as soon as one operand is one. -/
theorem operate_flt {op : BinaryOp} {a b : CVal I F} {left right : Ty} {x y : F}
    (ha : HasType a left) (hb : HasType b right) (hflt : left = .FLT ∨ right = .FLT)
    (hx : asFlt A a = some x) (hy : asFlt A b = some y) (hop : op.text ≠ "%") :
  operate A op.text a b = some (.flt (A.opFlt op.text x y))
  := by
  rcases hflt with rfl | rfl
  · obtain ⟨u, rfl⟩ := ha.flt_inv
    unfold operate
    simp [hop, hx, hy]
  · obtain ⟨w, rfl⟩ := hb.flt_inv
    unfold operate
    simp [hop, hx, hy]

theorem agrees_binary {info : Info} {op : BinaryOp} {left right : Expr} {type : Ty}
    (hleft : Agrees A env types left) (hright : Agrees A env types right) (hop : isArithmeticOp op)
    (htype : analyzeArithmetic op left.checkedType right.checkedType = .ok type) :
  Agrees A env types (.binary { info with checkedType := type } op left right)
  := by
  intro _
  obtain ⟨hnl, hnr, hcases⟩ := analyzeArithmetic_ok htype
  obtain ⟨a, hda, hea, hta⟩ := hleft (by simp [hnl])
  obtain ⟨b, hdb, heb, htb⟩ := hright (by simp [hnr])
  have hresult : isNumericType type := by
    rcases hcases with ⟨rfl, _⟩ | ⟨rfl, _⟩ <;> rfl
  rw [emit_arithmetic hop hresult hnl]
  change ∃ v, _ ∧ _ ∧ HasType v type
  rcases hcases with ⟨rfl, hl, hr⟩ | ⟨rfl, hflt, hmod⟩
  · rw [hl] at hta
    rw [hr] at htb
    obtain ⟨i, rfl⟩ := hta.int_inv
    obtain ⟨j, rfl⟩ := htb.int_inv
    refine ⟨.int (A.opInt op.text i j), ?_, ?_, .int _⟩
    · simp [denote, hda, hdb, asInt]
    · simp [CExpr.eval, hea, heb, operate]
  · obtain ⟨x, hx⟩ := asFlt_of_hasType (A := A) hta hnl
    obtain ⟨y, hy⟩ := asFlt_of_hasType (A := A) htb hnr
    have htext : op.text ≠ "%" := by
      cases op <;> first | exact absurd rfl hmod | decide
    refine ⟨.flt (A.opFlt op.text x y), ?_, ?_, .flt _⟩
    · simp [denote, hda, hdb, hx, hy]
    · simp [CExpr.eval, hea, heb, operate_flt hta htb hflt hx hy htext]

/-! ### The analyzed tree -/

variable (A env types) in
/-- Every node of a tree agrees. -/
def AllAgree (e : Expr) : Prop := ∀ node ∈ arithmeticNodes e, Agrees A env types node

theorem mem_arithmeticNodes_self (e : Expr) :
  e ∈ arithmeticNodes e
  := by
  cases e <;> simp [arithmeticNodes]

theorem allAgree_leaf {e : Expr} (hleaf : arithmeticNodes e = [e]) (h : Agrees A env types e) :
  AllAgree A env types e
  := by
  intro node hnode
  rw [hleaf, List.mem_singleton] at hnode
  rw [hnode]
  exact h

theorem allAgree_wrap {e : Expr} (h : AllAgree A env types e) (href : isRefType e.checkedType) :
  AllAgree A env types (wrapExprAsImplicitDeref e e.checkedType)
  := by
  intro node hnode
  rcases List.mem_cons.mp hnode with rfl | hnode
  · exact agrees_wrap (h e (mem_arithmeticNodes_self e)) href
  · exact h node hnode

theorem allAgree_read (n : ℕ) {e : Expr} (h : AllAgree A env types e) :
  AllAgree A env types (implicitRefReadValue^[n] e)
  := by
  induction n generalizing e with
  | zero => exact h
  | succ n ih =>
    rw [Function.iterate_succ_apply]
    apply ih
    unfold implicitRefReadValue
    split
    · rename_i href
      exact allAgree_wrap h href
    · exact h

theorem arithmeticNodes_read (n : ℕ) {e node : Expr} (h : node ∈ arithmeticNodes e) :
  node ∈ arithmeticNodes (implicitRefReadValue^[n] e)
  := by
  induction n generalizing e with
  | zero => exact h
  | succ n ih =>
    rw [Function.iterate_succ_apply]
    apply ih
    unfold implicitRefReadValue
    split
    · exact List.mem_cons_of_mem _ h
    · exact h

/-- An accepted arithmetic expression whose literals are printed as doubles agrees with its
text at every node.  At a position of type `FLT` an `INT` literal is left to its position. -/
theorem allAgree_of_literals (henv : HoldsTypes A env types scope) {ctx : AnalyzeCtx} (e : Expr)
    {e' : Expr} {expected : Option Ty} (he : isArithmetic e)
    (h : analyzeExprExpected types scope ctx e expected = .ok e')
    (hlits : ∀ value ∈ fltLiterals e, PrintsAsFlt value)
    (hint : expected = some .FLT → isIntLiteral e = false) :
  AllAgree A env types e'
  := by
  induction e, he using isArithmetic_induction generalizing e' expected with
  | int info value =>
    cases h
    have hne : expected ≠ some .FLT := by
      intro heq
      cases hint heq
    rw [if_neg hne]
    exact allAgree_leaf rfl (agrees_int info value)
  | flt info value =>
    cases h
    exact allAgree_leaf rfl (agrees_flt info (hlits value (List.mem_singleton_self value)))
  | name info name =>
    obtain ⟨a, ha, he'⟩ := analyzeExprExpected_name h
    obtain ⟨info', rfl⟩ := analyzeName_isName ha
    have hagree := allAgree_leaf rfl (agrees_name henv ha)
    rcases he' with rfl | ⟨href, rfl⟩
    · exact hagree
    · exact allAgree_wrap hagree href
  | neg info e _ ih =>
    obtain ⟨a, type, ha, htype, rfl⟩ := analyzeExprExpected_neg h
    have hagree := allAgree_read 1 (ih ha hlits (by simp))
    intro node hnode
    rcases List.mem_cons.mp hnode with rfl | hnode
    · exact agrees_neg (hagree _ (mem_arithmeticNodes_self _)) htype
    · exact hagree node hnode
  | binary info op left right _ _ _ ihLeft ihRight =>
    obtain ⟨hop, l, r, type, m, n, hl, hr, rfl, htype⟩ := analyzeExprExpected_binary h
    have hleft := allAgree_read m (ihLeft hl
      (fun value hvalue => hlits value (List.mem_append_left _ hvalue)) (by simp))
    have hright := allAgree_read n (ihRight hr
      (fun value hvalue => hlits value (List.mem_append_right _ hvalue)) (by simp))
    intro node hnode
    rcases List.mem_cons.mp hnode with rfl | hnode
    · rcases htype with ⟨rfl, _⟩ | htype
      · intro hnum
        cases hnum
      · exact agrees_binary (hleft _ (mem_arithmeticNodes_self _))
          (hright _ (mem_arithmeticNodes_self _)) hop htype
    · rcases List.mem_append.mp hnode with hnode | hnode
      · exact hleft node hnode
      · exact hright node hnode

/-- The `FLT` literals of an expression are `FLT` nodes of its analysis. -/
theorem literal_mem_nodes {ctx : AnalyzeCtx} {value : Magnitude} (e : Expr) {e' : Expr}
    {expected : Option Ty} (he : isArithmetic e)
    (h : analyzeExprExpected types scope ctx e expected = .ok e') (hmem : value ∈ fltLiterals e) :
  ∃ info, info.checkedType = .FLT ∧ .flt info value ∈ arithmeticNodes e'
  := by
  induction e, he using isArithmetic_induction generalizing e' expected with
  | int | name => cases hmem
  | flt info literal =>
    cases h
    rw [fltLiterals, List.mem_singleton] at hmem
    subst hmem
    exact ⟨{ info with checkedType := .FLT }, rfl, List.mem_singleton_self _⟩
  | neg info e _ ih =>
    obtain ⟨a, type, ha, _, rfl⟩ := analyzeExprExpected_neg h
    obtain ⟨info', htype, hnode⟩ := ih ha hmem
    exact ⟨info', htype, List.mem_cons_of_mem _ (arithmeticNodes_read 1 hnode)⟩
  | binary info op left right _ _ _ ihLeft ihRight =>
    obtain ⟨_, l, r, type, m, n, hl, hr, rfl, _⟩ := analyzeExprExpected_binary h
    rcases List.mem_append.mp hmem with hmem | hmem
    · obtain ⟨info', htype, hnode⟩ := ihLeft hl hmem
      exact ⟨info', htype,
        List.mem_cons_of_mem _ (List.mem_append_left _ (arithmeticNodes_read m hnode))⟩
    · obtain ⟨info', htype, hnode⟩ := ihRight hr hmem
      exact ⟨info', htype,
        List.mem_cons_of_mem _ (List.mem_append_right _ (arithmeticNodes_read n hnode))⟩

/-- An accepted arithmetic expression is emitted with its meaning, every `FLT` node as an
operation on doubles, exactly when each of its `FLT` literals is printed as a double. -/
theorem fltMeaning_iff (henv : HoldsTypes A env types scope) {ctx : AnalyzeCtx} {e e' : Expr}
    {expected : Option Ty} (he : isArithmetic e)
    (h : analyzeExprExpected types scope ctx e expected = .ok e') :
  FltMeaning A env types e' ↔ ∀ value ∈ fltLiterals e, PrintsAsFlt value
  := by
  constructor
  · intro hmeaning value hvalue
    obtain ⟨info, htype, hnode⟩ := literal_mem_nodes e he h hvalue
    obtain ⟨x, _, heval⟩ := hmeaning _ hnode htype
    rcases heval with heval | ⟨hint, _⟩
    · exact printsAsFlt_of_constant heval
    · cases hint
  · intro hlits
    by_cases hint : expected = some .FLT ∧ isIntLiteral e
    · obtain ⟨rfl, hint⟩ := hint
      cases e with
      | int info value =>
        cases h
        intro node hnode _
        obtain rfl := List.mem_singleton.mp hnode
        refine ⟨A.toFlt (A.ofConst value), ?_, Or.inr ⟨rfl, rfl⟩⟩
        simp [denote]
      | _ => cases hint
    · have hagree := allAgree_of_literals henv e he h hlits (by
        intro heq
        simpa [heq] using hint)
      intro node hnode htype
      obtain ⟨v, hdenote, heval, hv⟩ := hagree node hnode (by rw [htype]; rfl)
      rw [htype] at hv
      obtain ⟨x, rfl⟩ := hv.flt_inv
      exact ⟨x, hdenote, Or.inl heval⟩

/-- Exact arithmetic on the integers and the rationals. -/
def exactArithmetic : CArithmetic ℤ ℚ where
  ofConst := id
  ofBinary64
    | .finite x => x.toRat
    | .infinite => 0
  toFlt := Int.cast
  negInt := Int.neg
  negFlt := Rat.neg
  opInt op a b :=
    if op = "+" then a + b else if op = "-" then a - b else if op = "*" then a * b
    else if op = "/" then a.tdiv b else a.tmod b
  opFlt op a b :=
    if op = "+" then a + b else if op = "-" then a - b else if op = "*" then a * b else a / b

/-- The expression `1.5 * x`. -/
def scaledName : Expr :=
  .binary (Info.ofType .unknown) .mul
    (.flt (Info.ofType .unknown) (.finite ⟨3 * 2 ^ 51, -52, by decide⟩))
    (.name (Info.ofType .unknown) "x")

/-- The analysis of `1.5 * x` where `x` is an `INT`. -/
def scaledNameAnalyzed : Expr :=
  .binary (Info.ofType .FLT) .mul
    (.flt (Info.ofType .FLT) (.finite ⟨3 * 2 ^ 51, -52, by decide⟩))
    (.name (Info.ofType .INT) "x")

theorem holdsTypes_scaledName :
  HoldsTypes exactArithmetic (fun _ => some (.int 4)) [] [[Symbol.fresh "x" .INT]]
  := by
  intro info name e h
  refine ⟨.int 4, ?_, ?_⟩
  · obtain ⟨info', rfl⟩ := analyzeName_isName h
    unfold analyzeName at h
    by_cases hname : "x" = name
    · subst hname
      cases h
      rfl
    · simp [scopeTryResolve, scopeLookupCurrent, Symbol.fresh, hname, typeFind] at h
  · unfold analyzeName at h
    by_cases hname : "x" = name
    · subst hname
      cases h
      exact .int 4
    · simp [scopeTryResolve, scopeLookupCurrent, Symbol.fresh, hname, typeFind] at h

theorem printsAsFlt_scaledName :
  ∀ value ∈ fltLiterals scaledName, PrintsAsFlt value
  := by
  intro value hvalue
  simp only [scaledName, fltLiterals, List.append_nil, List.mem_singleton] at hvalue
  refine ⟨_, hvalue, ?_⟩
  rintro ⟨n, _, hn⟩
  have hdouble : (2 * n : ℚ) = 3 := by
    rw [← hn]
    norm_num [Binary64.toRat]
  have hnat : 2 * n = 3 := by exact_mod_cast hdouble
  omega

theorem fltMeaning_scaledName :
  FltMeaning exactArithmetic (fun _ => some (.int 4)) [] scaledNameAnalyzed
  := by
  have h : analyzeExprExpected [] [[Symbol.fresh "x" .INT]] ⟨0, false⟩ scaledName none =
      .ok scaledNameAnalyzed := rfl
  exact (fltMeaning_iff holdsTypes_scaledName rfl h).mpr printsAsFlt_scaledName

/-- The expression `1.0 / 2.0` with its types. -/
def halfAnalyzed : Expr :=
  .binary (Info.ofType .FLT) .div
    (.flt (Info.ofType .FLT) (.finite ⟨2 ^ 52, -52, by decide⟩))
    (.flt (Info.ofType .FLT) (.finite ⟨2 ^ 52, -51, by decide⟩))

/-- The text of `1.0 / 2.0` is an integer division, of type `FLT` though it is. -/
theorem not_fltMeaning_half :
  analyzeExprExpected [] [] ⟨0, false⟩ halfAnalyzed none = .ok halfAnalyzed ∧
    CExpr.eval exactArithmetic (fun _ => none) (emitExpr [] halfAnalyzed) = some (.int 0) ∧
    ¬ FltMeaning exactArithmetic (fun _ => none) [] halfAnalyzed
  := by
  have hone : Numeral.printG 17 (Binary64.toRat ⟨2 ^ 52, -52, by decide⟩) = ⟨1, [], none⟩ := by
    rw [← Numeral.printG_natCast (p := 17) (n := 1) (by decide) (by decide)]
    norm_num [Binary64.toRat]
  have htwo : Numeral.printG 17 (Binary64.toRat ⟨2 ^ 52, -51, by decide⟩) = ⟨2, [], none⟩ := by
    rw [← Numeral.printG_natCast (p := 17) (n := 2) (by decide) (by decide)]
    norm_num [Binary64.toRat]
  have heval : CExpr.eval exactArithmetic (fun _ => none) (emitExpr [] halfAnalyzed) =
      some (.int 0) := by
    have hemit : emitExpr [] halfAnalyzed =
        .binary "/" (.fltConst (.finite ⟨2 ^ 52, -52, by decide⟩))
          (.fltConst (.finite ⟨2 ^ 52, -51, by decide⟩)) := rfl
    rw [hemit]
    simp only [CExpr.eval, constant, hone, htwo]
    rfl
  refine ⟨rfl, heval, ?_⟩
  intro h
  obtain ⟨x, _, hx⟩ := h halfAnalyzed (mem_arithmeticNodes_self _) rfl
  rcases hx with hx | ⟨hint, _⟩
  · rw [heval] at hx
    cases hx
  · cases hint

end Caster
