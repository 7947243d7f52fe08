import Caster.Analyze.Expressions
import Caster.Emit.Expr
import Caster.CType

/-!
# The C types of dots

The analyzer and the emitter both split on the receiver of a dot and on the form of its
access.  For which dots the C type of the emitted expression is the one of the type the
analyzer recorded: a key that is known of an open map is typed by its fact, while the
emitter reads a boxed value, and some field types have no unboxing function.

The table may be opened further after an expression was analyzed, and the emitter sees the
table after that.
-/

namespace Caster

/-! ### The statement -/

/-- The dots of an expression. -/
def dotNodes : Expr → List Expr
  | .dot info object name => .dot info object name :: dotNodes object
  | .dotIndex info object index => .dotIndex info object index :: (dotNodes object ++ dotNodes index)
  | .dotTarget info object target =>
    .dotTarget info object target :: (dotNodes object ++ dotNodes target)
  | .unary _ _ e => dotNodes e
  | .binary _ _ left right => dotNodes left ++ dotNodes right
  | _ => []

/-- The C type of the text emitted for a node is the one of the type recorded on it. -/
def TypeAgrees (final : TypeTable) (declared : String → Option CType) (node : Expr) : Prop :=
  (emitExpr final node).typeOf final declared = some (ctype final node.checkedType)

/-- The C declarations of what the symbols of a scope are emitted as. -/
structure DeclaredScope (types final : TypeTable) (scope : Scope)
    (declared : String → Option CType) : Prop where
  symbol : ∀ name sym, scopeTryResolve scope name = some sym → isLoopCtxType sym.type = false →
    (sym.cExpr.getD (.ident name)).typeOf final declared = some (ctype final sym.type)
  index : ∀ name sym c, scopeTryResolve scope name = some sym → sym.ctxIndex = some c →
    c.typeOf final declared = some .integer
  element : ∀ name sym c, scopeTryResolve scope name = some sym → sym.ctxElement = some c →
    c.typeOf final declared =
      some (ctype final (sym.ctxElementType.getD (loopCtxElementType sym.type)))
  named : ∀ info name e, scopeTryResolve scope name = none →
    analyzeName types scope info name = .ok e → TypeAgrees final declared e

/-- The types whose expressions are followed: those that a receiver or a key has. -/
def IsPlain (type : Ty) : Prop := type ≠ .FLT ∧ type ≠ .NUL ∧ isLoopCtxType type = false

/-- The receivers and keys for which analyzer and emitter agree on the type of a dot. -/
def DotAgrees (types final : TypeTable) (scope : Scope) : Expr → Prop
  | .dot info object name =>
    info.cExpr.isSome ∨ (isOpenStructType final object.checkedType →
      ∀ field, structField final object.checkedType name = some field →
        hasObjAs final field.declaredType)
  | .dotTarget _ object key =>
    match object.checkedType with
    | .MAP keyType _ => keyType = .STR
    | .OPEN => (keyFact types scope object key).getD .OBJ = .OBJ
    | type => isOpenStructType types type →
      (keyFact types scope object key).getD .OBJ = .OBJ ∨
        hasObjAs final ((keyFact types scope object key).getD .OBJ)
  | _ => True

/-! ### C types -/

attribute [local simp] CExpr.typeOf CFun.signature

variable {types final : TypeTable} {scope : Scope} {declared : String → Option CType}

theorem ctype_eq_FLX_OBJ {type : Ty} (h : ctype final type = .FLX_OBJ) :
  type = .OBJ
  := by
  cases type with
  | OBJ => rfl
  | named name =>
    unfold ctype at h
    split at h
    · cases h
    · split at h <;> cases h
  | _ => cases h

theorem ctype_openStruct {type : Ty} (h : isOpenStructType final type) :
  ctype final type = .FLX_OBJMAP
  := by
  cases type with
  | named name => rw [ctype, if_pos h]
  | _ => cases h

theorem ctype_struct {name : String} (hopen : ¬ isOpenStructType final (.named name))
    (hstruct : isStructType final (.named name)) :
  ctype final (.named name) = .handle (.named name)
  := by
  rw [ctype, if_neg hopen, if_pos hstruct]

/-- Only fixed `MAP`s have fields. -/
theorem structField_named {type : Ty} {name : String} {field : Field}
    (h : structField types type name = some field) :
  isStructType types type ∧ ∃ typeName, type = .named typeName
  := by
  cases type with
  | named typeName =>
    refine ⟨?_, typeName, rfl⟩
    unfold structField at h
    unfold isStructType
    cases hs : structOf types (.named typeName) with
    | none => simp [hs] at h
    | some _ => rfl
  | _ => cases h

/-! ### One access -/

theorem typeOf_emitObjGetTyped {type : Ty} {object key : CExpr}
    (hobject : object.typeOf final declared = some .FLX_OBJMAP)
    (hkey : key.typeOf final declared = some .FLX_STR) (htype : hasObjAs final type) :
  (emitObjGetTyped type object key).typeOf final declared = some (ctype final type)
  := by
  simp [emitObjGetTyped, CExpr.typeOf, CFun.signature, hobject, hkey, htype]

/-- Without an unboxing function the text has no type. -/
theorem hasObjAs_of_typeOf {type : Ty} {object key : CExpr} {t : CType}
    (h : (emitObjGetTyped type object key).typeOf final declared = some t) :
  hasObjAs final type
  := by
  by_contra hnot
  simp [emitObjGetTyped, CExpr.typeOf, CFun.signature, hnot] at h

/-- The value of a key of an open map is boxed. -/
theorem typeOf_objmapGet {object key : CExpr} {t : CType}
    (h : (CExpr.call .flx_objmap_get [object, key]).typeOf final declared = some t) :
  t = .FLX_OBJ
  := by
  simp only [CExpr.typeOf, CFun.signature] at h
  split at h
  · rename_i hsig _ _
    simp only [Option.some.injEq, Prod.mk.injEq] at hsig
    obtain ⟨_, rfl⟩ := hsig
    split at h
    · cases h
      rfl
    · cases h
  · cases h

theorem typeOf_objmapGet_of {object key : CExpr}
    (hobject : object.typeOf final declared = some .FLX_OBJMAP)
    (hkey : key.typeOf final declared = some .FLX_STR) :
  (CExpr.call .flx_objmap_get [object, key]).typeOf final declared = some .FLX_OBJ
  := by
  simp [CExpr.typeOf, CFun.signature, hobject, hkey]

theorem typeOf_mapGet {type : Ty} {object key : CExpr} {t : CType}
    (h : (CExpr.call (.mapGet type) [object, key]).typeOf final declared = some t) :
  ∃ value, type = .MAP .STR value
  := by
  simp only [CExpr.typeOf] at h
  split at h
  · rename_i hsig _ _
    unfold CFun.signature at hsig
    split at hsig <;> simp_all
  · cases h

theorem typeOf_mapGet_of {value : Ty} {object key : CExpr}
    (hobject : object.typeOf final declared = some (.handle (.MAP .STR value)))
    (hkey : key.typeOf final declared = some .FLX_STR) :
  (CExpr.call (.mapGet (.MAP .STR value)) [object, key]).typeOf final declared =
    some (ctype final value)
  := by
  simp [CExpr.typeOf, CFun.signature, hobject, hkey, ctype]

/-! ### One dot -/

/-- The text of a name dot on a fixed `MAP`. -/
theorem emitNameDot_struct {type : Ty} {object : CExpr} {name : String} {field : Field}
    (h : structField final type name = some field) :
  emitNameDot final type object name =
    if isOpenStructType final type then emitObjGetTyped field.declaredType object (.strLit name)
    else .member object name
  := by
  obtain ⟨_, typeName, rfl⟩ := structField_named h
  unfold emitNameDot
  rw [if_neg (by simp), h]

/-- The text of a computed key on a fixed `MAP` that is open at runtime. -/
theorem emitTargetDot_openStruct {type objectType : Ty} {object target : CExpr}
    (h : isOpenStructType final objectType) :
  emitTargetDot final type objectType object target =
    if type = .OBJ then .call .flx_objmap_get [object, target] else emitObjGetTyped type object target
  := by
  cases objectType with
  | named name => simp [emitTargetDot, isMapType, h]
  | _ => cases h

/-- What a key on a fixed `MAP` is required of. -/
theorem dotAgrees_openStruct {info : Info} {object key : Expr}
    (h : isOpenStructType types object.checkedType) :
  DotAgrees types final scope (.dotTarget info object key) ↔
    ((keyFact types scope object key).getD .OBJ = .OBJ ∨
      hasObjAs final ((keyFact types scope object key).getD .OBJ))
  := by
  cases htype : object.checkedType with
  | named name =>
    rw [htype] at h
    simp [DotAgrees, htype, h]
  | _ =>
    rw [htype] at h
    cases h

/-- Where the C type is the recorded one, receiver and key are as they should be. -/
theorem dotAgrees_of_typeAgrees (hopens : OpensTo types final) {keys : Expr → Prop} {info : Info}
    {object node : Expr} (hdot : AnalyzedDot types scope keys info object node)
    (h : TypeAgrees final declared node) :
  DotAgrees types final scope node
  := by
  unfold TypeAgrees at h
  cases hdot with
  | loopIndex => exact Or.inl rfl
  | loopElement => exact Or.inl rfl
  | field name field hfield =>
    right
    intro hopen field' hfield'
    rw [hopens.structField] at hfield'
    obtain rfl : field' = field := by
      rw [hfield] at hfield'
      exact (Option.some.inj hfield').symm
    change (emitNameDot final object.checkedType _ name).typeOf final declared = _ at h
    rw [emitNameDot_struct (by rw [hopens.structField]; exact hfield), if_pos hopen] at h
    exact hasObjAs_of_typeOf h
  | arr => trivial
  | str => trivial
  | objIndex => trivial
  | objKey key htype =>
    simp only [DotAgrees, htype]
    intro hopen
    cases hopen
  | map keyType value key htype =>
    change (emitTargetDot final value object.checkedType _ _).typeOf final declared = _ at h
    simp only [DotAgrees, htype]
    rw [htype] at h
    obtain ⟨value', hmap⟩ := typeOf_mapGet (by simpa [emitTargetDot, isMapType] using h)
    cases hmap
    rfl
  | openKey key hopen =>
    change (emitTargetDot final ((keyFact types scope object key).getD .OBJ) object.checkedType _
      _).typeOf final declared = some (ctype final ((keyFact types scope object key).getD .OBJ)) at h
    rcases hopen with hopen | htype
    · rw [dotAgrees_openStruct hopen]
      rw [emitTargetDot_openStruct (hopens.isOpen _ hopen)] at h
      by_cases hobj : (keyFact types scope object key).getD .OBJ = .OBJ
      · exact Or.inl hobj
      · right
        rw [if_neg hobj] at h
        exact hasObjAs_of_typeOf h
    · simp only [DotAgrees, htype]
      rw [htype] at h
      exact ctype_eq_FLX_OBJ (typeOf_objmapGet (by simpa [emitTargetDot, isMapType] using h))

/-- The dots of a key follow the dot and those of its receiver. -/
theorem subset_dotNodes {object key : Expr} (node : Expr) :
  dotNodes key ⊆ node :: (dotNodes object ++ dotNodes key)
  := fun _ hn => List.mem_cons_of_mem _ (List.mem_append_right _ hn)

/-- Where receiver and key are as they should be, the C type is the recorded one. -/
theorem typeAgrees_of_dotAgrees (hopens : OpensTo types final)
    (hdecl : DeclaredScope types final scope declared) {keys : Expr → Prop} {info : Info}
    {object node : Expr} (hdot : AnalyzedDot types scope keys info object node)
    (hname : ∀ info' name sym, object = .name info' name → scopeTryResolve scope name = some sym →
      object.checkedType = sym.type)
    (hobject : IsPlain object.checkedType → TypeAgrees final declared object)
    (hkeys : ∀ key, keys key → dotNodes key ⊆ dotNodes node → IsPlain key.checkedType →
      TypeAgrees final declared key)
    (h : DotAgrees types final scope node) :
  TypeAgrees final declared node
  := by
  unfold TypeAgrees at hobject hkeys
  cases hdot with
  | loopIndex sym c objectName name hsym hc => exact hdecl.index objectName sym c hsym hc
  | loopElement sym c info' objectName name hsym hc hobj =>
    have hc := hdecl.element objectName sym c hsym hc
    rw [← hname info' objectName sym hobj hsym] at hc
    exact hc
  | field name field hfield =>
    obtain ⟨hstruct, typeName, htype⟩ := structField_named hfield
    have hfinal : structField final object.checkedType name = some field := by
      rw [hopens.structField]
      exact hfield
    have hplain := hobject (by simp [IsPlain, htype, isLoopCtxType])
    change (emitNameDot final object.checkedType _ name).typeOf final declared = _
    rw [emitNameDot_struct hfinal]
    by_cases hopen : isOpenStructType final object.checkedType
    · rw [if_pos hopen]
      rw [ctype_openStruct hopen] at hplain
      apply typeOf_emitObjGetTyped hplain rfl
      exact (h.resolve_left (by simp [Info.typed])) hopen field hfinal
    · rw [if_neg hopen]
      obtain ⟨hstructFinal, _⟩ := structField_named hfinal
      rw [htype] at hplain hopen hstructFinal hfinal
      rw [ctype_struct hopen hstructFinal] at hplain
      simp [CExpr.typeOf, hplain, memberType, hfinal, Info.typed, Expr.checkedType, Expr.info]
  | arr elem index htype hkey hindex =>
    have hplain := hobject (by simp [IsPlain, htype, isLoopCtxType])
    have hint := hkeys index hkey (subset_dotNodes _) (by simp [IsPlain, hindex, isLoopCtxType])
    change (emitIndexDot object.checkedType _ _).typeOf final declared = some (ctype final elem)
    rw [htype] at hplain ⊢
    rw [hindex] at hint
    simp [emitIndexDot, CExpr.typeOf, hplain, hint, ctype, memberType]
  | str index htype hkey hindex =>
    have hplain := hobject (by simp [IsPlain, htype, isLoopCtxType])
    have hint := hkeys index hkey (subset_dotNodes _) (by simp [IsPlain, hindex, isLoopCtxType])
    change (emitIndexDot object.checkedType _ _).typeOf final declared = some .FLX_STR
    rw [htype] at hplain ⊢
    rw [hindex] at hint
    simp [emitIndexDot, CExpr.typeOf, CFun.signature, hplain, hint, ctype]
  | objIndex index htype hkey hindex =>
    have hplain := hobject (by simp [IsPlain, htype, isLoopCtxType])
    have hint := hkeys index hkey (subset_dotNodes _) (by simp [IsPlain, hindex, isLoopCtxType])
    change (emitIndexDot object.checkedType _ _).typeOf final declared = some .FLX_OBJ
    rw [htype] at hplain ⊢
    rw [hindex] at hint
    simp [emitIndexDot, CExpr.typeOf, CFun.signature, hplain, hint, ctype]
  | objKey key htype hkey hstr =>
    have hplain := hobject (by simp [IsPlain, htype, isLoopCtxType])
    have hstring := hkeys key hkey (subset_dotNodes _) (by simp [IsPlain, hstr, isLoopCtxType])
    change (emitTargetDot final .OBJ object.checkedType _ _).typeOf final declared = some .FLX_OBJ
    rw [htype] at hplain ⊢
    rw [hstr] at hstring
    simp [emitTargetDot, CExpr.typeOf, CFun.signature, hplain, hstring, ctype]
  | map keyType value key htype hkey hkeyType =>
    have hplain := hobject (by simp [IsPlain, htype, isLoopCtxType])
    obtain rfl : keyType = .STR := by simpa [DotAgrees, htype] using h
    have hstring := hkeys key hkey (subset_dotNodes _) (by simp [IsPlain, hkeyType, isLoopCtxType])
    change (emitTargetDot final value object.checkedType _ _).typeOf final declared =
      some (ctype final value)
    rw [htype] at hplain ⊢
    rw [hkeyType] at hstring
    exact typeOf_mapGet_of hplain hstring
  | openKey key hopen hkey hstr =>
    have hstring := hkeys key hkey (subset_dotNodes _) (by simp [IsPlain, hstr, isLoopCtxType])
    rw [hstr] at hstring
    change (emitTargetDot final ((keyFact types scope object key).getD .OBJ) object.checkedType _
      _).typeOf final declared = some (ctype final ((keyFact types scope object key).getD .OBJ))
    rcases hopen with hopen | htype
    · have hfinal := hopens.isOpen _ hopen
      have hplain : (emitExpr final object).typeOf final declared = some .FLX_OBJMAP := by
        rw [← ctype_openStruct hfinal]
        apply hobject
        cases htype : object.checkedType with
        | named name => simp [IsPlain, isLoopCtxType]
        | _ =>
          rw [htype] at hopen
          cases hopen
      rw [emitTargetDot_openStruct hfinal]
      by_cases hobj : (keyFact types scope object key).getD .OBJ = .OBJ
      · rw [if_pos hobj, hobj]
        exact typeOf_objmapGet_of hplain hstring
      · rw [if_neg hobj]
        exact typeOf_emitObjGetTyped hplain hstring
          (((dotAgrees_openStruct hopen).mp h).resolve_left hobj)
    · have hplain := hobject (by simp [IsPlain, htype, isLoopCtxType])
      have hobj : (keyFact types scope object key).getD .OBJ = .OBJ := by
        simpa [DotAgrees, htype] using h
      rw [hobj, htype]
      rw [htype] at hplain
      exact typeOf_objmapGet_of hplain hstring

/-! ### The analyzed tree -/

variable (final declared) in
/-- A tree whose dots have the recorded types, and so has the tree if it can be a receiver
or a key. -/
def Follows (e : Expr) : Prop :=
  (∀ node ∈ dotNodes e, TypeAgrees final declared node) ∧
    (IsPlain e.checkedType → TypeAgrees final declared e)

theorem dotNodes_read (n : ℕ) (e : Expr) :
  dotNodes (implicitRefReadValue^[n] e) = dotNodes e
  := by
  induction n generalizing e with
  | zero => rfl
  | succ n ih =>
    rw [Function.iterate_succ_apply, ih]
    unfold implicitRefReadValue
    split <;> rfl

theorem typeAgrees_wrap {e : Expr} (href : isRefType e.checkedType)
    (h : IsPlain e.checkedType → TypeAgrees final declared e) :
  TypeAgrees final declared (wrapExprAsImplicitDeref e e.checkedType)
  := by
  unfold TypeAgrees at h ⊢
  cases htype : e.checkedType with
  | REF target =>
    have hplain := h (by simp [IsPlain, htype, isLoopCtxType])
    rw [htype] at hplain
    simp [wrapExprAsImplicitDeref, emitExpr, CExpr.typeOf, hplain, ctype, Expr.checkedType, Expr.info,
      Info.ofType, refTargetType]
  | _ =>
    rw [htype] at href
    cases href

theorem follows_read (n : ℕ) {e : Expr} (h : Follows final declared e) :
  Follows final declared (implicitRefReadValue^[n] e)
  := by
  induction n generalizing e with
  | zero => exact h
  | succ n ih =>
    rw [Function.iterate_succ_apply]
    apply ih
    unfold implicitRefReadValue
    split
    · rename_i href
      exact ⟨h.1, fun _ => typeAgrees_wrap href h.2⟩
    · exact h

theorem follows_name (hdecl : DeclaredScope types final scope declared) {info : Info} {name : String}
    {e : Expr} (h : analyzeName types scope info name = .ok e) :
  Follows final declared e
  := by
  cases hsym : scopeTryResolve scope name with
  | some sym =>
    obtain rfl := analyzeName_symbol hsym h
    refine ⟨by simp [dotNodes], ?_⟩
    intro hplain
    exact hdecl.symbol name sym hsym hplain.2.2
  | none =>
    have hagree := hdecl.named info name e hsym h
    refine ⟨?_, fun _ => hagree⟩
    unfold analyzeName at h
    rw [hsym] at h
    simp only at h
    split at h
    · split at h
      · cases h
        simp [dotNodes]
      · cases h
    · cases h

/-- The keys a name computes with. -/
theorem follows_nameKey (hdecl : DeclaredScope types final scope declared) {name : String} {key : Expr}
    (h : NameKey scope name key) :
  Follows final declared key
  := by
  cases h with
  | ofLocal sym hsym =>
    refine ⟨by simp [localNode, dotNodes], ?_⟩
    intro hplain
    exact hdecl.symbol name sym hsym hplain.2.2
  | ofName => exact ⟨by simp [keyNode, dotNodes], fun _ => rfl⟩

/-- The dots of a dot are its own, its receiver's and its key's. -/
theorem mem_dotNodes {keys : Expr → Prop} {info : Info} {object node n : Expr}
    (h : AnalyzedDot types scope keys info object node) (hn : n ∈ dotNodes node) :
  n = node ∨ n ∈ dotNodes object ∨
    ∃ key, keys key ∧ dotNodes key ⊆ dotNodes node ∧ n ∈ dotNodes key
  := by
  cases h with
  | loopIndex | loopElement | field =>
    rcases List.mem_cons.mp hn with rfl | hn
    · exact Or.inl rfl
    · exact Or.inr (Or.inl hn)
  | arr _ key _ hkey | map _ _ key _ hkey =>
    rcases List.mem_cons.mp hn with rfl | hn
    · exact Or.inl rfl
    · exact Or.inr ((List.mem_append.mp hn).imp_right fun hk => ⟨key, hkey, subset_dotNodes _, hk⟩)
  | str key _ hkey | objIndex key _ hkey | objKey key _ hkey | openKey key _ hkey =>
    rcases List.mem_cons.mp hn with rfl | hn
    · exact Or.inl rfl
    · exact Or.inr ((List.mem_append.mp hn).imp_right fun hk => ⟨key, hkey, subset_dotNodes _, hk⟩)

theorem self_mem_dotNodes {keys : Expr → Prop} {info : Info} {object node : Expr}
    (h : AnalyzedDot types scope keys info object node) :
  node ∈ dotNodes node
  := by
  cases h <;> exact List.mem_cons_self

theorem object_subset_dotNodes {keys : Expr → Prop} {info : Info} {object node : Expr}
    (h : AnalyzedDot types scope keys info object node) :
  dotNodes object ⊆ dotNodes node
  := by
  intro n hn
  cases h with
  | loopIndex | loopElement | field => exact List.mem_cons_of_mem _ hn
  | _ => exact List.mem_cons_of_mem _ (List.mem_append_left _ hn)

/-- A dot follows when its receiver and its keys do. -/
theorem follows_dot (hopens : OpensTo types final)
    (hdecl : DeclaredScope types final scope declared) {keys : Expr → Prop} {info : Info}
    {object node : Expr} (hdot : AnalyzedDot types scope keys info object node)
    (hname : ∀ info' name sym, object = .name info' name → scopeTryResolve scope name = some sym →
      object.checkedType = sym.type)
    (hagrees : ∀ n ∈ dotNodes node, DotAgrees types final scope n)
    (hobject : (∀ n ∈ dotNodes object, DotAgrees types final scope n) → Follows final declared object)
    (hkeys : ∀ key, keys key → (∀ n ∈ dotNodes key, DotAgrees types final scope n) →
      Follows final declared key) :
  Follows final declared node
  := by
  have hfollows := hobject fun n hn => hagrees n (object_subset_dotNodes hdot hn)
  have hnode : TypeAgrees final declared node := by
    apply typeAgrees_of_dotAgrees hopens hdecl hdot hname hfollows.2
    · intro key hkey hsubset
      exact (hkeys key hkey fun n hn => hagrees n (hsubset hn)).2
    · exact hagrees node (self_mem_dotNodes hdot)
  refine ⟨?_, fun _ => hnode⟩
  intro n hn
  rcases mem_dotNodes hdot hn with rfl | hn | ⟨key, hkey, hsubset, hn⟩
  · exact hnode
  · exact hfollows.1 n hn
  · exact (hkeys key hkey fun n hn => hagrees n (hsubset hn)).1 n hn

/-- The type of a receiver that is a name. -/
theorem checkedType_of_name {ctx : AnalyzeCtx} {e a : Expr} {expected : Option Ty}
    (h : analyzeExprExpected types scope ctx e expected = .ok a) (info' : Info) (name : String)
    (sym : Symbol) (hname : implicitRefReadValue a = .name info' name)
    (hsym : scopeTryResolve scope name = some sym) :
  (implicitRefReadValue a).checkedType = sym.type
  := by
  unfold implicitRefReadValue at hname ⊢
  split at hname
  · cases hname
  · rename_i href
    rw [if_neg href]
    subst hname
    obtain ⟨info, original, hanalyze⟩ := analyzeExprExpected_eq_name h
    obtain ⟨info'', heq⟩ : ∃ info'', Expr.name info' name = .name info'' original :=
      analyzeName_isName hanalyze
    cases heq
    rw [analyzeName_symbol hsym hanalyze]
    rfl

theorem typeAgrees_neg {info : Info} {e : Expr} {type : Ty}
    (htype : analyzeNegation e.checkedType = .ok type) (hplain : IsPlain type)
    (h : IsPlain e.checkedType → TypeAgrees final declared e) :
  TypeAgrees final declared (.unary { info with checkedType := type } .neg e)
  := by
  obtain ⟨rfl, hnum⟩ := analyzeNegation_ok htype
  have hint := (numeric_cases hnum).resolve_right hplain.1
  have hoperand := h hplain
  unfold TypeAgrees at hoperand ⊢
  change (CExpr.unary "-" (emitExpr final e)).typeOf final declared = some (ctype final e.checkedType)
  rw [hint] at hoperand ⊢
  simp [CExpr.typeOf, hoperand, ctype]

/-- Strings are joined by a runtime call, and integers are calculated with. -/
theorem typeAgrees_binary {info : Info} {op : BinaryOp} {left right : Expr} {type : Ty}
    (hop : isArithmeticOp op)
    (htype : type = .STR ∧ op = .add ∧ left.checkedType = .STR ∧ right.checkedType = .STR ∨
      analyzeArithmetic op left.checkedType right.checkedType = .ok type)
    (hplain : IsPlain type) (hleft : IsPlain left.checkedType → TypeAgrees final declared left)
    (hright : IsPlain right.checkedType → TypeAgrees final declared right) :
  TypeAgrees final declared (.binary { info with checkedType := type } op left right)
  := by
  unfold TypeAgrees at hleft hright ⊢
  rcases htype with ⟨rfl, rfl, hl, hr⟩ | htype
  · have hl' := hleft (by simp [IsPlain, hl, isLoopCtxType])
    have hr' := hright (by simp [IsPlain, hr, isLoopCtxType])
    rw [hl] at hl'
    rw [hr] at hr'
    rw [emit_concat rfl hl]
    simp [CExpr.typeOf, CFun.signature, hl', hr', ctype, Expr.checkedType, Expr.info]
  · obtain ⟨hnl, _, ⟨rfl, hl, hr⟩ | ⟨rfl, _⟩⟩ := analyzeArithmetic_ok htype
    · have hl' := hleft (by simp [IsPlain, hl, isLoopCtxType])
      have hr' := hright (by simp [IsPlain, hr, isLoopCtxType])
      rw [hl] at hl'
      rw [hr] at hr'
      rw [emit_arithmetic hop rfl hnl]
      simp only [CExpr.typeOf, hl', hr', ctype]
      by_cases hmod : op.text = "%" <;>
        simp [binaryType, arithmeticType, hmod, Expr.checkedType, Expr.info, ctype]
    · exact absurd rfl hplain.1

/-- An accepted expression follows where its receivers and keys are as they should be. -/
theorem follows_of_dotAgrees (hopens : OpensTo types final)
    (hdecl : DeclaredScope types final scope declared) (e : Expr) {e' : Expr} {ctx : AnalyzeCtx}
    {expected : Option Ty} (h : analyzeExprExpected types scope ctx e expected = .ok e')
    (hagrees : ∀ node ∈ dotNodes e', DotAgrees types final scope node) :
  Follows final declared e'
  := by
  induction e using expr_induction generalizing e' ctx expected with
  | int info value =>
    cases h
    refine ⟨by simp [dotNodes], ?_⟩
    intro hplain
    by_cases hflt : expected = some .FLT
    · rw [if_pos hflt] at hplain
      exact absurd rfl hplain.1
    · rw [if_neg hflt]
      rfl
  | flt info value =>
    cases h
    exact ⟨by simp [dotNodes], fun hplain => absurd rfl hplain.1⟩
  | bol info value =>
    cases h
    exact ⟨by simp [dotNodes], fun _ => rfl⟩
  | str info text =>
    cases h
    exact ⟨by simp [dotNodes], fun _ => rfl⟩
  | nil info =>
    cases h
    exact ⟨by simp [dotNodes], fun hplain => absurd rfl hplain.2.1⟩
  | name info name =>
    obtain ⟨a, ha, rfl | ⟨href, rfl⟩⟩ := analyzeExprExpected_name h
    · exact follows_name hdecl ha
    · have hfollows := follows_name hdecl ha
      exact ⟨hfollows.1, fun _ => typeAgrees_wrap href hfollows.2⟩
  | dot info object name ih =>
    obtain ⟨a, ha, hdot⟩ := analyzeExprExpected_dot h
    apply follows_dot hopens hdecl hdot (checkedType_of_name ha) hagrees
    · intro hobject
      apply follows_read 1
      apply ih ha
      rw [← dotNodes_read 1 a]
      exact hobject
    · intro key hkey _
      exact follows_nameKey hdecl hkey
  | dotIndex info object index ihObject ihIndex =>
    obtain ⟨a, i, ha, hi, hdot⟩ := analyzeExprExpected_dotIndex h
    apply follows_dot hopens hdecl hdot (checkedType_of_name ha) hagrees
    · intro hobject
      apply follows_read 1
      apply ihObject ha
      rw [← dotNodes_read 1 a]
      exact hobject
    · rintro key rfl hkey
      exact ihIndex hi hkey
  | neg info e ih =>
    obtain ⟨a, type, ha, htype, rfl⟩ := analyzeExprExpected_neg h
    have hfollows := follows_read 1 (ih ha (by
      rw [← dotNodes_read 1 a]
      exact hagrees))
    refine ⟨hfollows.1, ?_⟩
    intro hplain
    exact typeAgrees_neg htype hplain hfollows.2
  | binary info op left right ihLeft ihRight =>
    obtain ⟨hop, l, r, type, m, n, hl, hr, rfl, htype⟩ := analyzeExprExpected_binary h
    have hleft := follows_read m (ihLeft hl (by
      rw [← dotNodes_read m l]
      exact fun node hnode => hagrees node (List.mem_append_left _ hnode)))
    have hright := follows_read n (ihRight hr (by
      rw [← dotNodes_read n r]
      exact fun node hnode => hagrees node (List.mem_append_right _ hnode)))
    refine ⟨?_, ?_⟩
    · intro node hnode
      rcases List.mem_append.mp hnode with hnode | hnode
      · exact hleft.1 node hnode
      · exact hright.1 node hnode
    · intro hplain
      exact typeAgrees_binary hop htype hplain hleft.2 hright.2
  | beyond e hbeyond =>
    rw [hbeyond] at h
    cases h

/-- Every dot of an accepted expression is one the analysis leaves. -/
theorem analyzedDot_of_mem {n : Expr} (e : Expr) {e' : Expr} {ctx : AnalyzeCtx} {expected : Option Ty}
    (h : analyzeExprExpected types scope ctx e expected = .ok e') (hn : n ∈ dotNodes e') :
  ∃ keys info object, AnalyzedDot types scope keys info object n
  := by
  induction e using expr_induction generalizing e' ctx expected with
  | int | flt | bol | str | nil =>
    cases h
    simp [dotNodes] at hn
  | name info name =>
    obtain ⟨a, ha, he'⟩ := analyzeExprExpected_name h
    obtain ⟨info', rfl⟩ := analyzeName_isName ha
    rcases he' with rfl | ⟨_, rfl⟩ <;> simp [dotNodes, wrapExprAsImplicitDeref] at hn
  | dot info object name ih =>
    obtain ⟨a, ha, hdot⟩ := analyzeExprExpected_dot h
    rcases mem_dotNodes hdot hn with rfl | hn | ⟨key, hkey, _, hn⟩
    · exact ⟨_, _, _, hdot⟩
    · apply ih ha
      rw [← dotNodes_read 1 a]
      exact hn
    · cases hkey <;> simp [localNode, keyNode, dotNodes] at hn
  | dotIndex info object index ihObject ihIndex =>
    obtain ⟨a, i, ha, hi, hdot⟩ := analyzeExprExpected_dotIndex h
    rcases mem_dotNodes hdot hn with rfl | hn | ⟨key, rfl, _, hn⟩
    · exact ⟨_, _, _, hdot⟩
    · apply ihObject ha
      rw [← dotNodes_read 1 a]
      exact hn
    · exact ihIndex hi hn
  | neg info e ih =>
    obtain ⟨a, type, ha, _, rfl⟩ := analyzeExprExpected_neg h
    have hn : n ∈ dotNodes (implicitRefReadValue^[1] a) := hn
    rw [dotNodes_read] at hn
    exact ih ha hn
  | binary info op left right ihLeft ihRight =>
    obtain ⟨_, l, r, type, i, j, hl, hr, rfl, _⟩ := analyzeExprExpected_binary h
    rcases List.mem_append.mp hn with hn | hn
    · rw [dotNodes_read] at hn
      exact ihLeft hl hn
    · rw [dotNodes_read] at hn
      exact ihRight hr hn
  | beyond e hbeyond =>
    rw [hbeyond] at h
    cases h

/-- The dots of an accepted expression are emitted with the C types of their recorded types
exactly when each has a receiver and a key for which the two agree, whatever types are
opened after the expression was analyzed. -/
theorem typeAgrees_iff (opened : List String) {ctx : AnalyzeCtx} {e e' : Expr} {expected : Option Ty}
    (hdecl : DeclaredScope types (opened.foldl markStructOpen types) scope declared)
    (h : analyzeExprExpected types scope ctx e expected = .ok e') :
  (∀ node ∈ dotNodes e', TypeAgrees (opened.foldl markStructOpen types) declared node) ↔
    ∀ node ∈ dotNodes e', DotAgrees types (opened.foldl markStructOpen types) scope node
  := by
  have hopens := opensTo_foldl types opened
  constructor
  · intro hagree node hnode
    obtain ⟨keys, info, object, hdot⟩ := analyzedDot_of_mem e h hnode
    exact dotAgrees_of_typeAgrees hopens hdot (hagree node hnode)
  · intro hagree
    exact (follows_of_dotAgrees hopens hdecl e h hagree).1

/-- The declaration of a fixed `MAP` with a name. -/
def personType : TypeInfo :=
  ⟨"Person", .struct [⟨"name", .STR, "STR", none⟩] false⟩

/-- A scope with an array of persons and an index. -/
def personScope : Scope :=
  [[Symbol.fresh "people" (.ARR (.named "Person")), Symbol.fresh "n" .INT]]

/-- The C declarations of that scope. -/
def personDeclared (name : String) : Option CType :=
  if name = "people" then some (.handle (.ARR (.named "Person")))
  else if name = "n" then some .integer
  else none

theorem declaredScope_person :
  DeclaredScope [personType] ([].foldl markStructOpen [personType]) personScope personDeclared
  := by
  have hcases : ∀ name sym, scopeTryResolve personScope name = some sym →
      sym = Symbol.fresh "people" (.ARR (.named "Person")) ∧ name = "people" ∨
        sym = Symbol.fresh "n" .INT ∧ name = "n" := by
    intro name sym hsym
    by_cases hpeople : "people" = name
    · subst hpeople
      cases hsym
      exact Or.inl ⟨rfl, rfl⟩
    · by_cases hn : "n" = name
      · subst hn
        cases hsym
        exact Or.inr ⟨rfl, rfl⟩
      · simp [scopeTryResolve, personScope, scopeLookupCurrent, Symbol.fresh, hpeople, hn] at hsym
  constructor
  · intro name sym hsym _
    rcases hcases name sym hsym with ⟨rfl, rfl⟩ | ⟨rfl, rfl⟩ <;> rfl
  · intro name sym c hsym hc
    rcases hcases name sym hsym with ⟨rfl, _⟩ | ⟨rfl, _⟩ <;> cases hc
  · intro name sym c hsym hc
    rcases hcases name sym hsym with ⟨rfl, _⟩ | ⟨rfl, _⟩ <;> cases hc
  · intro info name e hsym h
    unfold analyzeName at h
    rw [hsym] at h
    by_cases hname : "Person" = name
    · subst hname
      cases h
    · simp [typeFind, personType, hname] at h

/-- The expression `people.n.name`. -/
def personName : Expr :=
  .dot (Info.ofType .unknown)
    (.dot (Info.ofType .unknown) (.name (Info.ofType .unknown) "people") "n") "name"

/-- The analysis of `people.n.name`: an element of the array and its field. -/
def personNameAnalyzed : Expr :=
  .dot (Info.ofType .STR)
    (.dotIndex (Info.ofType (.named "Person"))
      (.name (Info.ofType (.ARR (.named "Person"))) "people") (.name (Info.ofType .INT) "n"))
    "name"

theorem typeAgrees_personName :
  analyzeExprExpected [personType] personScope ⟨0, false⟩ personName none = .ok personNameAnalyzed ∧
    ∀ node ∈ dotNodes personNameAnalyzed,
      TypeAgrees ([].foldl markStructOpen [personType]) personDeclared node
  := by
  have h : analyzeExprExpected [personType] personScope ⟨0, false⟩ personName none =
      .ok personNameAnalyzed := rfl
  refine ⟨h, ?_⟩
  apply (typeAgrees_iff [] declaredScope_person h).mpr
  intro node hnode
  simp only [personNameAnalyzed, dotNodes, List.append_nil, List.mem_cons, List.not_mem_nil,
    or_false] at hnode
  rcases hnode with rfl | rfl
  · right
    intro hopen
    cases hopen
  · trivial

/-- The scope after `o = {name = "a"}`. -/
def recordScope : Scope :=
  [[{ Symbol.fresh "o" .OPEN with
      sourceLiteralKeys := ["name"]
      sourceLiteralKeyTypes := collectSourceLiteralKeyTypes [] []
        (.recordLiteral (Info.ofType .OPEN) [("name", .str (Info.ofType .STR) "a")]) [] }]]

/-- The expression `o.name`. -/
def recordName : Expr :=
  .dot (Info.ofType .unknown) (.name (Info.ofType .unknown) "o") "name"

/-- The analysis of `o.name`: the key of the record, with the type of its literal. -/
def recordNameAnalyzed : Expr :=
  .dotTarget (Info.ofType .STR) (.name (Info.ofType .OPEN) "o") (.str (Info.ofType .STR) "name")

/-- The key of an inferred open record is typed `STR` and emitted as a boxed value. -/
theorem not_typeAgrees_recordName :
  analyzeExprExpected [] recordScope ⟨0, false⟩ recordName none = .ok recordNameAnalyzed ∧
    (emitExpr [] recordNameAnalyzed).typeOf [] (fun _ => some .FLX_OBJMAP) = some .FLX_OBJ ∧
    ¬ TypeAgrees [] (fun _ => some .FLX_OBJMAP) recordNameAnalyzed
  := by
  refine ⟨rfl, rfl, ?_⟩
  intro h
  cases h

end Caster
