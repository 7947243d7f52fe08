import Caster.Emit.Bindings

/-!
# Binding agreement

The names of a function body are resolved to objects that are declared around them in C, and the C
scopes give these objects back exactly when every name stands for an object and the declarations of
the C code are apart from the names in their scope.
-/

namespace Caster

open BlockScope

/-! ### Known symbols -/

/-- The identifiers of a symbol and of its parts name their objects in an environment. -/
def BoundSymbol.In (env : List (String × ℕ)) (sym : BoundSymbol) : Prop :=
  ∀ part ∈ (sym.ident, sym.obj) :: (sym.index.toList ++ sym.element.toList),
    ∀ o, part.2 = some o → (part.1, o) ∈ env

/-- All symbols of the scopes are in an environment. -/
def Known (env : List (String × ℕ)) (scopes : List Symbols) : Prop :=
  ∀ symbols ∈ scopes, ∀ sym ∈ symbols, sym.In env

theorem BoundSymbol.In.mono {env env' : List (String × ℕ)} {sym : BoundSymbol} (h : sym.In env)
    (hsub : ∀ e ∈ env, e ∈ env') :
  sym.In env'
  := by
  intro part hpart o ho
  exact hsub _ (h part hpart o ho)

theorem BoundSymbol.plain_in {env : List (String × ℕ)} (name : String) {ident : String}
    {obj : Option ℕ} (h : ∀ o, obj = some o → (ident, o) ∈ env) :
  (BoundSymbol.plain name ident obj).In env
  := by
  simpa [BoundSymbol.In, BoundSymbol.plain] using h

theorem Known.mono {env env' : List (String × ℕ)} {scopes : List Symbols} (h : Known env scopes)
    (hsub : ∀ e ∈ env, e ∈ env') :
  Known env' scopes
  := by
  intro symbols hsymbols sym hsym
  exact (h symbols hsymbols sym hsym).mono hsub

theorem known_cons_iff (env : List (String × ℕ)) (symbols : Symbols) (scopes : List Symbols) :
  Known env (symbols :: scopes) ↔ (∀ sym ∈ symbols, sym.In env) ∧ Known env scopes
  := by
  simp [Known]

theorem Known.resolveSymbol {env : List (String × ℕ)} {scopes : List Symbols} (h : Known env scopes)
    {x : String} {sym : BoundSymbol} (hsym : resolveSymbol scopes x = some sym) :
  sym.In env
  := by
  induction scopes with
  | nil => cases hsym
  | cons symbols scopes ih =>
    obtain ⟨hsymbols, hscopes⟩ := (known_cons_iff env symbols scopes).mp h
    rw [Caster.resolveSymbol, Option.or_eq_some_iff] at hsym
    rcases hsym with hfound | ⟨-, houter⟩
    · exact hsymbols sym (List.mem_of_find?_eq_some hfound)
    · exact ih hscopes houter


theorem defineSymbol_in {env : List (String × ℕ)} {symbols symbols' : Symbols} {new : BoundSymbol}
    (h : defineSymbol symbols new = some symbols') (hsymbols : ∀ sym ∈ symbols, sym.In env)
    (hnew : new.In env) :
  ∀ sym ∈ symbols', sym.In env
  := by
  rw [defineSymbol] at h
  split at h
  · cases h
  · cases h
    exact List.forall_mem_cons.mpr ⟨hnew, hsymbols⟩

theorem defineSymbol_getD_in {env : List (String × ℕ)} {symbols : Symbols} {new : BoundSymbol}
    (hsymbols : ∀ sym ∈ symbols, sym.In env) (hnew : new.In env) :
  ∀ sym ∈ (defineSymbol symbols new).getD symbols, sym.In env
  := by
  cases hdefine : defineSymbol symbols new with
  | none => exact hsymbols
  | some symbols' => exact defineSymbol_in hdefine hsymbols hnew

theorem defineLocals_in {env : List (String × ℕ)} {names : List String}
    {symbols symbols' : Symbols} {obj : ℕ} (h : defineLocals symbols obj names = some symbols')
    (hsymbols : ∀ sym ∈ symbols, sym.In env) (hnames : ∀ decl ∈ names.zipIdx obj, decl ∈ env) :
  ∀ sym ∈ symbols', sym.In env
  := by
  induction names generalizing symbols obj with
  | nil =>
    cases h
    exact hsymbols
  | cons name names ih =>
    rw [defineLocals, Option.bind_eq_bind, Option.bind_eq_some_iff] at h
    obtain ⟨inner, hinner, h⟩ := h
    rw [List.zipIdx_cons, List.forall_mem_cons] at hnames
    apply ih h _ hnames.2
    apply defineSymbol_in hinner hsymbols
    exact BoundSymbol.plain_in name (by simpa using hnames.1)

theorem defineAlias_in {env : List (String × ℕ)} {symbols : Symbols} (as : Option String)
    {ident : String} {obj : ℕ} (hsymbols : ∀ sym ∈ symbols, sym.In env)
    (hobj : (ident, obj) ∈ env) :
  ∀ sym ∈ defineAlias symbols as ident obj, sym.In env
  := by
  cases as with
  | none => exact hsymbols
  | some name =>
    rw [defineAlias]
    split
    · exact hsymbols
    · exact defineSymbol_getD_in hsymbols (BoundSymbol.plain_in name (by simpa using hobj))

theorem defineContext_in {env : List (String × ℕ)} {symbols symbols' : Symbols}
    {as : Option String} {index : String × ℕ} {element : Option (String × ℕ)}
    (h : defineContext symbols as index element = some symbols')
    (hsymbols : ∀ sym ∈ symbols, sym.In env) (hindex : index ∈ env)
    (helement : ∀ part ∈ element, part ∈ env) :
  ∀ sym ∈ symbols', sym.In env
  := by
  cases as with
  | none =>
    cases h
    exact hsymbols
  | some name =>
    apply defineSymbol_in h hsymbols
    cases element <;> simp_all [BoundSymbol.In]

theorem defineSource_in {env : List (String × ℕ)} {symbols : Symbols} {scopes : List Symbols}
    (arg : BodyExpr) {index element : String × ℕ} (depth : ℕ)
    (hsymbols : ∀ sym ∈ symbols, sym.In env) (hscopes : Known env scopes) (hindex : index ∈ env)
    (helement : element ∈ env) :
  ∀ sym ∈ defineSource symbols scopes arg index element depth, sym.In env
  := by
  unfold defineSource
  split
  · split
    · exact hsymbols
    · split
      · rename_i base hbase
        apply defineSymbol_getD_in hsymbols
        have hknown := hscopes.resolveSymbol hbase
        simp only [BoundSymbol.In, List.forall_mem_cons] at hknown
        simpa [BoundSymbol.In, hindex, helement] using hknown.1
      · exact hsymbols
  · exact hsymbols

theorem functionSymbols_in {env file : List (String × ℕ)} (hfile : ∀ decl ∈ file, decl ∈ env)
    (body : Body) {symbols symbols' : Symbols}
    (h : functionSymbols file symbols body = some symbols')
    (hsymbols : ∀ sym ∈ symbols, sym.In env) :
  ∀ sym ∈ symbols', sym.In env
  := by
  fun_induction functionSymbols file symbols body with
  | case12 symbols name cName rest ih =>
    simp only [Option.bind_eq_bind, Option.bind_eq_some_iff] at h
    obtain ⟨obj, hobj, inner, hinner, h⟩ := h
    apply ih inner h
    apply defineSymbol_in hinner hsymbols
    exact BoundSymbol.plain_in name (by simpa using hfile _ (mem_of_lookup hobj))
  | case1 symbols =>
    cases h
    exact hsymbols
  | _ =>
    rename_i ih
    exact ih h hsymbols

theorem EachMethod.symbols_in {env : List (String × ℕ)} (method : EachMethod) (as : Option String)
    {index element : String × ℕ} (hindex : index ∈ env) (helement : element ∈ env) :
  ∀ sym ∈ method.symbols as index element, sym.In env
  := by
  have hi : (BoundSymbol.plain "i" index.1 (some index.2)).In env :=
    BoundSymbol.plain_in "i" (by simpa using hindex)
  have he (name : String) : (BoundSymbol.plain name element.1 (some element.2)).In env :=
    BoundSymbol.plain_in name (by simpa using helement)
  cases method <;> exact defineAlias_in as (by simp [hi, he]) helement

theorem KeyMethod.symbols_in {env : List (String × ℕ)} (method : KeyMethod) (as : Option String)
    {index element : String × ℕ} (hindex : method = .group → index ∈ env)
    (helement : element ∈ env) :
  ∀ sym ∈ method.symbols as index element, sym.In env
  := by
  have he : (BoundSymbol.plain "e" element.1 (some element.2)).In env :=
    BoundSymbol.plain_in "e" (by simpa using helement)
  apply defineAlias_in as _ helement
  rw [List.forall_mem_cons]
  refine ⟨he, ?_⟩
  rw [List.forall_mem_singleton]
  apply BoundSymbol.plain_in
  cases method <;> simp_all

theorem loopSymbols_in {env : List (String × ℕ)} (kind : ArgLoop) {scopes : List Symbols}
    {arg : BodyExpr} {as : Option String} {index element : String × ℕ} {depth : ℕ}
    {symbols : Symbols} (h : loopSymbols kind scopes arg as index element depth = some symbols)
    (hscopes : Known env scopes) (hindex : index ∈ env)
    (helement : kind ≠ .count → kind ≠ .condition → element ∈ env) :
  ∀ sym ∈ symbols, sym.In env
  := by
  have hi (name : String) : (BoundSymbol.plain name index.1 (some index.2)).In env :=
    BoundSymbol.plain_in name (by simpa using hindex)
  have he (hmem : element ∈ env) (name : String) :
      (BoundSymbol.plain name element.1 (some element.2)).In env :=
    BoundSymbol.plain_in name (by simpa using hmem)
  cases kind with
  | count => exact defineContext_in h (by simp [hi]) hindex (by simpa using hindex)
  | condition => exact defineContext_in h (by simp [hi]) hindex (by simp)
  | array =>
    have helement := helement (by decide) (by decide)
    rw [loopSymbols, Option.bind_eq_bind, Option.bind_eq_some_iff] at h
    obtain ⟨inner, hinner, h⟩ := h
    cases h
    apply defineSource_in arg depth _ hscopes hindex helement
    exact defineContext_in hinner (by simp [hi, he helement]) hindex (by simpa using helement)
  | str =>
    have helement := helement (by decide) (by decide)
    simp only [loopSymbols] at h
    split at h
    · cases h
    · cases h
      simp [hi, he helement]
  | map =>
    have helement := helement (by decide) (by decide)
    simp only [loopSymbols] at h
    split at h
    · cases h
    · cases h
      simp [hi, he helement]

/-! ### Well-scoped code -/

theorem EachMethod.code_wellScoped {env : List (String × ℕ)} (method : EachMethod) (number : ℕ)
    {obj : ℕ} (next : ℕ) {object inner : Code String} (hnext : obj + 6 ≤ next)
    (hobject : object.WellScoped env next)
    (hinner : ∀ env', (∀ decl ∈ env, decl ∈ env') → ((method.names number).1, obj + 4) ∈ env' →
      ((method.names number).2, obj + 5) ∈ env' → inner.WellScoped env' next) :
  (method.code number obj object inner).WellScoped env obj
  := by
  have hsource := hobject.weaken (fun _ h => h) (show obj + 1 ≤ next by omega)
  have hweak {env' : List (String × ℕ)} (h : inner.WellScoped env' next) :
      inner.WellScoped env' (obj + 6) := h.weaken (fun _ h => h) hnext
  simp only [EachMethod.code]
  refine ⟨le_refl _, hsource, le_refl _, trivial, ?_⟩
  split
  · refine ⟨le_refl _, trivial, le_refl _, trivial, ⟨le_refl _, trivial, ⟨le_refl _, trivial,
      hweak (hinner _ ?_ ?_ ?_)⟩, trivial⟩, trivial⟩
    all_goals simp +contextual
  · refine ⟨⟨by omega, trivial, ⟨le_refl _, trivial, hweak (hinner _ ?_ ?_ ?_)⟩, trivial⟩, trivial⟩
    all_goals simp +contextual

theorem KeyMethod.code_wellScoped {env : List (String × ℕ)} (method : KeyMethod) (number : ℕ)
    {obj : ℕ} (next : ℕ) {object key : Code String} (hnext : obj + 8 ≤ next)
    (hobject : object.WellScoped env next)
    (hkey : ∀ env', (∀ decl ∈ env, decl ∈ env') → ((method.names number).2, obj + 5) ∈ env' →
      (method = .group → ((method.names number).1, obj + 4) ∈ env') → key.WellScoped env' next) :
  (method.code number obj object key).WellScoped env obj
  := by
  have hsource := hobject.weaken (fun _ h => h) (show obj + 1 ≤ next by omega)
  have hweak {env' : List (String × ℕ)} (h : key.WellScoped env' next) {n : ℕ} (hn : n ≤ obj + 8) :
      key.WellScoped env' n := h.weaken (fun _ h => h) (by omega)
  cases method with
  | group =>
    refine ⟨le_refl _, hsource, le_refl _, trivial, ⟨by omega, trivial, ⟨le_refl _, trivial,
      le_refl _, hweak ?_ (by omega), trivial⟩, trivial⟩, trivial⟩
    apply hkey <;> simp +contextual [KeyMethod.names, methodNames]
  | sort =>
    refine ⟨le_refl _, hsource, le_refl _, trivial, ⟨le_refl _, trivial, ⟨⟨le_refl _, trivial,
      ⟨by omega, trivial, le_refl _, hweak ?_ (by omega), le_refl _, hweak ?_ (by omega),
        trivial⟩, trivial⟩, trivial⟩, trivial⟩, trivial⟩
    all_goals apply hkey <;> simp +contextual [KeyMethod.names, methodNames]

theorem ArgLoop.code_wellScoped {env : List (String × ℕ)} (kind : ArgLoop) (as : Option String)
    (number : ℕ) {obj : ℕ} (next : ℕ) {arg body : Code String} (hnext : obj + 4 ≤ next)
    (harg : arg.WellScoped env next)
    (hbody : ∀ env', (∀ decl ∈ env, decl ∈ env') → (indexName as number, obj + 2) ∈ env' →
      (kind ≠ .count → kind ≠ .condition → (elementName kind as number, obj + 3) ∈ env') →
      body.WellScoped env' next) :
  (kind.code as number obj arg body).WellScoped env obj
  := by
  have hweak {c : Code String} {env' env'' : List (String × ℕ)} (h : c.WellScoped env' next)
      (henv : ∀ decl ∈ env', decl ∈ env'') {n : ℕ} (hn : n ≤ obj + 4) : c.WellScoped env'' n :=
    h.weaken henv (by omega)
  cases kind with
  | count | condition =>
    refine ⟨by omega, trivial, hweak harg ?_ (by omega), hweak (hbody _ ?_ ?_ ?_) (fun _ h => h)
      (by omega), trivial⟩
    all_goals simp +contextual
  | array | str =>
    refine ⟨by omega, trivial, hweak harg ?_ (by omega), ⟨le_refl _, hweak harg ?_ (by omega),
      hweak (hbody _ ?_ ?_ ?_) (fun _ h => h) (by omega)⟩, trivial⟩
    all_goals simp +contextual
  | map =>
    refine ⟨le_refl _, trivial, le_refl _, trivial, ⟨le_refl _, trivial, hweak harg ?_ (by omega),
      hweak harg ?_ (by omega), ⟨le_refl _, trivial, hweak (hbody _ ?_ ?_ ?_) (fun _ h => h)
        (by omega)⟩, trivial⟩, trivial⟩
    all_goals simp +contextual

theorem inPlaceCode_wellScoped {env : List (String × ℕ)} (name : String) (number : ℕ) {obj : ℕ}
    (next : ℕ) {object inner : Code String} (hnext : obj + 4 ≤ next)
    (hobject : object.WellScoped env next)
    (hinner : ∀ env', (∀ decl ∈ env, decl ∈ env') → ((methodNames name number).1, obj + 2) ∈ env' →
      ((methodNames name number).2, obj + 3) ∈ env' → inner.WellScoped env' next) :
  (inPlaceCode name number obj object inner).WellScoped env obj
  := by
  have hsource := hobject.weaken (fun _ h => h) (show obj + 1 ≤ next by omega)
  have hweak {env' : List (String × ℕ)} (h : inner.WellScoped env' next) :
      inner.WellScoped env' (obj + 4) := h.weaken (fun _ h => h) hnext
  simp only [inPlaceCode]
  refine ⟨le_refl _, hsource, ?_⟩
  split
  · refine ⟨le_refl _, trivial, ⟨le_refl _, trivial, ⟨le_refl _, trivial, hweak (hinner _ ?_ ?_ ?_)⟩,
      trivial⟩, trivial⟩
    all_goals simp +contextual
  · refine ⟨⟨by omega, trivial, ⟨le_refl _, trivial, hweak (hinner _ ?_ ?_ ?_)⟩, trivial⟩, trivial⟩
    all_goals simp +contextual

theorem declareLocals_wellScoped {rest : Code String} {names : List String} {obj : ℕ}
    {env : List (String × ℕ)}
    (h : ∀ env', (∀ decl ∈ env, decl ∈ env') → (∀ decl ∈ names.zipIdx obj, decl ∈ env') →
      rest.WellScoped env' (obj + names.length)) :
  (declareLocals obj rest names).WellScoped env obj
  := by
  induction names generalizing obj env with
  | nil => exact h env (fun _ h => h) (by simp)
  | cons name names ih =>
    refine ⟨le_refl _, trivial, ih ?_⟩
    intro env' henv' hnames
    rw [List.forall_mem_cons] at henv'
    have := h env' henv'.2 (by
      rw [List.zipIdx_cons, List.forall_mem_cons]
      exact ⟨henv'.1, hnames⟩)
    rwa [List.length_cons, Nat.add_comm names.length 1, ← Nat.add_assoc] at this

/-! ### Resolved names -/

/-- Code that the analyzer has resolved on its way from one state to another is well scoped where the
objects of the file and the symbols of the scopes are known. -/
def Scoped (file : List (String × ℕ)) (scopes : List Symbols) (k k' : Progress) (c : Code String) :
    Prop :=
  k.objs ≤ k'.objs ∧
    ∀ env, (∀ decl ∈ file, decl ∈ env) → Known env scopes → c.WellScoped env k.objs

@[simp] theorem Progress.take_objs (k : Progress) (n : ℕ) : (k.take n).objs = k.objs + n := rfl

@[simp] theorem Progress.number_objs (k : Progress) (n : ℕ) : (k.number n).objs = k.objs := rfl

theorem Progress.rename_objs {k k' : Progress} {method : EachMethod} {scopes : List Symbols}
    {as : Option String} {element : String} (h : k.rename method scopes as element = some k') :
  k'.objs = k.objs
  := by
  unfold Progress.rename at h
  split at h
  · simp only [Option.bind_eq_bind, Option.bind_eq_some_iff] at h
    obtain ⟨sym, -, h⟩ := h
    split at h <;> cases h <;> rfl
  · cases h
    rfl

theorem BoundSymbol.In.printed {env : List (String × ℕ)} {sym : BoundSymbol} (h : sym.In env)
    (k : Progress) :
  ∀ o, (k.printed sym).2 = some o → ((k.printed sym).1, o) ∈ env
  := by
  intro o ho
  unfold Progress.printed at ho ⊢
  split
  · rename_i hfound
    simp [hfound] at ho
  · rename_i hnone
    simp only [hnone] at ho
    exact h _ List.mem_cons_self o ho

theorem bindName_scoped {file : List (String × ℕ)} {scopes : List Symbols} {x : String}
    {k : Progress} {e : BoundExpr} (h : bindName file scopes x k = some e) :
  Scoped file scopes k k e.code
  := by
  refine ⟨le_refl _, ?_⟩
  intro env hfile hknown
  unfold bindName at h
  split at h
  · rename_i sym hsym
    cases h
    exact ⟨(hknown.resolveSymbol hsym).printed k, trivial⟩
  · rw [Option.map_eq_some_iff] at h
    obtain ⟨obj, hobj, rfl⟩ := h
    refine ⟨?_, trivial⟩
    rintro o ⟨⟩
    exact hfile _ (mem_of_lookup hobj)

theorem bindPart_scoped {file : List (String × ℕ)} {scopes : List Symbols} {depth : ℕ} {x : String}
    {part : BoundSymbol → Option (String × Option ℕ)} {k : Progress} {e : BoundExpr}
    (h : bindPart file scopes depth x part k = some e)
    (hpart : ∀ sym, ∀ p ∈ part sym, p ∈ sym.index.toList ++ sym.element.toList) :
  Scoped file scopes k k e.code
  := by
  unfold bindPart at h
  split at h
  · rename_i sym hsym
    split at h
    · split at h
      · cases h
      · rw [Option.map_eq_some_iff] at h
        obtain ⟨p, hp, rfl⟩ := h
        refine ⟨le_refl _, fun env hfile hknown => ⟨?_, trivial⟩⟩
        exact hknown.resolveSymbol hsym p (List.mem_cons_of_mem _ (hpart sym p hp))
    · exact bindName_scoped h
  · exact bindName_scoped h

/-- Scoped code is well scoped in a place inside, with smaller numbers. -/
theorem Scoped.inside {file : List (String × ℕ)} {scopes : List Symbols} {k k' : Progress}
    {c : Code String} (h : Scoped file scopes k k' c) {env : List (String × ℕ)}
    (hfile : ∀ decl ∈ file, decl ∈ env) (hknown : Known env scopes) {n : ℕ} (hn : n ≤ k.objs) :
  c.WellScoped env n
  := by
  exact (h.2 env hfile hknown).weaken (fun _ h => h) hn

/-- A declaration of a local. -/
theorem Scoped.declare {file : List (String × ℕ)} {symbols symbols' : Symbols}
    {scopes : List Symbols} {k k₁ k₂ : Progress} {x : String} {value rest : Code String}
    (hvalue : Scoped file (symbols :: scopes) (k.take 1) k₁ value)
    (hrest : Scoped file (symbols' :: scopes) k₁ k₂ rest)
    (hdefine : defineSymbol symbols (.plain x x (some k.objs)) = some symbols') :
  Scoped file (symbols :: scopes) k k₂ (.declare x k.objs value rest)
  := by
  have hobjs := hvalue.1
  have hobjs' := hrest.1
  simp only [Progress.take_objs] at hobjs
  refine ⟨by omega, fun env hfile hknown => ⟨le_refl _, hvalue.2 env hfile hknown, ?_⟩⟩
  apply hrest.inside (fun decl hdecl => List.mem_cons_of_mem _ (hfile decl hdecl)) _ hobjs
  have hknown' := (known_cons_iff _ _ _).mp
    (hknown.mono (fun decl hdecl => List.mem_cons_of_mem (x, k.objs) hdecl))
  rw [known_cons_iff]
  exact ⟨defineSymbol_in hdefine hknown'.1 (BoundSymbol.plain_in x (by simp)), hknown'.2⟩

mutual

/-- A resolved expression is well scoped. -/
theorem bindExpr_scoped {file : List (String × ℕ)} {scopes : List Symbols} {depth : ℕ} :
    ∀ {e : BodyExpr} {k k' : Progress} {b : BoundExpr},
      bindExpr file scopes depth e k = some (b, k') → Scoped file scopes k k' b.code
  | .name x, k, k', b, h => by
    simp only [bindExpr, Option.map_eq_some_iff, Prod.mk.injEq] at h
    obtain ⟨e, he, rfl, rfl⟩ := h
    exact bindName_scoped he
  | .function x, k, k', b, h => by
    simp only [bindExpr, Option.map_eq_some_iff, Prod.mk.injEq] at h
    obtain ⟨obj, hobj, rfl, rfl⟩ := h
    refine ⟨le_refl _, fun env hfile hknown => ⟨?_, trivial⟩⟩
    rintro o ⟨⟩
    exact hfile _ (mem_of_lookup hobj)
  | .dotI x, k, k', b, h => by
    simp only [bindExpr, Option.map_eq_some_iff, Prod.mk.injEq] at h
    obtain ⟨e, he, rfl, rfl⟩ := h
    exact bindPart_scoped he (by simp +contextual)
  | .dotE x, k, k', b, h => by
    simp only [bindExpr, Option.map_eq_some_iff, Prod.mk.injEq] at h
    obtain ⟨e, he, rfl, rfl⟩ := h
    exact bindPart_scoped he (by simp +contextual)
  | .node operands, k, k', b, h => by
    simp only [bindExpr, Option.bind_eq_bind, Option.bind_eq_some_iff, Option.some.injEq,
      Prod.mk.injEq, Prod.exists] at h
    obtain ⟨operands', k₁, hoperands, rfl, rfl⟩ := h
    have hscoped := bindOperands_scoped hoperands
    exact ⟨hscoped.1, fun env hfile hknown => ⟨hscoped.2 env hfile hknown, trivial⟩⟩
  | .each method as object args body, k, k', b, h => by
    simp only [bindExpr, Option.bind_eq_bind, Option.bind_eq_some_iff, Option.some.injEq,
      Prod.mk.injEq, Prod.exists] at h
    obtain ⟨object', k₁, hobject, k₂, hrename, args', k₃, hargs, inner, hinner, body', k₄,
      hbody, rfl, rfl⟩ := h
    have hrename := Progress.rename_objs hrename
    have hobject := bindExpr_scoped hobject
    have hargs := bindOperands_scoped hargs
    have hbody := bindBody_scoped hbody
    have hobjs := hobject.1
    have hobjs' := hargs.1
    have hobjs'' := hbody.1
    simp only [Progress.take_objs, Progress.number_objs] at hobjs hrename hobjs'
    refine ⟨by omega, fun env hfile hknown => ⟨?_, trivial⟩⟩
    apply method.code_wellScoped _ (k.objs + 6) (le_refl _) (hobject.inside hfile hknown (by simp))
    intro env' henv hindex helement
    have hfile' : ∀ decl ∈ file, decl ∈ env' := fun decl hdecl => henv decl (hfile decl hdecl)
    have hknown' : Known env' (method.symbols as _ _ :: scopes) :=
      (known_cons_iff _ _ _).mpr ⟨method.symbols_in as hindex helement, hknown.mono henv⟩
    refine ⟨hargs.inside hfile' hknown' (by omega), hbody.inside hfile' ?_ (by omega)⟩
    exact (known_cons_iff _ _ _).mpr ⟨functionSymbols_in hfile' body hinner (by simp), hknown'⟩
  | .keyed method as object key, k, k', b, h => by
    simp only [bindExpr, Option.bind_eq_bind, Option.bind_eq_some_iff, Option.some.injEq,
      Prod.mk.injEq, Prod.exists] at h
    obtain ⟨object', k₁, hobject, key', k₂, hkey, rfl, rfl⟩ := h
    have hobject := bindExpr_scoped hobject
    have hkey := bindExpr_scoped hkey
    have hobjs := hobject.1
    have hobjs' := hkey.1
    simp only [Progress.take_objs, Progress.number_objs] at hobjs hobjs'
    refine ⟨by omega, fun env hfile hknown => ⟨?_, trivial⟩⟩
    apply method.code_wellScoped _ (k.objs + 8) (le_refl _) (hobject.inside hfile hknown (by simp))
    intro env' henv helement hindex
    apply hkey.inside (fun decl hdecl => henv decl (hfile decl hdecl)) _ (by simpa using hobjs)
    exact (known_cons_iff _ _ _).mpr ⟨method.symbols_in as hindex helement, hknown.mono henv⟩
  | .tap as object body, k, k', b, h => by
    simp only [bindExpr, Option.bind_eq_bind, Option.bind_eq_some_iff, Option.some.injEq,
      Prod.mk.injEq, Prod.exists] at h
    obtain ⟨object', k₁, hobject, body', k₂, hbody, rfl, rfl⟩ := h
    have hobject := bindExpr_scoped hobject
    have hbody := bindBody_scoped hbody
    have hobjs := hobject.1
    have hobjs' := hbody.1
    simp only [Progress.take_objs, Progress.number_objs] at hobjs hobjs'
    refine ⟨by omega, fun env hfile hknown => ⟨⟨le_refl _, hobject.2 env hfile hknown, ?_⟩,
      trivial⟩⟩
    apply hbody.inside (fun decl hdecl => List.mem_cons_of_mem _ (hfile decl hdecl)) _
      (by simpa using hobjs)
    rw [known_cons_iff, List.forall_mem_singleton]
    exact ⟨BoundSymbol.plain_in as (by simp),
      hknown.mono (fun decl hdecl => List.mem_cons_of_mem _ hdecl)⟩

/-- Resolved operands are well scoped. -/
theorem bindOperands_scoped {file : List (String × ℕ)} {scopes : List Symbols} {depth : ℕ} :
    ∀ {operands : Operands} {k k' : Progress} {b : BoundOperands},
      bindOperands file scopes depth operands k = some (b, k') → Scoped file scopes k k' b.code
  | .nil, k, k', b, h => by
    cases h
    exact ⟨le_refl _, fun env hfile hknown => trivial⟩
  | .cons temporary e rest, k, k', b, h => by
    simp only [bindOperands, Option.bind_eq_bind, Option.bind_eq_some_iff, Option.some.injEq,
      Prod.mk.injEq, Prod.exists] at h
    obtain ⟨e', k₁, he, rest', k₂, hrest, rfl, rfl⟩ := h
    have he := bindExpr_scoped he
    have hrest := bindOperands_scoped hrest
    have hobjs := he.1
    have hobjs' := hrest.1
    simp only [Progress.take_objs] at hobjs
    refine ⟨by omega, fun env hfile hknown => ?_⟩
    cases temporary with
    | none =>
      exact ⟨he.inside hfile hknown (by simp), hrest.inside hfile hknown (by omega)⟩
    | some temporary =>
      refine ⟨le_refl _, he.2 env hfile hknown, hrest.inside ?_ ?_ hobjs⟩
      · exact fun decl hdecl => List.mem_cons_of_mem _ (hfile decl hdecl)
      · exact hknown.mono (fun decl hdecl => List.mem_cons_of_mem _ hdecl)

/-- Resolved statements are well scoped. -/
theorem bindBody_scoped {file : List (String × ℕ)} {symbols : Symbols} {scopes : List Symbols}
    {depth : ℕ} :
    ∀ {body : Body} {k k' : Progress} {b : BoundBody},
      bindBody file symbols scopes depth body k = some (b, k') →
        Scoped file (symbols :: scopes) k k' b.code
  | .nil, k, k', b, h => by
    cases h
    exact ⟨le_refl _, fun env hfile hknown => trivial⟩
  | .var x value rest, k, k', b, h => by
    simp only [bindBody, Option.bind_eq_bind, Option.bind_eq_some_iff, Option.some.injEq,
      Prod.mk.injEq, Prod.exists] at h
    obtain ⟨value', k₁, hvalue, symbols', hdefine, rest', k₂, hrest, rfl, rfl⟩ := h
    exact (bindExpr_scoped hvalue).declare (bindBody_scoped hrest) hdefine
  | .assign x value rest, k, k', b, h => by
    rw [bindBody] at h
    split at h
    · rename_i sym hsym
      simp only [Option.bind_eq_bind, Option.bind_eq_some_iff, Option.some.injEq, Prod.mk.injEq,
        Prod.exists] at h
      obtain ⟨value', k₁, hvalue, rest', k₂, hrest, rfl, rfl⟩ := h
      have hvalue := bindExpr_scoped hvalue
      have hrest := bindBody_scoped hrest
      refine ⟨le_trans hvalue.1 hrest.1, fun env hfile hknown => ?_⟩
      exact ⟨(hknown.resolveSymbol hsym).printed k, hvalue.2 env hfile hknown,
        hrest.inside hfile hknown hvalue.1⟩
    · simp only [Option.bind_eq_bind, Option.bind_eq_some_iff, Option.some.injEq, Prod.mk.injEq,
        Prod.exists] at h
      obtain ⟨value', k₁, hvalue, symbols', hdefine, rest', k₂, hrest, rfl, rfl⟩ := h
      exact (bindExpr_scoped hvalue).declare (bindBody_scoped hrest) hdefine
  | .exec e rest, k, k', b, h => by
    simp only [bindBody, Option.bind_eq_bind, Option.bind_eq_some_iff, Option.some.injEq,
      Prod.mk.injEq, Prod.exists] at h
    obtain ⟨e', k₁, he, rest', k₂, hrest, rfl, rfl⟩ := h
    have he := bindExpr_scoped he
    have hrest := bindBody_scoped hrest
    refine ⟨le_trans he.1 hrest.1, fun env hfile hknown => ?_⟩
    exact ⟨he.2 env hfile hknown, hrest.inside hfile hknown he.1⟩
  | .destructure temporary names value rest, k, k', b, h => by
    simp only [bindBody, Option.bind_eq_bind, Option.bind_eq_some_iff, Option.some.injEq,
      Prod.mk.injEq, Prod.exists] at h
    obtain ⟨value', k₁, hvalue, symbols', hdefine, rest', k₂, hrest, rfl, rfl⟩ := h
    have hvalue := bindExpr_scoped hvalue
    have hrest := bindBody_scoped hrest
    have hobjs := hvalue.1
    have hobjs' := hrest.1
    simp only [Progress.take_objs] at hobjs
    refine ⟨by omega, fun env hfile hknown => ⟨le_refl _, hvalue.inside hfile hknown (by simp), ?_⟩⟩
    apply declareLocals_wellScoped
    intro env' henv hnames
    rw [List.forall_mem_cons] at henv
    have hknown' := (known_cons_iff _ _ _).mp (hknown.mono henv.2)
    apply hrest.inside (fun decl hdecl => henv.2 decl (hfile decl hdecl)) _ (by omega)
    exact (known_cons_iff _ _ _).mpr ⟨defineLocals_in hdefine hknown'.1 hnames, hknown'.2⟩
  | .ret temporary value rest, k, k', b, h => by
    simp only [bindBody, Option.bind_eq_bind, Option.bind_eq_some_iff, Option.some.injEq,
      Prod.mk.injEq, Prod.exists] at h
    obtain ⟨value', k₁, hvalue, rest', k₂, hrest, rfl, rfl⟩ := h
    have hvalue := bindExpr_scoped hvalue
    have hrest := bindBody_scoped hrest
    have hobjs := hvalue.1
    have hobjs' := hrest.1
    simp only [Progress.take_objs] at hobjs
    refine ⟨by omega, fun env hfile hknown => ⟨le_refl _, hvalue.2 env hfile hknown, ?_⟩⟩
    apply hrest.inside (fun decl hdecl => List.mem_cons_of_mem _ (hfile decl hdecl)) _ hobjs
    exact hknown.mono (fun decl hdecl => List.mem_cons_of_mem _ hdecl)
  | .throw value rest, k, k', b, h => by
    simp only [bindBody, Option.bind_eq_bind, Option.bind_eq_some_iff, Option.some.injEq,
      Prod.mk.injEq, Prod.exists] at h
    obtain ⟨value', k₁, hvalue, rest', k₂, hrest, rfl, rfl⟩ := h
    have hvalue := bindExpr_scoped hvalue
    have hrest := bindBody_scoped hrest
    have hobjs := hvalue.1
    have hobjs' := hrest.1
    simp only [Progress.take_objs] at hobjs
    refine ⟨by omega, fun env hfile hknown => ⟨⟨le_refl _, hvalue.2 env hfile hknown, trivial⟩, ?_⟩⟩
    exact hrest.inside hfile hknown (by omega)
  | .block body rest, k, k', b, h => by
    simp only [bindBody, Option.bind_eq_bind, Option.bind_eq_some_iff, Option.some.injEq,
      Prod.mk.injEq, Prod.exists] at h
    obtain ⟨inner, hinner, body', k₁, hbody, rest', k₂, hrest, rfl, rfl⟩ := h
    have hbody := bindBody_scoped hbody
    have hrest := bindBody_scoped hrest
    refine ⟨le_trans hbody.1 hrest.1, fun env hfile hknown => ⟨hbody.2 env hfile ?_, ?_⟩⟩
    · exact (known_cons_iff _ _ _).mpr ⟨functionSymbols_in hfile body hinner (by simp), hknown⟩
    · exact hrest.inside hfile hknown hbody.1
  | .range start stop step as body rest, k, k', b, h => by
    simp only [bindBody, Option.bind_eq_bind, Option.bind_eq_some_iff, Option.some.injEq,
      Prod.mk.injEq, Prod.exists] at h
    obtain ⟨start', k₁, hstart, stop', k₂, hstop, step', k₃, hstep, names, hnames, inner, hinner,
      body', k₄, hbody, rest', k₅, hrest, rfl, rfl⟩ := h
    have hstart := bindExpr_scoped hstart
    have hstop := bindExpr_scoped hstop
    have hstep := bindExpr_scoped hstep
    have hbody := bindBody_scoped hbody
    have hrest := bindBody_scoped hrest
    have hobjs := hstart.1
    have hobjs₂ := hstop.1
    have hobjs₃ := hstep.1
    have hobjs₄ := hbody.1
    have hobjs₅ := hrest.1
    simp only [Progress.take_objs, Progress.number_objs] at hobjs hobjs₄
    refine ⟨by omega, fun env hfile hknown => ⟨⟨le_refl _, hstart.2 env hfile hknown, ?_⟩,
      hrest.inside hfile hknown (by omega)⟩⟩
    have hfile' : ∀ decl ∈ file, decl ∈ (indexName as k₃.loops, k.objs) :: env :=
      fun decl hdecl => List.mem_cons_of_mem _ (hfile decl hdecl)
    have hknown' :=
      hknown.mono (fun decl hdecl => List.mem_cons_of_mem (indexName as k₃.loops, k.objs) hdecl)
    have hindex (name : String) :
        (BoundSymbol.plain name (indexName as k₃.loops) (some k.objs)).In
          ((indexName as k₃.loops, k.objs) :: env) := BoundSymbol.plain_in name (by simp)
    refine ⟨hstep.inside hfile' hknown' (by omega), hstop.inside hfile' hknown' (by omega),
      hstop.inside hfile' hknown' (by omega), hstep.inside hfile' hknown' (by omega),
      hbody.inside hfile' ?_ (by simp; omega), trivial⟩
    rw [known_cons_iff, known_cons_iff]
    exact ⟨functionSymbols_in hfile' body hinner (by simp),
      defineContext_in hnames (by simp [hindex]) (by simp) (by simp), hknown'⟩
  | .loop kind source as body rest, k, k', b, h => by
    simp only [bindBody, Option.bind_eq_bind, Option.bind_eq_some_iff, Option.some.injEq,
      Prod.mk.injEq, Prod.exists] at h
    obtain ⟨arg', k₁, harg, names, hnames, inner, hinner, body', k₂, hbody, rest', k₃, hrest, rfl,
      rfl⟩ := h
    have harg := bindExpr_scoped harg
    have hbody := bindBody_scoped hbody
    have hrest := bindBody_scoped hrest
    have hobjs := harg.1
    have hobjs₂ := hbody.1
    have hobjs₃ := hrest.1
    simp only [Progress.take_objs, Progress.number_objs] at hobjs hobjs₂
    refine ⟨by omega, fun env hfile hknown => ⟨?_, hrest.inside hfile hknown (by omega)⟩⟩
    apply kind.code_wellScoped as _ (k.objs + 4) (le_refl _) (harg.inside hfile hknown (by simp))
    intro env' henv hindex helement
    have hfile' : ∀ decl ∈ file, decl ∈ env' := fun decl hdecl => henv decl (hfile decl hdecl)
    have hknown' := hknown.mono henv
    apply hbody.inside hfile' _ (by simp; omega)
    rw [known_cons_iff, known_cons_iff]
    exact ⟨functionSymbols_in hfile' body hinner (by simp),
      loopSymbols_in kind hnames hknown' hindex helement, hknown'⟩
  | .inPlace name as object args body rest, k, k', b, h => by
    simp only [bindBody, Option.bind_eq_bind, Option.bind_eq_some_iff, Option.some.injEq,
      Prod.mk.injEq, Prod.exists] at h
    obtain ⟨object', k₁, hobject, args', k₂, hargs, inner, hinner, body', k₃, hbody, rest', k₄,
      hrest, rfl, rfl⟩ := h
    have hobject := bindExpr_scoped hobject
    have hargs := bindOperands_scoped hargs
    have hbody := bindBody_scoped hbody
    have hrest := bindBody_scoped hrest
    have hobjs := hobject.1
    have hobjs₂ := hargs.1
    have hobjs₃ := hbody.1
    have hobjs₄ := hrest.1
    simp only [Progress.take_objs, Progress.number_objs] at hobjs hobjs₂
    refine ⟨by omega, fun env hfile hknown => ⟨?_, hrest.inside hfile hknown (by omega)⟩⟩
    apply inPlaceCode_wellScoped name _ (k.objs + 4) (le_refl _)
      (hobject.inside hfile hknown (by simp))
    intro env' henv hindex helement
    have hfile' : ∀ decl ∈ file, decl ∈ env' := fun decl hdecl => henv decl (hfile decl hdecl)
    have hknown' : Known env' ((EachMethod.array name).symbols as _ _ :: symbols :: scopes) :=
      (known_cons_iff _ _ _).mpr ⟨EachMethod.symbols_in _ as hindex helement, hknown.mono henv⟩
    refine ⟨hargs.inside hfile' hknown' (by simp; omega), hbody.inside hfile' ?_ (by omega)⟩
    exact (known_cons_iff _ _ _).mpr ⟨functionSymbols_in hfile' body hinner (by simp), hknown'⟩
  | .fn _ _ rest, k, k', b, h => by
    rw [bindBody] at h
    exact bindBody_scoped h

end

/-! ### Functions -/

theorem globalSymbols_in {file : List (String × ℕ)} (names : List String) {symbols : Symbols}
    (h : globalSymbols file names = some symbols) :
  ∀ sym ∈ symbols, sym.In file
  := by
  induction names generalizing symbols with
  | nil =>
    cases h
    simp
  | cons name names ih =>
    simp only [globalSymbols, Option.bind_eq_bind, Option.bind_eq_some_iff] at h
    obtain ⟨symbols', hsymbols', obj, hobj, h⟩ := h
    apply defineSymbol_in h (ih hsymbols')
    exact BoundSymbol.plain_in name (by simpa using mem_of_lookup hobj)

/-- The code of a function is well scoped in its file. -/
theorem BoundFunction.code_wellScoped (f : BoundFunction) {body : BoundBody}
    (h : f.bind = some body) :
  (f.code body).WellScoped f.file f.objects.length
  := by
  simp only [BoundFunction.bind, Option.bind_eq_bind, Option.bind_eq_some_iff, Option.some.injEq,
    Prod.exists] at h
  obtain ⟨globals, hglobals, params, hparams, inner, hinner, body', k, hbody, rfl⟩ := h
  apply declareLocals_wellScoped
  intro env henv hnames
  apply (bindBody_scoped hbody).inside henv _ (le_refl _)
  rw [known_cons_iff, known_cons_iff, known_cons_iff]
  refine ⟨functionSymbols_in henv f.body hinner (by simp), defineLocals_in hparams (by simp) hnames,
    ?_, by simp [Known]⟩
  exact fun sym hsym => (globalSymbols_in f.globals hglobals sym hsym).mono henv

/-- The occurrences in a function find the objects of the file in it. -/
theorem BoundFunction.finds (f : BoundFunction) (c : Code String) :
  c.Finds f.file f.file
  := by
  intro id o _ hmem
  exact lookup_of_mem (by simpa [BoundFunction.file] using f.nodup) hmem

theorem defineLocals_nodup {names : List String} {symbols symbols' : Symbols} {obj : ℕ}
    (h : defineLocals symbols obj names = some symbols') :
  names.Nodup ∧ ∀ sym ∈ symbols, sym.name ∉ names
  := by
  induction names generalizing symbols obj with
  | nil => simp
  | cons name names ih =>
    rw [defineLocals, Option.bind_eq_bind, Option.bind_eq_some_iff] at h
    obtain ⟨inner, hinner, h⟩ := h
    obtain ⟨hnodup, hnames⟩ := ih h
    rw [defineSymbol] at hinner
    split at hinner
    · cases hinner
    · rename_i hnone
      cases hinner
      rw [List.forall_mem_cons] at hnames
      simp only [BoundSymbol.plain, List.any_eq_true, not_exists, not_and] at hnone
      refine ⟨List.nodup_cons.mpr ⟨hnames.1, hnodup⟩, fun sym hsym hmem => ?_⟩
      rcases List.mem_cons.mp hmem with heq | hmem
      · exact hnone sym hsym (decide_eq_true heq)
      · exact hnames.2 sym hsym hmem

/-- The names of a function resolve in C to the objects of their symbols exactly when all of them
stand for objects and the declarations of the C code are apart from the names in their scope. -/
theorem BoundFunction.bindings_agree_iff (f : BoundFunction) {body : BoundBody}
    (h : f.bind = some body) :
  (f.code body).Resolves f.file [] [] ↔
    (∀ use ∈ body.uses, use.2 ≠ none) ∧ f.Apart body
  := by
  have hfile : ∀ decl ∈ f.file, decl.2 < f.objects.length := by
    rintro ⟨id, o⟩ hdecl
    exact (List.mem_zipIdx' hdecl).1
  have hnodup : f.params.Nodup := by
    simp only [BoundFunction.bind, Option.bind_eq_bind, Option.bind_eq_some_iff] at h
    obtain ⟨-, -, params, hparams, -⟩ := h
    exact (defineLocals_nodup hparams).1
  rw [BlockScope.resolves_iff (f.code_wellScoped h) (fun decl h => h) hfile (by simp) (by simp)]
  have hlocals := declareLocals_apart_iff body.code f.params f.objects.length []
  rw [apartFrom_congr _ (fun use => body.mem_uses_code use), body.code_apart_iff] at hlocals
  simp only [BoundFunction.code, BoundFunction.Apart, mem_uses_declareLocals, body.mem_uses_code,
    List.append_nil] at hlocals ⊢
  have hfinds := f.finds (f.code body)
  rw [BoundFunction.code] at hfinds
  rw [hlocals]
  simp [hfinds, hnodup]

/-- The call `next(x)`. -/
def callOfNext : BodyExpr := .node (.cons none (.function "next") (.cons none (.name "x") .nil))

/-- The call `next(x)`, where `x` is a parameter. -/
def boundCallOfNext : BoundExpr :=
  .node (.cons none (.use "next" (some 0)) (.cons none (.use "x" (some 1)) .nil))

/-- A function of `x` with the given body, in a file with the function `next`. -/
def besideNext (body : Body) : BoundFunction :=
  { objects := ["next"], nodup := by simp, globals := [], params := ["x"], body := body
    renamed := [] }

/-- In `INT y = next(x)`, the parameter is found. -/
theorem BoundFunction.bindings_agree_iff_declaration :
  ((besideNext (.var "y" callOfNext .nil)).code (.declare "y" 2 boundCallOfNext .nil)).Resolves
    (besideNext (.var "y" callOfNext .nil)).file [] []
  := by
  apply (BoundFunction.bindings_agree_iff _ rfl).mpr
  simp [BoundFunction.Apart, BoundBody.Apart, BoundExpr.Apart, BoundOperands.Apart,
    BoundBody.uses, BoundExpr.uses, BoundOperands.uses, besideNext, boundCallOfNext, ApartFrom]

/-- In a block, the initializer of `INT x = next(x)` names the object that is declared. -/
theorem not_bindings_agree :
  ¬ ∀ (f : BoundFunction) (body : BoundBody), f.bind = some body →
    (f.code body).Resolves f.file [] []
  := by
  intro h
  have hresolves := h (besideNext (.block (.var "x" callOfNext .nil) .nil))
    (.block (.declare "x" 2 boundCallOfNext .nil) .nil) rfl
  simp [besideNext, boundCallOfNext, BoundFunction.code, declareLocals, BoundBody.code,
    BoundExpr.code, BoundOperands.code, Code.Resolves, lookup, BoundFunction.file] at hresolves

end Caster
