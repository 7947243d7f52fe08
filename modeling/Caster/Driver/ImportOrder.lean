import Caster.Driver.Imports

/-!
# The order of imported modules

The expansion of a program is a traversal of the graph of its imports in post-order.
-/

namespace Caster.Driver

open PostOrder Relation

variable (fs : FileSystem)

/-! ### The graph of imports -/

/-- Where a line of a module leads. -/
def lineStep (path : Path) (line : Text) : Option (Except ModuleError Path) :=
  match parseUseLine line with
  | .error e => some (.error e)
  | .ok none => none
  | .ok (some spec) => some ((resolveImportPath fs path spec).map fs.canonical)

/-- A line that is not an import. -/
def bodyLine (line : Text) : Text :=
  match parseUseLine line with
  | .ok none => line ++ ['\n']
  | _ => []

/-- The name of the module a line imports. -/
def importedName (path : Path) (line : Text) : Option Text :=
  match parseUseLine line with
  | .ok (some spec) => some (moduleNameFromPath (importPath fs path spec))
  | _ => none

/-- The lines of a module that are not imports. -/
def moduleBody (src : Text) : Text := (lines src).flatMap bodyLine

/-- The names of the modules a module imports. -/
def visibleModules (path : Path) (src : Text) : List Text := (lines src).filterMap (importedName fs path)

/-- The graph of the imports of modules. -/
def importGraph : PostOrder.Graph Path ModuleError where
  steps path :=
    match fs.read path with
    | none => [.error (.cannotOpen path)]
    | some src => (lines src).filterMap (lineStep fs path)
  check path :=
    match fs.read path with
    | none => none
    | some src =>
      match checkModules path (moduleBody src) (visibleModules fs path src) with
      | .error e => some e
      | .ok () => none

/-- The text of a module without its imports, with its names prefixed or not. -/
def moduleText (path : Path) (rewriteAsModule : Bool) : Text :=
  rewriteModule path (moduleBody ((fs.read path).getD [])) rewriteAsModule

theorem lineStep_ne_error {path : Path} {line : Text} :
  (∀ e, lineStep fs path line ≠ some (.error e)) ↔ ∃ found, parseUseLine line = .ok found ∧
    ∀ spec, found = some spec → ∃ ip, resolveImportPath fs path spec = .ok ip
  := by
  unfold lineStep
  cases hline : parseUseLine line with
  | error e => simp
  | ok found =>
    cases found with
    | none => simp
    | some spec =>
      cases hpath : resolveImportPath fs path spec with
      | error e => simp [Except.map, hpath]
      | ok ip => simp [Except.map, hpath]

/-- A module is read, its use lines are well formed and lead to files, and it names no module
that it does not import. -/
theorem passes_iff {path : Path} :
  (importGraph fs).Passes path ↔ ∃ src, fs.read path = some src ∧
    (∀ line ∈ lines src, ∃ found, parseUseLine line = .ok found ∧
      ∀ spec, found = some spec → ∃ ip, resolveImportPath fs path spec = .ok ip) ∧
    checkModules path (moduleBody src) (visibleModules fs path src) = .ok ()
  := by
  cases hread : fs.read path with
  | none =>
    constructor
    · intro h
      exact absurd (show _ ∈ _ by simp [importGraph, hread]) (h.steps (.cannotOpen path))
    · rintro ⟨src, hsrc, _⟩
      cases hsrc
  | some src =>
    have hsteps : (∀ e, .error e ∉ (importGraph fs).steps path) ↔
        ∀ line ∈ lines src, ∃ found, parseUseLine line = .ok found ∧
          ∀ spec, found = some spec → ∃ ip, resolveImportPath fs path spec = .ok ip := by
      simp only [importGraph, hread, List.mem_filterMap, not_exists, not_and, ← lineStep_ne_error]
      exact ⟨fun h line hline e => h e line hline, fun h e line hline => h line hline e⟩
    have hcheck : (importGraph fs).check path = none ↔
        checkModules path (moduleBody src) (visibleModules fs path src) = .ok () := by
      simp only [importGraph, hread]
      cases checkModules path (moduleBody src) (visibleModules fs path src) <;> simp
    constructor
    · intro h
      exact ⟨src, rfl, hsteps.mp h.steps, hcheck.mp h.check⟩
    · rintro ⟨_, hsrc, hlines, hmodules⟩
      cases hsrc
      exact ⟨hsteps.mpr hlines, hcheck.mpr hmodules⟩

/-! ### The text -/

/-- A line of a module imports another one, whose names are then prefixed or not. -/
def ImportedAs (path imported : Path) (rewriteAsModule : Bool) : Prop :=
  ∃ src, fs.read path = some src ∧ ∃ line ∈ lines src, ∃ spec ip, parseUseLine line = .ok (some spec) ∧
    resolveImportPath fs path spec = .ok ip ∧ imported = fs.canonical ip ∧
    rewriteAsModule = !isNativeImportPath ip

/-- A text is that of a module as a module that is reached from a root imports it. -/
def ImportedText (root path : Path) (text : Text) : Prop :=
  ∃ importer rewriteAsModule, (importGraph fs).Reaches root importer ∧
    ImportedAs fs importer path rewriteAsModule ∧ text = moduleText fs path rewriteAsModule

/-- A text is that of a root, or of a module that is imported. -/
def TextOf (root : Path) (rewriteAsModule : Bool) (path : Path) (text : Text) : Prop :=
  path = root ∧ text = moduleText fs path rewriteAsModule ∨ ImportedText fs root path text

/-- Some texts one behind the other, with nothing but ends of lines between them. -/
inductive Spread : List Text → Text → Prop
  | nil {gap : Text} (hgap : ∀ c ∈ gap, c = '\n') : Spread [] gap
  | cons {gap chunk text : Text} {chunks : List Text} (hgap : ∀ c ∈ gap, c = '\n')
      (hrest : Spread chunks text) : Spread (chunk :: chunks) (gap ++ chunk ++ text)

theorem Spread.gap {chunks : List Text} {text gap : Text} (h : Spread chunks text)
    (hgap : ∀ c ∈ gap, c = '\n') :
  Spread chunks (gap ++ text)
  := by
  cases h with
  | nil hgap' =>
    apply Spread.nil
    intro c hc
    exact (List.mem_append.mp hc).elim (hgap c) (hgap' c)
  | @cons gap' chunk rest chunks hgap' hrest =>
    have heq : gap ++ (gap' ++ chunk ++ rest) = (gap ++ gap') ++ chunk ++ rest := by
      simp only [List.append_assoc]
    rw [heq]
    apply Spread.cons _ hrest
    intro c hc
    exact (List.mem_append.mp hc).elim (hgap c) (hgap' c)

theorem Spread.append {chunks₁ chunks₂ : List Text} {text₁ text₂ : Text} (h₁ : Spread chunks₁ text₁)
    (h₂ : Spread chunks₂ text₂) :
  Spread (chunks₁ ++ chunks₂) (text₁ ++ text₂)
  := by
  induction h₁ with
  | nil hgap => exact h₂.gap hgap
  | cons hgap _ ih =>
    rw [List.append_assoc]
    exact Spread.cons hgap ih

theorem spread_singleton {gap : Text} (hgap : ∀ c ∈ gap, c = '\n') (chunk : Text) :
  Spread [chunk] (gap ++ chunk)
  := by
  have hnil : Spread [] [] := Spread.nil fun _ hc => absurd hc List.not_mem_nil
  simpa using Spread.cons hgap hnil

/-- The text of a module comes behind those of its imports. -/
theorem Spread.joinImports {chunks : List Text} {imports : Text} (h : Spread chunks imports) (body : Text) :
  Spread (chunks ++ [body]) (joinImports imports body)
  := by
  have hnone : Spread [body] body := spread_singleton (fun _ hc => absurd hc List.not_mem_nil) body
  have hone : Spread [body] ('\n' :: body) :=
    spread_singleton (fun _ hc => List.mem_singleton.mp hc) body
  unfold Driver.joinImports
  split_ifs with himports hbody
  · subst himports
    exact h.append hnone
  · subst hbody
    simpa using h.append hnone
  · exact h.append hone

/-! ### The traversal -/

variable {fs}

theorem resolveImportPath_ok {path ip : Path} {spec : Text} (h : resolveImportPath fs path spec = .ok ip) :
  ip = importPath fs path spec
  := by
  unfold resolveImportPath at h
  dsimp only at h
  split_ifs at h
  · cases h
    rfl

variable {expand : Path → Bool → List Path → Except ImportStop (Text × List Path)}
variable {next : Path → List Path → Except ImportStop (List Path)}

/-- A line of a module is kept, or its import is expanded. -/
theorem expandLine_ok {path : Path} {line : Text} {state state' : Expanded}
    (h : expandLine fs expand path state line = .ok state') :
  (parseUseLine line = .ok none ∧ state' = { state with body := state.body ++ line ++ ['\n'] }) ∨
    ∃ spec ip text loaded, parseUseLine line = .ok (some spec) ∧
      resolveImportPath fs path spec = .ok ip ∧
      expand ip (!isNativeImportPath ip) state.loaded = .ok (text, loaded) ∧
      state' = { state with
        imports := state.imports ++ '\n' :: text
        visibleModules := state.visibleModules ++ [moduleNameFromPath ip]
        loaded }
  := by
  unfold expandLine at h
  cases hline : parseUseLine line with
  | error e =>
    rw [hline] at h
    cases h
  | ok found =>
    cases found with
    | none =>
      rw [hline] at h
      cases h
      exact Or.inl ⟨rfl, rfl⟩
    | some spec =>
      cases hpath : resolveImportPath fs path spec with
      | error e =>
        simp only [hline, hpath, Except.mapError, bind, Except.bind] at h
        cases h
      | ok ip =>
        simp only [hline, hpath, Except.mapError, bind, Except.bind] at h
        cases hexpand : expand ip (!isNativeImportPath ip) state.loaded with
        | error stop =>
          rw [hexpand] at h
          cases h
        | ok result =>
          rw [hexpand] at h
          cases h
          exact Or.inr ⟨spec, ip, result.1, result.2, rfl, hpath, hexpand, rfl⟩

/-- What the lines of a module add to those before them. -/
theorem foldlM_expandLine_ok {path : Path} {ls : List Text} {state state' : Expanded}
    (h : ls.foldlM (expandLine fs expand path) state = .ok state') :
  state'.body = state.body ++ ls.flatMap bodyLine ∧
    state'.visibleModules = state.visibleModules ++ ls.filterMap (importedName fs path)
  := by
  induction ls generalizing state with
  | nil =>
    cases h
    simp
  | cons line ls ih =>
    rw [List.foldlM_cons] at h
    cases hfirst : expandLine fs expand path state line with
    | error stop =>
      rw [hfirst] at h
      cases h
    | ok state₁ =>
      rw [hfirst] at h
      obtain ⟨hbody, hnames⟩ := ih h
      rw [hbody, hnames]
      rcases expandLine_ok hfirst with ⟨hline, rfl⟩ | ⟨spec, ip, text, loaded, hline, hpath, _, rfl⟩
      · simp [bodyLine, importedName, hline]
      · simp [bodyLine, importedName, hline, resolveImportPath_ok hpath]

/-- The lines of a module lead where its steps do. -/
theorem foldlM_expandLine (hexpand : ∀ ip rewriteAsModule loaded,
      (expand ip rewriteAsModule loaded).map Prod.snd = next (fs.canonical ip) loaded)
    (path : Path) (ls : List Text) (state : Expanded) :
  (ls.foldlM (expandLine fs expand path) state).map Expanded.loaded =
    visitSteps next (ls.filterMap (lineStep fs path)) state.loaded
  := by
  induction ls generalizing state with
  | nil => rfl
  | cons line ls ih =>
    rw [List.foldlM_cons, List.filterMap_cons]
    cases hline : parseUseLine line with
    | error e => simp [expandLine, lineStep, hline, visitSteps, Except.mapError, bind, Except.bind, Except.map]
    | ok found =>
      cases found with
      | none =>
        simp only [expandLine, lineStep, hline, Except.mapError, bind, Except.bind]
        exact ih _
      | some spec =>
        cases hpath : resolveImportPath fs path spec with
        | error e =>
          simp [expandLine, lineStep, hline, hpath, visitSteps, Except.mapError, bind, Except.bind, Except.map]
        | ok ip =>
          have hvisit := hexpand ip (!isNativeImportPath ip) state.loaded
          simp only [expandLine, lineStep, hline, hpath, Except.mapError, bind, Except.bind, Except.map,
            visitSteps, ← hvisit]
          cases expand ip (!isNativeImportPath ip) state.loaded with
          | error stop => rfl
          | ok result => exact ih _

/-- The modules of an expansion are done in the order of the traversal. -/
theorem expandImportsFrom_loaded (n : ℕ) (loading : List Path) (rawPath : Path) (rewriteAsModule : Bool)
    (loaded : List Path) :
  (expandImportsFrom fs n loading rawPath rewriteAsModule loaded).map Prod.snd =
    visit (importGraph fs) n loading (fs.canonical rawPath) loaded
  := by
  induction n generalizing loading rawPath rewriteAsModule loaded with
  | zero => rfl
  | succ n ih =>
    unfold expandImportsFrom visit
    dsimp only
    split_ifs
    · rfl
    · rfl
    · cases hread : fs.read (fs.canonical rawPath) with
      | none => simp [importGraph, hread, visitSteps, Except.map]
      | some src =>
        have hsteps := foldlM_expandLine
          (fun ip r loaded => ih (loading ++ [fs.canonical rawPath]) ip r loaded)
          (fs.canonical rawPath) (lines src) ⟨[], [], [], loaded⟩
        have hgraph : (importGraph fs).steps (fs.canonical rawPath) =
          (lines src).filterMap (lineStep fs (fs.canonical rawPath)) := by simp [importGraph, hread]
        rw [hgraph, ← hsteps]
        cases hfold : (lines src).foldlM (expandLine fs (expandImportsFrom fs n
          (loading ++ [fs.canonical rawPath])) (fs.canonical rawPath)) ⟨[], [], [], loaded⟩ with
        | error stop =>
          simp only [hfold, bind, Except.bind, Except.map]
        | ok state =>
          obtain ⟨hbody, hnames⟩ := foldlM_expandLine_ok hfold
          have hcheck : (importGraph fs).check (fs.canonical rawPath) =
            match checkModules (fs.canonical rawPath) state.body state.visibleModules with
            | .error e => some e
            | .ok () => none := by
            rw [hbody, hnames]
            simp [importGraph, hread, moduleBody, visibleModules]
          simp only [hfold, hcheck, bind, Except.bind, Except.map]
          cases checkModules (fs.canonical rawPath) state.body state.visibleModules with
          | error e => rfl
          | ok _ => rfl

/-! ### The texts of an expansion -/

theorem ImportedAs.edge {path imported : Path} {r : Bool} (h : ImportedAs fs path imported r) :
  (importGraph fs).Edge path imported
  := by
  obtain ⟨src, hread, line, hline, spec, ip, hspec, hpath, rfl, _⟩ := h
  simp only [PostOrder.Graph.Edge, importGraph, hread, List.mem_filterMap]
  exact ⟨line, hline, by simp [lineStep, hspec, hpath, Except.map]⟩

/-- An import of a module leads to the texts of the modules the imported one leads to. -/
theorem TextOf.imported {path imported other : Path} {r : Bool} {text : Text}
    (himport : ImportedAs fs path imported r) (h : TextOf fs imported r other text) :
  ImportedText fs path other text
  := by
  rcases h with ⟨rfl, htext⟩ | ⟨importer, r', hreaches, hother, htext⟩
  · exact ⟨path, r, ReflTransGen.refl, himport, htext⟩
  · exact ⟨importer, r', ReflTransGen.head himport.edge hreaches, hother, htext⟩

/-- The modules that are done are extended by some whose texts follow one another. -/
def Emitted (textOf : Path → Text → Prop) (loaded loaded' : List Path) (text : Text) : Prop :=
  ∃ new chunks, loaded' = loaded ++ new ∧ List.Forall₂ textOf new chunks ∧ Spread chunks text

theorem emitted_refl (textOf : Path → Text → Prop) (loaded : List Path) : Emitted textOf loaded loaded [] :=
  ⟨[], [], (List.append_nil loaded).symm, List.Forall₂.nil,
    Spread.nil fun _ hc => absurd hc List.not_mem_nil⟩

theorem Emitted.trans {textOf : Path → Text → Prop} {loaded₁ loaded₂ loaded₃ : List Path} {text₁ text₂ : Text}
    (h₁ : Emitted textOf loaded₁ loaded₂ text₁) (h₂ : Emitted textOf loaded₂ loaded₃ text₂) :
  Emitted textOf loaded₁ loaded₃ (text₁ ++ text₂)
  := by
  obtain ⟨new₁, chunks₁, rfl, htexts₁, hspread₁⟩ := h₁
  obtain ⟨new₂, chunks₂, rfl, htexts₂, hspread₂⟩ := h₂
  exact ⟨new₁ ++ new₂, chunks₁ ++ chunks₂, List.append_assoc _ _ _, List.rel_append htexts₁ htexts₂,
    hspread₁.append hspread₂⟩

theorem Emitted.mono {textOf textOf' : Path → Text → Prop} {loaded loaded' : List Path} {text : Text}
    (h : Emitted textOf loaded loaded' text) (hmono : ∀ path chunk, textOf path chunk → textOf' path chunk) :
  Emitted textOf' loaded loaded' text
  := by
  obtain ⟨new, chunks, hloaded, htexts, hspread⟩ := h
  exact ⟨new, chunks, hloaded, htexts.imp fun _ _ => hmono _ _, hspread⟩

/-- The lines of a module add the texts of the modules they import. -/
theorem foldlM_expandLine_emitted {path : Path} {src : Text} (hread : fs.read path = some src)
    (hexpand : ∀ ip r loaded text loaded', expand ip r loaded = .ok (text, loaded') →
      Emitted (TextOf fs (fs.canonical ip) r) loaded loaded' text)
    {ls : List Text} (hls : ∀ line ∈ ls, line ∈ lines src) {state state' : Expanded}
    (h : ls.foldlM (expandLine fs expand path) state = .ok state') :
  ∃ text, state'.imports = state.imports ++ text ∧
    Emitted (ImportedText fs path) state.loaded state'.loaded text
  := by
  induction ls generalizing state with
  | nil =>
    cases h
    exact ⟨[], (List.append_nil _).symm, emitted_refl _ _⟩
  | cons line ls ih =>
    rw [List.foldlM_cons] at h
    cases hfirst : expandLine fs expand path state line with
    | error stop =>
      rw [hfirst] at h
      cases h
    | ok state₁ =>
      rw [hfirst] at h
      obtain ⟨text, himports, hemitted⟩ := ih (fun l hl => hls l (List.mem_cons_of_mem _ hl)) h
      rcases expandLine_ok hfirst with ⟨_, rfl⟩ | ⟨spec, ip, text₁, loaded, hline, hpath, hip, rfl⟩
      · exact ⟨text, himports, hemitted⟩
      · have himport : ImportedAs fs path (fs.canonical ip) (!isNativeImportPath ip) :=
          ⟨src, hread, line, hls line List.mem_cons_self, spec, ip, hline, hpath, rfl, rfl⟩
        obtain ⟨new, chunks, hloaded, htexts, hspread⟩ :=
          (hexpand ip _ _ _ _ hip).mono fun _ _ => TextOf.imported himport
        have hfirst : Emitted (ImportedText fs path) state.loaded loaded ('\n' :: text₁) :=
          ⟨new, chunks, hloaded, htexts, hspread.gap fun _ hc => List.mem_singleton.mp hc⟩
        refine ⟨'\n' :: text₁ ++ text, ?_, hfirst.trans hemitted⟩
        rw [himports, List.append_assoc]

/-- An expansion adds the texts of the modules that become done, in their order. -/
theorem expandImportsFrom_emitted {n : ℕ} {loading : List Path} {rawPath : Path} {r : Bool}
    {loaded loaded' : List Path} {text : Text}
    (h : expandImportsFrom fs n loading rawPath r loaded = .ok (text, loaded')) :
  Emitted (TextOf fs (fs.canonical rawPath) r) loaded loaded' text
  := by
  induction n generalizing loading rawPath r loaded loaded' text with
  | zero => cases h
  | succ n ih =>
    unfold expandImportsFrom at h
    dsimp only at h
    split_ifs at h
    · cases h
      exact emitted_refl _ _
    · cases hread : fs.read (fs.canonical rawPath) with
      | none =>
        rw [hread] at h
        cases h
      | some src =>
        simp only [hread, bind, Except.bind] at h
        cases hfold : (lines src).foldlM (expandLine fs (expandImportsFrom fs n
          (loading ++ [fs.canonical rawPath])) (fs.canonical rawPath)) ⟨[], [], [], loaded⟩ with
        | error stop =>
          rw [hfold] at h
          cases h
        | ok state =>
          simp only [hfold] at h
          cases hcheck : checkModules (fs.canonical rawPath) state.body state.visibleModules with
          | error e =>
            rw [hcheck] at h
            cases h
          | ok _ =>
            rw [hcheck] at h
            cases h
            obtain ⟨hbody, _⟩ := foldlM_expandLine_ok hfold
            obtain ⟨text, himports, new, chunks, hloaded, htexts, hspread⟩ :=
              foldlM_expandLine_emitted hread (fun ip r loaded text loaded' => ih) (fun _ hl => hl) hfold
            have htext : moduleText fs (fs.canonical rawPath) r =
              rewriteModule (fs.canonical rawPath) state.body r := by
              simp [moduleText, hread, hbody, moduleBody]
            rw [himports, List.nil_append]
            refine ⟨new ++ [fs.canonical rawPath], chunks ++ [_], ?_, ?_, hspread.joinImports _⟩
            · rw [hloaded, List.append_assoc]
            · exact List.rel_append (htexts.imp fun _ _ => Or.inr)
                (List.Forall₂.cons (Or.inl ⟨rfl, htext.symm⟩) List.Forall₂.nil)

/-! ### Fuel -/

/-- Two expansions of modules agree where the first has fuel. -/
def Agree (expand expand' : Path → Bool → List Path → Except ImportStop (Text × List Path)) : Prop :=
  ∀ ip r loaded, expand ip r loaded ≠ .error .outOfFuel → expand' ip r loaded = expand ip r loaded

theorem Agree.foldlM {expand' : Path → Bool → List Path → Except ImportStop (Text × List Path)}
    (hagree : Agree expand expand') {path : Path} {ls : List Text} {state : Expanded}
    (h : ls.foldlM (expandLine fs expand path) state ≠ .error .outOfFuel) :
  ls.foldlM (expandLine fs expand' path) state = ls.foldlM (expandLine fs expand path) state
  := by
  induction ls generalizing state with
  | nil => rfl
  | cons line ls ih =>
    rw [List.foldlM_cons] at h
    have hfirst : expandLine fs expand path state line ≠ .error .outOfFuel := by
      intro hstop
      rw [hstop] at h
      exact h rfl
    have heq : expandLine fs expand' path state line = expandLine fs expand path state line := by
      cases hline : parseUseLine line with
      | error e => simp only [expandLine, hline, Except.mapError, bind, Except.bind]
      | ok found =>
        cases found with
        | none => simp only [expandLine, hline, Except.mapError, bind, Except.bind]
        | some spec =>
          cases hpath : resolveImportPath fs path spec with
          | error e => simp only [expandLine, hline, hpath, Except.mapError, bind, Except.bind]
          | ok ip =>
            simp only [expandLine, hline, hpath, Except.mapError, bind, Except.bind] at hfirst ⊢
            rw [hagree ip _ _ fun hstop => hfirst (by rw [hstop])]
    rw [List.foldlM_cons, List.foldlM_cons, heq]
    cases hstate : expandLine fs expand path state line with
    | error stop => rfl
    | ok state₁ =>
      rw [hstate] at h
      exact ih h

/-- More fuel does not change an expansion that has enough. -/
theorem expandImportsFrom_succ (n : ℕ) (loading : List Path) :
  Agree (expandImportsFrom fs n loading) (expandImportsFrom fs (n + 1) loading)
  := by
  induction n generalizing loading with
  | zero =>
    intro rawPath r loaded h
    exact absurd rfl h
  | succ n ih =>
    intro rawPath r loaded h
    rw [expandImportsFrom] at h ⊢
    rw [expandImportsFrom]
    dsimp only at h ⊢
    split_ifs at h ⊢
    · rfl
    · rfl
    · cases hread : fs.read (fs.canonical rawPath) with
      | none => rfl
      | some src =>
        simp only [hread] at h ⊢
        have hfold : (lines src).foldlM (expandLine fs (expandImportsFrom fs n
          (loading ++ [fs.canonical rawPath])) (fs.canonical rawPath)) ⟨[], [], [], loaded⟩ ≠
            .error .outOfFuel := by
          intro hstop
          rw [hstop] at h
          exact h rfl
        rw [(ih (loading ++ [fs.canonical rawPath])).foldlM hfold]

/-- An expansion with fuel has the same result with more. -/
theorem expandImports_of_le {sourcePath : Path} {n m : ℕ} (hnm : n ≤ m)
    (h : expandImports fs n sourcePath ≠ .error .outOfFuel) :
  expandImports fs m sourcePath = expandImports fs n sourcePath
  := by
  induction m, hnm using Nat.le_induction with
  | base => rfl
  | succ m _ ih =>
    rw [← ih] at h ⊢
    have hfrom : expandImportsFrom fs (m + 1) [] sourcePath false [] ≠ .error .outOfFuel := by
      intro hstop
      rw [expandImports, hstop] at h
      exact h rfl
    rw [expandImports, expandImports, expandImportsFrom_succ (m + 1) [] sourcePath false [] hfrom]

/-! ### The result -/

/-- What an expansion of a program ends with: the texts of the modules that the root leads to,
each once and behind those it imports, an import on a cycle, or an error of a module. -/
def Ends (fs : FileSystem) (root : Path) : Except ImportStop Text → Prop
  | .ok text => ¬ (importGraph fs).ReachesCycle root ∧ ∃ order chunks,
    Ordered (importGraph fs) order ∧ (∀ path, path ∈ order ↔ (importGraph fs).Reaches root path) ∧
      List.Forall₂ (TextOf fs root false) order chunks ∧ Spread chunks text
  | .error (.cyclic path) => (importGraph fs).Reaches root path ∧ TransGen (importGraph fs).Edge path path
  | .error (.failed _) => ∃ path, (importGraph fs).Reaches root path ∧ ¬ (importGraph fs).Passes path
  | .error .outOfFuel => False

/-- An expansion stops where the traversal does. -/
theorem visit_of_expandImports_error {n : ℕ} {sourcePath : Path} {stop : ImportStop}
    (h : expandImports fs n sourcePath = .error stop) :
  visit (importGraph fs) (n + 1) [] (fs.canonical sourcePath) [] = .error stop
  := by
  rw [← expandImportsFrom_loaded (n + 1) [] sourcePath false []]
  rw [expandImports] at h
  cases hfrom : expandImportsFrom fs (n + 1) [] sourcePath false [] with
  | error stop' =>
    rw [hfrom] at h
    cases h
    rfl
  | ok result =>
    rw [hfrom] at h
    cases h

theorem expandImports_ends_of_ne {n : ℕ} {sourcePath : Path}
    (h : expandImports fs n sourcePath ≠ .error .outOfFuel) :
  Ends fs (fs.canonical sourcePath) (expandImports fs n sourcePath)
  := by
  cases hresult : expandImports fs n sourcePath with
  | error stop =>
    have hvisit := visit_of_expandImports_error hresult
    cases stop with
    | cyclic path =>
      obtain ⟨hcycle, hmem | hreaches⟩ :=
        visit_cyclic (fun _ hu => absurd hu List.not_mem_nil) hvisit
      · exact absurd hmem List.not_mem_nil
      · exact ⟨hreaches, hcycle⟩
    | failed e => exact visit_failed hvisit
    | outOfFuel => exact h hresult
  | ok text =>
    have hvisit : (expandImportsFrom fs (n + 1) [] sourcePath false []).map Prod.snd =
        visit (importGraph fs) (n + 1) [] (fs.canonical sourcePath) [] :=
      expandImportsFrom_loaded (n + 1) [] sourcePath false []
    rw [expandImports] at hresult
    cases hfrom : expandImportsFrom fs (n + 1) [] sourcePath false [] with
    | error stop =>
      rw [hfrom] at hresult
      cases hresult
    | ok result =>
      obtain ⟨text', loaded⟩ := result
      rw [hfrom] at hresult hvisit
      cases hresult
      have hvisited := visit_visited ordered_nil hvisit.symm
      obtain ⟨new, chunks, hloaded, htexts, hspread⟩ := expandImportsFrom_emitted hfrom
      obtain ⟨added, hadded, hreaches⟩ := hvisited.adds
      rw [List.nil_append] at hloaded hadded
      subst hloaded
      refine ⟨hvisited.ordered.acyclic hvisited.mem, loaded, chunks, hvisited.ordered, ?_, htexts, hspread⟩
      intro path
      constructor
      · intro hpath
        exact (hreaches path (hadded ▸ hpath)).1
      · exact hvisited.ordered.mem_of_reaches hvisited.mem

/-- The expansion of a finite program ends, with the same result for all fuel that is enough. -/
theorem expandImports_ends (fs : FileSystem) (files : Finset Path) (sourcePath : Path)
    (hroot : fs.canonical sourcePath ∈ files)
    (hfiles : ∀ path ∈ files, ∀ imported, (importGraph fs).Edge path imported → imported ∈ files) :
  ∃ result, (∀ modules, files.card ≤ modules → expandImports fs modules sourcePath = result) ∧
    Ends fs (fs.canonical sourcePath) result ∧
    ((∀ path, (importGraph fs).Reaches (fs.canonical sourcePath) path → (importGraph fs).Passes path) →
      ((∃ path, result = .error (.cyclic path)) ↔ (importGraph fs).ReachesCycle (fs.canonical sourcePath)))
  := by
  have hfuel : expandImports fs files.card sourcePath ≠ .error .outOfFuel := by
    intro hstop
    apply visit_ne_outOfFuel hfiles hroot List.nodup_nil _ _ (visit_of_expandImports_error hstop)
    · exact fun u hu => absurd hu List.not_mem_nil
    · simp
  have hends := expandImports_ends_of_ne hfuel
  refine ⟨_, fun modules hle => expandImports_of_le hle hfuel, hends, fun hpasses => ?_⟩
  constructor
  · rintro ⟨path, hcyclic⟩
    rw [hcyclic] at hends
    exact ⟨path, hends⟩
  · intro hcycle
    cases hresult : expandImports fs files.card sourcePath with
    | ok text =>
      rw [hresult] at hends
      exact absurd hcycle hends.1
    | error stop =>
      rw [hresult] at hends
      cases stop with
      | cyclic path => exact ⟨path, rfl⟩
      | failed e =>
        obtain ⟨path, hreaches, hfails⟩ := hends
        exact absurd (hpasses path hreaches) hfails
      | outOfFuel => exact hends.elim

/-- The files of a table, under canonical paths. -/
def FileSystem.ofTable (table : List (Path × Text)) : FileSystem where
  canonical path := path
  fileExists path := (table.lookup path).isSome
  read path := table.lookup path
  repoRoot := []

/-- A root that imports a module that imports itself behind one that names no import. -/
def hiddenCycle : FileSystem := .ofTable [
  ("/a.cast".toList, "use /b\nuse /c\n".toList),
  ("/b.cast".toList, "x = Foo.y\n".toList),
  ("/c.cast".toList, "use /c\n".toList)]

/-- A root that imports a module twice. -/
def diamond : FileSystem := .ofTable [
  ("/a.cast".toList, "use /b\nuse /c\n".toList),
  ("/b.cast".toList, "use /c\nx = 1\n".toList),
  ("/c.cast".toList, "y = 1\n".toList)]

/-- The expansion of the root of a diamond ends. -/
theorem expandImports_ends_diamond :
  ∃ result, (∀ modules, 3 ≤ modules → expandImports diamond modules "/a.cast".toList = result) ∧
    Ends diamond "/a.cast".toList result
  := by
  obtain ⟨result, hresult, hends, _⟩ := expandImports_ends diamond
    {"/a.cast".toList, "/b.cast".toList, "/c.cast".toList} "/a.cast".toList (by decide) (by
      have hroot : (importGraph diamond).steps "/a.cast".toList =
        [.ok "/b.cast".toList, .ok "/c.cast".toList] := rfl
      have hleft : (importGraph diamond).steps "/b.cast".toList = [.ok "/c.cast".toList] := rfl
      have hleaf : (importGraph diamond).steps "/c.cast".toList = [] := rfl
      intro path hpath imported hedge
      simp only [Finset.mem_insert, Finset.mem_singleton] at hpath ⊢
      rcases hpath with rfl | rfl | rfl <;> simp_all [PostOrder.Graph.Edge])
  exact ⟨result, fun modules hle => hresult modules hle, hends⟩

/-- A cycle is not reported when an error of a module is found before it, although all
imports lead to files that are read. -/
theorem not_expandImports_cyclic_iff :
  ¬ ∀ (fs : FileSystem) (files : Finset Path) (sourcePath : Path), fs.canonical sourcePath ∈ files →
    (∀ path ∈ files, ∀ imported, (importGraph fs).Edge path imported → imported ∈ files) →
    (∀ path, (importGraph fs).Reaches (fs.canonical sourcePath) path →
      ∀ e, .error e ∉ (importGraph fs).steps path) →
    ∀ modules, files.card ≤ modules →
      ((∃ path, expandImports fs modules sourcePath = .error (.cyclic path)) ↔
        (importGraph fs).ReachesCycle (fs.canonical sourcePath))
  := by
  intro h
  have hroot : (importGraph hiddenCycle).steps "/a.cast".toList =
    [.ok "/b.cast".toList, .ok "/c.cast".toList] := rfl
  have hunnamed : (importGraph hiddenCycle).steps "/b.cast".toList = [] := rfl
  have hself : (importGraph hiddenCycle).steps "/c.cast".toList = [.ok "/c.cast".toList] := rfl
  have hclosed : ∀ path ∈ ({"/a.cast".toList, "/b.cast".toList, "/c.cast".toList} : Finset Path),
      ∀ imported, (importGraph hiddenCycle).Edge path imported →
        imported ∈ ({"/a.cast".toList, "/b.cast".toList, "/c.cast".toList} : Finset Path) := by
    intro path hpath imported hedge
    simp only [Finset.mem_insert, Finset.mem_singleton] at hpath ⊢
    rcases hpath with rfl | rfl | rfl <;> simp_all [PostOrder.Graph.Edge]
  have hcyclic := h hiddenCycle _ "/a.cast".toList (by decide) hclosed (by
    intro path hpath e
    have hmem := hpath.mem hclosed (by decide)
    simp only [Finset.mem_insert, Finset.mem_singleton] at hmem
    rcases hmem with rfl | rfl | rfl <;> simp_all) 3 (by decide)
  have hresult : expandImports hiddenCycle 3 "/a.cast".toList =
    .error (.failed (.notImported "/b.cast".toList "Foo".toList)) := rfl
  have hcycle : (importGraph hiddenCycle).ReachesCycle "/a.cast".toList := by
    refine ⟨"/c.cast".toList, ReflTransGen.single ?_, TransGen.single ?_⟩
    · rw [PostOrder.Graph.Edge, hroot]
      exact List.mem_cons_of_mem _ List.mem_cons_self
    · rw [PostOrder.Graph.Edge, hself]
      exact List.mem_cons_self
  obtain ⟨path, hpath⟩ := hcyclic.mpr hcycle
  rw [hresult] at hpath
  cases hpath

end Caster.Driver
