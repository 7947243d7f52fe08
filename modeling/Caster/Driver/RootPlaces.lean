import Caster.Driver.ImportOrder
import Caster.Driver.Prefixing
import Caster.Lex.Positions

/-!
# Places of the tokens of a root file

The expansion of a root file takes its import lines out and puts the texts of the imports before
the rest.  The lexer counts the lines of what it is given, so the tokens of the root file move by
the difference.
-/

namespace Caster.Driver

open Insertions TextPlaces
open Caster.Lex (lexSource tokenStarts)
open Parse (Token)

attribute [local instance] lawfulBEq_text

/-! ### Lines -/

/-- A line and its end. -/
def lineText (line : Text) : Text := line ++ ['\n']

/-- What is taken out at a line. -/
def useText (line : Text) : Text :=
  match parseUseLine line with
  | .ok none => []
  | _ => lineText line

/-- The lines of a text are the text, up to the end of the last one. -/
theorem flatMap_lineText (src : Text) :
  ∃ gap, (lines src).flatMap lineText = src ++ gap ∧ gap.length ≤ 1
  := by
  have hfrom : ∀ n (src : Text), src.length ≤ n →
      ∃ gap, (linesFrom n src).flatMap lineText = src ++ gap ∧ gap.length ≤ 1 := by
    intro n
    induction n with
    | zero =>
      intro src hn
      obtain rfl := List.length_eq_zero_iff.mp (Nat.le_zero.mp hn)
      use []
      simp [linesFrom]
    | succ n ih =>
      intro src hn
      cases src with
      | nil =>
        use []
        simp [linesFrom]
      | cons c rest =>
        have hsplit := List.takeWhile_append_dropWhile (p := (· ≠ '\n')) (l := c :: rest)
        have hlength := congrArg List.length hsplit
        rw [List.length_append] at hlength
        simp only [linesFrom, List.flatMap_cons, lineText]
        cases hbehind : (c :: rest).dropWhile (· ≠ '\n') with
        | nil =>
          rw [hbehind, List.append_nil] at hsplit
          use ['\n']
          rw [hsplit]
          cases n <;> simp [linesFrom]
        | cons d behind =>
          have hend : d = '\n' := by
            have hhead := List.head?_dropWhile_not (· ≠ '\n') (c :: rest)
            simpa only [hbehind, List.head?_cons, decide_eq_false_iff_not, not_not] using hhead
          subst hend
          rw [hbehind] at hsplit hlength
          rw [List.length_cons] at hlength hn
          obtain ⟨gap, hgap, hle⟩ := ih behind (by rw [List.length_cons] at hlength; omega)
          use gap
          rw [List.drop_one, List.tail_cons]
          refine ⟨?_, hle⟩
          rw [hgap]
          conv_rhs => rw [← hsplit]
          simp
  exact hfrom src.length src le_rfl

theorem whole_lineText (line : Text) : Whole (lineText line) := whole_line line

/-- A line is kept or taken out. -/
theorem bodyLine_or_useText (line : Text) :
  bodyLine line = [] ∧ useText line = lineText line ∨
    bodyLine line = lineText line ∧ useText line = []
  := by
  unfold bodyLine useText
  cases parseUseLine line with
  | error e => exact .inl ⟨rfl, rfl⟩
  | ok found =>
    cases found with
    | none => exact .inr ⟨rfl, rfl⟩
    | some spec => exact .inl ⟨rfl, rfl⟩

theorem whole_bodyLine (line : Text) : Whole (bodyLine line) := by
  rcases bodyLine_or_useText line with ⟨hbody, -⟩ | ⟨hbody, -⟩
  · rw [hbody]
    exact whole_nil
  · rw [hbody]
    exact whole_lineText line

theorem whole_moduleBody (src : Text) : Whole (moduleBody src) :=
  whole_flatMap fun line _ => whole_bodyLine line

/-- The ends of lines of a text are those of the lines that are kept and of those that are
taken out. -/
theorem lineEnds_flatMap_lineText (ls : List Text) :
  lineEnds (ls.flatMap lineText) = lineEnds (ls.flatMap bodyLine) + lineEnds (ls.flatMap useText)
  := by
  induction ls with
  | nil => rfl
  | cons line ls ih =>
    simp only [List.flatMap_cons]
    rw [lineEnds_append ((whole_lineText line).between _), ih]
    rcases bodyLine_or_useText line with ⟨hbody, huse⟩ | ⟨hbody, huse⟩
    · rw [hbody, huse, List.nil_append, lineEnds_append ((whole_lineText line).between _)]
      omega
    · rw [hbody, huse, List.nil_append, lineEnds_append ((whole_lineText line).between _)]
      omega

/-! ### Characters of a root file -/

/-- A position in a line of a root file that is no import: the lines before it, and the
characters of the line on both sides. -/
structure RootPosition (src : Text) where
  before : List Text
  front : Text
  after : Text
  rest : List Text
  lines_eq : lines src = before ++ (front ++ after) :: rest
  kept : parseUseLine (front ++ after) = .ok none

namespace RootPosition

variable {src : Text} (r : RootPosition src)

/-- The number of characters before the position in the root file. -/
def start : ℕ := (r.before.flatMap lineText).length + r.front.length

/-- What the expansion keeps of the root file before the position. -/
def bodyBefore : Text := r.before.flatMap bodyLine ++ r.front

/-- What the expansion keeps of the root file behind the position. -/
def bodyAfter : Text := r.after ++ '\n' :: r.rest.flatMap bodyLine

/-- The ends of lines that are taken out of the root file before the position. -/
def removedEnds : ℕ := lineEnds (r.before.flatMap useText)

theorem moduleBody_eq : moduleBody src = r.bodyBefore ++ r.bodyAfter := by
  unfold moduleBody bodyBefore bodyAfter
  rw [r.lines_eq, List.flatMap_append, List.flatMap_cons, bodyLine, r.kept]
  simp

theorem take_start : src.take r.start = r.before.flatMap lineText ++ r.front := by
  obtain ⟨gap, hgap, hle⟩ := flatMap_lineText src
  have hlength := congrArg List.length hgap
  rw [r.lines_eq, List.flatMap_append, List.flatMap_cons] at hgap hlength
  simp only [lineText, List.length_append, List.length_cons, List.length_nil] at hlength
  have hstart : r.start ≤ src.length := by
    unfold start
    simp only [lineText] at *
    omega
  have htake : (src ++ gap).take r.start = src.take r.start :=
    List.take_append_of_le_length hstart
  rw [← htake, ← hgap, start, ← List.length_append,
    lineText, List.append_assoc, List.append_assoc, ← List.append_assoc _ r.front, List.take_left]

theorem insertFrom_bodyAfter_ne_nil (mark : ℕ → Bool) (pre : Text) (i : ℕ) :
  insertFrom mark pre i r.bodyAfter ≠ []
  := by
  apply List.ne_nil_of_length_pos
  have hle : r.bodyAfter.length ≤ (insertFrom mark pre i r.bodyAfter).length :=
    length_le_insertFrom i r.bodyAfter
  apply Nat.lt_of_lt_of_le _ hle
  simp [bodyAfter]

/-- The place of the position in the root file. -/
theorem placeAfter_start :
  placeAfter (src.take r.start) =
    ⟨r.removedEnds + (placeAfter r.bodyBefore).line, (placeAfter r.bodyBefore).col⟩
  := by
  have hlines : Whole (r.before.flatMap lineText) := whole_flatMap fun line _ => whole_lineText line
  have hbody : Whole (r.before.flatMap bodyLine) := whole_flatMap fun line _ => whole_bodyLine line
  rw [take_start, bodyBefore, hlines.placeAfter_append, hbody.placeAfter_append,
    lineEnds_flatMap_lineText, removedEnds]
  congr 1
  simp only
  omega

end RootPosition

/-! ### Names that are prefixed -/

/-- The places of the identifiers of a native module that are prefixed. -/
def nativePrefixedPlaces (src : Text) : List ℕ :=
  prefixedPlaces (shouldPrefixNativeIdent (collectNativeFunctionNames src)) (parts src)

theorem prefixedPlaces_of_never {shouldPrefix : Text → Text → Text → Bool}
    (h : ∀ before name after, shouldPrefix before name after = false) (ps : List Part) :
  prefixedPlaces shouldPrefix ps = []
  := by
  induction ps with
  | nil => rfl
  | cons part ps ih =>
    cases part with
    | ident before name after => simpa [prefixedPlaces, h] using ih
    | chars mode text => exact ih

/-- The text of a native module is rewritten by what is put before its identifiers. -/
theorem rewriteNativeModuleSource_eq (src pre : Text) :
  rewriteNativeModuleSource src pre = insertFrom (fun i => i ∈ nativePrefixedPlaces src) pre 0 src
  := by
  unfold rewriteNativeModuleSource
  dsimp only
  split_ifs with hnames
  · have hnone : nativePrefixedPlaces src = [] := by
      apply prefixedPlaces_of_never
      simp [shouldPrefixNativeIdent, hnames]
    rw [hnone]
    exact (insertFrom_unmarked 0 src).symm
  · exact flatMap_rewritePart le_rfl (behindDigits_start src)

/-- The places of a root file behind its imports where its prefix is put: some if the file is a
native module, otherwise none. -/
def rootMarks (path : Path) (body : Text) (i : ℕ) : Bool :=
  isNativeImportPath path && i ∈ nativePrefixedPlaces body

theorem rewriteModule_root (path : Path) (body : Text) :
  rewriteModule path body false =
    insertFrom (rootMarks path body) (modulePrefixFromPath path) 0 body
  := by
  unfold rewriteModule rootMarks
  cases isNativeImportPath path with
  | true => simpa using rewriteNativeModuleSource_eq body (modulePrefixFromPath path)
  | false => simpa using (insertFrom_unmarked 0 body).symm

theorem getLast?_insertFrom {mark : ℕ → Bool} {pre : Text} (i : ℕ) (text : Text) :
  (insertFrom mark pre i text).getLast? = text.getLast?
  := by
  induction text generalizing i with
  | nil => rfl
  | cons c rest ih =>
    cases rest with
    | nil => simp [insertFrom]
    | cons d rest =>
      have hne : insertFrom mark pre (i + 1) (d :: rest) ≠ [] := by simp [insertFrom]
      rw [insertFrom, List.getLast?_append_of_ne_nil _ (List.cons_ne_nil _ _),
        List.getLast?_cons_of_ne_nil hne, ih, List.getLast?_cons_cons]

/-- The rewriting of a module keeps its lines whole. -/
theorem whole_rewriteModule {path : Path} {body : Text} (h : Whole body) (rewriteAsModule : Bool) :
  Whole (rewriteModule path body rewriteAsModule)
  := by
  unfold rewriteModule
  split_ifs
  · rw [rewriteNativeModuleSource_eq, Whole, getLast?_insertFrom]
    exact h
  · rw [rewriteLocalModuleSource_eq, Whole, getLast?_insertFrom]
    exact h
  · exact h

/-! ### Ends of lines of the imports -/

section

variable (fs : FileSystem)

/-- The paths of the modules that some lines of a module import. -/
def importPaths (path : Path) (ls : List Text) : List Path :=
  ls.filterMap fun line =>
    match parseUseLine line with
    | .ok (some spec) => some (importPath fs path spec)
    | _ => none

/-- The ends of lines that some imports bring, each with a line feed before it, given those one
module brings, and the modules that are done then. -/
def importEnds (load : Path → List Path → ℕ × List Path) : List Path → List Path → ℕ × List Path
  | [], loaded => (0, loaded)
  | ip :: ips, loaded =>
    let (ends, loaded) := load ip loaded
    let (others, loaded) := importEnds load ips loaded
    (1 + ends + others, loaded)

/-- The ends of lines of a module behind its imports, with a line feed between them. -/
def joinedEnds (ends : ℕ) (body : Text) : ℕ :=
  if ends = 0 then lineEnds body else if body = [] then ends else ends + 1 + lineEnds body

/-- The ends of lines of the files that an import of a module loads, none if it is done already,
and the modules that are done then. -/
def loadedEnds : ℕ → Path → List Path → ℕ × List Path
  | 0, _, loaded => (0, loaded)
  | n + 1, ip, loaded =>
    let path := fs.canonical ip
    if path ∈ loaded then (0, loaded)
    else
      let ips := importPaths fs path (lines ((fs.read path).getD []))
      let (ends, loaded) := importEnds (loadedEnds n) ips loaded
      (joinedEnds ends (moduleText fs path (!isNativeImportPath ip)), loaded ++ [path])

/-- The ends of lines before the lines of a root file: those its imports bring and one behind
them. -/
def addedEnds (modules : ℕ) (path : Path) (src : Text) : ℕ :=
  let ends := (importEnds (loadedEnds fs modules) (importPaths fs path (lines src)) []).1
  if ends = 0 then 0 else ends + 1

end

variable {fs : FileSystem}
variable {expand : Path → Bool → List Path → Except ImportStop (Text × List Path)}
variable {load : Path → List Path → ℕ × List Path}

/-- The texts of some imports: whole lines that start with an empty one. -/
structure ImportTexts (imports : Text) : Prop where
  whole : Whole imports
  starts : imports = [] ∨ imports.head? = some '\n'

theorem ImportTexts.eq_nil_iff {imports : Text} (h : ImportTexts imports) :
  lineEnds imports = 0 ↔ imports = []
  := by
  constructor
  · intro hends
    rcases h.starts with hnil | hhead
    · exact hnil
    · obtain ⟨rest, rfl⟩ := List.head?_eq_some_iff.mp hhead
      simp [lineEnds] at hends
  · rintro rfl
    rfl

theorem lineEnds_joinImports {imports body : Text} (h : ImportTexts imports) :
  lineEnds (joinImports imports body) = joinedEnds (lineEnds imports) body
  := by
  unfold joinImports joinedEnds
  rw [if_congr h.eq_nil_iff rfl rfl]
  split_ifs with himports hbody
  · rfl
  · rfl
  · rw [lineEnds_append (h.whole.between _), lineEnds]
    simp only [true_or, if_true]
    omega

theorem whole_joinImports {imports body : Text} (h : ImportTexts imports) (hbody : Whole body) :
  Whole (joinImports imports body)
  := by
  unfold joinImports
  split_ifs
  · exact hbody
  · exact h.whole
  · exact h.whole.append ((whole_line []).append hbody)

/-- An expansion gives whole lines, and as many of them as are counted. -/
def Counts (expand : Path → Bool → List Path → Except ImportStop (Text × List Path))
    (load : Path → List Path → ℕ × List Path) : Prop :=
  ∀ ip loaded text loaded', expand ip (!isNativeImportPath ip) loaded = .ok (text, loaded') →
    Whole text ∧ load ip loaded = (lineEnds text, loaded')

/-- The ends of lines of the texts that some lines import. -/
theorem foldlM_ends (hcounts : Counts expand load) {path : Path} {ls : List Text}
    {state state' : Expanded} (h : ls.foldlM (expandLine fs expand path) state = .ok state')
    (hstate : ImportTexts state.imports) :
  ImportTexts state'.imports ∧
    lineEnds state'.imports =
      lineEnds state.imports + (importEnds load (importPaths fs path ls) state.loaded).1 ∧
    state'.loaded = (importEnds load (importPaths fs path ls) state.loaded).2
  := by
  induction ls generalizing state with
  | nil =>
    cases h
    exact ⟨hstate, rfl, rfl⟩
  | cons line ls ih =>
    rw [List.foldlM_cons] at h
    cases hfirst : expandLine fs expand path state line with
    | error stop =>
      rw [hfirst] at h
      cases h
    | ok state₁ =>
      rw [hfirst] at h
      rcases expandLine_ok hfirst with
        ⟨hline, rfl⟩ | ⟨spec, ip, text, loaded, hline, hpath, hexpand, rfl⟩
      · have hpaths : importPaths fs path (line :: ls) = importPaths fs path ls := by
          simp [importPaths, hline]
        have hrest : ls.foldlM (expandLine fs expand path)
            { state with body := state.body ++ line ++ ['\n'] } = .ok state' := h
        have hkept := ih hrest hstate
        rwa [hpaths]
      · have hpaths : importPaths fs path (line :: ls) = ip :: importPaths fs path ls := by
          simp [importPaths, hline, resolveImportPath_ok hpath]
        obtain ⟨hwhole, hload⟩ := hcounts _ _ _ _ hexpand
        have hnext : ImportTexts (state.imports ++ '\n' :: text) := by
          constructor
          · exact hstate.whole.append ((whole_line []).append hwhole)
          · right
            rcases hstate.starts with hnil | hhead
            · rw [hnil]
              rfl
            · rw [List.head?_append, hhead]
              rfl
        obtain ⟨htexts, hends, hloaded⟩ := ih h hnext
        refine ⟨htexts, ?_, ?_⟩
        · rw [hends, lineEnds_append (hstate.whole.between _), hpaths, importEnds, hload, lineEnds]
          simp only [true_or, if_true]
          omega
        · rw [hloaded, hpaths, importEnds, hload]

/-- The expansion of a module and the count of its lines. -/
theorem expandImportsFrom_ends (n : ℕ) (loading : List Path) {rawPath : Path}
    {rewriteAsModule : Bool} {loaded loaded' : List Path} {text : Text}
    (h : expandImportsFrom fs n loading rawPath rewriteAsModule loaded = .ok (text, loaded')) :
  (fs.canonical rawPath ∈ loaded ∧ text = [] ∧ loaded' = loaded) ∨
    fs.canonical rawPath ∉ loaded ∧ ∃ src state, fs.read (fs.canonical rawPath) = some src ∧
      (lines src).foldlM (expandLine fs (expandImportsFrom fs (n - 1)
        (loading ++ [fs.canonical rawPath])) (fs.canonical rawPath)) ⟨[], [], [], loaded⟩ =
          .ok state ∧
      text = joinImports state.imports
        (rewriteModule (fs.canonical rawPath) (moduleBody src) rewriteAsModule) ∧
      loaded' = state.loaded ++ [fs.canonical rawPath]
  := by
  cases n with
  | zero => cases h
  | succ n =>
    simp only [expandImportsFrom] at h
    split_ifs at h with hloading hloaded
    · cases h
      exact .inl ⟨hloaded, rfl, rfl⟩
    · cases hread : fs.read (fs.canonical rawPath) with
      | none =>
        rw [hread] at h
        cases h
      | some src =>
        rw [hread] at h
        simp only [bind, Except.bind] at h
        cases hfold : (lines src).foldlM (expandLine fs (expandImportsFrom fs n
            (loading ++ [fs.canonical rawPath])) (fs.canonical rawPath)) ⟨[], [], [], loaded⟩ with
        | error stop =>
          rw [hfold] at h
          cases h
        | ok state =>
          rw [hfold] at h
          simp only at h
          cases hcheck : (checkModules (fs.canonical rawPath) state.body
              state.visibleModules).mapError PostOrder.Stop.failed with
          | error stop =>
            rw [hcheck] at h
            cases h
          | ok _ =>
            rw [hcheck] at h
            cases h
            have hbody : state.body = moduleBody src := by
              simpa [moduleBody] using (foldlM_expandLine_ok hfold).1
            refine .inr ⟨hloaded, src, state, rfl, hfold, ?_, rfl⟩
            rw [hbody]

theorem counts_loadedEnds (n : ℕ) (loading : List Path) :
  Counts (expandImportsFrom fs n loading) (loadedEnds fs n)
  := by
  induction n generalizing loading with
  | zero =>
    intro ip loaded text loaded' h
    cases h
  | succ n ih =>
    intro ip loaded text loaded' h
    rcases expandImportsFrom_ends (n + 1) loading h with
      ⟨hmem, rfl, rfl⟩ | ⟨hmem, src, state, hread, hfold, rfl, rfl⟩
    · refine ⟨whole_nil, ?_⟩
      simp only [loadedEnds, if_pos hmem]
      rfl
    · obtain ⟨htexts, hends, hloaded⟩ := foldlM_ends (ih _) hfold ⟨whole_nil, .inl rfl⟩
      refine ⟨whole_joinImports htexts (whole_rewriteModule (whole_moduleBody src) _), ?_⟩
      rw [lineEnds_joinImports htexts, hends, hloaded]
      simp [loadedEnds, hmem, hread, moduleText, lineEnds]

/-! ### Places -/

/-- A token of a text and the number of characters before it. -/
def TokenAt (src : Text) (tok : Token) (start : ℕ) : Prop :=
  ∃ toks starts, lexSource src = .ok toks ∧ tokenStarts src = .ok starts ∧
    (tok, start) ∈ toks.zip starts

theorem TokenAt.place {src : Text} {tok : Token} {start : ℕ} (h : TokenAt src tok start) :
  Lex.place tok = placeAfter (src.take start)
  := by
  obtain ⟨toks, starts, htoks, hstarts, hmem⟩ := h
  obtain ⟨⟨starts', hstarts', hall⟩, -⟩ := Lex.lexSource_places htoks
  rw [hstarts] at hstarts'
  cases hstarts'
  exact ((List.forall₂_iff_zip.mp hall).2 hmem).place

/-- A token of a root file survives the expansion: both texts have it, and behind its start the
expansion goes on with what it keeps of the file. -/
structure Survives (path : Path) (src text : Text) (r : RootPosition src) (tok tok' : Token) :
    Prop where
  source : TokenAt src tok r.start
  expanded : ∃ start, TokenAt text tok' start ∧
    text.drop start = insertFrom (rootMarks path (moduleBody src)) (modulePrefixFromPath path)
      r.bodyBefore.length r.bodyAfter
  same : tok'.kind = tok.kind ∧ tok'.text = tok.text

/-- What the expansion keeps of a root file before a position, with the names prefixed that the
rewriting of a native module prefixes. -/
def RootPosition.rewritten {src : Text} (r : RootPosition src) (path : Path) : Text :=
  insertFrom (rootMarks path (moduleBody src)) (modulePrefixFromPath path) 0 r.bodyBefore

/-- The expansion of a root file ends with what it keeps of the file. -/
theorem expandImports_eq {modules : ℕ} {sourcePath : Path} {src text : Text}
    (hread : fs.read (fs.canonical sourcePath) = some src)
    (h : expandImports fs modules sourcePath = .ok text) (r : RootPosition src) :
  ∃ head, Whole head ∧ lineEnds head = addedEnds fs modules (fs.canonical sourcePath) src ∧
    text = head ++ r.rewritten (fs.canonical sourcePath) ++
      insertFrom (rootMarks (fs.canonical sourcePath) (moduleBody src))
        (modulePrefixFromPath (fs.canonical sourcePath)) r.bodyBefore.length r.bodyAfter
  := by
  obtain ⟨⟨text', loaded⟩, hexpand, heq⟩ := Lex.except_map_eq_ok h
  obtain rfl : text' = text := heq
  rcases expandImportsFrom_ends _ _ hexpand with
    ⟨hmem, -⟩ | ⟨-, src', state, hread', hfold, htext, -⟩
  · cases hmem
  · obtain rfl : src = src' := Option.some.inj (hread.symm.trans hread')
    obtain ⟨htexts, hends, -⟩ :=
      foldlM_ends (counts_loadedEnds modules _) hfold ⟨whole_nil, .inl rfl⟩
    have hbody := congrArg (insertFrom (rootMarks (fs.canonical sourcePath) (moduleBody src))
      (modulePrefixFromPath (fs.canonical sourcePath)) 0) r.moduleBody_eq
    rw [insertFrom_append, Nat.zero_add, ← rewriteModule_root] at hbody
    simp only [lineEnds, Nat.zero_add] at hends
    unfold addedEnds
    simp only [← hends, htexts.eq_nil_iff]
    rw [htext, hbody, joinImports]
    split_ifs with himports hempty
    · use []
      exact ⟨whole_nil, rfl, rfl⟩
    · exact absurd (List.append_eq_nil_iff.mp hempty).2 (r.insertFrom_bodyAfter_ne_nil _ _ _)
    · use state.imports ++ ['\n']
      refine ⟨whole_line _, ?_, ?_⟩
      · rw [lineEnds_append (htexts.whole.between _)]
        rfl
      · simp [RootPosition.rewritten]

/-- A text up to the start of its end. -/
theorem take_of_drop {text front back : Text} {start : ℕ} (htext : text = front ++ back)
    (hback : back ≠ []) (h : text.drop start = back) :
  text.take start = front
  := by
  have hlength := congrArg List.length htext
  have hdrop := congrArg List.length h
  have hpos := List.length_pos_of_ne_nil hback
  rw [List.length_append] at hlength
  rw [List.length_drop] at hdrop
  obtain rfl : start = front.length := by omega
  rw [htext, List.take_left]

/-- The places of a token of a root file in the expansion and in the file. -/
theorem places_survives {modules : ℕ} {sourcePath : Path} {src text : Text}
    (hread : fs.read (fs.canonical sourcePath) = some src)
    (h : expandImports fs modules sourcePath = .ok text) (r : RootPosition src) {tok tok' : Token}
    (hsurvives : Survives (fs.canonical sourcePath) src text r tok tok') :
  Lex.place tok' = ⟨addedEnds fs modules (fs.canonical sourcePath) src +
      (placeAfter (r.rewritten (fs.canonical sourcePath))).line,
    (placeAfter (r.rewritten (fs.canonical sourcePath))).col⟩ ∧
  Lex.place tok =
    ⟨r.removedEnds + (placeAfter r.bodyBefore).line, (placeAfter r.bodyBefore).col⟩
  := by
  obtain ⟨head, hhead, hends, htext⟩ := expandImports_eq hread h r
  obtain ⟨start, htok', hdrop⟩ := hsurvives.expanded
  have hback := r.insertFrom_bodyAfter_ne_nil (rootMarks (fs.canonical sourcePath) (moduleBody src))
    (modulePrefixFromPath (fs.canonical sourcePath)) r.bodyBefore.length
  constructor
  · rw [htok'.place, take_of_drop htext hback hdrop, hhead.placeAfter_append, hends]
  · rw [hsurvives.source.place, r.placeAfter_start]

/-- A token of a root file that survives the expansion has the place it has in the file if and
only if the imports bring as many ends of lines as are taken out before it, and no name before
it on its line is prefixed. -/
theorem place_survives_iff {modules : ℕ} {sourcePath : Path} {src text : Text}
    (hread : fs.read (fs.canonical sourcePath) = some src)
    (h : expandImports fs modules sourcePath = .ok text) (r : RootPosition src) {tok tok' : Token}
    (hsurvives : Survives (fs.canonical sourcePath) src text r tok tok') :
  Lex.place tok' = Lex.place tok ↔
    addedEnds fs modules (fs.canonical sourcePath) src +
        lineEnds (r.rewritten (fs.canonical sourcePath)) =
      r.removedEnds + lineEnds r.bodyBefore ∧
    (lastLine (r.rewritten (fs.canonical sourcePath))).length = (lastLine r.bodyBefore).length
  := by
  obtain ⟨hplace', hplace⟩ := places_survives hread h r hsurvives
  rw [hplace', hplace]
  simp only [placeAfter, Place.mk.injEq]
  omega

/-- A root file whose second line imports a module of one line. -/
def oneImport : FileSystem := .ofTable [
  ("/a.cast".toList, "use /b\nx\n".toList),
  ("/b.cast".toList, "y\n".toList)]

/-- The start of the second line. -/
def oneImportPosition : RootPosition "use /b\nx\n".toList where
  before := ["use /b".toList]
  front := []
  after := ['x']
  rest := []
  lines_eq := rfl
  kept := rfl

theorem survives_oneImport :
  Survives "/a.cast".toList "use /b\nx\n".toList "\ny\n\nx\n".toList oneImportPosition
    ⟨.NAME, "x", 2, 1⟩ ⟨.NAME, "x", 4, 1⟩
  := by
  constructor
  · exact ⟨_, _, rfl, rfl, .tail _ (.tail _ (.tail _ (.tail _ (.head _))))⟩
  · exact ⟨4, ⟨_, _, rfl, rfl, .tail _ (.tail _ (.tail _ (.tail _ (.head _))))⟩, rfl⟩
  · exact ⟨rfl, rfl⟩

theorem place_survives_oneImport :
  Lex.place ⟨.NAME, "x", 4, 1⟩ = Lex.place ⟨.NAME, "x", 2, 1⟩ ↔
    addedEnds oneImport 2 "/a.cast".toList "use /b\nx\n".toList +
        lineEnds (oneImportPosition.rewritten "/a.cast".toList) =
      oneImportPosition.removedEnds + lineEnds oneImportPosition.bodyBefore ∧
    (lastLine (oneImportPosition.rewritten "/a.cast".toList)).length =
      (lastLine oneImportPosition.bodyBefore).length
  := @place_survives_iff oneImport 2 "/a.cast".toList _ _ rfl rfl oneImportPosition _ _
    survives_oneImport

/-- The token of the second line of a root file is given the fourth line. -/
theorem not_place_survives :
  ¬ ∀ (fs : FileSystem) (modules : ℕ) (sourcePath : Path) (src text : Text),
    fs.read (fs.canonical sourcePath) = some src → expandImports fs modules sourcePath = .ok text →
      ∀ (r : RootPosition src) (tok tok' : Token),
        Survives (fs.canonical sourcePath) src text r tok tok' → Lex.place tok' = Lex.place tok
  := by
  intro h
  have hplace := h oneImport 2 "/a.cast".toList _ _ rfl rfl oneImportPosition _ _ survives_oneImport
  cases hplace

/-! ### Files with imports -/

theorem RootPosition.rewritten_of_not_native {src : Text} (r : RootPosition src) {path : Path}
    (h : isNativeImportPath path = false) :
  r.rewritten path = r.bodyBefore
  := by
  apply insertFrom_clear
  simp [rootMarks, h]

/-- Each import brings a line of its own. -/
theorem length_le_importEnds (ips loaded : List Path) :
  ips.length ≤ (importEnds load ips loaded).1
  := by
  induction ips generalizing loaded with
  | nil => exact Nat.zero_le _
  | cons ip ips ih =>
    have := ih (load ip loaded).2
    simp only [importEnds, List.length_cons]
    omega

/-- No more lines are taken out than there are imports. -/
theorem lineEnds_useText_le {path : Path} {ls : List Text} {state state' : Expanded}
    (h : ls.foldlM (expandLine fs expand path) state = .ok state')
    (hone : ∀ line ∈ ls, lineEnds (useText line) ≤ 1) :
  lineEnds (ls.flatMap useText) ≤ (importPaths fs path ls).length
  := by
  induction ls generalizing state with
  | nil => exact Nat.zero_le _
  | cons line ls ih =>
    rw [List.foldlM_cons] at h
    cases hfirst : expandLine fs expand path state line with
    | error stop =>
      rw [hfirst] at h
      cases h
    | ok state₁ =>
      rw [hfirst] at h
      have hrest := ih h fun l hl => hone l (by simp [hl])
      rw [List.flatMap_cons]
      rcases expandLine_ok hfirst with
        ⟨hline, rfl⟩ | ⟨spec, ip, text, loaded, hline, hpath, hexpand, rfl⟩
      · simpa [useText, importPaths, hline] using hrest
      · have hfirst' := hone line (by simp)
        have huse : useText line = lineText line := by rw [useText, hline]
        have hpaths : importPaths fs path (line :: ls) =
            importPath fs path spec :: importPaths fs path ls := by
          simp [importPaths, hline]
        rw [huse] at hfirst' ⊢
        rw [lineEnds_append ((whole_lineText line).between _), hpaths, List.length_cons]
        omega

/-- In a file with imports, each on a line of its own, every token moves down. -/
theorem line_lt_of_imports {modules : ℕ} {sourcePath : Path} {src text : Text}
    (hread : fs.read (fs.canonical sourcePath) = some src)
    (h : expandImports fs modules sourcePath = .ok text) (r : RootPosition src) {tok tok' : Token}
    (hsurvives : Survives (fs.canonical sourcePath) src text r tok tok')
    (hlocal : isNativeImportPath (fs.canonical sourcePath) = false)
    (himports : importPaths fs (fs.canonical sourcePath) (lines src) ≠ [])
    (hone : ∀ line ∈ lines src, lineEnds (useText line) ≤ 1) :
  tok.line < tok'.line
  := by
  obtain ⟨hplace', hplace⟩ := places_survives hread h r hsurvives
  rw [r.rewritten_of_not_native hlocal] at hplace'
  have hline' := congrArg Place.line hplace'
  have hline := congrArg Place.line hplace
  simp only [Lex.place] at hline' hline
  have hremoved : r.removedEnds < addedEnds fs modules (fs.canonical sourcePath) src := by
    obtain ⟨⟨text', loaded⟩, hexpand, heq⟩ := Lex.except_map_eq_ok h
    rcases expandImportsFrom_ends _ _ hexpand with ⟨hmem, -⟩ | ⟨-, src', state, hread', hfold, -⟩
    · cases hmem
    · obtain rfl : src = src' := Option.some.inj (hread.symm.trans hread')
      have hall := lineEnds_useText_le hfold hone
      have hends := @length_le_importEnds (loadedEnds fs modules)
        (importPaths fs (fs.canonical sourcePath) (lines src)) []
      have hpos := List.length_pos_of_ne_nil himports
      have hbefore : r.removedEnds ≤ lineEnds ((lines src).flatMap useText) := by
        have hwhole : Whole (r.before.flatMap useText) := by
          apply whole_flatMap
          intro line _
          rcases bodyLine_or_useText line with ⟨-, huse⟩ | ⟨-, huse⟩
          · rw [huse]
            exact whole_lineText line
          · rw [huse]
            exact whole_nil
        rw [r.lines_eq, List.flatMap_append, lineEnds_append (hwhole.between _)]
        exact Nat.le_add_right _ _
      unfold addedEnds
      dsimp only
      split_ifs <;> omega
  omega

end Caster.Driver
