import Caster.Library.Marking
import Caster.SelfHosting.ImportPaths

/-!
# The two loaders

The loader of the self-hosted compiler marks a file when it is entered, and so it does not tell a
file that waits for its imports from one that is done.
-/

namespace Caster.SelfHosting

open Driver (Text Path Disk FileSystem importGraph importPath lineStep lines parseUseLine expandImports
  expandImportsFrom)
open PostOrder Sys UnixPath

/-! ### Files that import files of the program -/

/-- What a line imports. -/
def useSpec (line : Text) : Option Text :=
  match parseUseLine line with
  | .ok found => found
  | .error _ => none

/-- Both compilers read a text as one that imports some files. -/
structure Imports (text : Text) (specs : List Text) : Prop where
  useLines : ∀ line ∈ lines text, ∃ found, parseUseLine line = .ok found
  useSpecs : (lines text).filterMap useSpec = specs
  parses : ∀ path, ∃ program, parseSource ⟨path, text⟩ = some ⟨program, []⟩ ∧
    program.uses.map (fun use => use.path.toList) = specs

/-- The root is a file, and it leads to files that import files of the program. -/
structure Sources (disk : Disk) (repoRoot root : Path) : Prop where
  plain : PlainPath root
  isFile : (disk.fileSystem repoRoot).fileExists root = true
  imports : ∀ path, (importGraph (disk.fileSystem repoRoot)).Reaches
      ((disk.fileSystem repoRoot).canonical root) path →
    ∃ text specs, (disk.fileSystem repoRoot).read path = some text ∧ Imports text specs ∧
      ∀ spec ∈ specs, LocalSpec spec ∧
        (disk.fileSystem repoRoot).fileExists (importPath (disk.fileSystem repoRoot) path spec) = true

/-- What the parser makes of the file of a path. -/
def parseFile (fs : FileSystem) (path : Path) : Option ParseResult := do
  let text ← fs.read path
  parseSource ⟨path, text⟩

/-- The paths a file leads the self-hosted loader to. -/
def successors (fs : FileSystem) (path : Path) : List Path :=
  match parseFile fs path with
  | none => []
  | some parsed =>
    (parsed.program.uses.filter fun use => isLocalSpec use.path.toList).map fun use =>
      normalizePath (resolveImportPath path use.path.toList)

/-- A path the self-hosted loader comes to. -/
def Spelled (fs : FileSystem) (root : Path) : Path → Prop := Leads (successors fs) (normalizePath root)

section

variable {disk : Disk} {repoRoot root : Path}

/-- The file a path names, from the top. -/
structure Names (disk : Disk) (repoRoot root path : Path) (loc : List Text) (text : Text) : Prop where
  plain : PlainPath path
  find : disk.find path = some loc
  textAt : disk.textAt loc = some text
  reaches : (importGraph (disk.fileSystem repoRoot)).Reaches ((disk.fileSystem repoRoot).canonical root)
    (render true loc)

namespace Names

variable {path : Path} {loc : List Text} {text : Text}

theorem read (h : Names disk repoRoot root path loc text) :
  (disk.fileSystem repoRoot).read path = some text
  := Disk.read_eq_some.mpr ⟨loc, h.find, h.textAt⟩

theorem canonical (h : Names disk repoRoot root path loc text) :
  (disk.fileSystem repoRoot).canonical path = render true loc
  := Disk.canonical_eq h.find h.textAt

theorem normalizePath (h : Names disk repoRoot root path loc text) :
  Names disk repoRoot root (normalizePath path) loc text
  := by
  rw [normalizePath_eq]
  exact ⟨h.plain.simplify, locate_simplify Disk.isDir_root Disk.isDir_cwd h.find, h.textAt, h.reaches⟩

/-- What the file of a path imports. -/
theorem imports (hsources : Sources disk repoRoot root) (h : Names disk repoRoot root path loc text) :
  ∃ specs, Imports text specs ∧ ∀ spec ∈ specs, LocalSpec spec ∧ (disk.fileSystem repoRoot).fileExists
    (importPath (disk.fileSystem repoRoot) (render true loc) spec) = true
  := by
  obtain ⟨text', specs, hread, himports, hspecs⟩ := hsources.imports _ h.reaches
  rw [Disk.read_render h.textAt] at hread
  cases hread
  exact ⟨specs, himports, hspecs⟩

end Names

theorem names_root (hsources : Sources disk repoRoot root) : ∃ loc text, Names disk repoRoot root root loc text := by
  obtain ⟨loc, text, hfind, htext⟩ := Disk.fileExists_iff.mp hsources.isFile
  refine ⟨loc, text, hsources.plain, hfind, htext, ?_⟩
  rw [Disk.canonical_eq hfind htext]
  exact Relation.ReflTransGen.refl

/-- The steps of a file in the graph of the imports. -/
theorem steps_importGraph {fs : FileSystem} {path : Path} {text : Text} {specs : List Text}
    (hread : fs.read path = some text) (himports : Imports text specs)
    (hfiles : ∀ spec ∈ specs, fs.fileExists (importPath fs path spec) = true) :
  (importGraph fs).steps path = specs.map fun spec => .ok (fs.canonical (importPath fs path spec))
  := by
  have hlines := himports.useLines
  rw [← himports.useSpecs] at hfiles ⊢
  simp only [importGraph, hread]
  generalize lines text = ls at hlines hfiles
  induction ls with
  | nil => rfl
  | cons line ls ih =>
    obtain ⟨found, hfound⟩ := hlines line List.mem_cons_self
    have hspec : useSpec line = found := by rw [useSpec, hfound]
    rw [List.filterMap_cons, List.filterMap_cons, hspec]
    rw [List.filterMap_cons, hspec] at hfiles
    cases found with
    | none =>
      have hstep : lineStep fs path line = none := by rw [lineStep, hfound]
      rw [hstep]
      exact ih (fun l hl => hlines l (List.mem_cons_of_mem _ hl)) hfiles
    | some spec =>
      have hstep : lineStep fs path line = some (.ok (fs.canonical (importPath fs path spec))) := by
        rw [lineStep, hfound]
        dsimp only
        rw [Driver.resolveImportPath, if_pos (hfiles spec List.mem_cons_self)]
        rfl
      rw [hstep]
      dsimp only
      rw [ih (fun l hl => hlines l (List.mem_cons_of_mem _ hl))
        fun s hs => hfiles s (List.mem_cons_of_mem _ hs), List.map_cons]

/-- The paths a file leads to, from its specs. -/
theorem successors_eq {fs : FileSystem} {path : Path} {text : Text} {specs : List Text}
    (hread : fs.read path = some text) (himports : Imports text specs)
    (hlocal : ∀ spec ∈ specs, isLocalSpec spec = true) :
  successors fs path = specs.map fun spec => normalizePath (resolveImportPath path spec)
  := by
  obtain ⟨program, hparse, huses⟩ := himports.parses path
  have hfile : parseFile fs path = some ⟨program, []⟩ := by
    rw [parseFile, hread]
    exact hparse
  have hall : (program.uses.filter fun use => isLocalSpec use.path.toList) = program.uses := by
    apply List.filter_eq_self.mpr
    intro use huse
    apply hlocal
    rw [← huses]
    exact List.mem_map_of_mem huse
  rw [successors, hfile]
  dsimp only
  rw [hall, ← huses, List.map_map]
  rfl

/-- An import leads both loaders to one file. -/
theorem Names.import {path : Path} {loc : List Text} {text spec : Text}
    (h : Names disk repoRoot root path loc text) (hspec : LocalSpec spec)
    (hfile : (disk.fileSystem repoRoot).fileExists
      (importPath (disk.fileSystem repoRoot) (render true loc) spec) = true)
    (hedge : (importGraph (disk.fileSystem repoRoot)).Edge (render true loc)
      ((disk.fileSystem repoRoot).canonical (importPath (disk.fileSystem repoRoot) (render true loc) spec))) :
  ∃ loc' text', Names disk repoRoot root (resolveImportPath path spec) loc' text' ∧
    (disk.fileSystem repoRoot).canonical (importPath (disk.fileSystem repoRoot) (render true loc) spec) =
      render true loc'
  := by
  obtain ⟨loc', text', hfind, htext⟩ := Disk.fileExists_iff.mp hfile
  have hcanonical := @Disk.canonical_eq disk loc' text' repoRoot _ hfind htext
  refine ⟨loc', text', ⟨plain_resolveImportPath h.plain hspec, ?_, htext, ?_⟩, hcanonical⟩
  · exact find_resolveImportPath h.plain h.find h.textAt hspec hfind
  · rw [hcanonical] at hedge
    exact h.reaches.tail hedge

/-- What a file imports, and where its imports lead both loaders. -/
theorem Names.leads (hsources : Sources disk repoRoot root) {path : Path} {loc : List Text} {text : Text}
    (h : Names disk repoRoot root path loc text) :
  ∃ specs, Imports text specs ∧
    successors (disk.fileSystem repoRoot) path =
      specs.map (fun spec => SelfHosting.normalizePath (resolveImportPath path spec)) ∧
    (importGraph (disk.fileSystem repoRoot)).steps (render true loc) = specs.map (fun spec =>
      .ok ((disk.fileSystem repoRoot).canonical (importPath (disk.fileSystem repoRoot) (render true loc) spec))) ∧
    ∀ spec ∈ specs, LocalSpec spec ∧ ∃ loc' text',
      Names disk repoRoot root (resolveImportPath path spec) loc' text' ∧
      (disk.fileSystem repoRoot).canonical (importPath (disk.fileSystem repoRoot) (render true loc) spec) =
        render true loc'
  := by
  obtain ⟨specs, himports, hspecs⟩ := h.imports hsources
  have hsteps := steps_importGraph (Disk.read_render h.textAt) himports fun spec hspec => (hspecs spec hspec).2
  refine ⟨specs, himports, ?_, hsteps, fun spec hspec => ?_⟩
  · exact successors_eq h.read himports fun spec hspec => (hspecs spec hspec).1.isLocal
  · obtain ⟨hlocal, hfile⟩ := hspecs spec hspec
    refine ⟨hlocal, h.import hlocal hfile ?_⟩
    rw [PostOrder.Graph.Edge, hsteps]
    exact List.mem_map_of_mem hspec

/-- A path the self-hosted loader comes to names a file. -/
theorem names_spelled (hsources : Sources disk repoRoot root) {path : Path}
    (h : Spelled (disk.fileSystem repoRoot) root path) :
  ∃ loc text, Names disk repoRoot root path loc text
  := by
  induction h with
  | refl =>
    obtain ⟨loc, text, hroot⟩ := names_root hsources
    exact ⟨loc, text, hroot.normalizePath⟩
  | tail _ hedge ih =>
    obtain ⟨loc, text, hnames⟩ := ih
    obtain ⟨specs, _, hsuccessors, _, hspecs⟩ := hnames.leads hsources
    rw [hsuccessors] at hedge
    obtain ⟨spec, hspec, rfl⟩ := List.mem_map.mp hedge
    obtain ⟨_, loc', text', hnames', _⟩ := hspecs spec hspec
    exact ⟨loc', text', hnames'.normalizePath⟩

/-- The two graphs have the same steps. -/
theorem steps_spelled (hsources : Sources disk repoRoot root) {path : Path}
    (h : Spelled (disk.fileSystem repoRoot) root path) :
  (importGraph (disk.fileSystem repoRoot)).steps ((disk.fileSystem repoRoot).canonical path) =
    (successors (disk.fileSystem repoRoot) path).map fun next => .ok ((disk.fileSystem repoRoot).canonical next)
  := by
  obtain ⟨loc, text, hnames⟩ := names_spelled hsources h
  obtain ⟨specs, _, hsuccessors, hsteps, hspecs⟩ := hnames.leads hsources
  rw [hnames.canonical, hsteps, hsuccessors, List.map_map]
  apply List.map_congr_left
  intro spec hspec
  obtain ⟨_, loc', text', hnames', hcanonical⟩ := hspecs spec hspec
  rw [hcanonical, Function.comp_apply, hnames'.normalizePath.canonical]

end

/-! ### The loader as a traversal -/

section

variable (fs : FileSystem)

/-- The program of the file of a path. -/
def programOf (path : Path) : Program := ((parseFile fs path).map ParseResult.program).getD {}

/-- The declarations of some files, each with the name of its module, one file behind the other. -/
def merged (files : List (Path × Text)) : Program where
  types := files.flatMap fun file => (appendProgram {} (programOf fs file.1) (String.ofList file.2)).types
  functions := files.flatMap fun file => (appendProgram {} (programOf fs file.1) (String.ofList file.2)).functions

theorem appendProgram_merged (files files' : List (Path × Text)) :
  appendProgram (merged fs files) (merged fs files') "" = merged fs (files ++ files')
  := by simp [appendProgram, merged]

theorem appendProgram_programOf (files : List (Path × Text)) (path : Path) (module : Text) :
  appendProgram (merged fs files) (programOf fs path) (String.ofList module) = merged fs (files ++ [(path, module)])
  := by simp [appendProgram, merged]

/-- A loader gives what a traversal does: without diagnostics, the declarations of the files that
become done behind those of some others. -/
def Loads (before : List (Path × Text)) (load : Option LoadResult)
    (visit : List Path → Option (Marks Path)) : Prop :=
  match load with
  | none => ∀ done, visit done = none
  | some result => result.diagnostics = [] ∧ ∃ files,
    (∀ done, visit done = some ⟨result.loaded, done ++ files.map Prod.fst⟩) ∧
      result.program = merged fs (before ++ files)

end

section

variable {disk : Disk} {repoRoot root : Path}

/-- The imports of a file are loaded as its successors are visited. -/
theorem foldlM_loadUse {load : SourceFile → Text → List Path → Option LoadResult}
    {visit : Path → Marks Path → Option (Marks Path)}
    (hload : ∀ path loc text, Names disk repoRoot root path loc text → ∀ module loaded,
      Loads (disk.fileSystem repoRoot) [] (load ⟨path, text⟩ module loaded) fun done =>
        visit (normalizePath path) ⟨loaded, done⟩)
    (path : Path) {uses : List UseDecl}
    (huses : ∀ use ∈ uses, LocalSpec use.path.toList ∧ ∃ loc text,
      Names disk repoRoot root (resolveImportPath path use.path.toList) loc text)
    (before : List (Path × Text)) (loaded : List Path) :
  Loads (disk.fileSystem repoRoot) before
    (uses.foldlM (loadUse (disk.fileSystem repoRoot) load path) ⟨merged (disk.fileSystem repoRoot) before, loaded, []⟩)
    fun done => markSteps visit (uses.map fun use => normalizePath (resolveImportPath path use.path.toList))
      ⟨loaded, done⟩
  := by
  induction uses generalizing before loaded with
  | nil => exact ⟨rfl, [], fun done => by simp [markSteps], by rw [List.append_nil]⟩
  | cons use uses ih =>
    obtain ⟨hlocal, loc, text, hnames⟩ := huses use List.mem_cons_self
    have hne : resolveImportPath path use.path.toList ≠ [] := by
      intro heq
      rw [heq] at hnames
      exact nomatch hnames.find
    have hsource : loadSource (disk.fileSystem repoRoot) (resolveImportPath path use.path.toList) =
        some ⟨resolveImportPath path use.path.toList, text⟩ := by
      rw [loadSource, if_neg hne, hnames.read]
      rfl
    have hchild := hload _ loc text hnames (moduleNameFromPath (resolveImportPath path use.path.toList)) loaded
    rw [List.foldlM_cons, loadUse, if_pos hlocal.isLocal]
    simp only [hsource, List.map_cons, markSteps, Option.bind_eq_bind, Option.bind_some]
    cases hresult : load ⟨resolveImportPath path use.path.toList, text⟩
        (moduleNameFromPath (resolveImportPath path use.path.toList)) loaded with
    | none =>
      rw [hresult] at hchild
      intro done
      have hnone := hchild done
      dsimp only at hnone ⊢
      rw [hnone]
      rfl
    | some child =>
      rw [hresult] at hchild
      obtain ⟨hdiagnostics, files, hmark, hprogram⟩ := hchild
      have hrest := ih (fun u hu => huses u (List.mem_cons_of_mem _ hu)) (before ++ files) child.loaded
      rw [List.nil_append] at hprogram
      simp only [Option.bind_some, Option.pure_def, hdiagnostics, hprogram, appendProgram_merged, List.append_nil,
        hmark]
      cases hfold : uses.foldlM (loadUse (disk.fileSystem repoRoot) load path)
          ⟨merged (disk.fileSystem repoRoot) (before ++ files), child.loaded, []⟩ with
      | none =>
        rw [hfold] at hrest
        exact fun done => hrest _
      | some result =>
        rw [hfold] at hrest
        obtain ⟨hnone, files', hmarks, hmerged⟩ := hrest
        refine ⟨hnone, files ++ files', fun done => ?_, ?_⟩
        · rw [hmarks, List.map_append, List.append_assoc]
        · rw [hmerged, List.append_assoc]

theorem loadFrom_loads (hsources : Sources disk repoRoot root) (n : ℕ) {path : Path} {loc : List Text}
    {text : Text} (h : Names disk repoRoot root path loc text) (module : Text) (loaded : List Path) :
  Loads (disk.fileSystem repoRoot) [] (loadFrom (disk.fileSystem repoRoot) n ⟨path, text⟩ module loaded)
    fun done => mark (successors (disk.fileSystem repoRoot)) n (normalizePath path) ⟨loaded, done⟩
  := by
  induction n generalizing path loc text module loaded with
  | zero => exact fun _ => rfl
  | succ n ih =>
    have hne : path ≠ [] := by
      rintro rfl
      exact nomatch h.find
    have hpath : normalizePath path ≠ [] := by
      rw [normalizePath_eq]
      exact render_ne_nil _ _
    unfold loadFrom mark
    dsimp only
    rw [if_neg hne]
    by_cases hmem : normalizePath path ∈ loaded
    · rw [if_pos ⟨hpath, hmem⟩]
      simp only [if_pos hmem]
      exact ⟨rfl, [], fun done => by rw [List.map_nil, List.append_nil], rfl⟩
    · rw [if_neg fun hboth => hmem hboth.2, if_neg hpath]
      simp only [if_neg hmem]
      have hnormal := h.normalizePath
      obtain ⟨specs, himports, hsuccessors, _, hspecs⟩ := hnormal.leads hsources
      obtain ⟨program, hparse, huses⟩ := himports.parses (normalizePath path)
      have hprogram : programOf (disk.fileSystem repoRoot) (normalizePath path) = program := by
        rw [programOf, parseFile, hnormal.read]
        simp only [Option.bind_eq_bind, Option.bind_some, hparse]
        rfl
      have hlocals : ∀ use ∈ program.uses, LocalSpec use.path.toList ∧ ∃ loc text,
          Names disk repoRoot root (resolveImportPath (normalizePath path) use.path.toList) loc text := by
        intro use huse
        have hspec : use.path.toList ∈ specs := by
          rw [← huses]
          exact List.mem_map.mpr ⟨use, huse, rfl⟩
        obtain ⟨hlocal, loc', text', hnames, _⟩ := hspecs _ hspec
        exact ⟨hlocal, loc', text', hnames⟩
      have hchildren := foldlM_loadUse (fun path loc text hnames => ih hnames) (normalizePath path)
        hlocals [] (loaded ++ [normalizePath path])
      have hempty : merged (disk.fileSystem repoRoot) [] = {} := rfl
      have hnext : program.uses.map (fun use => normalizePath (resolveImportPath (normalizePath path) use.path.toList)) =
          successors (disk.fileSystem repoRoot) (normalizePath path) := by
        rw [hsuccessors, ← huses, List.map_map]
        rfl
      rw [hnext, hempty] at hchildren
      simp only [Option.bind_eq_bind, hparse, Option.bind_some]
      cases hfold : program.uses.foldlM (loadUse (disk.fileSystem repoRoot)
          (loadFrom (disk.fileSystem repoRoot) n) (normalizePath path)) ⟨{}, loaded ++ [normalizePath path], []⟩ with
      | none =>
        rw [hfold] at hchildren
        intro done
        have hnone := hchildren done
        dsimp only at hnone ⊢
        rw [hnone]
        rfl
      | some result =>
        rw [hfold] at hchildren
        obtain ⟨hdiagnostics, files, hmarks, hmerged⟩ := hchildren
        rw [List.nil_append] at hmerged
        refine ⟨hdiagnostics, files ++ [(normalizePath path, module)], fun done => ?_, ?_⟩
        · have hmark := hmarks done
          dsimp only at hmark ⊢
          rw [hmark]
          simp
        · dsimp only
          rw [hmerged, ← hprogram, appendProgram_programOf]
          rfl

/-! ### Agreement -/

/-- The loaders agree: the self-hosted one ends, it accepts what the other one accepts, and then it
has loaded every file once, behind the files it imports, as the other one has. -/
def LoadersAgree (fs : FileSystem) (root : Path) : Prop :=
  ∃ n result, loadProgram fs n root = some result ∧
    (result.diagnostics = [] ↔ ∃ m text, expandImports fs m root = .ok text) ∧
    (result.diagnostics = [] → ∃ m text files,
      expandImportsFrom fs m [] root false [] = .ok (text, files.map fun file => fs.canonical file.1) ∧
      (files.map Prod.fst).Perm result.loaded ∧ result.program = merged fs files ∧
      Ordered (importGraph fs) (files.map fun file => fs.canonical file.1) ∧
      ∀ path, path ∈ (files.map fun file => fs.canonical file.1) ↔
        (importGraph fs).Reaches (fs.canonical root) path)

/-- Imports lead to files. -/
theorem edge_mem {path imported : Path}
    (h : (importGraph (disk.fileSystem repoRoot)).Edge path imported) :
  imported ∈ (disk.files.map fun file => render true file.1).toFinset
  := by
  unfold PostOrder.Graph.Edge importGraph at h
  dsimp only at h
  split at h
  · exact nomatch List.mem_singleton.mp h
  · obtain ⟨line, _, hstep⟩ := List.mem_filterMap.mp h
    unfold lineStep at hstep
    split at hstep
    · cases hstep
    · cases hstep
    · rename_i spec _
      unfold Driver.resolveImportPath at hstep
      dsimp only at hstep
      split_ifs at hstep with hfile
      · obtain ⟨loc, text, hfind, htext⟩ := Disk.fileExists_iff.mp hfile
        cases hstep
        rw [Disk.canonical_eq hfind htext, List.mem_toFinset]
        exact List.mem_map.mpr ⟨_, Disk.mem_of_textAt htext, rfl⟩
      · cases hstep
      · cases hstep

/-- The compiler in C accepts a program without a cycle whose files name the modules they import. -/
theorem expandImports_ok_iff (hsources : Sources disk repoRoot root) :
  (∃ m text, expandImports (disk.fileSystem repoRoot) m root = .ok text) ↔
    ¬ (importGraph (disk.fileSystem repoRoot)).ReachesCycle ((disk.fileSystem repoRoot).canonical root) ∧
    ∀ path, (importGraph (disk.fileSystem repoRoot)).Reaches ((disk.fileSystem repoRoot).canonical root) path →
      (importGraph (disk.fileSystem repoRoot)).check path = none
  := by
  constructor
  · rintro ⟨m, text, hok⟩
    have hvisit := @Driver.expandImportsFrom_loaded (disk.fileSystem repoRoot) (m + 1) [] root false []
    rw [expandImports] at hok
    cases hfrom : expandImportsFrom (disk.fileSystem repoRoot) (m + 1) [] root false [] with
    | error stop =>
      rw [hfrom] at hok
      cases hok
    | ok result =>
      rw [hfrom] at hvisit
      have hvisited := visit_visited ordered_nil hvisit.symm
      refine ⟨hvisited.ordered.acyclic hvisited.mem, fun path hreaches => ?_⟩
      apply visit_passes (fun w hw => absurd hw List.not_mem_nil) hvisit.symm
      exact hvisited.ordered.mem_of_reaches hvisited.mem hreaches
  · rintro ⟨hacyclic, hchecks⟩
    obtain ⟨loc, text, hnames⟩ := names_root hsources
    have hroot : (disk.fileSystem repoRoot).canonical root ∈
        (disk.files.map fun file => render true file.1).toFinset := by
      rw [hnames.canonical, List.mem_toFinset]
      exact List.mem_map.mpr ⟨_, Disk.mem_of_textAt hnames.textAt, rfl⟩
    obtain ⟨result, hresult, hends, _⟩ := Driver.expandImports_ends (disk.fileSystem repoRoot) _ root hroot
      fun path _ imported hedge => edge_mem hedge
    cases hcase : result with
    | ok text =>
      exact ⟨_, text, (hresult _ le_rfl).trans hcase⟩
    | error stop =>
      rw [hcase] at hends
      cases stop with
      | cyclic path => exact absurd ⟨path, hends⟩ hacyclic
      | failed e =>
        obtain ⟨path, hreaches, hfails⟩ := hends
        obtain ⟨text, specs, hread, himports, hspecs⟩ := hsources.imports path hreaches
        refine absurd ⟨fun e he => ?_, hchecks path hreaches⟩ hfails
        rw [steps_importGraph hread himports fun spec hspec => (hspecs spec hspec).2] at he
        obtain ⟨spec, _, hspec⟩ := List.mem_map.mp he
        cases hspec
      | outOfFuel => exact hends.elim

theorem loadProgram_eq (hsources : Sources disk repoRoot root) {loc : List Text} {text : Text}
    (hnames : Names disk repoRoot root root loc text) (n : ℕ) :
  loadProgram (disk.fileSystem repoRoot) n root = loadFrom (disk.fileSystem repoRoot) n ⟨root, text⟩ [] []
  := by
  have hne : root ≠ [] := by
    rintro rfl
    exact nomatch hnames.find
  rw [loadProgram, loadSource, if_neg hne, hnames.read]
  rfl

/-- What the self-hosted loader ends with has no diagnostics, so the other one accepts it as well. -/
theorem expandImports_ok_of_agree (hsources : Sources disk repoRoot root)
    (h : LoadersAgree (disk.fileSystem repoRoot) root) :
  ∃ m text, expandImports (disk.fileSystem repoRoot) m root = .ok text
  := by
  obtain ⟨loc, text, hnames⟩ := names_root hsources
  obtain ⟨n, result, hload, haccepts, _⟩ := h
  have hloaded := loadFrom_loads hsources n hnames [] []
  rw [← loadProgram_eq hsources hnames, hload] at hloaded
  exact haccepts.mp hloaded.1

/-- The loaders agree if and only if no cycle is reached, every file names only modules it imports,
and the self-hosted loader does not come to a file by two paths. -/
theorem loaders_agree_iff (disk : Disk) (repoRoot root : Path) (hsources : Sources disk repoRoot root) :
  LoadersAgree (disk.fileSystem repoRoot) root ↔
    (¬ (importGraph (disk.fileSystem repoRoot)).ReachesCycle ((disk.fileSystem repoRoot).canonical root) ∧
      ∀ path, (importGraph (disk.fileSystem repoRoot)).Reaches ((disk.fileSystem repoRoot).canonical root) path →
        (importGraph (disk.fileSystem repoRoot)).check path = none) ∧
    ∀ path path', Spelled (disk.fileSystem repoRoot) root path → Spelled (disk.fileSystem repoRoot) root path' →
      (disk.fileSystem repoRoot).canonical path = (disk.fileSystem repoRoot).canonical path' → path = path'
  := by
  obtain ⟨loc, text, hnames⟩ := names_root hsources
  have hloads (n : ℕ) := loadFrom_loads hsources n hnames [] []
  rw [← expandImports_ok_iff hsources]
  constructor
  · intro hagree
    refine ⟨expandImports_ok_of_agree hsources hagree, fun path path' hpath hpath' hsame => ?_⟩
    obtain ⟨n, result, hload, _, hlists⟩ := hagree
    rw [loadProgram_eq hsources hnames] at hload
    have hloaded := hloads n
    rw [hload] at hloaded
    obtain ⟨hdiagnostics, _, hmark, _⟩ := hloaded
    have hdone := hmark []
    dsimp only at hdone
    obtain ⟨_, _, hmem⟩ := mark_mem_iff hdone
    obtain ⟨_, _, files, _, hperm, _, hordered, _⟩ := hlists hdiagnostics
    have hnodup : ((files.map Prod.fst).map (disk.fileSystem repoRoot).canonical).Nodup := by
      rw [List.map_map]
      exact hordered.nodup
    apply List.inj_on_of_nodup_map hnodup _ _ hsame
    · exact hperm.mem_iff.mpr ((hmem path).mpr hpath)
    · exact hperm.mem_iff.mpr ((hmem path').mpr hpath')
  · rintro ⟨⟨m, expanded, hok⟩, hinj⟩
    have hvisit := @Driver.expandImportsFrom_loaded (disk.fileSystem repoRoot) (m + 1) [] root false []
    have haccepts : ∃ m text, expandImports (disk.fileSystem repoRoot) m root = .ok text := ⟨m, expanded, hok⟩
    rw [expandImports] at hok
    cases hfrom : expandImportsFrom (disk.fileSystem repoRoot) (m + 1) [] root false [] with
    | error stop =>
      rw [hfrom] at hok
      cases hok
    | ok found =>
      rw [hfrom] at hvisit
      have hvisited := visit_visited ordered_nil hvisit.symm
      obtain ⟨added, hadded, hreaches⟩ := hvisited.adds
      rw [List.nil_append] at hadded
      have hstart : Follows (disk.fileSystem repoRoot).canonical (Spelled (disk.fileSystem repoRoot) root) [] []
          ⟨[], []⟩ := by
        refine ⟨rfl, fun v _ => ?_⟩
        simp
      rw [hnames.canonical, ← hnames.normalizePath.canonical] at hvisit
      have hclosed : ∀ v, Spelled (disk.fileSystem repoRoot) root v →
          ∀ w ∈ successors (disk.fileSystem repoRoot) v, Spelled (disk.fileSystem repoRoot) root w :=
        fun v hv w hw => Relation.ReflTransGen.tail hv hw
      obtain ⟨p, hp, hfollows⟩ := mark_of_visit hclosed (fun v hv => steps_spelled hsources hv)
        hinj Relation.ReflTransGen.refl hstart hvisit.symm
      have hloaded := hloads (m + 1)
      cases hload : loadFrom (disk.fileSystem repoRoot) (m + 1) ⟨root, text⟩ [] [] with
      | none =>
        rw [hload] at hloaded
        have hnone := hloaded []
        dsimp only at hnone
        rw [hp] at hnone
        cases hnone
      | some result =>
        rw [hload] at hloaded
        obtain ⟨hdiagnostics, files, hmark, hprogram⟩ := hloaded
        have hdone := hmark []
        dsimp only at hdone
        obtain ⟨hperm, _, _⟩ := mark_mem_iff hdone
        rw [hp] at hdone
        cases hdone
        have hfiles : files.map (fun file => (disk.fileSystem repoRoot).canonical file.1) = found.2 := by
          rw [← hfollows.done_eq, List.nil_append, List.map_map]
          rfl
        refine ⟨m + 1, result, ?_, ⟨fun _ => haccepts, fun _ => hdiagnostics⟩, fun _ => ?_⟩
        · rw [loadProgram_eq hsources hnames, hload]
        · refine ⟨m + 1, found.1, files, ?_, hperm, hprogram, ?_, fun path => ?_⟩
          · rw [hfrom, hfiles]
          · rw [hfiles]
            exact hvisited.ordered
          · rw [hfiles]
            constructor
            · intro hpath
              exact (hreaches path (hadded ▸ hpath)).1
            · exact hvisited.ordered.mem_of_reaches hvisited.mem

end

/-! ### Two files -/

theorem imports_of_any {text : Text} {specs : List Text} {tokens : List Token}
    (hlines : ∀ line ∈ lines text, ∃ found, parseUseLine line = .ok found)
    (hspecs : (lines text).filterMap useSpec = specs) (htokens : lexSource text = tokens)
    (hparse : ∀ file, ((parseTokens file tokens).any fun result => decide (result.diagnostics = []) &&
      decide (result.program.uses.map (fun use => use.path.toList) = specs)) = true) :
  Imports text specs
  := by
  refine ⟨hlines, hspecs, fun path => ?_⟩
  obtain ⟨⟨program, diagnostics⟩, hresult, hboth⟩ :=
    (Option.any_eq_true _ _).mp (hparse (String.ofList path))
  rw [Bool.and_eq_true, decide_eq_true_iff, decide_eq_true_iff] at hboth
  obtain ⟨hnone, huses⟩ := hboth
  cases hnone
  exact ⟨program, by rw [parseSource, htokens, hresult], huses⟩

/-- The text of a file that imports a second one. -/
def useText : Text := "use ./b\n".toList

/-- The tokens of that text. -/
def useTokens : List Token :=
  [⟨.USE, "use", ⟨1, 1, 1, 4⟩⟩, ⟨.DOT, ".", ⟨1, 5, 1, 6⟩⟩, ⟨.SLASH, "/", ⟨1, 6, 1, 7⟩⟩,
    ⟨.NAME, "b", ⟨1, 7, 1, 8⟩⟩, ⟨.NEWLINE, "\n", ⟨1, 8, 1, 9⟩⟩, ⟨.EOF, "", ⟨2, 1, 2, 1⟩⟩]

theorem imports_useText : Imports useText ["./b".toList] := by
  have hlines : lines useText = ["use ./b".toList] := rfl
  have htokens : lexSource useText = useTokens := by decide +kernel
  apply imports_of_any _ rfl htokens fun file => rfl
  intro line hline
  rw [hlines] at hline
  rw [List.mem_singleton.mp hline]
  exact ⟨_, rfl⟩

theorem imports_nil : Imports [] [] := by
  have htokens : lexSource [] = [⟨.EOF, "", ⟨1, 1, 1, 1⟩⟩] := by decide +kernel
  apply imports_of_any _ rfl htokens fun file => rfl
  exact fun line hline => absurd hline List.not_mem_nil

/-- A file that imports a second one. -/
def twoFiles (other : Text) : Disk where
  cwd := []
  files := [(["a.cast".toList], useText), (["b.cast".toList], other)]
  cwd_names := fun name hname => absurd hname List.not_mem_nil
  file_names := by
    have hnames : IsName "a.cast".toList ∧ IsName "b.cast".toList := by decide
    intro file hfile name hname
    simp only [List.mem_cons, List.not_mem_nil, or_false] at hfile
    rcases hfile with rfl | rfl
    · rw [List.mem_singleton.mp hname]
      exact hnames.1
    · rw [List.mem_singleton.mp hname]
      exact hnames.2
  apart := by
    intro file hfile
    simp only [List.mem_cons, List.not_mem_nil, or_false] at hfile
    rcases hfile with rfl | rfl <;> rfl

theorem localSpec_b : LocalSpec "./b".toList := by
  refine ⟨rfl, ?_, [['.']], ['b'], by decide, by decide⟩
  intro c hc
  simp at hc
  rcases hc with rfl | rfl | rfl <;> exact ⟨by decide, by decide⟩

/-- The second file imports nothing or itself. -/
theorem sources_twoFiles {other : Text} {specs : List Text} (himports : Imports other specs)
    (hspecs : ∀ spec ∈ specs, spec = "./b".toList) :
  Sources (twoFiles other) [] "/a.cast".toList
  := by
  constructor
  · intro c hc
    simp at hc
    rcases hc with rfl | rfl | rfl | rfl | rfl | rfl | rfl <;> exact ⟨by decide, by decide⟩
  · rfl
  · intro path hpath
    have hmem : path = "/a.cast".toList ∨ path = "/b.cast".toList := by
      rcases Relation.ReflTransGen.cases_tail_iff _ _ _ |>.mp hpath with heq | ⟨_, _, hedge⟩
      · exact Or.inl heq
      · have hfile : path ∈ ["/a.cast".toList, "/b.cast".toList] := List.mem_toFinset.mp (edge_mem hedge)
        exact (List.mem_cons.mp hfile).imp_right List.mem_singleton.mp
    rcases hmem with rfl | rfl
    · refine ⟨useText, _, rfl, imports_useText, fun spec hspec => ?_⟩
      rw [List.mem_singleton.mp hspec]
      exact ⟨localSpec_b, rfl⟩
    · refine ⟨other, specs, rfl, himports, fun spec hspec => ?_⟩
      rw [hspecs spec hspec]
      exact ⟨localSpec_b, rfl⟩

theorem steps_first (other : Text) :
  (importGraph ((twoFiles other).fileSystem [])).steps "/a.cast".toList = [.ok "/b.cast".toList]
  := rfl

/-- A file that imports itself is loaded, although the other loader finds the cycle. -/
theorem not_loadersAgree_cycle :
  Sources (twoFiles useText) [] "/a.cast".toList ∧
    ¬ LoadersAgree ((twoFiles useText).fileSystem []) "/a.cast".toList
  := by
  have hsources : Sources (twoFiles useText) [] "/a.cast".toList :=
    sources_twoFiles imports_useText fun spec hspec => List.mem_singleton.mp hspec
  refine ⟨hsources, fun hagree => ?_⟩
  obtain ⟨hacyclic, _⟩ := (expandImports_ok_iff hsources).mp (expandImports_ok_of_agree hsources hagree)
  have hsecond : (importGraph ((twoFiles useText).fileSystem [])).steps "/b.cast".toList =
    [.ok "/b.cast".toList] := rfl
  apply hacyclic
  refine ⟨"/b.cast".toList, Relation.ReflTransGen.single ?_, Relation.TransGen.single ?_⟩
  · show _ ∈ (importGraph ((twoFiles useText).fileSystem [])).steps "/a.cast".toList
    rw [steps_first]
    exact List.mem_singleton_self _
  · show _ ∈ (importGraph ((twoFiles useText).fileSystem [])).steps "/b.cast".toList
    rw [hsecond]
    exact List.mem_singleton_self _

/-- The loaders agree on a file that imports another one. -/
theorem loaders_agree_iff_tree : LoadersAgree ((twoFiles []).fileSystem []) "/a.cast".toList := by
  have hsources : Sources (twoFiles []) [] "/a.cast".toList :=
    sources_twoFiles imports_nil fun spec hspec => absurd hspec List.not_mem_nil
  have hleaf : (importGraph ((twoFiles []).fileSystem [])).steps "/b.cast".toList = [] := rfl
  have hcanonical : ((twoFiles []).fileSystem []).canonical "/a.cast".toList = "/a.cast".toList := rfl
  have hreached : ∀ path, (importGraph ((twoFiles []).fileSystem [])).Reaches "/a.cast".toList path →
      path = "/a.cast".toList ∨ path = "/b.cast".toList := by
    intro path hpath
    rcases Relation.ReflTransGen.cases_tail_iff _ _ _ |>.mp hpath with heq | ⟨_, _, hedge⟩
    · exact Or.inl heq
    · have hfile : path ∈ ["/a.cast".toList, "/b.cast".toList] := List.mem_toFinset.mp (edge_mem hedge)
      exact (List.mem_cons.mp hfile).imp_right List.mem_singleton.mp
  have hedge : ∀ path path', (importGraph ((twoFiles []).fileSystem [])).Edge path path' →
      path = "/a.cast".toList ∨ path = "/b.cast".toList → path = "/a.cast".toList ∧ path' = "/b.cast".toList := by
    rintro path path' hedge (rfl | rfl)
    · unfold PostOrder.Graph.Edge at hedge
      rw [steps_first] at hedge
      cases List.mem_singleton.mp hedge
      exact ⟨rfl, rfl⟩
    · unfold PostOrder.Graph.Edge at hedge
      rw [hleaf] at hedge
      exact absurd hedge List.not_mem_nil
  have hspelled : ∀ path, Spelled ((twoFiles []).fileSystem []) "/a.cast".toList path →
      path = "/a.cast".toList ∨ path = "/b.cast".toList := by
    have hnormal : normalizePath "/a.cast".toList = "/a.cast".toList := by decide
    have hnext : normalizePath (resolveImportPath "/a.cast".toList "./b".toList) = "/b.cast".toList := by decide
    have hfirst : successors ((twoFiles []).fileSystem []) "/a.cast".toList = ["/b.cast".toList] := by
      rw [successors_eq (show _ = some useText from rfl) imports_useText
        fun spec hspec => List.mem_singleton.mp hspec ▸ rfl, List.map_singleton, hnext]
    have hlast : successors ((twoFiles []).fileSystem []) "/b.cast".toList = [] :=
      successors_eq (show _ = some [] from rfl) imports_nil fun spec hspec => absurd hspec List.not_mem_nil
    intro path hpath
    induction hpath with
    | refl => exact Or.inl hnormal
    | tail _ hstep ih =>
      rcases ih with rfl | rfl
      · rw [hfirst] at hstep
        exact Or.inr (List.mem_singleton.mp hstep)
      · rw [hlast] at hstep
        exact absurd hstep List.not_mem_nil
  apply (loaders_agree_iff _ _ _ hsources).mpr
  rw [hcanonical]
  refine ⟨⟨?_, fun path hpath => ?_⟩, fun path path' hpath hpath' hsame => ?_⟩
  · rintro ⟨path, hpath, hcycle⟩
    obtain ⟨next, hfrom, _⟩ := Relation.TransGen.head'_iff.mp hcycle
    obtain ⟨last, hlast, hto⟩ := Relation.TransGen.tail'_iff.mp hcycle
    have hstart := (hedge path next hfrom (hreached path hpath)).1
    have hend := (hedge last path hto (hreached last (hpath.trans hlast))).2
    rw [hstart] at hend
    cases hend
  · rcases hreached path hpath with rfl | rfl <;> rfl
  · rcases hspelled path hpath with rfl | rfl <;> rcases hspelled path' hpath' with rfl | rfl
    · rfl
    · cases hsame
    · cases hsame
    · rfl

end Caster.SelfHosting
