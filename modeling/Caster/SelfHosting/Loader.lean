import Caster.Adapters.Paths
import Caster.SelfHosting.Statements

/-!
# The loader written in Caster

A program is loaded with the files it imports.  A path is marked when its file is entered, and
the declarations of a file come behind those of the files it imports.
-/

namespace Caster.SelfHosting

open Driver (Text Path FileSystem casterExt lawfulBEq_text)

attribute [local instance] lawfulBEq_text

/-! ### Sources -/

/-- A file with its text. -/
structure SourceFile where
  path : Path
  text : Text

/-- The program without a path. -/
def defaultSampleSource : Text := ("use IO\n\nARR[INT] Scores = []\n\nMAP Counter = \x7b\n" ++
  "    INT value = 0,\n    STR label = \"demo\"\n\x7d\n\nFN bump(REF[Counter] counter) -> NUL = (\n" ++
  "    *counter.value += 1\n)\n\nFN main() -> NUL = (\n    counter = Counter.INIT()\n" ++
  "    bump(REF counter)\n    IO.print(counter.value)\n)\n").toList

/-- The file of a path.  The program ends where it is not read. -/
def loadSource (fs : FileSystem) (path : Path) : Option SourceFile :=
  if path = [] then some ⟨"<sample>".toList, defaultSampleSource⟩
  else (fs.read path).map fun text => ⟨path, text⟩

/-- What a parser makes of a file. -/
structure ParseResult where
  program : Program
  diagnostics : List Diagnostic

/-- A token with the delimiters that are open before it. -/
def countDelimiter (file : String) (state : ℤ × List Diagnostic) (tok : Token) : ℤ × List Diagnostic :=
  let depth := state.1 + delimiterDelta tok
  if depth < 0 then
    (0, state.2 ++ [⟨file, tok.span.line, tok.span.col, tok.span.endLine, tok.span.endCol, "error",
      "unexpected closing delimiter"⟩])
  else (depth, state.2)

/-- The program of some tokens. -/
def parseTokens (file : String) (tokens : List Token) : Option ParseResult := do
  let (program, state) ← parseProgram (State.new file tokens)
  let (depth, diagnostics) := tokens.foldl (countDelimiter file) (0, [])
  let unclosed := if 0 < depth then [⟨file, 1, 1, 1, 1, "error", "unclosed delimiter"⟩] else []
  pure ⟨program, diagnostics ++ unclosed ++ state.diagnostics⟩

/-- The program of a file. -/
def parseSource (source : SourceFile) : Option ParseResult :=
  parseTokens (String.ofList source.path) (lexSource source.text)

/-! ### Paths -/

/-- A path with the extension of source files. -/
def ensureCastExt (path : Path) : Path := if casterExt.isSuffixOf path then path else path ++ casterExt

/-- A part behind others, which are left out if they do not move or are undone. -/
def pushPathPart (parts : List Text) (part : Text) : List Text :=
  if part = [] ∨ part = ['.'] then parts
  else if part = ['.', '.'] then
    if parts ≠ [] ∧ parts.getLast? ≠ some ['.', '.'] then parts.dropLast else parts ++ [part]
  else parts ++ [part]

/-- A character of a path behind the parts before it. -/
def pathChar (state : List Text × Text) (e : Char) : List Text × Text :=
  if e = '/' then (pushPathPart state.1 state.2, []) else (state.1, state.2 ++ [e])

/-- A path without the parts that can be left out. -/
def normalizePath (path : Path) : Path :=
  let (parts, part) := path.foldl pathChar ([], [])
  let out := (if path.head? = some '/' then ['/'] else []) ++ ['/'].intercalate (pushPathPart parts part)
  if out = [] then ['.'] else out

/-- An import of a file of the program. -/
def isLocalSpec (spec : Text) : Bool := spec.head? = some '.'

/-- A name without the characters between its words, each of which starts with a capital letter. -/
def titleFrom : Bool → Text → Text
  | _, [] => []
  | upperNext, e :: rest =>
    if e = '.' ∨ e = '-' ∨ e = '_' then titleFrom true rest
    else (if upperNext then e.toUpper else e) :: titleFrom false rest

/-- The name of a module. -/
def titleName (raw : Text) : Text := titleFrom true raw

/-- The name of the module of a file. -/
def moduleNameFromPath (path : Path) : Text :=
  let name := Sys.pathName path
  titleName (if casterExt.isSuffixOf name then name.take (name.length - 5) else name)

/-- The path of a file that is imported. -/
def resolveImportPath (fromPath : Path) (spec : Text) : Path :=
  if isLocalSpec spec then ensureCastExt (normalizePath (Sys.pathJoin [Sys.pathParent fromPath, spec]))
  else []

/-! ### Loading -/

/-- The declarations of a program behind those of another one, with the name of their module. -/
def appendProgram (target source : Program) (module : String) : Program :=
  { target with
    types := target.types ++
      source.types.map fun item => if module = "" then item else { item with module }
    functions := target.functions ++
      source.functions.map fun item => if module = "" then item else { item with module } }

/-- A program that is loaded, the paths that are marked, and what was reported. -/
structure LoadResult where
  program : Program
  loaded : List Path
  diagnostics : List Diagnostic

section

variable (fs : FileSystem)

/-- An import of a file. -/
def loadUse (load : SourceFile → Text → List Path → Option LoadResult) (fromPath : Path)
    (result : LoadResult) (use : UseDecl) : Option LoadResult :=
  if isLocalSpec use.path.toList then do
    let importPath := resolveImportPath fromPath use.path.toList
    let childSource ← loadSource fs importPath
    let child ← load childSource (moduleNameFromPath importPath) result.loaded
    pure ⟨appendProgram result.program child.program "", child.loaded,
      result.diagnostics ++ child.diagnostics⟩
  else pure result

/-- A file with the files it imports, with fuel for its calls of itself. -/
def loadFrom : ℕ → SourceFile → Text → List Path → Option LoadResult
  | 0, _, _, _ => none
  | n + 1, source, module, loaded =>
    let canonicalPath := if source.path = [] then [] else normalizePath source.path
    if canonicalPath ≠ [] ∧ canonicalPath ∈ loaded then pure ⟨{}, loaded, []⟩
    else do
      let loaded := if canonicalPath = [] then loaded else loaded ++ [canonicalPath]
      let parsed ← parseSource { source with path := canonicalPath }
      let result ← parsed.program.uses.foldlM (loadUse fs (loadFrom n) canonicalPath)
        ⟨{}, loaded, parsed.diagnostics⟩
      pure { result with program := appendProgram result.program parsed.program (String.ofList module) }

/-- The program of a path with the files it imports. -/
def loadProgram (n : ℕ) (path : Path) : Option LoadResult := do
  let source ← loadSource fs path
  loadFrom fs n source [] []

end

/-! ### Paths are normalized -/

theorem pushPathPart_eq (parts : List Text) (part : Text) :
  pushPathPart parts part = UnixPath.push parts part
  := rfl

theorem foldl_pathChar (path : Path) (parts : List Text) (part : Text) :
  let (parts', part') := path.foldl pathChar (parts, part)
  pushPathPart parts' part' = ((UnixPath.split path).modifyHead (part ++ ·)).foldl UnixPath.push parts
  := by
  induction path generalizing parts part with
  | nil => simp [UnixPath.split, pushPathPart_eq]
  | cons e path ih =>
    rw [List.foldl_cons, UnixPath.split, List.splitOn_cons_eq_if_modifyHead]
    by_cases he : e = '/'
    · have hstep : pathChar (parts, part) e = (pushPathPart parts part, []) := if_pos he
      have hrest := ih (pushPathPart parts part) []
      rw [hstep, if_pos (beq_iff_eq.mpr he)]
      dsimp only at hrest ⊢
      rw [hrest]
      obtain ⟨first, rest, hsplit⟩ := List.exists_cons_of_ne_nil (List.splitOn_ne_nil '/' path)
      simp [UnixPath.split, hsplit, pushPathPart_eq]
    · have hstep : pathChar (parts, part) e = (parts, part ++ [e]) := if_neg he
      have hrest := ih parts (part ++ [e])
      rw [hstep, if_neg (by simpa using he)]
      dsimp only at hrest ⊢
      rw [hrest]
      obtain ⟨first, rest, hsplit⟩ := List.exists_cons_of_ne_nil (List.splitOn_ne_nil '/' path)
      simp [UnixPath.split, hsplit]

theorem normalizePath_eq (path : Path) : normalizePath path = UnixPath.simplify path := by
  have hparts := foldl_pathChar path [] []
  obtain ⟨first, rest, hsplit⟩ := List.exists_cons_of_ne_nil (List.splitOn_ne_nil '/' path)
  unfold normalizePath UnixPath.simplify UnixPath.render UnixPath.normal
  dsimp only at hparts ⊢
  rw [hparts]
  have hhead : (UnixPath.split path).modifyHead ([] ++ ·) = UnixPath.split path := by
    simp [UnixPath.split, hsplit]
  rw [hhead]
  by_cases habs : path.head? = some '/' <;> simp [UnixPath.isAbsolute, habs, UnixPath.dot]

end Caster.SelfHosting
