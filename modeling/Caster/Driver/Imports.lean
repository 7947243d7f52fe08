import Caster.Driver.Modules
import Caster.Library.PostOrder

/-!
# Imports

The expansion of the imports of a module: the texts of the modules it imports, directly or
through others, before its own.
-/

namespace Caster.Driver

open PostOrder (Stop)

attribute [local instance] lawfulBEq_text

/-! ### Paths -/

/-- The path of a file. -/
abbrev Path := Text

/-- The files the compiler reads, what `realpath` makes of a path, and the directory of the
compiler. -/
structure FileSystem where
  canonical : Path → Path
  fileExists : Path → Bool
  read : Path → Option Text
  repoRoot : Path

/-- The directory of a path. -/
def pathDirname (path : Path) : Path :=
  if '/' ∈ path then
    let dir := (path.reverse.dropWhile (· ≠ '/')).drop 1
    if dir = [] then ['/'] else dir.reverse
  else ['.']

/-- The last part of a path. -/
def pathBasename (path : Path) : Path := (path.reverse.takeWhile (· ≠ '/')).reverse

/-- The extension of source files. -/
def casterExt : Text := ".cast".toList

/-- A path with the extension of source files. -/
def pathWithCasterExt (path : Path) : Path :=
  if casterExt.isSuffixOf path then path else path ++ casterExt

/-- A name in a directory. -/
def pathJoin (dir name : Path) : Path :=
  if name.head? = some '/' then name
  else if dir = [] ∨ dir = ['.'] then name
  else if dir.getLast? = some '/' then dir ++ name
  else dir ++ '/' :: name

/-- The name of a file without the extension. -/
def moduleBase (path : Path) : Text :=
  let base := pathBasename path
  if casterExt.isSuffixOf base then base.take (base.length - casterExt.length) else base

/-- A name with a capital letter at the start of each of its words, and nothing between
them. -/
def capitalizeWords : Bool → Text → Text
  | _, [] => []
  | capNext, c :: rest =>
    if c.isAlphanum then (if capNext && c.isAlpha then c.toUpper else c) :: capitalizeWords false rest
    else capitalizeWords true rest

/-- The name of a module. -/
def moduleNameFromPath (path : Path) : Text :=
  let base := moduleBase path
  let letters := base.filter Char.isAlpha
  if letters ≠ [] ∧ letters.all Char.isUpper then base
  else
    let out := capitalizeWords true base
    if out = [] then base else out

/-- The prefix of the names of a module. -/
def modulePrefixFromPath (path : Path) : Text := moduleNameFromPath path ++ ['_']

/-- The directory of native modules. -/
def libsPath : Text := "native_libs/".toList

/-- A path leads to a native module. -/
def isNativeImportPath (path : Path) : Bool :=
  libsPath.isPrefixOf path || ("./".toList ++ libsPath).isPrefixOf path ||
    decide (('/' :: libsPath) <:+: path)

/-! ### Lines -/

/-- What is wrong with a module. -/
inductive ModuleError where
  | cannotOpen (path : Path)
  | cannotResolveLocal (spec fromPath : Text)
  | cannotResolveNative (spec path : Text)
  | emptyUse
  | unexpectedText (token : Text)
  | notImported (path module : Text)
deriving DecidableEq, Repr

/-- The message of an error of a module. -/
def ModuleError.message : ModuleError → Text
  | .cannotOpen path => "cannot open ".toList ++ path
  | .cannotResolveLocal spec fromPath =>
    "cannot resolve local import '".toList ++ spec ++ "' from ".toList ++ fromPath
  | .cannotResolveNative spec path =>
    "cannot resolve native import '".toList ++ spec ++ "' at ".toList ++ path
  | .emptyUse => "empty use import".toList
  | .unexpectedText token => "unexpected text after import '".toList ++ token ++ "'".toList
  | .notImported path module =>
    path ++ ": module '".toList ++ module ++ "' is not imported".toList

/-- Why an expansion ends without a text: an import of a module that waits for the importing
one, an error of a module, or no fuel. -/
abbrev ImportStop := Stop Path ModuleError

/-- The message an expansion ends with. -/
def importMessage : ImportStop → Text
  | .cyclic path => "cyclic import involving ".toList ++ path
  | .failed e => e.message
  | .outOfFuel => []

/-- The lines of a text, of no more characters than a number of them. -/
def linesFrom : ℕ → Text → List Text
  | 0, _ => []
  | _ + 1, [] => []
  | n + 1, c :: rest =>
    (c :: rest).takeWhile (· ≠ '\n') :: linesFrom n (((c :: rest).dropWhile (· ≠ '\n')).drop 1)

/-- The lines of a text. -/
def lines (src : Text) : List Text := linesFrom src.length src

/-- A space or a tab. -/
def isTab (c : Char) : Bool := c ∈ [' ', '\t']

/-- A line without the spaces around it. -/
def trimSpan (line : Text) : Text :=
  ((line.dropWhile isTab).reverse.dropWhile fun c => c ∈ [' ', '\t', '\r', '\n']).reverse

/-- The module a line imports, if it is an import. -/
def parseUseLine (line : Text) : Except ModuleError (Option Text) :=
  let trimmed := trimSpan line
  if "use ".toList.isPrefixOf trimmed then
    let rest := (trimmed.drop 4).dropWhile isTab
    let spec := rest.takeWhile fun c => !isTab c
    let behind := (rest.dropWhile fun c => !isTab c).dropWhile isTab
    if spec = [] then .error .emptyUse
    else if behind ≠ [] ∧ ¬ "//".toList.isPrefixOf behind then
      .error (.unexpectedText (rest.take (rest.length - behind.length)))
    else .ok (some spec)
  else .ok none

section

variable (fs : FileSystem)

/-- The path a module is imported by. -/
def importPath (fromPath : Path) (spec : Text) : Path :=
  if spec.head? = some '/' then pathWithCasterExt spec
  else if spec.head? = some '.' then pathWithCasterExt (pathDirname fromPath ++ '/' :: spec)
  else pathJoin fs.repoRoot ("native_libs/".toList ++ spec ++ casterExt)

/-- The path a module is imported by, if there is a file. -/
def resolveImportPath (fromPath : Path) (spec : Text) : Except ModuleError Path :=
  let path := importPath fs fromPath spec
  if fs.fileExists path then .ok path
  else if spec.head? = some '/' ∨ spec.head? = some '.' then
    .error (.cannotResolveLocal spec fromPath)
  else .error (.cannotResolveNative spec path)

/-! ### Expansion -/

/-- What was made of some lines of a module: the texts of the modules they import, the other
lines, the names of the imported modules, and the modules that are done. -/
structure Expanded where
  imports : Text
  body : Text
  visibleModules : List Text
  loaded : List Path
deriving DecidableEq, Repr

/-- One line of a module, given the expansion of the modules it imports. -/
def expandLine (expand : Path → Bool → List Path → Except ImportStop (Text × List Path)) (path : Path)
    (state : Expanded) (line : Text) : Except ImportStop Expanded := do
  match ← (parseUseLine line).mapError .failed with
  | some spec =>
    let importPath ← (resolveImportPath fs path spec).mapError .failed
    let (expanded, loaded) ← expand importPath (!isNativeImportPath importPath) state.loaded
    pure { state with
      imports := state.imports ++ '\n' :: expanded
      visibleModules := state.visibleModules ++ [moduleNameFromPath importPath]
      loaded }
  | none => pure { state with body := state.body ++ line ++ ['\n'] }

/-- The names of modules in a text that is not native are checked. -/
def checkModules (path : Path) (body : Text) (visibleModules : List Text) : Except ModuleError Unit :=
  if isNativeImportPath path then .ok ()
  else
    match validateQualifiedModules body visibleModules (collectLocalModuleExportNames body) with
    | some module => .error (.notImported path module)
    | none => .ok ()

/-- The text of a module without its imports, with its names prefixed unless it is the one
that is compiled. -/
def rewriteModule (path : Path) (body : Text) (rewriteAsModule : Bool) : Text :=
  if isNativeImportPath path then rewriteNativeModuleSource body (modulePrefixFromPath path)
  else if rewriteAsModule then rewriteLocalModuleSource body (modulePrefixFromPath path)
  else body

/-- The text of a module behind the texts of the modules it imports. -/
def joinImports (imports body : Text) : Text :=
  if imports = [] then body else if body = [] then imports else imports ++ '\n' :: body

/-- The expansion of a module: its text and the modules that are done, given those that wait
for it and those that were done before. -/
def expandImportsFrom : ℕ → List Path → Path → Bool → List Path → Except ImportStop (Text × List Path)
  | 0, _, _, _, _ => .error .outOfFuel
  | n + 1, loading, rawPath, rewriteAsModule, loaded =>
    let path := fs.canonical rawPath
    if path ∈ loading then .error (.cyclic path)
    else if path ∈ loaded then .ok ([], loaded)
    else
      match fs.read path with
      | none => .error (.failed (.cannotOpen path))
      | some src => do
        let state ← (lines src).foldlM
          (expandLine fs (expandImportsFrom n (loading ++ [path])) path) ⟨[], [], [], loaded⟩
        (checkModules path state.body state.visibleModules).mapError .failed
        let body := rewriteModule path state.body rewriteAsModule
        pure (joinImports state.imports body, state.loaded ++ [path])

/-- The expansion of a program with a number of modules. -/
def expandImports (modules : ℕ) (sourcePath : Path) : Except ImportStop Text := do
  let (text, _) ← expandImportsFrom fs (modules + 1) [] sourcePath false []
  pure text

end

end Caster.Driver
