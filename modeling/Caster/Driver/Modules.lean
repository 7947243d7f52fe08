import Caster.Driver.Scan

/-!
# Texts of modules

The names a module declares at its top, the names of modules it may use, and the text of a
module with its declared names prefixed.
-/

namespace Caster.Driver

/-! ### The characters around an identifier -/

/-- The last character before a position that is not a space, given the characters before it
with the last one first. -/
def prevNonspace (before : Text) : Option Char := before.find? fun c => !isSpace c

/-- The first character from a position on that is not a space. -/
def nextNonspace (after : Text) : Option Char := after.find? fun c => !isSpace c

/-- The text behind the brackets that close those that are open. -/
def skipBalancedBrackets : ℕ → Text → Text
  | _, [] => []
  | depth, '[' :: rest => skipBalancedBrackets (depth + 1) rest
  | depth, ']' :: rest => if depth = 1 then rest else skipBalancedBrackets (depth - 1) rest
  | depth, _ :: rest => skipBalancedBrackets depth rest

/-- The identifier a text starts with. -/
def leadingIdent (text : Text) : List Text :=
  if text.head?.any isIdentStart then [text.takeWhile isIdentChar] else []

/-- The identifier behind a keyword. -/
def collectIdentAfterKeyword (after : Text) : List Text := leadingIdent (after.dropWhile isSpace)

/-- The identifier behind a type and its arguments. -/
def collectIdentAfterTypeHead (after : Text) : List Text :=
  let rest := after.dropWhile isSpace
  if rest.head? = some '[' then leadingIdent ((skipBalancedBrackets 0 rest).dropWhile isSpace)
  else leadingIdent rest

/-! ### Declared names -/

/-- The open parentheses, braces and brackets. -/
structure Depths where
  paren : ℕ
  brace : ℕ
  bracket : ℕ
deriving DecidableEq, Repr

/-- The depths behind a character of code. -/
def Depths.pass (depths : Depths) (c : Char) : Depths :=
  if c = '(' then { depths with paren := depths.paren + 1 }
  else if c = ')' then { depths with paren := depths.paren - 1 }
  else if c = '{' then { depths with brace := depths.brace + 1 }
  else if c = '}' then { depths with brace := depths.brace - 1 }
  else if c = '[' then { depths with bracket := depths.bracket + 1 }
  else if c = ']' then { depths with bracket := depths.bracket - 1 }
  else depths

/-- The keywords a type and a name may follow. -/
def typeHeads : List Text := ["FN", "MAP", "ARR", "REF", "TSK"].map String.toList

/-- The keywords a name follows at once. -/
def nameKeywords : List Text := ["TYPE", "INT", "FLT", "BOL", "STR", "DYN"].map String.toList

/-- The names an identifier at the top of a module declares. -/
def collectAtIdent (name after : Text) : List Text :=
  if name ∈ typeHeads then collectIdentAfterTypeHead after
  else if name ∈ nameKeywords then collectIdentAfterKeyword after
  else []

/-- The names the parts of a module declare at its top. -/
def collectExports : Depths → List Part → List Text
  | _, [] => []
  | depths, .ident _ name after :: rest =>
    if depths = ⟨0, 0, 0⟩ then collectAtIdent name after ++ collectExports depths rest
    else collectExports depths rest
  | depths, .chars .code text :: rest => collectExports (text.foldl Depths.pass depths) rest
  | depths, .chars _ _ :: rest => collectExports depths rest

/-- The names a module declares at its top. -/
def collectLocalModuleExportNames (src : Text) : List Text := collectExports ⟨0, 0, 0⟩ (parts src)

/-- The characters `collect_native_function_names` passes behind `FN`. -/
def isBlank (c : Char) : Bool := c ∈ [' ', '\t', '\r', '\n']

/-- The name of a function whose declaration an identifier starts. -/
def nativeFunctionName : Part → List Text
  | .ident _ name after => if name = ['F', 'N'] then leadingIdent (after.dropWhile isBlank) else []
  | .chars _ _ => []

/-- The functions a native module declares. -/
def collectNativeFunctionNames (src : Text) : List Text := (parts src).flatMap nativeFunctionName

/-! ### Prefixed names -/

/-- An identifier of a module is prefixed. -/
def shouldPrefixLocalIdent (names : List Text) (pre before name after : Text) : Bool :=
  name ∈ names && !pre.isPrefixOf name && prevNonspace before ≠ some '.' &&
    nextNonspace after ≠ some '.'

/-- The identifier is the name of a function in its declaration. -/
def isNativeFnDeclaration (before : Text) : Bool :=
  match before.dropWhile isSpace with
  | 'N' :: 'F' :: before => !(prevNonspace before).any isIdentChar
  | _ => false

/-- An identifier of a native module is prefixed. -/
def shouldPrefixNativeIdent (fnNames : List Text) (before name after : Text) : Bool :=
  name ∈ fnNames && (isNativeFnDeclaration before || nextNonspace after = some '(' ||
    (prevNonspace before = some ',' && nextNonspace after = some ')'))

/-- The text of a part whose name may be prefixed. -/
def rewritePart (shouldPrefix : Text → Text → Text → Bool) (pre : Text) : Part → Text
  | .ident before name after => if shouldPrefix before name after then pre ++ name else name
  | .chars _ text => text

/-- The text of a module with its declared names prefixed. -/
def rewriteLocalModuleSource (src pre : Text) : Text :=
  let names := collectLocalModuleExportNames src
  if names = [] then src
  else (parts src).flatMap (rewritePart (shouldPrefixLocalIdent names pre) pre)

/-- The text of a native module with the names of its functions prefixed. -/
def rewriteNativeModuleSource (src pre : Text) : Text :=
  let fnNames := collectNativeFunctionNames src
  if fnNames = [] then src
  else (parts src).flatMap (rewritePart (shouldPrefixNativeIdent fnNames) pre)

/-! ### Names of modules -/

/-- The identifier may be the name of a module. -/
def isModuleIdent (name : Text) : Bool := name.head?.any Char.isUpper

/-- The module a part of a text names without importing or declaring it. -/
def unknownModule (visibleModules localNames : List Text) : Part → Option Text
  | .ident _ name after =>
    if nextNonspace after = some '.' ∧ isModuleIdent name ∧ name ∉ visibleModules ∧ name ∉ localNames
    then some name else none
  | .chars _ _ => none

/-- The first module a text names without importing or declaring it. -/
def validateQualifiedModules (src : Text) (visibleModules localNames : List Text) : Option Text :=
  (parts src).findSome? (unknownModule visibleModules localNames)

end Caster.Driver
