import Caster.Adapters.Paths

/-!
# The runtimes of strings

The functions on strings of generated programs, as each of the compilers writes them.  A byte
of a string is a character up to 255, and letters are those of the C locale.
-/

namespace Caster.Sys

open Driver (Text Path)

/-- The text of an integer. -/
def decimal (value : ℤ) : Text := (toString value).toList

/-! ### The C compiler's runtime -/

def flxStrUpper (text : Text) : Text := text.map Char.toUpper

def flxStrLower (text : Text) : Text := text.map Char.toLower

/-- A string of one character, or nothing where the program stops. -/
def flxStrCharAt (text : Text) (index : ℤ) : Option Text :=
  if index < 0 ∨ index ≥ text.length then none else text[index.toNat]?.map fun c => [c]

def flxStrConcat (left right : Text) : Text := left ++ right

def flxStrEq (left right : Text) : Bool :=
  if left.length ≠ right.length then false else (left.zip right).all fun pair => pair.1 = pair.2

def flxCastIntToStr (value : ℤ) : Text := decimal value

def flxStrChars (text : Text) : List Text := text.map fun c => [c]

/-- Some characters, all of one kind. -/
def flxStrAll (kind : Char → Bool) (text : Text) : Bool := text.length ≠ 0 && text.all kind

def flxStrAllDigit : Text → Bool := flxStrAll Char.isDigit

def flxStrAllAlpha : Text → Bool := flxStrAll Char.isAlpha

def flxStrAllSpace : Text → Bool := flxStrAll Driver.isSpace

/-! ### The self-hosted compiler's runtime -/

namespace SelfHosted

/-- The characters from one to another one are moved in the character table. -/
def shift (first last : Char) (distance : ℤ) (c : Char) : Char :=
  if first ≤ c ∧ c ≤ last then Char.ofNat (c.toNat + distance).toNat else c

/-- The first character in upper case. -/
def upper (text : Text) : Text :=
  match text with
  | [] => text
  | c :: _ => [shift 'a' 'z' (-32) c]

/-- The first character in lower case. -/
def lower (text : Text) : Text :=
  match text with
  | [] => text
  | c :: _ => [shift 'A' 'Z' 32 c]

/-- A string of one character, which is empty out of bounds. -/
def flxStrAt (text : Text) (index : ℤ) : Text :=
  if index < 0 ∨ index ≥ text.length then [] else (text.drop index.toNat).take 1

def flxStrConcat (a b : Text) : Text := a ++ b

def flxStrEq (a b : Text) : Bool := a.length = b.length && a.take a.length = b.take a.length

def flxStrFromInt (value : ℤ) : Text := decimal value

def flxStrChars (text : Text) : List Text := text.map fun c => [c]

/-- One character, of some kind. -/
def oneChar (kind : Char → Bool) (text : Text) : Bool := text.length = 1 && text.head?.any kind

def isDigit : Text → Bool := oneChar fun c => '0' ≤ c && c ≤ '9'

def isAlpha : Text → Bool := oneChar fun c => ('a' ≤ c && c ≤ 'z') || ('A' ≤ c && c ≤ 'Z')

def isSpace : Text → Bool := oneChar fun c => c ∈ [' ', '\t', '\r', '\n']

/-- A path behind what was written, where a directory that does not move is left out. -/
def normalizeFrom (out : Text) : Path → Text
  | '/' :: '.' :: '/' :: path => normalizeFrom (if out = [] ∨ out.getLast? ≠ some '/' then out ++ ['/'] else out) path
  | c :: path => normalizeFrom (out ++ [c]) path
  | [] => out

/-- A path in one pass, which leaves out the directory it starts in. -/
def pathNormalize : Path → Path
  | '.' :: '/' :: path => normalizeFrom [] path
  | path => normalizeFrom [] path

/-- Where the last slash is, if not at `last`. -/
def lastSlashFrom (i last : ℤ) : Path → ℤ
  | [] => last
  | c :: path => lastSlashFrom (i + 1) (if c = '/' then i else last) path

/-- Where the last slash is, and -1 if there is none. -/
def lastSlash : Path → ℤ := lastSlashFrom 0 (-1)

def pathParent (path : Path) : Path :=
  if lastSlash path ≤ 0 then ['.'] else path.take (lastSlash path).toNat

def pathName (path : Path) : Text := path.drop (lastSlash path + 1).toNat

/-- A part behind what was written, with a slash between them if there is none. -/
def joinPart (out part : Path) : Path :=
  (if out.length > 0 ∧ out.getLast? ≠ some '/' then out ++ ['/'] else out) ++ part

/-- Paths, one behind the other.  Nothing was written before the first one. -/
def pathJoin (parts : List Path) : Path := parts.foldl joinPart []

end SelfHosted

end Caster.Sys
