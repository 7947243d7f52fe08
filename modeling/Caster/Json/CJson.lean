import Caster.Json.Canonical
import Caster.Library.Binary64Text

/-!
# The vendored JSON parser

The functions of `cJSON.c` that parse a text, and the functions of the emitted runtime that make a
dynamic value of what they have parsed.  The text from an offset on is a list of bytes; a fuel
argument bounds the recursion.
-/

namespace Caster

open JsonReader

/-- How deep arrays and objects may be nested, and which bytes of a string are taken as they are. -/
structure CjsonSettings where
  nestingLimit : Option ℕ
  takes : UInt8 → Bool

/-- The vendored parser: `CJSON_NESTING_LIMIT`, and all bytes. -/
def CjsonSettings.vendored : CjsonSettings := { nestingLimit := some 1000, takes := fun _ => true }

/-- What RFC 8259 asks of any parser: no control character stands in a string as it is. -/
def CjsonSettings.strict : CjsonSettings := { nestingLimit := none, takes := fun b => 32 ≤ b }

/-- A number of type `double` that is not a NaN. -/
structure SignedDouble where
  negative : Bool
  magnitude : Magnitude
deriving DecidableEq

/-- An item of the tree that is parsed. -/
inductive CjsonItem where
  | null
  | bool (value : Bool)
  | number (valuedouble : SignedDouble)
  | string (valuestring : Bytes)
  | array (children : List CjsonItem)
  | object (children : List (Bytes × CjsonItem))

/-! ### Numbers -/

/-- The exponent of a number, with the text behind it.  What only starts like one is no exponent. -/
def strtodExponent (text : Bytes) : ℤ × Bytes :=
  match readExponent text with
  | some (exponent, rest) => (exponent, rest)
  | none => (0, text)

/-- The fraction of a number, with the text behind it. -/
def strtodFraction : Bytes → Bytes × Bytes
  | [] => ([], [])
  | b :: text =>
    if b = 46 then (text.takeWhile isDigit, text.dropWhile isDigit) else ([], b :: text)

/-- The sign of a number, with the text behind it. -/
def strtodSign : Bytes → Bool × Bytes
  | [] => (false, [])
  | b :: text =>
    if b = 45 then (true, text) else if b = 43 then (false, text) else (false, b :: text)

/-- The number at the start of a text, with the text behind it. -/
def strtod (text : Bytes) : Option (SignedDouble × Bytes) :=
  let (negative, text) := strtodSign text
  let whole := text.takeWhile isDigit
  let (fraction, text) := strtodFraction (text.dropWhile isDigit)
  if whole = [] ∧ fraction = [] then none
  else
    let (exponent, rest) := strtodExponent text
    let value : ℚ :=
      (digitsValue whole + digitsValue fraction / 10 ^ fraction.length) * 10 ^ exponent
    some ({ negative := negative, magnitude := Binary64.ofRat value }, rest)

/-- The bytes that `parse_number` copies for `strtod`. -/
def isNumberByte (b : UInt8) : Bool := isDigit b ∨ b = 43 ∨ b = 45 ∨ b = 101 ∨ b = 69 ∨ b = 46

def parseNumber (text : Bytes) : Option (CjsonItem × Bytes) := do
  let numberCString := text.takeWhile isNumberByte
  let (number, afterEnd) ← strtod numberCString
  some (.number number, text.drop (numberCString.length - afterEnd.length))

/-! ### Strings -/

/-- The end of a string is looked for: its text and what is behind its quote. -/
def stringEnd : Bytes → Option (Bytes × Bytes)
  | [] => none
  | b :: text =>
    if b = 34 then some ([], text)
    else if b = 92 then
      match text with
      | [] => none
      | c :: text => (stringEnd text).map fun (body, rest) => (b :: c :: body, rest)
    else (stringEnd text).map fun (body, rest) => (b :: body, rest)

/-- The number of four hexadecimal digits, zero when one of them is none. -/
def parseHex4 (input : Bytes) : ℕ :=
  match readUnit input with
  | some (h, _) => h
  | none => 0

/-- The bytes of a UTF-16 literal, given from the digits of its first sequence on. -/
def utf16LiteralToUtf8 (text : Bytes) : Option (Bytes × Bytes) :=
  if text.length < 4 then none
  else
    let firstCode := parseHex4 text
    let rest := text.drop 4
    if 0xDC00 ≤ firstCode ∧ firstCode ≤ 0xDFFF then none
    else if 0xD800 ≤ firstCode ∧ firstCode ≤ 0xDBFF then
      if rest.length < 6 then none
      else if ¬ [92, 117] <+: rest then none
      else
        let secondCode := parseHex4 (rest.drop 2)
        if secondCode < 0xDC00 ∨ 0xDFFF < secondCode then none
        else
          let codepoint := 0x10000 + (((firstCode &&& 0x3FF) <<< 10) ||| (secondCode &&& 0x3FF))
          some (encode codepoint, rest.drop 6)
    else some (encode firstCode, rest)

/-- The string that the text between two quotes stands for. -/
def unescape (s : CjsonSettings) : ℕ → Bytes → Option Bytes
  | 0, _ => none
  | _ + 1, [] => some []
  | fuel + 1, b :: text =>
    if b ≠ 92 then
      if s.takes b then (unescape s fuel text).map (b :: ·) else none
    else
      match text with
      | [] => none
      | c :: text =>
        if c = 98 then (unescape s fuel text).map (8 :: ·)
        else if c = 102 then (unescape s fuel text).map (12 :: ·)
        else if c = 110 then (unescape s fuel text).map (10 :: ·)
        else if c = 114 then (unescape s fuel text).map (13 :: ·)
        else if c = 116 then (unescape s fuel text).map (9 :: ·)
        else if c = 34 ∨ c = 92 ∨ c = 47 then (unescape s fuel text).map (c :: ·)
        else if c = 117 then do
          let (output, text) ← utf16LiteralToUtf8 text
          (unescape s fuel text).map (output ++ ·)
        else none

def parseString (s : CjsonSettings) : Bytes → Option (Bytes × Bytes)
  | [] => none
  | b :: text =>
    if b ≠ 34 then none
    else do
      let (body, rest) ← stringEnd text
      let output ← unescape s (body.length + 1) body
      some (output, rest)

/-! ### Values -/

/-- The text behind bytes up to the space. -/
def skipBlanks (text : Bytes) : Bytes := text.dropWhile (· ≤ 32)

/-- Another array or object would be nested too deep. -/
def tooDeep (s : CjsonSettings) (depth : ℕ) : Bool :=
  match s.nestingLimit with
  | some limit => limit ≤ depth
  | none => false

mutual

def parseValue (s : CjsonSettings) : ℕ → ℕ → Bytes → Option (CjsonItem × Bytes)
  | 0, _, _ => none
  | _ + 1, _, [] => none
  | fuel + 1, depth, b :: text =>
    if nullText <+: b :: text then some (.null, (b :: text).drop 4)
    else if falseText <+: b :: text then some (.bool false, (b :: text).drop 5)
    else if trueText <+: b :: text then some (.bool true, (b :: text).drop 4)
    else if b = 34 then
      (parseString s (b :: text)).map fun (valuestring, rest) => (.string valuestring, rest)
    else if b = 45 ∨ isDigit b then parseNumber (b :: text)
    else if b = 91 then
      if tooDeep s depth then none
      else
        match readLiteral [93] (skipBlanks text) with
        | some rest => some (.array [], rest)
        | none =>
          (parseElements s fuel (depth + 1) (skipBlanks text)).map fun (children, rest) =>
            (.array children, rest)
    else if b = 123 then
      if tooDeep s depth then none
      else
        match readLiteral [125] (skipBlanks text) with
        | some rest => some (.object [], rest)
        | none =>
          (parseMembers s fuel (depth + 1) (skipBlanks text)).map fun (children, rest) =>
            (.object children, rest)
    else none

/-- The loop of `parse_array`. -/
def parseElements (s : CjsonSettings) : ℕ → ℕ → Bytes → Option (List CjsonItem × Bytes)
  | 0, _, _ => none
  | fuel + 1, depth, text => do
    let (item, text) ← parseValue s fuel depth text
    match readLiteral [44] (skipBlanks text) with
    | some text =>
      let (items, text) ← parseElements s fuel depth (skipBlanks text)
      some (item :: items, text)
    | none =>
      let text ← readLiteral [93] (skipBlanks text)
      some ([item], text)

/-- The loop of `parse_object`. -/
def parseMembers (s : CjsonSettings) : ℕ → ℕ → Bytes → Option (List (Bytes × CjsonItem) × Bytes)
  | 0, _, _ => none
  | fuel + 1, depth, text => do
    let (name, text) ← parseString s text
    let text ← readLiteral [58] (skipBlanks text)
    let (item, text) ← parseValue s fuel depth (skipBlanks text)
    match readLiteral [44] (skipBlanks text) with
    | some text =>
      let (items, text) ← parseMembers s fuel depth (skipBlanks text)
      some ((name, item) :: items, text)
    | none =>
      let text ← readLiteral [125] (skipBlanks text)
      some ([(name, item)], text)

end

/-- The text behind a byte order mark. -/
def skipUtf8Bom (text : Bytes) : Bytes :=
  if 4 < text.length ∧ [239, 187, 191] <+: text then text.drop 3 else text

/-- The tree of `cJSON_ParseWithLengthOpts`, with the text behind it. -/
def cjsonParseWithLengthOpts (s : CjsonSettings) (value : Bytes) : Option (CjsonItem × Bytes) :=
  if value.length = 0 then none
  else parseValue s (value.length + 1) 0 (skipBlanks (skipUtf8Bom value))

/-! ### The runtime -/

/-- The whitespace of `isspace`. -/
def isJsonSpace (b : UInt8) : Bool := b = 32 ∨ 9 ≤ b ∧ b ≤ 13

/-- A text without anything but whitespace behind its value. -/
def jsonParseCjson (s : CjsonSettings) (json : Bytes) : Option CjsonItem := do
  let (root, rest) ← cjsonParseWithLengthOpts s json
  if rest.dropWhile isJsonSpace = [] then some root else none

/-- A string up to its first zero byte. -/
def jsonCopyCstr (text : Bytes) : Bytes := text.takeWhile (· ≠ 0)

/-- A number is an integer if it is a whole one within 2⁵³. -/
def jsonNumberFromCjson (value : SignedDouble) : Dyn SignedDouble :=
  match value.magnitude with
  | .infinite => .flt value
  | .finite x =>
    if x.toRat ≤ 9007199254740992 then
      let asInt := ⌊x.toRat⌋
      if (asInt : ℚ) = x.toRat then .int (if value.negative then -asInt else asInt)
      else .flt value
    else .flt value

section

variable (T : KeyedTable (Bytes × Dyn SignedDouble) SameObjKey)

mutual

def jsonFromCjson : CjsonItem → Dyn SignedDouble
  | .null => .nil
  | .bool value => .bol value
  | .number valuedouble => jsonNumberFromCjson valuedouble
  | .string valuestring => .str (jsonCopyCstr valuestring)
  | .array children => .arr (jsonObjarrFromCjson children)
  | .object children => objFromObjmap (some (objmapMake T (jsonEntriesFromCjson children)))

def jsonObjarrFromCjson : List CjsonItem → List (Dyn SignedDouble)
  | [] => []
  | child :: children => jsonFromCjson child :: jsonObjarrFromCjson children

/-- The entries that are set one after the other. -/
def jsonEntriesFromCjson : List (Bytes × CjsonItem) → List (Bytes × Dyn SignedDouble)
  | [] => []
  | (key, child) :: children =>
    (jsonCopyCstr key, jsonFromCjson child) :: jsonEntriesFromCjson children

end

/-- The value of `JSON(json)`.  A text that is not parsed ends the program. -/
def jsonParseDyn (s : CjsonSettings) (json : Bytes) : Option (Dyn SignedDouble) :=
  (jsonParseCjson s json).map (jsonFromCjson T)

end

end Caster
