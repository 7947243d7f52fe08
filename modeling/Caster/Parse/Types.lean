import Caster.Parse.Node

/-!
# Types

The parser of types, and the scans that look ahead over a type without parsing it.
-/

namespace Caster.Parse

open TokenParser

/-- A type with its first token. -/
structure ParsedType where
  type : String
  token : Token

/-- The name a type has in the compiler. -/
def normalizeSourceTypeName (name : String) : String :=
  if name = "Req" then "HttpReq" else if name = "Res" then "HttpRes" else name

/-- The type of a name and of a name behind a module. -/
def parseNamedType (tok : Token) : P ParsedType := do
  if ← matchToken .DOT then
    let member ← expect .NAME "expected type name after module '.'"
    if tok.text = "WEB" then pure ⟨normalizeSourceTypeName member.text, tok⟩
    else if tok.text = "BUF" ∧ member.text = "Buffer" then pure ⟨"Buffer", tok⟩
    else pure ⟨tok.text ++ "_" ++ member.text, tok⟩
  else pure ⟨normalizeSourceTypeName tok.text, tok⟩

/-- One of the type names that stand alone. -/
def matchBasicType : P Bool :=
  either (matchToken .INT) (either (matchToken .FLT) (either (matchToken .BOL)
    (either (matchToken .STR) (matchToken .NUL_TYPE))))

/-- The body of `parse_type`, which calls itself through `parseType`. -/
def parseTypeBody (parseType : P ParsedType) : P ParsedType := do
  let tok ← cur
  if ← matchToken .ARR then
    let _ ← expect .LBRACKET "expected '[' after ARR"
    let elem ← parseType
    let _ ← expect .RBRACKET "expected ']' after ARR element type"
    pure ⟨"ARR[" ++ elem.type ++ "]", tok⟩
  else if ← matchToken .MAP then
    let _ ← expect .LBRACKET "expected '[' after MAP"
    let key ← parseType
    let _ ← expect .COMMA "expected ',' after MAP key type"
    let value ← parseType
    let _ ← expect .RBRACKET "expected ']' after MAP value type"
    pure ⟨"MAP[" ++ key.type ++ "," ++ value.type ++ "]", tok⟩
  else if ← matchToken .REF then
    let _ ← expect .LBRACKET "expected '[' after REF"
    let target ← parseType
    let _ ← expect .RBRACKET "expected ']' after REF target type"
    pure ⟨"REF[" ++ target.type ++ "]", tok⟩
  else if ← matchToken .TSK then
    let _ ← expect .LBRACKET "expected '[' after TSK"
    let target ← parseType
    let _ ← expect .RBRACKET "expected ']' after TSK target type"
    pure ⟨"TSK[" ++ target.type ++ "]", tok⟩
  else if ← matchToken .FN then
    let _ ← expect .LBRACKET "expected '[' after FN"
    let input ← parseType
    let _ ← expect .ARROW "expected '->' in FN type"
    let output ← parseType
    let _ ← expect .RBRACKET "expected ']' after FN return type"
    pure ⟨"FN[" ++ input.type ++ "->" ++ output.type ++ "]", tok⟩
  else if ← matchBasicType then
    pure ⟨tok.text, tok⟩
  else if ← matchToken .NAME then
    parseNamedType tok
  else dieAt tok.line tok.col "expected type"

/-- A type. -/
def parseType : P ParsedType :=
  fix 1 (fun self (_ : Unit) => parseTypeBody (self ())) ()

/-- A declaration starts with a type at the position. -/
def startsType : P Bool := do
  let k := (← cur).kind
  if k ∈ [.INT, .FLT, .BOL, .STR, .NUL_TYPE, .ARR, .MAP, .REF, .TSK] then pure true
  else if k = .NAME then
    either (peekIs 1 .NAME) (both (peekIs 1 .DOT) (both (peekIs 2 .NAME) (peekIs 3 .NAME)))
  else pure false

/-! ### Scans -/

/-- The position behind the ends of lines. -/
def scanNewlines (pos : ℕ) : P ℕ := scan isNewline pos

/-- The token at a position is of a kind. -/
def tokenAtIs (pos : ℕ) (k : TokenKind) : P Bool := do
  let tok ← tokenAt pos
  pure (tok.kind = k)

/-- The position behind a token of a kind and the ends of lines around it, if it is there. -/
def scanSeparator (k : TokenKind) (pos : ℕ) : P (Option ℕ) := do
  let pos ← scanNewlines pos
  if ← tokenAtIs pos k then
    let pos ← scanNewlines (pos + 1)
    pure (some pos)
  else pure none

/-- The position behind a token of a kind, with the ends of lines before it. -/
def scanClose (k : TokenKind) (pos : ℕ) : P (Option ℕ) := do
  let pos ← scanNewlines pos
  if ← tokenAtIs pos k then pure (some (pos + 1)) else pure none

/-- The position behind an opening bracket and the ends of lines after it. -/
def scanOpen (pos : ℕ) : P (Option ℕ) := do
  if ← tokenAtIs pos .LBRACKET then
    let pos ← scanNewlines (pos + 1)
    pure (some pos)
  else pure none

/-- A scan of a position a scan found. -/
def thenScan (first : P (Option ℕ)) (next : ℕ → P (Option ℕ)) : P (Option ℕ) := do
  match ← first with
  | some pos => next pos
  | none => pure none

/-- A type in brackets. -/
def scanBracketedType (scanTypeEnd : ℕ → P (Option ℕ)) (pos : ℕ) : P (Option ℕ) :=
  thenScan (scanOpen pos) fun pos =>
    thenScan (scanTypeEnd pos) (scanClose .RBRACKET)

/-- Two types in brackets with a separator between them. -/
def scanTypePair (scanTypeEnd : ℕ → P (Option ℕ)) (separator : TokenKind) (pos : ℕ) : P (Option ℕ) :=
  thenScan (scanOpen pos) fun pos =>
    thenScan (scanTypeEnd pos) fun pos =>
      thenScan (scanSeparator separator pos) fun pos =>
        thenScan (scanTypeEnd pos) (scanClose .RBRACKET)

/-- The position behind a name, and behind a module and its member unless the member is the
field of a destructuring. -/
def scanName (pos : ℕ) : P (Option ℕ) := do
  if ← both (tokenAtIs pos .DOT) (tokenAtIs (pos + 1) .NAME) then
    let afterMember := (← tokenAt (pos + 2)).kind
    if afterMember ∉ [.COMMA, .RBRACE, .AS] then pure (some (pos + 2)) else pure (some pos)
  else pure (some pos)

/-- The body of `scan_type_end`. -/
def scanTypeEndBody (scanTypeEnd : ℕ → P (Option ℕ)) (pos : ℕ) : P (Option ℕ) := do
  let k := (← tokenAt pos).kind
  if k ∈ [.INT, .FLT, .BOL, .STR, .NUL_TYPE] then pure (some (pos + 1))
  else if k ∈ [.ARR, .REF, .TSK] then scanBracketedType scanTypeEnd (pos + 1)
  else if k = .MAP then scanTypePair scanTypeEnd .COMMA (pos + 1)
  else if k = .FN then scanTypePair scanTypeEnd .ARROW (pos + 1)
  else if k = .NAME then scanName (pos + 1)
  else pure none

/-- The position behind the type at a position, if there is one. -/
def scanTypeEnd : ℕ → P (Option ℕ) := fix 1 scanTypeEndBody

/-- The pattern of a destructuring starts at the position. -/
def startsDestructure : P Bool := do
  if ← curIs .LBRACE then
    let pos ← scanNewlines ((← position) + 1)
    if ← tokenAtIs pos .RBRACE then pure false
    else
      match ← scanTypeEnd pos with
      | none => pure false
      | some pos =>
        let pos ← scanNewlines pos
        let k := (← tokenAt pos).kind
        pure (k = .NAME ∨ k = .DOT)
  else pure false

/-- The type of a field of a destructuring: a name before the field it takes, or any type. -/
def parseDestructureType : P ParsedType := do
  if ← both (curIs .NAME) (both (peekIs 1 .DOT) (peekIs 2 .NAME)) then
    let afterMember := (← peek 3).kind
    if afterMember ∈ [.COMMA, .RBRACE, .AS] then
      let tok ← cur
      advance
      pure ⟨normalizeSourceTypeName tok.text, tok⟩
    else parseType
  else parseType

end Caster.Parse
