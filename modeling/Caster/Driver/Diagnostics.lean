import Caster.Library.JsonTexts
import Caster.Library.Marks
import Caster.Web.Text

/-!
# Diagnostics as JSON

The document `print_json_diagnostic` writes for the error that ends a compilation.
-/

namespace Caster.Driver

open JsonReader

/-- The hexadecimal digit that `%x` prints for a number below sixteen. -/
def hexChar (n : UInt8) : UInt8 := if n < 10 then 48 + n else 87 + n

/-- What `json_write_escaped` writes for one byte. -/
def jsonEscapeByte (p : UInt8) : Bytes :=
  if p = 34 then strLit "\\\""
  else if p = 92 then strLit "\\\\"
  else if p = 8 then strLit "\\b"
  else if p = 12 then strLit "\\f"
  else if p = 10 then strLit "\\n"
  else if p = 13 then strLit "\\r"
  else if p = 9 then strLit "\\t"
  -- four digits, of which a byte has the last two
  else if p < 0x20 then strLit "\\u00" ++ [hexChar (p / 16), hexChar (p % 16)]
  else [p]

/-- What `json_write_escaped` writes for a string, which ends before its first NUL. -/
def jsonWriteEscaped (value : Bytes) : Bytes :=
  34 :: ((value.takeWhile (· ≠ 0)).flatMap jsonEscapeByte ++ [34])

/-- A line or a column, where one that is not positive is the first. -/
def safePlace (n : Int32) : Int32 := if 0 < n then n else 1

/-- The document `print_json_diagnostic` writes; `end_col` wraps behind the last column. -/
def printJsonDiagnostic (sourcePath : Option Bytes) (line col : Int32) (message : Bytes) : Bytes :=
  let file := sourcePath.getD []
  let safeLine := safePlace line
  let safeCol := safePlace col
  let endCol := safeCol + 1
  strLit "[\n  \x7b\n    \"file\": " ++ jsonWriteEscaped file ++
    (strLit ",\n    \"line\": " ++ integerText safeLine.toInt ++
      strLit ",\n    \"col\": " ++ integerText safeCol.toInt ++
      strLit ",\n    \"endLine\": " ++ integerText safeLine.toInt ++
      strLit ",\n    \"endCol\": " ++ integerText endCol.toInt ++
      strLit ",\n    \"severity\": \"error\",\n    \"message\": ") ++
    jsonWriteEscaped message ++ strLit "\n  \x7d\n]\n"

/-! ### Strings -/

theorem hexDigit_hexChar : ∀ n : Fin 16, hexDigit (hexChar (UInt8.ofNat n)) = some n.val := by
  decide

theorem readEscape_low {p : UInt8} (h : p < 0x20) (rest : Bytes) :
  readEscape (117 :: 48 :: 48 :: hexChar (p / 16) :: hexChar (p % 16) :: rest) = some ([p], rest)
  := by
  have hlt : p.toNat < 32 := h
  have hhigh : hexDigit (hexChar (p / 16)) = some (p.toNat / 16) := by
    have hofNat : UInt8.ofNat (p.toNat / 16) = p / 16 := by
      apply UInt8.toNat_inj.mp
      simp
      omega
    have hdigit := hexDigit_hexChar ⟨p.toNat / 16, by omega⟩
    rwa [hofNat] at hdigit
  have hlow : hexDigit (hexChar (p % 16)) = some (p.toNat % 16) := by
    have hofNat : UInt8.ofNat (p.toNat % 16) = p % 16 := by
      apply UInt8.toNat_inj.mp
      simp
      omega
    have hdigit := hexDigit_hexChar ⟨p.toNat % 16, by omega⟩
    rwa [hofNat] at hdigit
  have hzero : hexDigit 48 = some 0 := by decide
  have hencode : encode p.toNat = [p] := by
    have hvalid := JsonReader.toNat_ofNat_of_lt (show p.toNat < 128 by omega)
    have hbyte : (Char.ofNat p.toNat).toUInt8 = p := by
      apply UInt8.toNat_inj.mp
      have hmod : (Char.ofNat p.toNat).toUInt8.toNat = (Char.ofNat p.toNat).toNat % 256 := rfl
      omega
    rw [encode, encode_of_lt _ (by omega), hbyte]
  have hread : readUnit (48 :: 48 :: hexChar (p / 16) :: hexChar (p % 16) :: rest) =
      some (p.toNat, rest) := by
    simp only [readUnit, hzero, hhigh, hlow, Option.bind_eq_bind, Option.bind_some]
    congr 2
    omega
  have hsmall : p.toNat < 0xD800 ∨ 0xDFFF < p.toNat := Or.inl (by omega)
  rw [readEscape, if_neg (by decide), if_neg (by decide), if_neg (by decide), if_neg (by decide),
    if_neg (by decide), if_neg (by decide), if_pos rfl, readUnicode, hread]
  simp [hsmall, hencode]

/-- Every byte is read back from what is written for it. -/
theorem readChar_jsonEscapeByte (p : UInt8) (rest : Bytes) :
  readChar (jsonEscapeByte p ++ rest) = if true then some ([p], rest) else none
  := by
  rw [if_pos rfl]
  unfold jsonEscapeByte
  split_ifs with hquote hslash hb hf hn hr ht hlow
  · rw [hquote]
    rfl
  · rw [hslash]
    rfl
  · rw [hb]
    rfl
  · rw [hf]
    rfl
  · rw [hn]
    rfl
  · rw [hr]
    rfl
  · rw [ht]
    rfl
  · exact readEscape_low hlow rest
  · rw [List.singleton_append, readChar, if_neg hslash, if_neg hlow]

theorem jsonEscapeByte_eq_cons (p : UInt8) :
  ∃ c text, jsonEscapeByte p = c :: text ∧ c ≠ 34
  := by
  by_cases hquote : p = 34
  · rw [hquote]
    exact ⟨92, [34], rfl, by decide⟩
  unfold jsonEscapeByte
  rw [if_neg hquote]
  split_ifs
  all_goals first | exact ⟨92, _, rfl, by decide⟩ | exact ⟨p, _, rfl, hquote⟩

theorem ascii_jsonEscapeByte :
  ∀ p : Fin 128, (jsonEscapeByte (UInt8.ofNat p)).all (·.toNat < 128) = true
  := by decide

theorem isUtf8_jsonEscapeByte {p : UInt8} (h : p.toNat < 128) : IsUtf8 (jsonEscapeByte p) := by
  have hascii := ascii_jsonEscapeByte ⟨p.toNat, h⟩
  rw [UInt8.ofNat_toNat] at hascii
  exact isUtf8_of_all hascii

theorem jsonEscapeByte_high {p : UInt8} (h : 128 ≤ p.toNat) : jsonEscapeByte p = [p] := by
  have hne (c : UInt8) (hc : c.toNat < 128) : p ≠ c := by
    rintro rfl
    omega
  have hlow : ¬ p < 0x20 := by
    rw [UInt8.lt_iff_toNat_lt]
    change ¬ p.toNat < 32
    omega
  rw [jsonEscapeByte, if_neg (hne 34 (by decide)), if_neg (hne 92 (by decide)),
    if_neg (hne 8 (by decide)), if_neg (hne 12 (by decide)), if_neg (hne 10 (by decide)),
    if_neg (hne 13 (by decide)), if_neg (hne 9 (by decide)), if_neg hlow]

/-! ### The document -/

/-- A string as the writer writes it. -/
def writtenString (value : Bytes) : Piece := stringPiece jsonEscapeByte (fun _ => true) value

/-- The members of the object. -/
def diagnosticMembers (file : Bytes) (line col endCol : ℤ) (message : Bytes) : List Member :=
  [⟨writtenString file, strLit "file"⟩, ⟨integerPiece line, strLit "line"⟩,
    ⟨integerPiece col, strLit "col"⟩, ⟨integerPiece line, strLit "endLine"⟩,
    ⟨integerPiece endCol, strLit "endCol"⟩, ⟨writtenString (strLit "error"), strLit "severity"⟩,
    ⟨writtenString message, strLit "message"⟩]

theorem printJsonDiagnostic_eq {sourcePath : Option Bytes} (hsource : 0 ∉ sourcePath.getD [])
    {message : Bytes} (hmessage : 0 ∉ message) (line col : Int32) :
  printJsonDiagnostic sourcePath line col message =
    (arrayPiece (strLit "\n  ") [] (strLit "\n") [objectPiece (strLit "\n    ") (strLit " ")
      (strLit "\n    ") (strLit "\n  ") (diagnosticMembers (sourcePath.getD []) (safePlace line).toInt
        (safePlace col).toInt (safePlace col + 1).toInt message)]).text ++ strLit "\n"
  := by
  have htext (value : Bytes) (h : 0 ∉ value) : jsonWriteEscaped value = (writtenString value).text := by
    rw [jsonWriteEscaped, Marks.takeWhile_of_not_mem h]
    rfl
  rw [printJsonDiagnostic, htext _ hsource, htext _ hmessage]
  simp only [arrayPiece, elemsText, objectPiece, diagnosticMembers, membersText, memberText,
    integerPiece, List.append_assoc, List.cons_append]
  rfl

theorem reads_writtenString (value : Bytes) : (writtenString value).Reads :=
  reads_stringPiece readChar_jsonEscapeByte jsonEscapeByte_eq_cons value

theorem legible_diagnosticMembers (file : Bytes) (line col endCol : ℤ) (message : Bytes) :
  ∀ m ∈ diagnosticMembers file line col endCol message,
    (IsPlainName m.name ∧ m.Reads) ∧ m.legible
  := by
  have hstring (value : Bytes) : (writtenString value).legible :=
    List.all_eq_true.mpr fun _ _ => rfl
  simp only [diagnosticMembers, List.forall_mem_cons]
  refine ⟨⟨⟨by decide, reads_writtenString file⟩, hstring file⟩,
    ⟨⟨by decide, reads_integerPiece line⟩, trivial⟩, ⟨⟨by decide, reads_integerPiece col⟩, trivial⟩,
    ⟨⟨by decide, reads_integerPiece line⟩, trivial⟩, ⟨⟨by decide, reads_integerPiece endCol⟩, trivial⟩,
    ⟨⟨by decide, reads_writtenString _⟩, hstring _⟩,
    ⟨⟨by decide, reads_writtenString message⟩, hstring message⟩, by simp⟩

theorem isUtf8_writtenString {value : Bytes} (h : IsUtf8 value) : IsUtf8 (writtenString value).text :=
  isUtf8_stringPiece (fun _ => isUtf8_jsonEscapeByte) (fun _ => jsonEscapeByte_high) _ h

theorem isUtf8_diagnosticMembers {file message : Bytes} (hfile : IsUtf8 file)
    (hmessage : IsUtf8 message) (line col endCol : ℤ) :
  ∀ m ∈ diagnosticMembers file line col endCol message, IsUtf8 m.name ∧ IsUtf8 m.text
  := by
  simp only [diagnosticMembers, List.forall_mem_cons]
  exact ⟨⟨isUtf8_of_all rfl, isUtf8_writtenString hfile⟩, ⟨isUtf8_of_all rfl, isUtf8_integerText line⟩,
    ⟨isUtf8_of_all rfl, isUtf8_integerText col⟩, ⟨isUtf8_of_all rfl, isUtf8_integerText line⟩,
    ⟨isUtf8_of_all rfl, isUtf8_integerText endCol⟩, ⟨isUtf8_of_all rfl, isUtf8_writtenString (isUtf8_of_all rfl)⟩,
    ⟨isUtf8_of_all rfl, isUtf8_writtenString hmessage⟩, by simp⟩

/-- What is written is a document of one object, in which a reader finds the path and the message as
they are. -/
theorem readDocument_printJsonDiagnostic {sourcePath : Option Bytes} (hsource : 0 ∉ sourcePath.getD [])
    (hpath : IsUtf8 (sourcePath.getD [])) {message : Bytes} (hmessage : 0 ∉ message)
    (htext : IsUtf8 message) (line col : Int32) :
  IsUtf8 (printJsonDiagnostic sourcePath line col message) ∧
    readDocument (printJsonDiagnostic sourcePath line col message) = some (.array [.object
      [(strLit "file", .string (sourcePath.getD [])),
        (strLit "line", .number (safePlace line).toInt),
        (strLit "col", .number (safePlace col).toInt),
        (strLit "endLine", .number (safePlace line).toInt),
        (strLit "endCol", .number (safePlace col + 1).toInt),
        (strLit "severity", .string (strLit "error")),
        (strLit "message", .string message)]])
  := by
  rw [printJsonDiagnostic_eq hsource hmessage]
  constructor
  · have hobject := @isUtf8_objectPiece (strLit " ") (strLit "\n    ") (strLit "\n  ")
      (strLit "\n    ") _ (by decide) (by decide) (by decide) (by decide)
      (isUtf8_diagnosticMembers hpath htext (safePlace line).toInt (safePlace col).toInt
        (safePlace col + 1).toInt)
    apply isUtf8_append _ (isUtf8_singleton (by decide))
    exact isUtf8_arrayPiece (by decide) (by decide) (by decide)
      (List.forall_mem_singleton.mpr hobject)
  · have hmembers := legible_diagnosticMembers (sourcePath.getD []) (safePlace line).toInt
      (safePlace col).toInt (safePlace col + 1).toInt message
    have hobject := @reads_objectPiece (strLit " ") (strLit "\n    ") (strLit "\n  ")
      (strLit "\n    ") _ _ (fun m hm => (hmembers m hm).1) (by decide) (by decide) (by decide)
      (by decide)
    have harray := @reads_arrayPiece [] (strLit "\n") (strLit "\n  ") [_]
      (List.forall_mem_singleton.mpr hobject) (by decide) (by decide) (by decide)
    apply (harray.readDocument (by decide)).1
    intro p hp
    rw [List.mem_singleton] at hp
    subst hp
    intro m hm
    exact (hmembers m hm).2

/-- A message that quotes a line of source with a quote, a backslash and an escape character. -/
theorem readDocument_printJsonDiagnostic_quoted :
  readDocument (printJsonDiagnostic (some (strLit "a.cast")) 0 7 [34, 44, 92, 27, 10]) =
    some (.array [.object [(strLit "file", .string (strLit "a.cast")), (strLit "line", .number 1),
      (strLit "col", .number 7), (strLit "endLine", .number 1), (strLit "endCol", .number 8),
      (strLit "severity", .string (strLit "error")), (strLit "message", .string [34, 44, 92, 27, 10])]])
  := by
  have hdocument := @readDocument_printJsonDiagnostic (some (strLit "a.cast")) (by decide)
    (isUtf8_of_all rfl) [34, 44, 92, 27, 10] (by decide) (isUtf8_of_all rfl) 0 7
  have hplaces : (safePlace 0).toInt = 1 ∧ (safePlace 7).toInt = 7 ∧ (safePlace 7 + 1).toInt = 8 := by
    decide
  rw [hplaces.1, hplaces.2.1, hplaces.2.2] at hdocument
  simpa using hdocument.2

end Caster.Driver
