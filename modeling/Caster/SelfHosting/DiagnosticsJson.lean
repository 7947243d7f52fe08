import Caster.Json.Reading
import Caster.Library.JsonTexts
import Caster.Web.Text

/-!
# Diagnostics of the self-hosted compiler as JSON

The document that `diagnosticsJson` of `driver/diagnostics.cast` makes.  Its escapes are those of the
emitted runtime: every control character but newline and tab is written as it is.
-/

namespace Caster.SelfHosting.Diagnostics

open JsonReader

/-- A diagnostic, with the defaults of its fields. -/
structure Diagnostic where
  file : Bytes := []
  line : ℤ := 1
  col : ℤ := 1
  endLine : ℤ := 1
  endCol : ℤ := 1
  severity : Bytes := strLit "error"
  message : Bytes := []

/-- The escapes of `jsonEscape`, byte by byte. -/
def jsonEscape (text : Bytes) : Bytes :=
  text.foldl (fun out e =>
    if e = 34 then out ++ strLit "\\\""
    else if e = 92 then out ++ strLit "\\\\"
    else if e = 10 then out ++ strLit "\\n"
    else if e = 9 then out ++ strLit "\\t"
    else out ++ [e]) []

/-- The object of one diagnostic. -/
def diagnosticJson (item : Diagnostic) : Bytes :=
  strLit "\x7b" ++
    (strLit "\"file\":\"" ++ jsonEscape item.file ++ strLit "\",") ++
    (strLit "\"line\":" ++ integerText item.line ++ strLit ",") ++
    (strLit "\"col\":" ++ integerText item.col ++ strLit ",") ++
    (strLit "\"endLine\":" ++ integerText item.endLine ++ strLit ",") ++
    (strLit "\"endCol\":" ++ integerText item.endCol ++ strLit ",") ++
    (strLit "\"severity\":\"" ++ jsonEscape item.severity ++ strLit "\",") ++
    (strLit "\"message\":\"" ++ jsonEscape item.message ++ strLit "\"") ++
    strLit "\x7d"

/-- The array of all diagnostics. -/
def diagnosticsJson (diagnostics : List Diagnostic) : Bytes :=
  diagnostics.zipIdx.foldl (fun out (e, i) =>
    (if 0 < i then out ++ strLit "," else out) ++ diagnosticJson e) (strLit "[") ++ strLit "]"

/-- The object a reader should find. -/
def Diagnostic.value (item : Diagnostic) : Value :=
  .object [(strLit "file", .string item.file), (strLit "line", .number item.line),
    (strLit "col", .number item.col), (strLit "endLine", .number item.endLine),
    (strLit "endCol", .number item.endCol), (strLit "severity", .string item.severity),
    (strLit "message", .string item.message)]

/-- The texts of a diagnostic have a property. -/
structure Diagnostic.Texts (p : Bytes → Prop) (item : Diagnostic) : Prop where
  file : p item.file
  severity : p item.severity
  message : p item.message

/-- The document is valid, and the diagnostics are read from it. -/
def ReadsBack (diagnostics : List Diagnostic) : Prop :=
  IsUtf8 (diagnosticsJson diagnostics) ∧
    readDocument (diagnosticsJson diagnostics) = some (.array (diagnostics.map Diagnostic.value))

/-! ### The texts -/

theorem jsonEscape_eq (text : Bytes) : jsonEscape text = text.flatMap escapeByte := by
  have hloop (out : Bytes) : text.foldl (fun out e =>
      if e = 34 then out ++ strLit "\\\""
      else if e = 92 then out ++ strLit "\\\\"
      else if e = 10 then out ++ strLit "\\n"
      else if e = 9 then out ++ strLit "\\t"
      else out ++ [e]) out = out ++ text.flatMap escapeByte := by
    induction text generalizing out with
    | nil => simp
    | cons e text ih =>
      rw [List.foldl_cons, ih, List.flatMap_cons, ← List.append_assoc]
      congr 1
      unfold escapeByte
      split_ifs <;> rfl
  exact hloop []

/-- A string of the document. -/
def writtenText (text : Bytes) : Piece := stringPiece escapeByte isLegible text

theorem reads_writtenText (text : Bytes) : (writtenText text).Reads :=
  reads_stringPiece readChar_escapeByte escapeByte_eq_cons text

/-- The object of a diagnostic. -/
def written (item : Diagnostic) : Piece :=
  objectPiece [] [] [] [] [⟨writtenText item.file, strLit "file"⟩,
    ⟨integerPiece item.line, strLit "line"⟩, ⟨integerPiece item.col, strLit "col"⟩,
    ⟨integerPiece item.endLine, strLit "endLine"⟩, ⟨integerPiece item.endCol, strLit "endCol"⟩,
    ⟨writtenText item.severity, strLit "severity"⟩, ⟨writtenText item.message, strLit "message"⟩]

theorem diagnosticJson_eq (item : Diagnostic) : diagnosticJson item = (written item).text := by
  rw [diagnosticJson, jsonEscape_eq, jsonEscape_eq, jsonEscape_eq]
  simp only [written, objectPiece, membersText, JsonReader.memberText, integerPiece, writtenText, stringPiece,
    List.append_assoc, List.cons_append]
  rfl

theorem reads_written (item : Diagnostic) : (written item).Reads := by
  apply reads_objectPiece
  · simp only [List.forall_mem_cons]
    exact ⟨⟨by decide, reads_writtenText _⟩, ⟨by decide, reads_integerPiece _⟩,
      ⟨by decide, reads_integerPiece _⟩, ⟨by decide, reads_integerPiece _⟩,
      ⟨by decide, reads_integerPiece _⟩, ⟨by decide, reads_writtenText _⟩,
      ⟨by decide, reads_writtenText _⟩, by simp⟩
  all_goals decide

theorem legible_written (item : Diagnostic) : (written item).legible ↔ item.Texts Legible := by
  simp only [written, objectPiece, List.forall_mem_cons]
  constructor
  · rintro ⟨hfile, -, -, -, -, hseverity, hmessage, -⟩
    exact ⟨List.all_eq_true.mp hfile, List.all_eq_true.mp hseverity, List.all_eq_true.mp hmessage⟩
  · rintro ⟨hfile, hseverity, hmessage⟩
    exact ⟨List.all_eq_true.mpr hfile, trivial, trivial, trivial, trivial,
      List.all_eq_true.mpr hseverity, List.all_eq_true.mpr hmessage, by simp⟩

/-- The loop writes a comma before every object but the first. -/
theorem diagnosticsJson_eq (diagnostics : List Diagnostic) :
  diagnosticsJson diagnostics = (arrayPiece [] [] [] (diagnostics.map written)).text
  := by
  have hloop (rest : List Diagnostic) (e : Diagnostic) (n : ℕ) (out : Bytes) :
      (rest.zipIdx (n + 1)).foldl (fun out (e, i) =>
          (if 0 < i then out ++ strLit "," else out) ++ diagnosticJson e) (out ++ diagnosticJson e) =
        out ++ elemsText [] ((e :: rest).map written) := by
    induction rest generalizing e n out with
    | nil => simp [elemsText, diagnosticJson_eq]
    | cons e' rest ih =>
      rw [List.zipIdx_cons, List.foldl_cons]
      dsimp only
      rw [if_pos (Nat.succ_pos n), ih e' (n + 1)]
      simp [elemsText, diagnosticJson_eq, strLit]
  cases diagnostics with
  | nil => rfl
  | cons e rest =>
    rw [diagnosticsJson, List.zipIdx_cons, List.foldl_cons]
    dsimp only
    rw [if_neg (Nat.lt_irrefl 0), hloop rest e 0]
    simp [arrayPiece, strLit]

/-! ### The document -/

theorem isUtf8_written {item : Diagnostic} (h : item.Texts IsUtf8) : IsUtf8 (written item).text := by
  have htext {text : Bytes} (h : IsUtf8 text) : IsUtf8 (writtenText text).text :=
    isUtf8_stringPiece (fun _ => isUtf8_escapeByte) (fun _ => escapeByte_high) _ h
  apply isUtf8_objectPiece
  iterate 4 decide
  simp only [List.forall_mem_cons]
  exact ⟨⟨isUtf8_of_all rfl, htext h.file⟩, ⟨isUtf8_of_all rfl, isUtf8_integerText _⟩,
    ⟨isUtf8_of_all rfl, isUtf8_integerText _⟩, ⟨isUtf8_of_all rfl, isUtf8_integerText _⟩,
    ⟨isUtf8_of_all rfl, isUtf8_integerText _⟩, ⟨isUtf8_of_all rfl, htext h.severity⟩,
    ⟨isUtf8_of_all rfl, htext h.message⟩, by simp⟩

theorem isUtf8_diagnosticsJson {diagnostics : List Diagnostic}
    (h : ∀ item ∈ diagnostics, item.Texts IsUtf8) :
  IsUtf8 (diagnosticsJson diagnostics)
  := by
  rw [diagnosticsJson_eq]
  apply isUtf8_arrayPiece
  iterate 3 decide
  rw [List.forall_mem_map]
  intro item hitem
  exact isUtf8_written (h item hitem)

theorem readDocument_diagnosticsJson (diagnostics : List Diagnostic) :
  ((∀ item ∈ diagnostics, item.Texts Legible) →
      readDocument (diagnosticsJson diagnostics) = some (.array (diagnostics.map Diagnostic.value))) ∧
    ((∃ item ∈ diagnostics, ¬ item.Texts Legible) → readDocument (diagnosticsJson diagnostics) = none)
  := by
  have hreads : ∀ p ∈ diagnostics.map written, p.Reads := by
    rw [List.forall_mem_map]
    intro item _
    exact reads_written item
  have harray := @reads_arrayPiece [] [] [] _ hreads (by decide) (by decide) (by decide)
  obtain ⟨hlegible, hillegible⟩ := @Piece.Reads.readDocument _ harray [] (by decide)
  rw [List.append_nil, ← diagnosticsJson_eq] at hlegible hillegible
  have hiff : (arrayPiece [] [] [] (diagnostics.map written)).legible ↔
      ∀ item ∈ diagnostics, item.Texts Legible := by
    simp only [arrayPiece, List.forall_mem_map, legible_written]
  have hvalue : (arrayPiece [] [] [] (diagnostics.map written)).value =
      .array (diagnostics.map Diagnostic.value) := by
    rw [arrayPiece, List.map_map]
    rfl
  rw [hiff] at hlegible hillegible
  constructor
  · intro hall
    rw [hlegible hall, hvalue]
  · rintro ⟨item, hitem, hnot⟩
    exact hillegible fun hall => hnot (hall item hitem)

/-- The diagnostics are read back exactly when their texts hold no control characters other than
newline and tab. -/
theorem readsBack_iff {diagnostics : List Diagnostic} (h : ∀ item ∈ diagnostics, item.Texts IsUtf8) :
  ReadsBack diagnostics ↔ ∀ item ∈ diagnostics, item.Texts Legible
  := by
  obtain ⟨hlegible, hillegible⟩ := readDocument_diagnosticsJson diagnostics
  constructor
  · rintro ⟨-, hread⟩
    by_contra hnot
    push Not at hnot
    rw [hillegible hnot] at hread
    cases hread
  · intro hall
    exact ⟨isUtf8_diagnosticsJson h, hlegible hall⟩

/-- Two diagnostics with quotes, a newline and a letter outside ASCII. -/
theorem readsBack_quoted :
  ReadsBack [⟨strLit "a.cast", 3, 5, 3, 6, strLit "error", strLit "unknown name '\n\"'"⟩,
    ⟨[], 1, 1, 1, 1, strLit "error", [195, 164]⟩]
  := by
  apply (readsBack_iff _).mpr
  · simp only [List.forall_mem_cons]
    exact ⟨⟨by decide, by decide, by decide⟩, ⟨by decide, by decide, by decide⟩, by simp⟩
  · simp only [List.forall_mem_cons]
    exact ⟨⟨isUtf8_of_all rfl, isUtf8_of_all rfl, isUtf8_of_all rfl⟩,
      ⟨isUtf8_nil, isUtf8_of_all rfl, ⟨['ä'], by decide⟩⟩, by simp⟩

/-- A path with a carriage return makes the text no document. -/
theorem not_readsBack_carriageReturn :
  ¬ ∀ diagnostics : List Diagnostic, (∀ item ∈ diagnostics, item.Texts IsUtf8) → ReadsBack diagnostics
  := by
  intro h
  let item : Diagnostic := ⟨[97, 13], 1, 1, 1, 2, strLit "error", strLit "unknown name 'x'"⟩
  have hread : readDocument (diagnosticsJson [item]) = none := by
    apply (readDocument_diagnosticsJson [item]).2
    refine ⟨item, List.mem_cons_self, fun htexts => ?_⟩
    exact absurd htexts.file (by decide)
  have hutf8 : item.Texts IsUtf8 :=
    ⟨isUtf8_of_all rfl, isUtf8_of_all rfl, isUtf8_of_all rfl⟩
  have hback := (h [item] (List.forall_mem_singleton.mpr hutf8)).2
  rw [hread] at hback
  cases hback

end Caster.SelfHosting.Diagnostics
