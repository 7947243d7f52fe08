import Caster.Library.HttpMessage

/-!
# Responses of HTTP/1.1

What a server sends for one request, after RFC 9112: interim responses, which are heads alone, and a
final one, whose body is delimited by its length, by a chunked coding or by the end of the stream.  A
character is a byte.
-/

namespace HttpMessage

/-! ### Heads -/

/-- A status line with fields, whose values are as they are written. -/
structure Head where
  status : ℕ
  reason : List Char
  fields : List (List Char × List Char)
  three_digits : 100 ≤ status ∧ status ≤ 999
  reason_chars : ∀ c ∈ reason, isFieldChar c = true
  writable : ∀ field ∈ fields, Writable field

/-- Lines with their ends. -/
def linesText (lines : List (List Char)) : List Char := lines.flatMap fun line => line ++ ['\r', '\n']

namespace Head

variable (h : Head)

def statusLine : List Char := version ++ ' ' :: (Nat.toDigits 10 h.status ++ ' ' :: h.reason)

def lines : List (List Char) := h.statusLine :: h.fields.map fun field => field.1 ++ ':' :: field.2

/-- The lines of a head and an empty one. -/
def text : List Char := linesText h.lines ++ ['\r', '\n']

/-- The values of the fields of a name, which is given in lower case. -/
def values (name : List Char) : List (List Char) :=
  valuesOf name (h.fields.map fun field => (field.1, trim field.2))

end Head

/-! ### Bodies -/

/-- The value of a hexadecimal digit. -/
def hexDigit (c : Char) : Option ℕ :=
  if c.isDigit then some (c.toNat - 48)
  else if 97 ≤ c.toNat ∧ c.toNat ≤ 102 then some (c.toNat - 87)
  else if 65 ≤ c.toNat ∧ c.toNat ≤ 70 then some (c.toNat - 55)
  else none

/-- The number some hexadecimal digits denote. -/
def hexValue (text : List Char) : Option ℕ :=
  if text = [] then none else text.foldlM (fun n c => (hexDigit c).map (16 * n + ·)) 0

/-- The line before a chunk: its size, and extensions behind it. -/
structure ChunkLine where
  size : List Char
  extension : List Char
  extension_chars : ∀ c ∈ extension, isFieldChar c = true
  extension_start : ∀ c ∈ extension.head?, c = ';' ∨ isBlank c = true

def ChunkLine.text (line : ChunkLine) : List Char := line.size ++ line.extension ++ ['\r', '\n']

structure Chunk where
  line : ChunkLine
  data : List Char
  nonempty : data ≠ []
  size_eq : hexValue line.size = some data.length

def Chunk.text (chunk : Chunk) : List Char := chunk.line.text ++ (chunk.data ++ ['\r', '\n'])

/-- How the end of a body is found. -/
inductive Framing where
  /-- A field of the head tells how long it is. -/
  | length (body : List Char)
  /-- It is as long as the stream. -/
  | close (body : List Char)
  /-- It is sent in chunks, of which an empty one is the last, with fields behind it. -/
  | chunked (chunks : List Chunk) (last : ChunkLine) (trailers : List (List Char × List Char))

namespace Framing

def body : Framing → List Char
  | length body => body
  | close body => body
  | chunked chunks _ _ => chunks.flatMap Chunk.data

/-- What is sent behind the head. -/
def text : Framing → List Char
  | length body => body
  | close body => body
  | chunked chunks last trailers =>
    chunks.flatMap Chunk.text ++
      (last.text ++ (linesText (trailers.map fun field => field.1 ++ ':' :: field.2) ++ ['\r', '\n']))

def chunkedCoding : List Char := ['c', 'h', 'u', 'n', 'k', 'e', 'd']

/-- The fields of a head tell how the end of the body is found. -/
def Fits : Framing → Head → Prop
  | length body, h =>
    h.values transferEncodingName = [] ∧ h.values contentLengthName ≠ [] ∧
      ∀ value ∈ h.values contentLengthName, value ≠ [] ∧ value.all Char.isDigit = true ∧
        Nat.ofDigitChars 10 value 0 = body.length
  | close _, h => h.values transferEncodingName = [] ∧ h.values contentLengthName = []
  | chunked _ last trailers, h =>
    (∃ value, h.values transferEncodingName = [value] ∧ value.map Char.toLower = chunkedCoding) ∧
      hexValue last.size = some 0 ∧ ∀ field ∈ trailers, Writable field

def IsChunked : Framing → Prop
  | chunked _ _ _ => True
  | _ => False

end Framing

/-! ### Exchanges -/

/-- What a server sends for a request. -/
structure Exchange where
  interims : List Head
  final : Head
  framing : Framing
  interim : ∀ h ∈ interims, h.status < 200
  isFinal : 200 ≤ final.status
  fits : framing.Fits final

namespace Exchange

variable (e : Exchange)

/-- The heads alone. -/
def headsText : List Char := e.interims.flatMap Head.text ++ e.final.text

/-- The whole stream. -/
def text : List Char := e.headsText ++ e.framing.text

end Exchange

/-! ### The end of a head -/

/-- What is behind the first empty line of a text. -/
def behindBlank : List Char → Option (List Char)
  | [] => none
  | c :: text =>
    if ['\r', '\n', '\r', '\n'] <+: c :: text then some (text.drop 3) else behindBlank text

theorem length_of_behindBlank {text rest : List Char} (h : behindBlank text = some rest) :
  4 ≤ text.length
  := by
  induction text with
  | nil => cases h
  | cons c text ih =>
    rw [behindBlank] at h
    split_ifs at h with hblank
    · exact hblank.length_le
    · have hlength := ih h
      rw [List.length_cons]
      omega

/-- An empty line stays the first one whatever follows. -/
theorem behindBlank_append {text rest : List Char} (h : behindBlank text = some rest)
    (more : List Char) :
  behindBlank (text ++ more) = some (rest ++ more)
  := by
  induction text with
  | nil => cases h
  | cons c text ih =>
    rw [behindBlank] at h
    rw [List.cons_append, behindBlank]
    split_ifs at h with hblank
    · have hmore : ['\r', '\n', '\r', '\n'] <+: c :: (text ++ more) :=
        hblank.trans (List.prefix_append _ _)
      have hlength := hblank.length_le
      simp only [List.length_cons, List.length_nil] at hlength
      rw [if_pos hmore, List.drop_append_of_le_length (by omega), Option.some.inj h]
    · have hlength := length_of_behindBlank h
      have hmore : ¬ ['\r', '\n', '\r', '\n'] <+: c :: (text ++ more) := by
        intro hmore
        apply hblank
        apply List.prefix_of_prefix_length_le hmore (List.prefix_append (c :: text) more)
        simp only [List.length_cons, List.length_nil]
        omega
      rw [if_neg hmore]
      exact ih h

theorem behindBlank_of_not_mem {line : List Char} (h : '\r' ∉ line) (rest : List Char) :
  behindBlank (line ++ rest) = behindBlank rest
  := by
  induction line with
  | nil => rfl
  | cons c line ih =>
    rw [List.mem_cons, not_or] at h
    rw [List.cons_append, behindBlank, if_neg fun hblank => h.1 (List.cons_prefix_cons.mp hblank).1,
      ih h.2]

/-- A line ends before an empty one or before another one. -/
theorem behindBlank_line {line : List Char} (h : '\r' ∉ line) (rest : List Char) :
  behindBlank (line ++ '\r' :: '\n' :: '\r' :: '\n' :: rest) = some rest ∧
    (rest.head? ≠ some '\r' →
      behindBlank (line ++ '\r' :: '\n' :: rest) = behindBlank rest)
  := by
  constructor
  · rw [behindBlank_of_not_mem h, behindBlank, if_pos ⟨rest, rfl⟩]
    rfl
  · intro hrest
    have hblank : ¬ ['\r', '\n', '\r', '\n'] <+: '\r' :: '\n' :: rest := by
      rintro ⟨tail, htail⟩
      apply hrest
      cases htail
      rfl
    rw [behindBlank_of_not_mem h, behindBlank, if_neg hblank]
    exact @behindBlank_of_not_mem ['\n'] (by decide) rest

/-- Some lines end at the first empty one. -/
theorem behindBlank_linesText {line : List Char} {lines : List (List Char)}
    (h : ∀ line' ∈ line :: lines, line' ≠ [] ∧ '\r' ∉ line') (rest : List Char) :
  behindBlank (linesText (line :: lines) ++ '\r' :: '\n' :: rest) = some rest
  := by
  induction lines generalizing line with
  | nil =>
    have hline := (behindBlank_line (h line List.mem_cons_self).2 rest).1
    simpa [linesText] using hline
  | cons next lines ih =>
    obtain ⟨hline, hlines⟩ := List.forall_mem_cons.mp h
    obtain ⟨hne, hreturn⟩ := hlines next List.mem_cons_self
    have hstep := (behindBlank_line hline.2 (linesText (next :: lines) ++ '\r' :: '\n' :: rest)).2 (by
      obtain ⟨c, next, rfl⟩ := List.exists_cons_of_ne_nil hne
      intro hhead
      apply hreturn
      cases hhead
      exact List.mem_cons_self)
    have htext : linesText (line :: next :: lines) ++ '\r' :: '\n' :: rest =
        line ++ '\r' :: '\n' :: (linesText (next :: lines) ++ '\r' :: '\n' :: rest) := by
      simp [linesText]
    rw [htext, hstep, ih hlines]

namespace Head

variable (h : Head)

theorem lines_ne : ∀ line ∈ h.lines, line ≠ [] ∧ '\r' ∉ line := by
  have hchar {text : List Char} (h : ∀ c ∈ text, isFieldChar c = true) : '\r' ∉ text :=
    fun hmem => absurd (h _ hmem) (by decide)
  rw [lines, List.forall_mem_cons, List.forall_mem_map]
  constructor
  · have hdigits : '\r' ∉ Nat.toDigits 10 h.status := by
      intro hmem
      exact absurd (Nat.isDigit_of_mem_toDigits (by decide) (by decide) hmem) (by decide)
    refine ⟨by simp [statusLine, version], ?_⟩
    simp [statusLine, version, hdigits, hchar h.reason_chars]
  · intro field hfield
    obtain ⟨-, htoken, hvalue⟩ := h.writable field hfield
    have hname := not_mem_of_all htoken (c := '\r') rfl
    exact ⟨by simp, by simp [hname, hchar hvalue]⟩

/-- A head ends at its empty line. -/
theorem behindBlank_text (rest : List Char) : behindBlank (h.text ++ rest) = some rest := by
  have hlines := behindBlank_linesText (lines_ne h) rest
  rw [text, List.append_assoc]
  exact hlines

/-- A part of a head has no empty line. -/
theorem behindBlank_part {part more : List Char} (htext : part ++ more = h.text) (hmore : more ≠ []) :
  behindBlank part = none
  := by
  cases hblank : behindBlank part with
  | none => rfl
  | some rest =>
    have hwhole := behindBlank_append hblank more
    have hend := h.behindBlank_text []
    rw [List.append_nil] at hend
    rw [htext, hend, Option.some.injEq] at hwhole
    exact absurd (List.append_eq_nil_iff.mp hwhole.symm).2 hmore

end Head

/-- A chunked body is longer than what it encodes. -/
theorem Framing.length_body_lt {framing : Framing} (h : framing.IsChunked) :
  framing.body.length < framing.text.length
  := by
  cases framing with
  | length body => exact h.elim
  | close body => exact h.elim
  | chunked chunks last trailers =>
    have hchunks (chunks : List Chunk) :
        (chunks.flatMap Chunk.data).length ≤ (chunks.flatMap Chunk.text).length := by
      induction chunks with
      | nil => exact le_rfl
      | cons chunk chunks ih =>
        simp only [List.flatMap_cons, List.length_append, Chunk.text]
        omega
    have hlength := hchunks chunks
    simp only [Framing.body, Framing.text, List.length_append, List.length_cons, List.length_nil]
    omega

theorem Framing.text_eq {framing : Framing} (h : ¬ framing.IsChunked) : framing.text = framing.body := by
  cases framing with
  | length body => rfl
  | close body => rfl
  | chunked chunks last trailers => exact absurd trivial h

end HttpMessage
