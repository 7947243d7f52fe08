import Caster.Library.Marks

/-!
# Requests of HTTP/1.1

A strict reader of the messages of RFC 9112: lines end with a carriage return and a line feed, no
whitespace stands in a request target, and no control character but a tab in the value of a field.
A character is a byte.
-/

namespace HttpMessage

/-- A request, the fields in the order of the message. -/
structure Request where
  method : List Char
  target : List Char
  fields : List (List Char × List Char)
  body : List Char
deriving DecidableEq

/-! ### Characters -/

/-- A character of a token.  The apostrophe has the code 39, the grave accent 96. -/
def isTokenChar (c : Char) : Bool :=
  c.isAlphanum ||
    ['!', '#', '$', '%', '&', Char.ofNat 39, '*', '+', '-', '.', '^', '_', Char.ofNat 96, '|',
      '~'].contains c

/-- A character that is visible in ASCII. -/
def isTargetChar (c : Char) : Bool := 32 < c.toNat && c.toNat < 127

/-- A blank, a visible character, or a byte beyond ASCII. -/
def isFieldChar (c : Char) : Bool := c = '\t' || 32 ≤ c.toNat && c.toNat ≠ 127

def isBlank (c : Char) : Bool := c = ' ' || c = '\t'

/-- A text without the blanks around it. -/
def trim (text : List Char) : List Char :=
  ((text.dropWhile isBlank).reverse.dropWhile isBlank).reverse

/-! ### The reader -/

/-- A line, and the text behind its end. -/
def readLine : List Char → Option (List Char × List Char)
  | [] => none
  | c :: text =>
    if ['\r', '\n'] <+: c :: text then some ([], text.tail)
    else (readLine text).map fun (line, rest) => (c :: line, rest)

def version : List Char := ['H', 'T', 'T', 'P', '/', '1', '.', '1']

/-- The method and the target of a request line. -/
def readRequestLine (line : List Char) : Option (List Char × List Char) :=
  let method := line.takeWhile (· ≠ ' ')
  let behind := (line.dropWhile (· ≠ ' ')).tail
  let target := behind.takeWhile (· ≠ ' ')
  if (method ≠ [] ∧ method.all isTokenChar) ∧ (target ≠ [] ∧ target.all isTargetChar) ∧
      behind.dropWhile (· ≠ ' ') = ' ' :: version then
    some (method, target)
  else none

/-- The name and the value of a field line. -/
def readField (line : List Char) : Option (List Char × List Char) :=
  let name := line.takeWhile (· ≠ ':')
  let value := trim (line.dropWhile (· ≠ ':')).tail
  if ':' ∈ line ∧ (name ≠ [] ∧ name.all isTokenChar) ∧ value.all isFieldChar then
    some (name, value)
  else none

/-- The fields of a message up to an empty line, and the text behind it. -/
def readFields : ℕ → List Char → Option (List (List Char × List Char) × List Char)
  | 0, _ => none
  | fuel + 1, text => do
    let (line, rest) ← readLine text
    if line = [] then some ([], rest)
    else do
      let field ← readField line
      let (fields, rest) ← readFields fuel rest
      some (field :: fields, rest)

/-- The values of the fields of a name, which is given in lower case. -/
def valuesOf (name : List Char) (fields : List (List Char × List Char)) : List (List Char) :=
  (fields.filter fun field => field.1.map Char.toLower = name).map Prod.snd

def hostName : List Char := ['h', 'o', 's', 't']

def contentLengthName : List Char :=
  ['c', 'o', 'n', 't', 'e', 'n', 't', '-', 'l', 'e', 'n', 'g', 't', 'h']

def transferEncodingName : List Char :=
  ['t', 'r', 'a', 'n', 's', 'f', 'e', 'r', '-', 'e', 'n', 'c', 'o', 'd', 'i', 'n', 'g']

/-- The length of the body.  No transfer coding is read. -/
def bodyLength (fields : List (List Char × List Char)) : Option ℕ :=
  match valuesOf transferEncodingName fields, valuesOf contentLengthName fields with
  | [], [] => some 0
  | [], [value] =>
    if value ≠ [] ∧ value.all Char.isDigit then some (Nat.ofDigitChars 10 value 0) else none
  | _, _ => none

/-- The request at the start of a text, and the text behind it.  A request has one host. -/
def readRequest (text : List Char) : Option (Request × List Char) := do
  let (line, rest) ← readLine text
  let (method, target) ← readRequestLine line
  let (fields, rest) ← readFields (rest.length + 1) rest
  let length ← bodyLength fields
  if (valuesOf hostName fields).length = 1 ∧ length ≤ rest.length then
    some (⟨method, target, fields, rest.take length⟩, rest.drop length)
  else none

/-! ### Blanks -/

theorem trim_blank {c : Char} (h : isBlank c = true) (text : List Char) :
  trim (c :: text) = trim text
  := by
  rw [trim, List.dropWhile_cons_of_pos h, trim]

theorem mem_of_mem_trim {c : Char} {text : List Char} (h : c ∈ trim text) : c ∈ text := by
  rw [trim, List.mem_reverse] at h
  have hdropped := (List.dropWhile_sublist isBlank).subset h
  rw [List.mem_reverse] at hdropped
  exact (List.dropWhile_sublist isBlank).subset hdropped

theorem mem_dropWhile_or {p : Char → Bool} {c : Char} {text : List Char} (h : c ∈ text) :
  p c = true ∨ c ∈ text.dropWhile p
  := by
  rw [← List.takeWhile_append_dropWhile (p := p) (l := text), List.mem_append] at h
  rcases h with h | h
  · exact Or.inl (List.mem_takeWhile_imp h)
  · exact Or.inr h

/-- A character of a text is a blank, or it is left when the text is trimmed. -/
theorem isBlank_or_mem_trim {c : Char} {text : List Char} (h : c ∈ text) :
  isBlank c = true ∨ c ∈ trim text
  := by
  rcases @mem_dropWhile_or isBlank c text h with hblank | hleft
  · exact Or.inl hblank
  · rw [trim, List.mem_reverse]
    exact mem_dropWhile_or (List.mem_reverse.mpr hleft)

/-- A text without blanks stays as it is. -/
theorem trim_eq {text : List Char} (h : ∀ c ∈ text, isBlank c = false) : trim text = text := by
  have hdrop (text : List Char) (h : ∀ c ∈ text, isBlank c = false) :
      text.dropWhile isBlank = text := by
    cases text with
    | nil => rfl
    | cons c text => rw [List.dropWhile_cons_of_neg (by simp [h c List.mem_cons_self])]
  rw [trim, hdrop text h, hdrop text.reverse fun c hc => h c (List.mem_reverse.mp hc),
    List.reverse_reverse]

theorem isFieldChar_of_isBlank {c : Char} (h : isBlank c = true) : isFieldChar c = true := by
  unfold isBlank at h
  simp only [Bool.or_eq_true, decide_eq_true_eq] at h
  rcases h with rfl | rfl
  · rfl
  · rfl

/-- A text is one of a field if the trimmed one is. -/
theorem all_trim_iff (text : List Char) :
  (trim text).all isFieldChar = true ↔ ∀ c ∈ text, isFieldChar c = true
  := by
  rw [List.all_eq_true]
  constructor
  · intro h c hc
    rcases isBlank_or_mem_trim hc with hblank | hleft
    · exact isFieldChar_of_isBlank hblank
    · exact h c hleft
  · exact fun h c hc => h c (mem_of_mem_trim hc)

/-! ### Reading what is written -/

section

variable {line rest : List Char}

/-- A line without a carriage return ends where it was ended. -/
theorem readLine_append (h : '\r' ∉ line) (rest : List Char) :
  readLine (line ++ '\r' :: '\n' :: rest) = some (line, rest)
  := by
  induction line with
  | nil =>
    have hend : ['\r', '\n'] <+: '\r' :: '\n' :: rest := ⟨rest, rfl⟩
    rw [List.nil_append, readLine, if_pos hend]
    rfl
  | cons c line ih =>
    rw [List.mem_cons, not_or] at h
    have hend : ¬ ['\r', '\n'] <+: c :: (line ++ '\r' :: '\n' :: rest) :=
      fun hend => h.1 (List.cons_prefix_cons.mp hend).1
    rw [List.cons_append, readLine, if_neg hend, ih h.2]
    rfl

theorem not_mem_of_all {p : Char → Bool} {text : List Char} (h : text.all p = true) {c : Char}
    (hc : p c = false) :
  c ∉ text
  := by
  intro hmem
  rw [List.all_eq_true.mp h c hmem] at hc
  cases hc

theorem readRequestLine_append {method target : List Char} (hmethod : method ≠ [])
    (htoken : method.all isTokenChar = true) (htarget : target ≠ [])
    (hvisible : target.all isTargetChar = true) :
  readRequestLine (method ++ ' ' :: (target ++ ' ' :: version)) = some (method, target)
  := by
  have hmethod' : ' ' ∉ method := not_mem_of_all htoken rfl
  have htarget' : ' ' ∉ target := not_mem_of_all hvisible rfl
  unfold readRequestLine
  dsimp only
  rw [Marks.takeWhile_append_mark hmethod', Marks.dropWhile_append_mark hmethod', List.tail_cons,
    Marks.takeWhile_append_mark htarget', Marks.dropWhile_append_mark htarget',
    if_pos ⟨⟨hmethod, htoken⟩, ⟨htarget, hvisible⟩, rfl⟩]

theorem readField_append {name value : List Char} (hname : name ≠ [])
    (htoken : name.all isTokenChar = true) (hvalue : ∀ c ∈ value, isFieldChar c = true) :
  readField (name ++ ':' :: ' ' :: value) = some (name, trim value)
  := by
  have hname' : ':' ∉ name := not_mem_of_all htoken rfl
  have hcolon : ':' ∈ name ++ ':' :: ' ' :: value := by simp
  unfold readField
  dsimp only
  rw [Marks.takeWhile_append_mark hname', Marks.dropWhile_append_mark hname', List.tail_cons,
    trim_blank rfl, if_pos ⟨hcolon, ⟨hname, htoken⟩, (all_trim_iff value).mpr hvalue⟩]

/-- Lines of fields, each with its end. -/
def fieldLines (fields : List (List Char × List Char)) : List Char :=
  fields.flatMap fun field => field.1 ++ ':' :: ' ' :: (field.2 ++ ['\r', '\n'])

theorem length_le_fieldLines (fields : List (List Char × List Char)) :
  fields.length ≤ (fieldLines fields).length
  := by
  induction fields with
  | nil => exact le_refl 0
  | cons field fields ih =>
    have hcons : fieldLines (field :: fields) =
        field.1 ++ ':' :: ' ' :: (field.2 ++ ['\r', '\n']) ++ fieldLines fields := rfl
    rw [hcons]
    simp only [List.length_append, List.length_cons, List.length_nil]
    omega

/-- A field whose line can be read. -/
structure Writable (field : List Char × List Char) : Prop where
  nonempty : field.1 ≠ []
  token : field.1.all isTokenChar = true
  value : ∀ c ∈ field.2, isFieldChar c = true

/-- Fields that are written are read. -/
theorem readFields_append {fields : List (List Char × List Char)}
    (h : ∀ field ∈ fields, Writable field) {fuel : ℕ} (hfuel : fields.length < fuel)
    (rest : List Char) :
  readFields fuel (fieldLines fields ++ '\r' :: '\n' :: rest) =
    some (fields.map fun field => (field.1, trim field.2), rest)
  := by
  induction fields generalizing fuel with
  | nil =>
    obtain ⟨fuel, rfl⟩ : ∃ n, fuel = n + 1 := ⟨fuel - 1, by simp at hfuel; omega⟩
    have hline := readLine_append (List.not_mem_nil (a := '\r')) rest
    rw [List.nil_append] at hline
    rw [fieldLines, List.flatMap_nil, List.nil_append, readFields, hline]
    rfl
  | cons field fields ih =>
    obtain ⟨fuel, rfl⟩ : ∃ n, fuel = n + 1 := ⟨fuel - 1, by omega⟩
    rw [List.forall_mem_cons] at h
    obtain ⟨hname, htoken, hvalue⟩ := h.1
    have hreturn : '\r' ∉ field.1 ++ ':' :: ' ' :: field.2 := by
      have hname := not_mem_of_all htoken (c := '\r') rfl
      have hvalue : '\r' ∉ field.2 := fun hmem => absurd (hvalue _ hmem) (by decide)
      simp [hname, hvalue]
    have hlines : fieldLines (field :: fields) ++ '\r' :: '\n' :: rest =
        (field.1 ++ ':' :: ' ' :: field.2) ++
          '\r' :: '\n' :: (fieldLines fields ++ '\r' :: '\n' :: rest) := by
      simp [fieldLines]
    have hrest := @ih h.2 fuel (by rw [List.length_cons] at hfuel; omega)
    have hne : field.1 ++ ':' :: ' ' :: field.2 ≠ [] := by simp
    rw [hlines, readFields, readLine_append hreturn]
    simp only [Option.bind_eq_bind, Option.bind_some, if_neg hne,
      readField_append hname htoken hvalue, hrest]
    rfl

end

/-! ### What is read -/

theorem all_of_readRequestLine {line method target : List Char}
    (h : readRequestLine line = some (method, target)) :
  target.all isTargetChar = true
  := by
  unfold readRequestLine at h
  dsimp only at h
  split_ifs at h with hline
  obtain ⟨-, rfl⟩ := Prod.mk.inj (Option.some.inj h)
  exact hline.2.1.2

theorem all_of_readFields {fuel : ℕ} {text rest : List Char}
    {fields : List (List Char × List Char)} (h : readFields fuel text = some (fields, rest)) :
  ∀ field ∈ fields, field.2.all isFieldChar = true
  := by
  induction fuel generalizing text fields rest with
  | zero => cases h
  | succ fuel ih =>
    obtain ⟨⟨line, rest'⟩, -, h⟩ := Option.bind_eq_some_iff.mp h
    dsimp only at h
    split_ifs at h with hnil
    · obtain ⟨rfl, -⟩ := Prod.mk.inj (Option.some.inj h)
      exact fun field hfield => absurd hfield List.not_mem_nil
    · obtain ⟨field, hfield, h⟩ := Option.bind_eq_some_iff.mp h
      obtain ⟨⟨others, rest''⟩, hothers, h⟩ := Option.bind_eq_some_iff.mp h
      obtain ⟨rfl, -⟩ := Prod.mk.inj (Option.some.inj h)
      rw [List.forall_mem_cons]
      refine ⟨?_, ih hothers⟩
      unfold readField at hfield
      dsimp only at hfield
      split_ifs at hfield with hline
      rw [← Option.some.inj hfield]
      exact hline.2.2

/-- The characters of a request that is read are those of a request. -/
theorem valid_of_readRequest {text rest : List Char} {request : Request}
    (h : readRequest text = some (request, rest)) :
  request.target.all isTargetChar = true ∧ ∀ field ∈ request.fields, field.2.all isFieldChar = true
  := by
  obtain ⟨⟨line, behind⟩, -, h⟩ := Option.bind_eq_some_iff.mp h
  obtain ⟨⟨method, target⟩, hline, h⟩ := Option.bind_eq_some_iff.mp h
  obtain ⟨⟨fields, behind'⟩, hfields, h⟩ := Option.bind_eq_some_iff.mp h
  obtain ⟨length, -, h⟩ := Option.bind_eq_some_iff.mp h
  split_ifs at h
  obtain ⟨rfl, -⟩ := Prod.mk.inj (Option.some.inj h)
  exact ⟨all_of_readRequestLine hline, all_of_readFields hfields⟩

end HttpMessage
