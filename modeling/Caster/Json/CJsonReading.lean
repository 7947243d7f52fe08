import Caster.Json.CJson

/-!
# What the vendored parser makes of the text of a value

The text of a value is parsed unless the value is nested too deep or a string of it holds a byte
the parser does not take.  An integer is read as a `double`.
-/

namespace Caster

open JsonReader

/-! ### Integers -/

/-- The `double` that the text of an integer is read as. -/
def nearest (i : ℤ) : SignedDouble :=
  { negative := decide (i < 0), magnitude := Binary64.ofRat (i.natAbs : ℚ) }

theorem isNumberByte_of_isDigit {b : UInt8} (h : isDigit b = true) : isNumberByte b = true := by
  simp [isNumberByte, h]

theorem isNumberByte_of_mem_integerText {i : ℤ} {b : UInt8} (h : b ∈ integerText i) :
  isNumberByte b = true
  := by
  unfold integerText at h
  split at h
  · rcases List.mem_cons.mp h with rfl | h
    · rfl
    · exact isNumberByte_of_isDigit (isDigit_of_mem_digits h)
  · exact isNumberByte_of_isDigit (isDigit_of_mem_digits h)

theorem takeWhile_integerText (i : ℤ) {rest : Bytes} (h : EndsValue rest) :
  (integerText i ++ rest).takeWhile isNumberByte = integerText i
  := by
  rw [List.takeWhile_append_of_pos fun b hb => isNumberByte_of_mem_integerText hb]
  cases rest with
  | nil => simp
  | cons b rest =>
    have hb : isNumberByte b = false := by
      rcases h b rfl with rfl | rfl | rfl <;> rfl
    simp [hb]

theorem strtod_digits (n : ℕ) (negative : Bool) {text : Bytes}
    (hsign : strtodSign text = (negative, digits n)) :
  strtod text = some ({ negative := negative, magnitude := Binary64.ofRat (n : ℚ) }, [])
  := by
  have hends : EndsNumber [] := fun b hb => by cases hb
  have htake := takeWhile_digits n hends
  have hdrop := dropWhile_digits n hends
  rw [List.append_nil] at htake hdrop
  have hne : digits n ≠ [] := by
    obtain ⟨d, ds, hcons, -⟩ := exists_digits_cons n
    rw [hcons]
    exact List.cons_ne_nil d ds
  have hzero : digitsValue [] = 0 := rfl
  simp [strtod, hsign, htake, hdrop, hne, strtodFraction, strtodExponent, readExponent,
    digitsValue_digits, hzero]

theorem strtod_integerText (i : ℤ) : strtod (integerText i) = some (nearest i, []) := by
  unfold nearest integerText
  by_cases hneg : i < 0
  · rw [if_pos hneg, decide_eq_true hneg]
    apply strtod_digits
    rfl
  · rw [if_neg hneg, decide_eq_false hneg]
    apply strtod_digits
    obtain ⟨d, ds, hcons, hd⟩ := exists_digits_cons i.natAbs
    have hminus : d ≠ 45 := by
      rintro rfl
      exact absurd hd (by decide)
    have hplus : d ≠ 43 := by
      rintro rfl
      exact absurd hd (by decide)
    rw [hcons, strtodSign, if_neg hminus, if_neg hplus]

theorem parseNumber_integerText (i : ℤ) {rest : Bytes} (h : EndsValue rest) :
  parseNumber (integerText i ++ rest) = some (.number (nearest i), rest)
  := by
  simp [parseNumber, takeWhile_integerText i h, strtod_integerText]

/-! ### Strings -/

/-- A byte of a string is read back from what it is written as. -/
def readsByte (s : CjsonSettings) (b : UInt8) : Bool :=
  b = 34 ∨ b = 92 ∨ b = 10 ∨ b = 9 ∨ s.takes b

/-- All bytes of a string are read back. -/
def Readable (s : CjsonSettings) (text : Bytes) : Prop := ∀ b ∈ text, readsByte s b = true

instance (s : CjsonSettings) (text : Bytes) : Decidable (Readable s text) :=
  List.decidableBAll _ text

theorem stringEnd_escapeByte (b : UInt8) (text : Bytes) :
  stringEnd (escapeByte b ++ text) =
    (stringEnd text).map fun (body, rest) => (escapeByte b ++ body, rest)
  := by
  unfold escapeByte
  by_cases hquote : b = 34
  · subst hquote
    rfl
  by_cases hslash : b = 92
  · subst hslash
    rfl
  by_cases hnewline : b = 10
  · subst hnewline
    rfl
  by_cases htab : b = 9
  · subst htab
    rfl
  simp only [hquote, hslash, hnewline, htab, if_false, List.singleton_append]
  rw [stringEnd.eq_def]
  simp only [hquote, hslash, if_false]

theorem stringEnd_escaped (text rest : Bytes) :
  stringEnd (text.flatMap escapeByte ++ 34 :: rest) = some (text.flatMap escapeByte, rest)
  := by
  induction text with
  | nil =>
    rw [List.flatMap_nil, List.nil_append, stringEnd.eq_def]
    rfl
  | cons b text ih =>
    rw [List.flatMap_cons, List.append_assoc, stringEnd_escapeByte, ih]
    rfl

theorem unescape_escapeByte (s : CjsonSettings) (fuel : ℕ) (b : UInt8) (text : Bytes) :
  unescape s (fuel + 1) (escapeByte b ++ text) =
    if readsByte s b then (unescape s fuel text).map (b :: ·) else none
  := by
  unfold escapeByte readsByte
  by_cases hquote : b = 34
  · subst hquote
    rfl
  by_cases hslash : b = 92
  · subst hslash
    rfl
  by_cases hnewline : b = 10
  · subst hnewline
    rfl
  by_cases htab : b = 9
  · subst htab
    rfl
  simp only [hquote, hslash, hnewline, htab, if_false, List.singleton_append, false_or]
  rw [unescape.eq_def]
  simp only [ne_eq, hslash, not_false_eq_true, if_true]
  simp

theorem unescape_escaped (s : CjsonSettings) (text : Bytes) {fuel : ℕ} (h : text.length < fuel) :
  unescape s fuel (text.flatMap escapeByte) = if Readable s text then some text else none
  := by
  induction text generalizing fuel with
  | nil =>
    obtain ⟨fuel, rfl⟩ : ∃ n, fuel = n + 1 := ⟨fuel - 1, by simp at h; omega⟩
    simp [unescape, Readable]
  | cons b text ih =>
    obtain ⟨fuel, rfl⟩ : ∃ n, fuel = n + 1 := ⟨fuel - 1, by omega⟩
    have hlength : text.length < fuel := by
      rw [List.length_cons] at h
      omega
    have hcons : Readable s (b :: text) ↔ readsByte s b = true ∧ Readable s text :=
      List.forall_mem_cons
    rw [List.flatMap_cons, unescape_escapeByte, ih hlength]
    by_cases hb : readsByte s b = true
    · by_cases htext : Readable s text
      · simp [hb, htext, hcons]
      · simp [hb, htext, hcons]
    · simp [hb, hcons]

theorem parseString_escaped (s : CjsonSettings) (text rest : Bytes) :
  parseString s (jsonStringifyString text ++ rest) =
    if Readable s text then some (text, rest) else none
  := by
  have hlength := JsonReader.length_le_flatMap escapeByte_eq_cons text
  have hunescape := unescape_escaped s text (Nat.lt_succ_of_le hlength)
  have hend := stringEnd_escaped text rest
  simp only [jsonStringifyString, List.cons_append, List.append_assoc, parseString]
  simp only [ne_eq, not_true_eq_false, if_false, hend, Option.bind_eq_bind, Option.bind_some,
    hunescape, List.nil_append]
  split <;> rfl

/-! ### Values -/

variable {F : Type}

mutual

/-- A value within an array or map of some depth fits the parser: it is not nested too deep, and its
strings are read back. -/
def Dyn.Fits (s : CjsonSettings) (depth : ℕ) : Dyn F → Prop
  | .str text => Readable s text
  | .arr elems => tooDeep s depth = false ∧ FitsList s (depth + 1) elems
  | .map entries => tooDeep s depth = false ∧ FitsEntries s (depth + 1) entries
  | _ => True

def FitsList (s : CjsonSettings) (depth : ℕ) : List (Dyn F) → Prop
  | [] => True
  | v :: vs => v.Fits s depth ∧ FitsList s depth vs

def FitsEntries (s : CjsonSettings) (depth : ℕ) : List (Bytes × Dyn F) → Prop
  | [] => True
  | (key, v) :: entries => Readable s key ∧ v.Fits s depth ∧ FitsEntries s depth entries

end

mutual

/-- An item is what a value is parsed as: the children of an object are the entries of the map in
some order. -/
def Dyn.Parses : Dyn F → CjsonItem → Prop
  | .nil, .null => True
  | .bol b, .bool c => b = c
  | .int i, .number value => value = nearest i
  | .str text, .string valuestring => text = valuestring
  | .arr elems, .array children => ParsesList elems children
  | .map entries, .object children =>
    ∃ ordered, ordered.Perm children ∧ ParsesEntries entries ordered
  | _, _ => False

def ParsesList : List (Dyn F) → List CjsonItem → Prop
  | [], [] => True
  | v :: vs, w :: ws => v.Parses w ∧ ParsesList vs ws
  | _, _ => False

def ParsesEntries : List (Bytes × Dyn F) → List (Bytes × CjsonItem) → Prop
  | [], [] => True
  | (key, v) :: entries, (name, w) :: children =>
    key = name ∧ v.Parses w ∧ ParsesEntries entries children
  | _, _ => False

end

theorem fitsList_iff (s : CjsonSettings) (depth : ℕ) (elems : List (Dyn F)) :
  FitsList s depth elems ↔ ∀ v ∈ elems, v.Fits s depth
  := by
  induction elems with
  | nil => simp [FitsList]
  | cons v vs ih => rw [FitsList, List.forall_mem_cons, ih]

/-- An entry fits the parser. -/
def EntryFits (s : CjsonSettings) (depth : ℕ) (entry : Bytes × Dyn F) : Prop :=
  Readable s entry.1 ∧ entry.2.Fits s depth

theorem fitsEntries_iff (s : CjsonSettings) (depth : ℕ) (entries : List (Bytes × Dyn F)) :
  FitsEntries s depth entries ↔ ∀ entry ∈ entries, EntryFits s depth entry
  := by
  induction entries with
  | nil => simp [FitsEntries]
  | cons entry entries ih =>
    obtain ⟨key, v⟩ := entry
    rw [FitsEntries, List.forall_mem_cons, ih, ← and_assoc]
    rfl

theorem parsesList_iff (elems : List (Dyn F)) (children : List CjsonItem) :
  ParsesList elems children ↔ List.Forall₂ Dyn.Parses elems children
  := by
  induction elems generalizing children with
  | nil => cases children <;> simp [ParsesList]
  | cons v vs ih => cases children <;> simp [ParsesList, ih]

/-- A child is what an entry is parsed as. -/
def EntryParses (entry : Bytes × Dyn F) (child : Bytes × CjsonItem) : Prop :=
  entry.1 = child.1 ∧ entry.2.Parses child.2

theorem parsesEntries_iff (entries : List (Bytes × Dyn F)) (children : List (Bytes × CjsonItem)) :
  ParsesEntries entries children ↔ List.Forall₂ EntryParses entries children
  := by
  induction entries generalizing children with
  | nil => cases children <;> simp [ParsesEntries]
  | cons entry entries ih => cases children <;> simp [ParsesEntries, EntryParses, ih, and_assoc]

variable (printG17 : F → Bytes) (s : CjsonSettings)

/-- The parser with enough fuel makes what it should of the text of a value. -/
def ParsesBack (v : Dyn F) : Prop :=
  ∀ fuel depth rest, (jsonStringifyValue printG17 v).length ≤ fuel → EndsValue rest →
    Outcome (v.Fits s depth) v.Parses rest
      (parseValue s fuel depth (jsonStringifyValue printG17 v ++ rest))

/-! ### The first byte of a value -/

/-- A value starts with a byte above the space that closes no array and no map and starts no byte
order mark. -/
theorem jsonStringifyValue_first {p : Bytes → Prop} (v : Dyn F) (h : v.BuiltFrom p) :
  ∃ b text, jsonStringifyValue printG17 v = b :: text ∧ 32 < b ∧ b ≠ 93 ∧ b ≠ 125 ∧ b ≠ 239
  := by
  match v with
  | .int i =>
    obtain ⟨b, text, htext, hb⟩ := integerText_eq_cons i
    have hspace : (32 : UInt8) < b := by
      rw [UInt8.lt_iff_toNat_lt]
      exact lt_of_lt_of_le (by decide) hb.1
    exact ⟨b, text, htext, hspace, ne_of_bounds hb (by decide), ne_of_bounds hb (by decide),
      ne_of_bounds hb (by decide)⟩
  | .flt _ => exact h.elim
  | .bol true => exact ⟨116, _, rfl, by decide, by decide, by decide, by decide⟩
  | .bol false => exact ⟨102, _, rfl, by decide, by decide, by decide, by decide⟩
  | .str text =>
    exact ⟨34, _, by rw [jsonStringifyValue]; rfl, by decide, by decide, by decide, by decide⟩
  | .nil => exact ⟨110, _, rfl, by decide, by decide, by decide, by decide⟩
  | .map entries =>
    exact ⟨123, _, by rw [jsonStringifyValue]; rfl, by decide, by decide, by decide, by decide⟩
  | .arr elems =>
    exact ⟨91, _, by rw [jsonStringifyValue]; rfl, by decide, by decide, by decide, by decide⟩
  | .box => exact h.elim

theorem skipBlanks_cons {b : UInt8} (h : 32 < b) (text : Bytes) :
  skipBlanks (b :: text) = b :: text
  := by
  have hle : ¬ b ≤ 32 := UInt8.not_le.mpr h
  simp [skipBlanks, hle]

theorem skipBlanks_value {p : Bytes → Prop} {v : Dyn F} (h : v.BuiltFrom p) (text : Bytes) :
  skipBlanks (jsonStringifyValue printG17 v ++ text) = jsonStringifyValue printG17 v ++ text
  := by
  obtain ⟨b, tail, htext, hb, -⟩ := jsonStringifyValue_first printG17 v h
  rw [htext, List.cons_append]
  exact skipBlanks_cons hb _

/-- Of the checks of `parse_value`, those for a name come first. -/
theorem not_name {b : UInt8} (text : Bytes) (hnull : b ≠ 110) (hfalse : b ≠ 102)
    (htrue : b ≠ 116) :
  ¬ nullText <+: b :: text ∧ ¬ falseText <+: b :: text ∧ ¬ trueText <+: b :: text
  := by
  refine ⟨?_, ?_, ?_⟩
  · intro h
    exact hnull (List.cons_prefix_cons.mp h).1.symm
  · intro h
    exact hfalse (List.cons_prefix_cons.mp h).1.symm
  · intro h
    exact htrue (List.cons_prefix_cons.mp h).1.symm

theorem parseValue_quote (fuel depth : ℕ) (text : Bytes) :
  parseValue s (fuel + 1) depth (34 :: text) =
    (parseString s (34 :: text)).map fun (valuestring, rest) => (.string valuestring, rest)
  := by
  obtain ⟨hnull, hfalse, htrue⟩ := not_name (b := 34) text (by decide) (by decide) (by decide)
  rw [parseValue, if_neg hnull, if_neg hfalse, if_neg htrue, if_pos rfl]

theorem parseValue_number {b : UInt8} (hb : 45 ≤ b.toNat ∧ b.toNat ≤ 57)
    (hnumber : b = 45 ∨ isDigit b = true) (fuel depth : ℕ) (text : Bytes) :
  parseValue s (fuel + 1) depth (b :: text) = parseNumber (b :: text)
  := by
  obtain ⟨hnull, hfalse, htrue⟩ := not_name text (ne_of_bounds hb (by decide))
    (ne_of_bounds hb (by decide)) (ne_of_bounds hb (by decide))
  rw [parseValue, if_neg hnull, if_neg hfalse, if_neg htrue,
    if_neg (ne_of_bounds hb (by decide)), if_pos hnumber]

theorem parseValue_bracket (fuel depth : ℕ) (text : Bytes) :
  parseValue s (fuel + 1) depth (91 :: text) =
    if tooDeep s depth then none
    else
      match readLiteral [93] (skipBlanks text) with
      | some rest => some (.array [], rest)
      | none =>
        (parseElements s fuel (depth + 1) (skipBlanks text)).map fun (children, rest) =>
          (.array children, rest)
  := by
  obtain ⟨hnull, hfalse, htrue⟩ := not_name (b := 91) text (by decide) (by decide) (by decide)
  rw [parseValue, if_neg hnull, if_neg hfalse, if_neg htrue, if_neg (by decide),
    if_neg (by decide)]
  exact if_pos rfl

theorem parseValue_brace (fuel depth : ℕ) (text : Bytes) :
  parseValue s (fuel + 1) depth (123 :: text) =
    if tooDeep s depth then none
    else
      match readLiteral [125] (skipBlanks text) with
      | some rest => some (.object [], rest)
      | none =>
        (parseMembers s fuel (depth + 1) (skipBlanks text)).map fun (children, rest) =>
          (.object children, rest)
  := by
  obtain ⟨hnull, hfalse, htrue⟩ := not_name (b := 123) text (by decide) (by decide) (by decide)
  rw [parseValue, if_neg hnull, if_neg hfalse, if_neg htrue, if_neg (by decide),
    if_neg (by decide), if_neg (by decide)]
  exact if_pos rfl

/-! ### Parsing values -/

theorem parseValue_nullText (fuel depth : ℕ) (rest : Bytes) :
  parseValue s (fuel + 1) depth (nullText ++ rest) = some (.null, rest)
  := by
  have hname : nullText <+: nullText ++ rest := List.prefix_append nullText rest
  obtain ⟨b, text, htext⟩ : ∃ b text, nullText ++ rest = b :: text := ⟨_, _, rfl⟩
  rw [htext, parseValue, ← htext, if_pos hname]
  rfl

theorem parseValue_falseText (fuel depth : ℕ) (rest : Bytes) :
  parseValue s (fuel + 1) depth (falseText ++ rest) = some (.bool false, rest)
  := by
  have hname : falseText <+: falseText ++ rest := List.prefix_append falseText rest
  have hnull : ¬ nullText <+: falseText ++ rest :=
    fun h => absurd (List.cons_prefix_cons.mp h).1 (by decide)
  obtain ⟨b, text, htext⟩ : ∃ b text, falseText ++ rest = b :: text := ⟨_, _, rfl⟩
  rw [htext, parseValue, ← htext, if_neg hnull, if_pos hname]
  rfl

theorem parseValue_trueText (fuel depth : ℕ) (rest : Bytes) :
  parseValue s (fuel + 1) depth (trueText ++ rest) = some (.bool true, rest)
  := by
  have hname : trueText <+: trueText ++ rest := List.prefix_append trueText rest
  have hnull : ¬ nullText <+: trueText ++ rest :=
    fun h => absurd (List.cons_prefix_cons.mp h).1 (by decide)
  have hfalse : ¬ falseText <+: trueText ++ rest :=
    fun h => absurd (List.cons_prefix_cons.mp h).1 (by decide)
  obtain ⟨b, text, htext⟩ : ∃ b text, trueText ++ rest = b :: text := ⟨_, _, rfl⟩
  rw [htext, parseValue, ← htext, if_neg hnull, if_neg hfalse, if_pos hname]
  rfl

theorem parsesBack_nil : ParsesBack printG17 s .nil := by
  intro fuel depth rest hfuel _
  obtain ⟨fuel, rfl⟩ := exists_fuel printG17 (p := fun _ => True) .nil trivial hfuel
  left
  exact ⟨trivial, .null, parseValue_nullText s fuel depth rest, trivial⟩

theorem parsesBack_bol (b : Bool) : ParsesBack printG17 s (.bol b) := by
  intro fuel depth rest hfuel _
  obtain ⟨fuel, rfl⟩ := exists_fuel printG17 (p := fun _ => True) (.bol b) trivial hfuel
  left
  cases b with
  | true => exact ⟨trivial, .bool true, parseValue_trueText s fuel depth rest, rfl⟩
  | false => exact ⟨trivial, .bool false, parseValue_falseText s fuel depth rest, rfl⟩

theorem parsesBack_str (text : Bytes) : ParsesBack printG17 s (.str text) := by
  intro fuel depth rest hfuel _
  obtain ⟨fuel, rfl⟩ := exists_fuel printG17 (p := fun _ => True) (.str text) trivial hfuel
  have hparse := parseString_escaped s text rest
  have hquote : jsonStringifyString text ++ rest
      = 34 :: (text.flatMap escapeByte ++ 34 :: rest) := by
    simp [jsonStringifyString]
  rw [jsonStringifyValue, hquote, parseValue_quote, ← hquote, hparse]
  apply Outcome.map CjsonItem.string (Outcome.of_ite text rest)
  · exact Iff.rfl
  · rintro bytes rfl
    rfl

theorem parsesBack_int (i : ℤ) : ParsesBack printG17 s (.int i) := by
  intro fuel depth rest hfuel hrest
  obtain ⟨fuel, rfl⟩ := exists_fuel printG17 (p := fun _ => True) (.int i) trivial hfuel
  have hnumber := parseNumber_integerText i hrest
  obtain ⟨b, text, htext, hb⟩ := integerText_eq_cons i
  have hfirst : b = 45 ∨ isDigit b = true := by
    by_cases hneg : i < 0
    · left
      rw [integerText, if_pos hneg] at htext
      exact (List.cons.inj htext).1.symm
    · right
      rw [integerText, if_neg hneg] at htext
      apply isDigit_of_mem_digits (n := i.natAbs)
      rw [htext]
      exact List.mem_cons_self
  left
  refine ⟨trivial, .number (nearest i), ?_, rfl⟩
  rw [jsonStringifyValue]
  rw [htext, List.cons_append] at hnumber ⊢
  rw [parseValue_number s hb hfirst, hnumber]

/-- The elements of an array up to the bracket that closes it. -/
theorem parseElements_texts {p : Bytes → Prop} (v : Dyn F) (vs : List (Dyn F))
    (h : ∀ u ∈ v :: vs, ParsesBack printG17 s u ∧ u.BuiltFrom p) (fuel depth : ℕ) (rest : Bytes)
    (hfuel : (commaSeparated (elemTexts printG17 (v :: vs))).length < fuel) :
  Outcome (∀ u ∈ v :: vs, u.Fits s depth) (List.Forall₂ Dyn.Parses (v :: vs)) rest
    (parseElements s fuel depth (commaSeparated (elemTexts printG17 (v :: vs)) ++ 93 :: rest))
  := by
  induction vs generalizing v fuel with
  | nil =>
    obtain ⟨fuel, rfl⟩ : ∃ n, fuel = n + 1 := ⟨fuel - 1, by omega⟩
    have hbracket : skipBlanks (93 :: rest) = 93 :: rest := skipBlanks_cons (by decide) rest
    have hv := (h v List.mem_cons_self).1 fuel depth (93 :: rest) (Nat.lt_succ_iff.mp hfuel)
      (by rintro b ⟨⟩; right; left; rfl)
    apply Outcome.bind List.forall_mem_cons hv
    intro w hw
    left
    refine ⟨by simp, [w], ?_, List.Forall₂.cons hw List.Forall₂.nil⟩
    simp [hbracket]
  | cons u us ih =>
    obtain ⟨fuel, rfl⟩ : ∃ n, fuel = n + 1 := ⟨fuel - 1, by omega⟩
    rw [List.forall_mem_cons] at h
    have htexts : commaSeparated (elemTexts printG17 (v :: u :: us))
        = jsonStringifyValue printG17 v ++
          44 :: commaSeparated (elemTexts printG17 (u :: us)) := rfl
    rw [htexts, List.append_assoc, List.cons_append]
    rw [htexts] at hfuel
    simp only [List.length_append, List.length_cons] at hfuel
    have hv := h.1.1 fuel depth
      (44 :: (commaSeparated (elemTexts printG17 (u :: us)) ++ 93 :: rest)) (by omega) (by rintro b ⟨⟩; left; rfl)
    have hcomma : ∀ text, skipBlanks (44 :: text) = 44 :: text :=
      fun text => skipBlanks_cons (by decide) text
    -- no whitespace follows the comma
    have hskip : skipBlanks (commaSeparated (elemTexts printG17 (u :: us)) ++ 93 :: rest)
        = commaSeparated (elemTexts printG17 (u :: us)) ++ 93 :: rest := by
      obtain ⟨b, text, htext, hb, -⟩ :=
        jsonStringifyValue_first printG17 u (h.2 u List.mem_cons_self).2
      obtain ⟨tail, htail⟩ := commaSeparated_cons_cons b text (elemTexts printG17 us)
      rw [elemTexts, htext, htail, List.cons_append]
      exact skipBlanks_cons hb _
    apply Outcome.bind List.forall_mem_cons hv
    intro w hw
    simp only [hcomma, readLiteral_singleton, if_true, hskip]
    apply Outcome.bind (and_true _).symm.to_iff (ih u h.2 fuel (by omega))
    intro ws hws
    left
    exact ⟨trivial, w :: ws, rfl, List.Forall₂.cons hw hws⟩

theorem entryFits_cons (depth : ℕ) (entry : Bytes × Dyn F) (entries : List (Bytes × Dyn F)) :
  (∀ e ∈ entry :: entries, EntryFits s depth e) ↔
    Readable s entry.1 ∧ entry.2.Fits s depth ∧ ∀ e ∈ entries, EntryFits s depth e
  := by
  rw [List.forall_mem_cons, EntryFits, and_assoc]

/-- The entries of a map up to the brace that closes it. -/
theorem parseMembers_texts {p : Bytes → Prop} (entry : Bytes × Dyn F)
    (entries : List (Bytes × Dyn F))
    (h : ∀ e ∈ entry :: entries, ParsesBack printG17 s e.2 ∧ e.2.BuiltFrom p) (fuel depth : ℕ)
    (rest : Bytes)
    (hfuel : (commaSeparated
      ((entry :: entries).map fun e => entryText (valueText printG17 e))).length < fuel) :
  Outcome (∀ e ∈ entry :: entries, EntryFits s depth e)
    (List.Forall₂ EntryParses (entry :: entries)) rest
    (parseMembers s fuel depth
      (commaSeparated ((entry :: entries).map fun e => entryText (valueText printG17 e)) ++
        125 :: rest))
  := by
  have hkey : ∀ (key text : Bytes), Outcome (Readable s key) (fun name => name = key) text
      (parseString s (jsonStringifyString key ++ text)) := by
    intro key text
    rw [parseString_escaped]
    exact Outcome.of_ite key text
  have hcolon : ∀ text, skipBlanks (58 :: text) = 58 :: text :=
    fun text => skipBlanks_cons (by decide) text
  induction entries generalizing entry fuel with
  | nil =>
    obtain ⟨fuel, rfl⟩ : ∃ n, fuel = n + 1 := ⟨fuel - 1, by omega⟩
    have hbrace : skipBlanks (125 :: rest) = 125 :: rest := skipBlanks_cons (by decide) rest
    have htexts : commaSeparated ([entry].map fun e => entryText (valueText printG17 e)) ++
          125 :: rest
        = jsonStringifyString entry.1 ++
          58 :: (jsonStringifyValue printG17 entry.2 ++ 125 :: rest) := by
      simp [commaSeparated, entryText, valueText]
    have hentry := h entry List.mem_cons_self
    have hlength : (jsonStringifyValue printG17 entry.2).length ≤ fuel := by
      simp only [List.map_cons, List.map_nil, commaSeparated, entryText, valueText,
        List.length_append, List.length_cons] at hfuel
      omega
    have hv := hentry.1 fuel depth (125 :: rest) hlength (by rintro b ⟨⟩; right; right; rfl)
    rw [htexts]
    apply Outcome.bind (entryFits_cons s depth _ _) (hkey entry.1 _)
    rintro name rfl
    simp only [hcolon, readLiteral_singleton, if_true, Option.bind_eq_bind, Option.bind_some,
      skipBlanks_value printG17 hentry.2]
    apply Outcome.bind Iff.rfl hv
    intro w hw
    left
    refine ⟨by simp, [(entry.1, w)], ?_, List.Forall₂.cons ⟨rfl, hw⟩ List.Forall₂.nil⟩
    simp [hbrace]
  | cons other entries ih =>
    obtain ⟨fuel, rfl⟩ : ∃ n, fuel = n + 1 := ⟨fuel - 1, by omega⟩
    rw [List.forall_mem_cons] at h
    obtain ⟨tail, htail⟩ : ∃ tail, tail
        = commaSeparated ((other :: entries).map fun e => entryText (valueText printG17 e)) :=
      ⟨_, rfl⟩
    have htexts : commaSeparated
          ((entry :: other :: entries).map fun e => entryText (valueText printG17 e))
        = jsonStringifyString entry.1 ++
          58 :: (jsonStringifyValue printG17 entry.2 ++ 44 :: tail) := by
      simp [htail, commaSeparated, entryText, valueText]
    rw [htexts] at hfuel ⊢
    simp only [List.length_append, List.length_cons] at hfuel
    have hcomma : ∀ text, skipBlanks (44 :: text) = 44 :: text :=
      fun text => skipBlanks_cons (by decide) text
    -- no whitespace follows the comma
    have hskip : skipBlanks (tail ++ 125 :: rest) = tail ++ 125 :: rest := by
      obtain ⟨text, htext⟩ := commaSeparated_cons_cons 34 _
        (entries.map fun e => entryText (valueText printG17 e))
      rw [htail, List.map_cons, entryText, jsonStringifyString, List.cons_append, List.cons_append,
        htext]
      exact skipBlanks_cons (by decide) _
    have hv := h.1.1 fuel depth (44 :: (tail ++ 125 :: rest)) (by omega) (by rintro b ⟨⟩; left; rfl)
    have hmembers := ih other h.2 fuel (by rw [← htail]; omega)
    rw [← htail] at hmembers
    simp only [List.append_assoc, List.cons_append]
    apply Outcome.bind (entryFits_cons s depth _ _) (hkey entry.1 _)
    rintro name rfl
    simp only [hcolon, readLiteral_singleton, if_true, Option.bind_eq_bind, Option.bind_some,
      skipBlanks_value printG17 h.1.2]
    apply Outcome.bind Iff.rfl hv
    intro w hw
    simp only [hcomma, readLiteral_singleton, if_true, hskip]
    apply Outcome.bind (and_true _).symm.to_iff hmembers
    intro ws hws
    left
    exact ⟨trivial, (entry.1, w) :: ws, rfl, List.Forall₂.cons ⟨rfl, hw⟩ hws⟩

/-- The children parsed from the sorted entries of a map are those of the map. -/
theorem parses_map {entries : List (Bytes × Dyn F)} {children : List (Bytes × CjsonItem)}
    (h : List.Forall₂ EntryParses (sortEntries entries) children) :
  (Dyn.map entries).Parses (.object children)
  := by
  have hperm : entries.Perm (sortEntries entries) := (List.perm_insertionSort _ entries).symm
  obtain ⟨ordered, hparses, hordered⟩ := List.perm_comp_forall₂ hperm h
  exact ⟨ordered, hordered, (parsesEntries_iff entries ordered).mpr hparses⟩

/-- An array or a map that is nested too deep is refused. -/
theorem Outcome.of_tooDeep {α : Type} {depth : ℕ} {fits : Prop} {reads : α → Prop} {rest : Bytes}
    {result : Option (α × Bytes)} (h : Outcome fits reads rest result) :
  Outcome (tooDeep s depth = false ∧ fits) reads rest
    (if tooDeep s depth then none else result)
  := by
  cases tooDeep s depth with
  | true =>
    right
    exact ⟨by simp, rfl⟩
  | false =>
    simp only [true_and, Bool.false_eq_true, if_false]
    exact h

theorem parsesBack_arr {p : Bytes → Prop} (elems : List (Dyn F))
    (h : ∀ v ∈ elems, ParsesBack printG17 s v ∧ v.BuiltFrom p) :
  ParsesBack printG17 s (.arr elems)
  := by
  intro fuel depth rest hfuel _
  rw [Dyn.Fits, fitsList_iff]
  rw [jsonStringifyValue] at hfuel ⊢
  simp only [List.cons_append, List.append_assoc, List.nil_append, List.length_append,
    List.length_cons, List.length_nil] at hfuel ⊢
  obtain ⟨fuel, rfl⟩ : ∃ n, fuel = n + 1 := ⟨fuel - 1, by omega⟩
  rw [parseValue_bracket]
  apply Outcome.of_tooDeep
  cases elems with
  | nil =>
    have hbracket : skipBlanks (93 :: rest) = 93 :: rest := skipBlanks_cons (by decide) rest
    left
    refine ⟨by simp, .array [], ?_, trivial⟩
    simp [elemTexts, commaSeparated, hbracket]
  | cons v vs =>
    obtain ⟨b, text, htext, hb, hclose, -⟩ :=
      jsonStringifyValue_first printG17 v (h v List.mem_cons_self).2
    obtain ⟨tail, htail⟩ := commaSeparated_cons_cons b text (elemTexts printG17 vs)
    have hcons : commaSeparated (elemTexts printG17 (v :: vs)) = b :: tail := by
      rw [elemTexts, htext, htail]
    have helems := parseElements_texts printG17 s v vs h fuel (depth + 1) rest (by omega)
    rw [hcons, List.cons_append] at helems ⊢
    simp only [skipBlanks_cons hb, readLiteral_singleton, if_neg (Ne.symm hclose)]
    apply Outcome.map CjsonItem.array helems Iff.rfl
    intro ws hws
    exact (parsesList_iff _ _).mpr hws

theorem parsesBack_map {p : Bytes → Prop} (entries : List (Bytes × Dyn F))
    (h : ∀ entry ∈ entries, ParsesBack printG17 s entry.2 ∧ entry.2.BuiltFrom p) :
  ParsesBack printG17 s (.map entries)
  := by
  intro fuel depth rest hfuel _
  have hperm : (sortEntries entries).Perm entries := List.perm_insertionSort _ entries
  have hfits : FitsEntries s (depth + 1) entries ↔
      ∀ e ∈ sortEntries entries, EntryFits s (depth + 1) e := by
    rw [fitsEntries_iff]
    simp only [hperm.mem_iff]
  have hsorted : ∀ e ∈ sortEntries entries, ParsesBack printG17 s e.2 ∧ e.2.BuiltFrom p :=
    fun e he => h e (hperm.mem_iff.mp he)
  have hparses : ∀ children, List.Forall₂ EntryParses (sortEntries entries) children →
      (Dyn.map entries).Parses (.object children) := fun children => parses_map
  rw [Dyn.Fits, hfits]
  rw [jsonStringifyValue_map] at hfuel ⊢
  generalize sortEntries entries = sorted at hsorted hparses hfuel ⊢
  simp only [List.cons_append, List.append_assoc, List.nil_append, List.length_append,
    List.length_cons, List.length_nil] at hfuel ⊢
  obtain ⟨fuel, rfl⟩ : ∃ n, fuel = n + 1 := ⟨fuel - 1, by omega⟩
  rw [parseValue_brace]
  apply Outcome.of_tooDeep
  cases sorted with
  | nil =>
    have hbrace : skipBlanks (125 :: rest) = 125 :: rest := skipBlanks_cons (by decide) rest
    left
    refine ⟨by simp, .object [], ?_, hparses [] List.Forall₂.nil⟩
    simp [commaSeparated, hbrace]
  | cons entry sorted =>
    obtain ⟨tail, htail⟩ := commaSeparated_cons_cons 34 _
      (sorted.map fun e => entryText (valueText printG17 e))
    have hcons : commaSeparated ((entry :: sorted).map fun e => entryText (valueText printG17 e))
        = 34 :: tail := by
      rw [List.map_cons, entryText, jsonStringifyString, List.cons_append, List.cons_append]
      exact htail
    have hmembers := parseMembers_texts printG17 s entry sorted hsorted fuel (depth + 1) rest
      (by omega)
    rw [hcons, List.cons_append] at hmembers ⊢
    simp only [skipBlanks_cons (by decide : (32 : UInt8) < 34), readLiteral_singleton]
    exact Outcome.map CjsonItem.object hmembers Iff.rfl hparses

/-- The text of every value without numbers of kind `FLT` and boxes is parsed, or does not fit the
parser and is refused. -/
theorem parsesBack {p : Bytes → Prop} (v : Dyn F) (h : v.BuiltFrom p) :
  ParsesBack printG17 s v
  := by
  induction v using Dyn.induct with
  | int i => exact parsesBack_int printG17 s i
  | flt x => exact h.elim
  | bol b => exact parsesBack_bol printG17 s b
  | str text => exact parsesBack_str printG17 s text
  | nil => exact parsesBack_nil printG17 s
  | map entries ih =>
    rw [Dyn.BuiltFrom, builtFromEntries_iff] at h
    apply parsesBack_map printG17 s entries
    intro entry hentry
    exact ⟨ih entry hentry (h entry hentry).2, (h entry hentry).2⟩
  | arr elems ih =>
    rw [Dyn.BuiltFrom, builtFromList_iff] at h
    apply parsesBack_arr printG17 s elems
    intro v hv
    exact ⟨ih v hv (h v hv), h v hv⟩
  | box => exact h.elim

/-- The whole text of a value is parsed, or it is refused. -/
theorem jsonParseCjson_text {p : Bytes → Prop} (v : Dyn F) (h : v.BuiltFrom p) :
  (v.Fits s 0 ∧
      ∃ root, jsonParseCjson s (jsonStringifyValue printG17 v) = some root ∧ v.Parses root) ∨
    (¬ v.Fits s 0 ∧ jsonParseCjson s (jsonStringifyValue printG17 v) = none)
  := by
  obtain ⟨b, text, htext, hspace, -, -, hmark⟩ := jsonStringifyValue_first printG17 v h
  have hback := parsesBack printG17 s v h ((jsonStringifyValue printG17 v).length + 1) 0 []
    (Nat.le_succ _) (fun b hb => by cases hb)
  rw [List.append_nil] at hback
  have hbom : skipUtf8Bom (b :: text) = b :: text := by
    rw [skipUtf8Bom, if_neg]
    intro hmarked
    exact hmark (List.cons_prefix_cons.mp hmarked.2).1.symm
  have hparse : cjsonParseWithLengthOpts s (jsonStringifyValue printG17 v) =
      parseValue s ((jsonStringifyValue printG17 v).length + 1) 0
        (jsonStringifyValue printG17 v) := by
    rw [cjsonParseWithLengthOpts, htext, hbom, skipBlanks_cons hspace, if_neg (by simp)]
  obtain ⟨hfits, root, hresult, hroot⟩ | ⟨hfits, hresult⟩ := hback
  · left
    refine ⟨hfits, root, ?_, hroot⟩
    rw [jsonParseCjson, hparse, hresult]
    rfl
  · right
    refine ⟨hfits, ?_⟩
    rw [jsonParseCjson, hparse, hresult]
    rfl

end Caster
