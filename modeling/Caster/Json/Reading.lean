import Caster.Json.Stringify
import Caster.Library.JsonTexts

/-!
# Reading a stringified value back

The value a JSON reader finds in the text of a dynamic value.  A string is read back when
its control characters are among the two the escaper knows, newline and tab; every other
one is written as it is, which no string of a JSON document may hold.
-/

namespace Caster

open JsonReader

/-! ### Strings -/

/-- The bytes a JSON string may hold as `escapeByte` writes them. -/
def isLegible (b : UInt8) : Bool := 32 ≤ b ∨ b = 10 ∨ b = 9

/-- A string without control characters other than newline and tab. -/
def Legible (text : Bytes) : Prop := ∀ b ∈ text, isLegible b = true

instance (text : Bytes) : Decidable (Legible text) := List.decidableBAll _ text

theorem legible_cons (b : UInt8) (text : Bytes) :
  Legible (b :: text) ↔ isLegible b = true ∧ Legible text
  := List.forall_mem_cons

/-- A byte is read back from its escape unless it is a control character without one. -/
theorem readChar_escapeByte (b : UInt8) (rest : Bytes) :
  readChar (escapeByte b ++ rest) = if isLegible b then some ([b], rest) else none
  := by
  unfold escapeByte
  by_cases hquote : b = 34
  · subst hquote
    rfl
  by_cases hslash : b = 92
  · subst hslash
    rfl
  by_cases hnewline : b = 10
  · subst hnewline
    rfl
  by_cases htab : b = 9
  · subst htab
    rfl
  simp only [hquote, hslash, hnewline, htab, if_false, List.singleton_append, readChar, isLegible,
    or_false]
  by_cases hlow : b < 32
  · have hle : ¬ 32 ≤ b := UInt8.not_le.mpr hlow
    simp [hlow, hle]
  · have hle : 32 ≤ b := UInt8.not_lt.mp hlow
    simp [hlow, hle]

/-- The first byte of an escape, which is never a quote. -/
theorem escapeByte_eq_cons (b : UInt8) :
  ∃ c text, escapeByte b = c :: text ∧ c ≠ 34
  := by
  unfold escapeByte
  by_cases hquote : b = 34
  · exact ⟨92, [34], by rw [if_pos hquote], by decide⟩
  split_ifs
  · exact ⟨92, [92], rfl, by decide⟩
  · exact ⟨92, [110], rfl, by decide⟩
  · exact ⟨92, [116], rfl, by decide⟩
  · exact ⟨b, [], rfl, hquote⟩

/-- The string a reader finds behind the opening quote of a stringified string. -/
theorem readString_escaped (text rest : Bytes) :
  readString (text.flatMap escapeByte ++ 34 :: rest)
    = if Legible text then some (text, rest) else none
  := (readString_flatMap readChar_escapeByte escapeByte_eq_cons text rest).trans
    (if_congr List.all_eq_true rfl rfl)

theorem isUtf8_escapeByte {b : UInt8} (h : b.toNat < 128) : IsUtf8 (escapeByte b) := by
  unfold escapeByte
  split_ifs
  · exact isUtf8_of_ascii (by simp)
  · exact isUtf8_of_ascii (by simp)
  · exact isUtf8_of_ascii (by simp)
  · exact isUtf8_of_ascii (by simp)
  · exact isUtf8_singleton h

theorem escapeByte_high {b : UInt8} (h : 128 ≤ b.toNat) : escapeByte b = [b] := by
  unfold escapeByte
  split_ifs with hquote hslash hnewline htab
  · subst hquote
    exact absurd h (by decide)
  · subst hslash
    exact absurd h (by decide)
  · subst hnewline
    exact absurd h (by decide)
  · subst htab
    exact absurd h (by decide)
  · rfl

theorem isUtf8_jsonStringifyString {text : Bytes} (h : IsUtf8 text) :
  IsUtf8 (jsonStringifyString text)
  := isUtf8_stringPiece (fun _ => isUtf8_escapeByte) (fun _ => escapeByte_high) isLegible h

/-! ### Values -/

variable {F : Type}

mutual

/-- A value of nulls, truth values, integers, strings with a property, arrays and maps. -/
def Dyn.BuiltFrom (p : Bytes → Prop) : Dyn F → Prop
  | .flt _ => False
  | .box => False
  | .str text => p text
  | .arr elems => BuiltFromList p elems
  | .map entries => BuiltFromEntries p entries
  | _ => True

/-- The elements of an array are such values. -/
def BuiltFromList (p : Bytes → Prop) : List (Dyn F) → Prop
  | [] => True
  | v :: vs => v.BuiltFrom p ∧ BuiltFromList p vs

/-- The values of a map are such values, and its keys have the property. -/
def BuiltFromEntries (p : Bytes → Prop) : List (Bytes × Dyn F) → Prop
  | [] => True
  | (key, v) :: entries => p key ∧ v.BuiltFrom p ∧ BuiltFromEntries p entries

end

mutual

/-- A JSON value is equal to a dynamic value: the members of an object are the entries of
the map in some order. -/
def Dyn.Reads : Dyn F → Value → Prop
  | .nil, .null => True
  | .bol b, .bool c => b = c
  | .int i, .number q => (i : ℚ) = q
  | .str text, .string bytes => text = bytes
  | .arr elems, .array values => ReadsList elems values
  | .map entries, .object members => ∃ ordered, ordered.Perm members ∧ ReadsEntries entries ordered
  | _, _ => False

/-- The elements of two arrays are equal. -/
def ReadsList : List (Dyn F) → List Value → Prop
  | [], [] => True
  | v :: vs, w :: ws => v.Reads w ∧ ReadsList vs ws
  | _, _ => False

/-- The entries of a map and some members are equal. -/
def ReadsEntries : List (Bytes × Dyn F) → List (Bytes × Value) → Prop
  | [], [] => True
  | (key, v) :: entries, (name, w) :: members => key = name ∧ v.Reads w ∧ ReadsEntries entries members
  | _, _ => False

end

/-- The text of a value is a JSON document from which the value is read back. -/
def RoundTrips (printG17 : F → Bytes) (v : Dyn F) : Prop :=
  IsUtf8 (jsonStringifyValue printG17 v) ∧
    ∃ w, readDocument (jsonStringifyValue printG17 v) = some w ∧ v.Reads w


/-! ### The texts of values -/

/-- Recursion over a value, its elements and the values of its entries. -/
theorem Dyn.induct {P : Dyn F → Prop} (int : ∀ i, P (.int i)) (flt : ∀ x, P (.flt x))
    (bol : ∀ b, P (.bol b)) (str : ∀ text, P (.str text)) (nil : P .nil)
    (map : ∀ entries, (∀ entry ∈ entries, P entry.2) → P (.map entries))
    (arr : ∀ elems, (∀ v ∈ elems, P v) → P (.arr elems)) (box : P .box) (v : Dyn F) :
  P v
  := by
  match v with
  | .int i => exact int i
  | .flt x => exact flt x
  | .bol b => exact bol b
  | .str text => exact str text
  | .nil => exact nil
  | .map entries =>
    apply map
    intro entry hentry
    have hsize := List.sizeOf_lt_of_mem hentry
    have hvalue : sizeOf entry.2 < sizeOf entry := by
      obtain ⟨key, v⟩ := entry
      simp only [Prod.mk.sizeOf_spec]
      omega
    exact Dyn.induct int flt bol str nil map arr box entry.2
  | .arr elems =>
    apply arr
    intro w hw
    have hsize := List.sizeOf_lt_of_mem hw
    exact Dyn.induct int flt bol str nil map arr box w
  | .box => exact box
termination_by sizeOf v
decreasing_by
  · simp only [Dyn.map.sizeOf_spec]
    omega
  · simp only [Dyn.arr.sizeOf_spec]
    omega

theorem builtFromList_iff (p : Bytes → Prop) (elems : List (Dyn F)) :
  BuiltFromList p elems ↔ ∀ v ∈ elems, v.BuiltFrom p
  := by
  induction elems with
  | nil => simp [BuiltFromList]
  | cons v vs ih => rw [BuiltFromList, List.forall_mem_cons, ih]

theorem builtFromEntries_iff (p : Bytes → Prop) (entries : List (Bytes × Dyn F)) :
  BuiltFromEntries p entries ↔ ∀ entry ∈ entries, p entry.1 ∧ entry.2.BuiltFrom p
  := by
  induction entries with
  | nil => simp [BuiltFromEntries]
  | cons entry entries ih =>
    obtain ⟨key, v⟩ := entry
    rw [BuiltFromEntries, List.forall_mem_cons, ih, and_assoc]

theorem readsList_iff (elems : List (Dyn F)) (values : List Value) :
  ReadsList elems values ↔ List.Forall₂ Dyn.Reads elems values
  := by
  induction elems generalizing values with
  | nil => cases values <;> simp [ReadsList]
  | cons v vs ih => cases values <;> simp [ReadsList, ih]

theorem readsEntries_iff (entries : List (Bytes × Dyn F)) (members : List (Bytes × Value)) :
  ReadsEntries entries members
    ↔ List.Forall₂ (fun entry member => entry.1 = member.1 ∧ entry.2.Reads member.2) entries members
  := by
  induction entries generalizing members with
  | nil => cases members <;> simp [ReadsEntries]
  | cons entry entries ih => cases members <;> simp [ReadsEntries, ih, and_assoc]

variable (printG17 : F → Bytes)

theorem elemTexts_eq_map (elems : List (Dyn F)) :
  elemTexts printG17 elems = elems.map (jsonStringifyValue printG17)
  := by
  induction elems with
  | nil => rfl
  | cons v vs ih => rw [elemTexts, List.map_cons, ih]

/-- An entry with the text its value has. -/
def valueText (entry : Bytes × Dyn F) : Bytes × Bytes :=
  (entry.1, jsonStringifyValue printG17 entry.2)

theorem valueTexts_eq_map (entries : List (Bytes × Dyn F)) :
  valueTexts printG17 entries = entries.map (valueText printG17)
  := by
  induction entries with
  | nil => rfl
  | cons entry entries ih => rw [valueTexts, List.map_cons, ih, valueText]

/-- The text of a map in the order of the source: the entries are sorted, then written. -/
theorem jsonStringifyValue_map (entries : List (Bytes × Dyn F)) :
  jsonStringifyValue printG17 (.map entries)
    = 123 :: commaSeparated
        ((sortEntries entries).map fun entry => entryText (valueText printG17 entry)) ++ [125]
  := by
  have hsort : (sortEntries entries).map (valueText printG17)
      = sortEntries (entries.map (valueText printG17)) := by
    apply List.map_insertionSort
    intro a _ b _
    exact Iff.rfl
  rw [jsonStringifyValue, valueTexts_eq_map, ← hsort, List.map_map]
  rfl

/-- A byte a value starts with, which neither closes an array or a map nor is whitespace. -/
def StartsValue (b : UInt8) : Prop := isWhite b = false ∧ b ≠ 93 ∧ b ≠ 125

/-- An integer starts with a digit or a sign. -/
theorem integerText_eq_cons (i : ℤ) :
  ∃ b text, integerText i = b :: text ∧ 45 ≤ b.toNat ∧ b.toNat ≤ 57
  := by
  obtain ⟨d, ds, hdigits, hd⟩ := exists_digits_cons i.natAbs
  have hbounds : 48 ≤ d.toNat ∧ d.toNat ≤ 57 := by
    simpa [isDigit, UInt8.le_iff_toNat_le] using hd
  unfold integerText
  split
  · exact ⟨45, digits i.natAbs, rfl, by decide, by decide⟩
  · exact ⟨d, ds, hdigits, by omega, hbounds.2⟩

theorem ne_of_bounds {b c : UInt8} (h : 45 ≤ b.toNat ∧ b.toNat ≤ 57)
    (hc : c.toNat < 45 ∨ 57 < c.toNat) :
  b ≠ c
  := by
  rintro rfl
  omega

theorem startsValue_of_bounds {b : UInt8} (h : 45 ≤ b.toNat ∧ b.toNat ≤ 57) :
  StartsValue b
  := by
  have hspace := ne_of_bounds (c := 32) h (by decide)
  have htab := ne_of_bounds (c := 9) h (by decide)
  have hnewline := ne_of_bounds (c := 10) h (by decide)
  have hreturn := ne_of_bounds (c := 13) h (by decide)
  refine ⟨?_, ne_of_bounds h (by decide), ne_of_bounds h (by decide)⟩
  simp [isWhite, hspace, htab, hnewline, hreturn]

theorem jsonStringifyValue_eq_cons {p : Bytes → Prop} (v : Dyn F) (h : v.BuiltFrom p) :
  ∃ b text, jsonStringifyValue printG17 v = b :: text ∧ StartsValue b
  := by
  match v with
  | .int i =>
    obtain ⟨b, text, htext, hb⟩ := integerText_eq_cons i
    exact ⟨b, text, htext, startsValue_of_bounds hb⟩
  | .flt _ => exact h.elim
  | .bol true => exact ⟨116, _, rfl, by decide, by decide, by decide⟩
  | .bol false => exact ⟨102, _, rfl, by decide, by decide, by decide⟩
  | .str text => exact ⟨34, _, by rw [jsonStringifyValue]; rfl, by decide, by decide, by decide⟩
  | .nil => exact ⟨110, _, rfl, by decide, by decide, by decide⟩
  | .map entries => exact ⟨123, _, by rw [jsonStringifyValue]; rfl, by decide, by decide, by decide⟩
  | .arr elems => exact ⟨91, _, by rw [jsonStringifyValue]; rfl, by decide, by decide, by decide⟩
  | .box => exact h.elim


/-! ### Reading values -/

/-- A text that follows a value. -/
def EndsValue (text : Bytes) : Prop := ∀ b ∈ text.head?, b = 44 ∨ b = 93 ∨ b = 125

theorem endsNumber_of_endsValue {text : Bytes} (h : EndsValue text) :
  EndsNumber text
  := by
  intro b hb
  rcases h b hb with rfl | rfl | rfl <;> decide

/-- What a reader does on a text: it finds something related by `reads` and stops before
`rest`, or the text is not legible and it fails. -/
def Outcome {α : Type} (legible : Prop) (reads : α → Prop) (rest : Bytes)
    (result : Option (α × Bytes)) : Prop :=
  (legible ∧ ∃ w, result = some (w, rest) ∧ reads w) ∨ (¬ legible ∧ result = none)

theorem Outcome.of_ite {α : Type} {legible : Prop} [Decidable legible] (a : α) (rest : Bytes) :
  Outcome legible (fun w => w = a) rest (if legible then some (a, rest) else none)
  := by
  by_cases h : legible
  · left
    exact ⟨h, a, if_pos h, rfl⟩
  · right
    exact ⟨h, if_neg h⟩

/-- Two readers one after the other. -/
theorem Outcome.bind {α β : Type} {l l' legible : Prop} {reads : α → Prop} {reads' : β → Prop}
    {mid rest : Bytes} {result : Option (α × Bytes)} {next : α × Bytes → Option (β × Bytes)}
    (hl : legible ↔ l ∧ l') (h : Outcome l reads mid result)
    (hnext : ∀ w, reads w → Outcome l' reads' rest (next (w, mid))) :
  Outcome legible reads' rest (result >>= next)
  := by
  obtain ⟨hfirst, w, rfl, hw⟩ | ⟨hfirst, rfl⟩ := h
  · obtain ⟨hsecond, w', hresult, hw'⟩ | ⟨hsecond, hresult⟩ := hnext w hw
    · left
      exact ⟨hl.mpr ⟨hfirst, hsecond⟩, w', hresult, hw'⟩
    · right
      exact ⟨fun hleg => hsecond (hl.mp hleg).2, hresult⟩
  · right
    exact ⟨fun hleg => hfirst (hl.mp hleg).1, rfl⟩

theorem Outcome.map {α β : Type} {l l' : Prop} {reads : α → Prop} {reads' : β → Prop}
    {rest : Bytes} {result : Option (α × Bytes)} (f : α → β) (h : Outcome l reads rest result)
    (hl : l ↔ l') (hreads : ∀ w, reads w → reads' (f w)) :
  Outcome l' reads' rest (result.map fun (w, rest) => (f w, rest))
  := by
  obtain ⟨hleg, w, rfl, hw⟩ | ⟨hleg, rfl⟩ := h
  · left
    exact ⟨hl.mp hleg, f w, rfl, hreads w hw⟩
  · right
    exact ⟨fun hleg' => hleg (hl.mpr hleg'), rfl⟩

/-- A reader with enough fuel reads a value back from its text. -/
def ReadBack (v : Dyn F) : Prop :=
  ∀ fuel rest, (jsonStringifyValue printG17 v).length ≤ fuel → EndsValue rest →
    Outcome (v.BuiltFrom Legible) v.Reads rest (readValue fuel (jsonStringifyValue printG17 v ++ rest))

theorem commaSeparated_cons_cons (b : UInt8) (text : Bytes) (texts : List Bytes) :
  ∃ tail, commaSeparated ((b :: text) :: texts) = b :: tail
  := by
  cases texts with
  | nil => exact ⟨text, rfl⟩
  | cons t ts => exact ⟨_, rfl⟩

theorem skipWhite_value {p : Bytes → Prop} {v : Dyn F} (h : v.BuiltFrom p) (text : Bytes) :
  skipWhite (jsonStringifyValue printG17 v ++ text) = jsonStringifyValue printG17 v ++ text
  := by
  obtain ⟨b, tail, htext, hb, _⟩ := jsonStringifyValue_eq_cons printG17 v h
  rw [htext, List.cons_append]
  exact skipWhite_cons hb _

/-- The elements of an array up to the bracket that closes it. -/
theorem readElems_texts {p : Bytes → Prop} (v : Dyn F) (vs : List (Dyn F))
    (h : ∀ u ∈ v :: vs, ReadBack printG17 u ∧ u.BuiltFrom p) (fuel : ℕ) (rest : Bytes)
    (hfuel : (commaSeparated (elemTexts printG17 (v :: vs))).length < fuel) :
  Outcome (∀ u ∈ v :: vs, u.BuiltFrom Legible) (List.Forall₂ Dyn.Reads (v :: vs)) rest
    (readElems fuel (commaSeparated (elemTexts printG17 (v :: vs)) ++ 93 :: rest))
  := by
  induction vs generalizing v fuel with
  | nil =>
    obtain ⟨fuel, rfl⟩ : ∃ n, fuel = n + 1 := ⟨fuel - 1, by omega⟩
    have hbracket : skipWhite (93 :: rest) = 93 :: rest := skipWhite_cons (by decide) rest
    have hv := (h v List.mem_cons_self).1 fuel (93 :: rest) (Nat.lt_succ_iff.mp hfuel)
      (by rintro b ⟨⟩; right; left; rfl)
    apply Outcome.bind (List.forall_mem_cons) hv
    intro w hw
    left
    refine ⟨by simp, [w], ?_, List.Forall₂.cons hw List.Forall₂.nil⟩
    simp [hbracket]
  | cons u us ih =>
    obtain ⟨fuel, rfl⟩ : ∃ n, fuel = n + 1 := ⟨fuel - 1, by omega⟩
    rw [List.forall_mem_cons] at h
    have htexts : commaSeparated (elemTexts printG17 (v :: u :: us))
        = jsonStringifyValue printG17 v ++ 44 :: commaSeparated (elemTexts printG17 (u :: us)) := rfl
    rw [htexts, List.append_assoc, List.cons_append]
    rw [htexts] at hfuel
    simp only [List.length_append, List.length_cons] at hfuel
    have hv := h.1.1 fuel (44 :: (commaSeparated (elemTexts printG17 (u :: us)) ++ 93 :: rest))
      (by omega) (by rintro b ⟨⟩; left; rfl)
    have hcomma : ∀ text, skipWhite (44 :: text) = 44 :: text :=
      fun text => skipWhite_cons (by decide) text
    -- no whitespace follows the comma
    have hskip : skipWhite (commaSeparated (elemTexts printG17 (u :: us)) ++ 93 :: rest)
        = commaSeparated (elemTexts printG17 (u :: us)) ++ 93 :: rest := by
      obtain ⟨b, text, htext, hb, _⟩ := jsonStringifyValue_eq_cons printG17 u (h.2 u List.mem_cons_self).2
      obtain ⟨tail, htail⟩ := commaSeparated_cons_cons b text (elemTexts printG17 us)
      rw [elemTexts, htext, htail, List.cons_append]
      exact skipWhite_cons hb _
    apply Outcome.bind List.forall_mem_cons hv
    intro w hw
    simp only [hcomma, readLiteral_singleton, if_true, hskip]
    apply Outcome.bind (and_true _).symm.to_iff (ih u h.2 fuel (by omega))
    intro ws hws
    left
    exact ⟨trivial, w :: ws, rfl, List.Forall₂.cons hw hws⟩

/-- The name of a member, read up to the value behind its colon. -/
theorem readName_text (key : Bytes) {text : Bytes} (h : skipWhite text = text) :
  Outcome (Legible key) (fun name => name = key) text
    (readName (jsonStringifyString key ++ 58 :: text))
  := by
  have hread := readString_escaped key (58 :: text)
  have hcolon : skipWhite (58 :: text) = 58 :: text := skipWhite_cons (by decide) text
  have hname : readName (jsonStringifyString key ++ 58 :: text)
      = if Legible key then some (key, text) else none := by
    unfold jsonStringifyString
    simp only [List.cons_append, List.append_assoc, List.nil_append, readName, if_true, hread]
    split
    · simp [hcolon, h]
    · rfl
  rw [hname]
  exact Outcome.of_ite key text

theorem legible_entry_cons (entry : Bytes × Dyn F) (entries : List (Bytes × Dyn F)) :
  (∀ e ∈ entry :: entries, Legible e.1 ∧ e.2.BuiltFrom Legible)
    ↔ Legible entry.1 ∧ entry.2.BuiltFrom Legible
      ∧ ∀ e ∈ entries, Legible e.1 ∧ e.2.BuiltFrom Legible
  := by
  rw [List.forall_mem_cons, and_assoc]

/-- The entries of a map up to the brace that closes it. -/
theorem readMembers_texts {p : Bytes → Prop} (entry : Bytes × Dyn F) (entries : List (Bytes × Dyn F))
    (h : ∀ e ∈ entry :: entries, ReadBack printG17 e.2 ∧ e.2.BuiltFrom p) (fuel : ℕ) (rest : Bytes)
    (hfuel : (commaSeparated
      ((entry :: entries).map fun e => entryText (valueText printG17 e))).length < fuel) :
  Outcome (∀ e ∈ entry :: entries, Legible e.1 ∧ e.2.BuiltFrom Legible)
    (List.Forall₂ (fun e member => e.1 = member.1 ∧ e.2.Reads member.2) (entry :: entries)) rest
    (readMembers fuel
      (commaSeparated ((entry :: entries).map fun e => entryText (valueText printG17 e)) ++ 125 :: rest))
  := by
  induction entries generalizing entry fuel with
  | nil =>
    obtain ⟨fuel, rfl⟩ : ∃ n, fuel = n + 1 := ⟨fuel - 1, by omega⟩
    have hbrace : skipWhite (125 :: rest) = 125 :: rest := skipWhite_cons (by decide) rest
    have htexts : commaSeparated ([entry].map fun e => entryText (valueText printG17 e)) ++ 125 :: rest
        = jsonStringifyString entry.1 ++ 58 :: (jsonStringifyValue printG17 entry.2 ++ 125 :: rest) := by
      simp [commaSeparated, entryText, valueText]
    have hentry := h entry List.mem_cons_self
    have hlength : (jsonStringifyValue printG17 entry.2).length ≤ fuel := by
      simp only [List.map_cons, List.map_nil, commaSeparated, entryText, valueText, List.length_append,
        List.length_cons] at hfuel
      omega
    have hv := hentry.1 fuel (125 :: rest) hlength (by rintro b ⟨⟩; right; right; rfl)
    have hname := readName_text entry.1 (skipWhite_value printG17 hentry.2 (125 :: rest))
    rw [htexts]
    apply Outcome.bind (legible_entry_cons _ _) hname
    rintro name rfl
    apply Outcome.bind Iff.rfl hv
    intro w hw
    left
    refine ⟨by simp, [(entry.1, w)], ?_, List.Forall₂.cons ⟨rfl, hw⟩ List.Forall₂.nil⟩
    simp [hbrace]
  | cons other entries ih =>
    obtain ⟨fuel, rfl⟩ : ∃ n, fuel = n + 1 := ⟨fuel - 1, by omega⟩
    rw [List.forall_mem_cons] at h
    obtain ⟨tail, htail⟩ : ∃ tail, tail
        = commaSeparated ((other :: entries).map fun e => entryText (valueText printG17 e)) := ⟨_, rfl⟩
    have htexts : commaSeparated ((entry :: other :: entries).map fun e => entryText (valueText printG17 e))
        = jsonStringifyString entry.1 ++ 58 :: (jsonStringifyValue printG17 entry.2 ++ 44 :: tail) := by
      simp [htail, commaSeparated, entryText, valueText]
    rw [htexts] at hfuel ⊢
    simp only [List.length_append, List.length_cons] at hfuel
    have hcomma : ∀ text, skipWhite (44 :: text) = 44 :: text :=
      fun text => skipWhite_cons (by decide) text
    -- no whitespace follows the comma
    have hskip : skipWhite (tail ++ 125 :: rest) = tail ++ 125 :: rest := by
      obtain ⟨text, htext⟩ := commaSeparated_cons_cons 34 _
        (entries.map fun e => entryText (valueText printG17 e))
      rw [htail, List.map_cons, entryText, jsonStringifyString, List.cons_append, List.cons_append, htext]
      exact skipWhite_cons (by decide) _
    have hv := h.1.1 fuel (44 :: (tail ++ 125 :: rest)) (by omega) (by rintro b ⟨⟩; left; rfl)
    have hname := readName_text entry.1 (skipWhite_value printG17 h.1.2 (44 :: (tail ++ 125 :: rest)))
    have hmembers := ih other h.2 fuel (by rw [← htail]; omega)
    rw [← htail] at hmembers
    simp only [List.append_assoc, List.cons_append]
    apply Outcome.bind (legible_entry_cons _ _) hname
    rintro name rfl
    apply Outcome.bind Iff.rfl hv
    intro w hw
    simp only [hcomma, readLiteral_singleton, if_true, hskip]
    apply Outcome.bind (and_true _).symm.to_iff hmembers
    intro ws hws
    left
    exact ⟨trivial, (entry.1, w) :: ws, rfl, List.Forall₂.cons ⟨rfl, hw⟩ hws⟩

/-- The members read from the sorted entries of a map are those of the map. -/
theorem reads_map {entries : List (Bytes × Dyn F)} {members : List (Bytes × Value)}
    (h : List.Forall₂ (fun entry member => entry.1 = member.1 ∧ entry.2.Reads member.2)
      (sortEntries entries) members) :
  (Dyn.map entries).Reads (.object members)
  := by
  have hperm : entries.Perm (sortEntries entries) := (List.perm_insertionSort _ entries).symm
  obtain ⟨ordered, hreads, hordered⟩ := List.perm_comp_forall₂ hperm h
  exact ⟨ordered, hordered, (readsEntries_iff entries ordered).mpr hreads⟩

/-- Fuel for the text of a value is fuel for its first byte. -/
theorem exists_fuel {p : Bytes → Prop} (v : Dyn F) (h : v.BuiltFrom p) {fuel : ℕ}
    (hfuel : (jsonStringifyValue printG17 v).length ≤ fuel) :
  ∃ n, fuel = n + 1
  := by
  obtain ⟨b, text, htext, _⟩ := jsonStringifyValue_eq_cons printG17 v h
  rw [htext, List.length_cons] at hfuel
  exact ⟨fuel - 1, by omega⟩

theorem readBack_str (text : Bytes) :
  ReadBack printG17 (.str text)
  := by
  intro fuel rest hfuel _
  obtain ⟨fuel, rfl⟩ := exists_fuel printG17 (p := fun _ => True) (.str text) trivial hfuel
  rw [jsonStringifyValue]
  have hread := readString_escaped text rest
  unfold jsonStringifyString
  simp only [List.cons_append, List.append_assoc, List.nil_append, readValue, if_true, hread]
  apply Outcome.map Value.string (Outcome.of_ite text rest)
  · exact Iff.rfl
  · rintro bytes rfl
    rfl

theorem readBack_int (i : ℤ) :
  ReadBack printG17 (.int i)
  := by
  intro fuel rest hfuel hrest
  obtain ⟨fuel, rfl⟩ := exists_fuel printG17 (p := fun _ => True) (.int i) trivial hfuel
  have hnumber := readNumber_integerText i (endsNumber_of_endsValue hrest)
  obtain ⟨b, text, htext, hb⟩ := integerText_eq_cons i
  rw [htext, List.cons_append] at hnumber
  rw [jsonStringifyValue, htext, List.cons_append]
  have hquote := ne_of_bounds (c := 34) hb (by decide)
  have hbracket := ne_of_bounds (c := 91) hb (by decide)
  have hbrace := ne_of_bounds (c := 123) hb (by decide)
  have hn := ne_of_bounds (c := 110) hb (by decide)
  have ht := ne_of_bounds (c := 116) hb (by decide)
  have hf := ne_of_bounds (c := 102) hb (by decide)
  simp only [readValue, hquote, hbracket, hbrace, hn, ht, hf, if_false, hnumber]
  left
  exact ⟨trivial, .number i, rfl, rfl⟩

theorem readBack_nil :
  ReadBack printG17 .nil
  := by
  intro fuel rest hfuel _
  obtain ⟨fuel, rfl⟩ := exists_fuel printG17 (p := fun _ => True) .nil trivial hfuel
  left
  exact ⟨trivial, .null, readValue_nullText fuel rest, trivial⟩

theorem readBack_bol (b : Bool) :
  ReadBack printG17 (.bol b)
  := by
  intro fuel rest hfuel _
  left
  cases b with
  | true =>
    obtain ⟨fuel, rfl⟩ := exists_fuel printG17 (p := fun _ => True) (.bol true) trivial hfuel
    exact ⟨trivial, .bool true, readValue_trueText fuel rest, rfl⟩
  | false =>
    obtain ⟨fuel, rfl⟩ := exists_fuel printG17 (p := fun _ => True) (.bol false) trivial hfuel
    exact ⟨trivial, .bool false, readValue_falseText fuel rest, rfl⟩

theorem readBack_arr {p : Bytes → Prop} (elems : List (Dyn F))
    (h : ∀ v ∈ elems, ReadBack printG17 v ∧ v.BuiltFrom p) :
  ReadBack printG17 (.arr elems)
  := by
  intro fuel rest hfuel _
  have hlegible := builtFromList_iff Legible elems
  simp only [jsonStringifyValue, List.cons_append, List.append_assoc, List.nil_append, List.length_append,
    List.length_cons, List.length_nil] at hfuel ⊢
  obtain ⟨fuel, rfl⟩ : ∃ n, fuel = n + 1 := ⟨fuel - 1, by omega⟩
  cases elems with
  | nil =>
    have hbracket : skipWhite (93 :: rest) = 93 :: rest := skipWhite_cons (by decide) rest
    left
    refine ⟨trivial, .array [], ?_, trivial⟩
    simp [readValue, elemTexts, commaSeparated, hbracket]
  | cons v vs =>
    obtain ⟨b, text, htext, hb, hclose, _⟩ :=
      jsonStringifyValue_eq_cons printG17 v (h v List.mem_cons_self).2
    obtain ⟨tail, htail⟩ := commaSeparated_cons_cons b text (elemTexts printG17 vs)
    have hcons : commaSeparated (elemTexts printG17 (v :: vs)) = b :: tail := by
      rw [elemTexts, htext, htail]
    have helems := readElems_texts printG17 v vs h fuel rest (by omega)
    rw [hcons, List.cons_append] at helems ⊢
    simp only [readValue, if_true, skipWhite_cons hb, readLiteral_singleton, if_neg (Ne.symm hclose)]
    apply Outcome.map Value.array helems hlegible.symm
    intro ws hws
    exact (readsList_iff _ _).mpr hws

theorem readBack_map {p : Bytes → Prop} (entries : List (Bytes × Dyn F))
    (h : ∀ entry ∈ entries, ReadBack printG17 entry.2 ∧ entry.2.BuiltFrom p) :
  ReadBack printG17 (.map entries)
  := by
  intro fuel rest hfuel _
  have hperm : (sortEntries entries).Perm entries := List.perm_insertionSort _ entries
  have hlegible : (∀ e ∈ sortEntries entries, Legible e.1 ∧ e.2.BuiltFrom Legible)
      ↔ (Dyn.map entries).BuiltFrom Legible := by
    rw [Dyn.BuiltFrom, builtFromEntries_iff]
    simp only [hperm.mem_iff]
  have hsorted : ∀ e ∈ sortEntries entries, ReadBack printG17 e.2 ∧ e.2.BuiltFrom p :=
    fun e he => h e (hperm.mem_iff.mp he)
  have hreads : ∀ members, List.Forall₂ _ (sortEntries entries) members →
      (Dyn.map entries).Reads (.object members) := fun members => reads_map
  rw [jsonStringifyValue_map] at hfuel ⊢
  generalize sortEntries entries = sorted at hlegible hsorted hreads hfuel
  simp only [List.cons_append, List.append_assoc, List.nil_append, List.length_append,
    List.length_cons, List.length_nil] at hfuel ⊢
  obtain ⟨fuel, rfl⟩ : ∃ n, fuel = n + 1 := ⟨fuel - 1, by omega⟩
  cases sorted with
  | nil =>
    have hbrace : skipWhite (125 :: rest) = 125 :: rest := skipWhite_cons (by decide) rest
    left
    refine ⟨hlegible.mp (by simp), .object [], ?_, hreads [] List.Forall₂.nil⟩
    simp [readValue, commaSeparated, hbrace]
  | cons entry sorted =>
    obtain ⟨tail, htail⟩ := commaSeparated_cons_cons 34 _
      (sorted.map fun e => entryText (valueText printG17 e))
    have hcons : commaSeparated ((entry :: sorted).map fun e => entryText (valueText printG17 e))
        = 34 :: tail := by
      rw [List.map_cons, entryText, jsonStringifyString, List.cons_append, List.cons_append]
      exact htail
    have hmembers := readMembers_texts printG17 entry sorted hsorted fuel rest (by omega)
    have hskip : skipWhite (34 :: (tail ++ 125 :: rest)) = 34 :: (tail ++ 125 :: rest) :=
      skipWhite_cons (by decide) _
    rw [hcons, List.cons_append] at hmembers ⊢
    have hread : readValue (fuel + 1) (123 :: 34 :: (tail ++ 125 :: rest))
        = (readMembers fuel (34 :: (tail ++ 125 :: rest))).map
          fun r => (.object r.1, r.2) := by
      simp [readValue, hskip]
    rw [hread]
    exact Outcome.map Value.object hmembers hlegible hreads

/-- Every value without numbers of kind `FLT` and boxes is read back from its text, or is
not legible and makes a reader fail. -/
theorem readBack {p : Bytes → Prop} (v : Dyn F) (h : v.BuiltFrom p) :
  ReadBack printG17 v
  := by
  induction v using Dyn.induct with
  | int i => exact readBack_int printG17 i
  | flt x => exact h.elim
  | bol b => exact readBack_bol printG17 b
  | str text => exact readBack_str printG17 text
  | nil => exact readBack_nil printG17
  | map entries ih =>
    rw [Dyn.BuiltFrom, builtFromEntries_iff] at h
    apply readBack_map printG17 entries
    intro entry hentry
    exact ⟨ih entry hentry (h entry hentry).2, (h entry hentry).2⟩
  | arr elems ih =>
    rw [Dyn.BuiltFrom, builtFromList_iff] at h
    apply readBack_arr printG17 elems
    intro v hv
    exact ⟨ih v hv (h v hv), h v hv⟩
  | box => exact h.elim

/-! ### Documents -/

theorem isUtf8_commaSeparated {texts : List Bytes} (h : ∀ text ∈ texts, IsUtf8 text) :
  IsUtf8 (commaSeparated texts)
  := by
  induction texts with
  | nil => exact isUtf8_nil
  | cons text texts ih =>
    rw [List.forall_mem_cons] at h
    cases texts with
    | nil => exact h.1
    | cons t ts =>
      apply isUtf8_append h.1
      exact isUtf8_append (isUtf8_singleton (by decide) : IsUtf8 [44]) (ih h.2)

/-- The text of a value whose strings are UTF-8 is UTF-8. -/
theorem isUtf8_jsonStringifyValue {p : Bytes → Prop} (hp : ∀ text, p text → IsUtf8 text) (v : Dyn F)
    (h : v.BuiltFrom p) :
  IsUtf8 (jsonStringifyValue printG17 v)
  := by
  induction v using Dyn.induct with
  | int i =>
    rw [jsonStringifyValue]
    exact isUtf8_integerText i
  | flt x => exact h.elim
  | bol b =>
    cases b with
    | true => exact (isUtf8_of_ascii (by simp [trueText, Char.toUInt8]) : IsUtf8 trueText)
    | false => exact (isUtf8_of_ascii (by simp [falseText, Char.toUInt8]) : IsUtf8 falseText)
  | str text =>
    rw [jsonStringifyValue]
    exact isUtf8_jsonStringifyString (hp text h)
  | nil => exact (isUtf8_of_ascii (by simp [nullText, Char.toUInt8]) : IsUtf8 nullText)
  | map entries ih =>
    rw [Dyn.BuiltFrom, builtFromEntries_iff] at h
    have hperm : (sortEntries entries).Perm entries := List.perm_insertionSort _ entries
    rw [jsonStringifyValue_map]
    apply isUtf8_append _ (isUtf8_singleton (by decide))
    apply isUtf8_append (isUtf8_singleton (by decide) : IsUtf8 [123])
    apply isUtf8_commaSeparated
    rw [List.forall_mem_map]
    intro entry hentry
    have hmem := hperm.mem_iff.mp hentry
    apply isUtf8_append (isUtf8_jsonStringifyString (hp _ (h entry hmem).1))
    exact isUtf8_append (isUtf8_singleton (by decide) : IsUtf8 [58]) (ih entry hmem (h entry hmem).2)
  | arr elems ih =>
    rw [Dyn.BuiltFrom, builtFromList_iff] at h
    rw [jsonStringifyValue, elemTexts_eq_map]
    apply isUtf8_append _ (isUtf8_singleton (by decide))
    apply isUtf8_append (isUtf8_singleton (by decide) : IsUtf8 [91])
    apply isUtf8_commaSeparated
    rw [List.forall_mem_map]
    intro v hv
    exact ih v hv (h v hv)
  | box => exact h.elim

/-- The strings of a program: UTF-8 texts without a zero byte. -/
def IsText (text : Bytes) : Prop := IsUtf8 text ∧ 0 ∉ text

/-- The text of a value is read back exactly when its strings, the keys of its maps
included, hold no control characters other than newline and tab. -/
theorem roundTrips_iff (v : Dyn F) (h : v.BuiltFrom IsText) :
  RoundTrips printG17 v ↔ v.BuiltFrom Legible
  := by
  have hutf8 := isUtf8_jsonStringifyValue printG17 (fun _ htext => htext.1) v h
  have hvalue := skipWhite_value printG17 h []
  have hback := readBack printG17 v h ((jsonStringifyValue printG17 v).length + 1) []
    (Nat.le_succ _) (by rintro b ⟨⟩)
  rw [List.append_nil] at hvalue hback
  have hread : readDocument (jsonStringifyValue printG17 v)
      = (readValue ((jsonStringifyValue printG17 v).length + 1) (jsonStringifyValue printG17 v)).bind
        fun r => if skipWhite r.2 = [] then some r.1 else none := by
    unfold readDocument
    rw [hvalue]
    rfl
  unfold RoundTrips
  rw [hread]
  obtain ⟨hleg, w, hresult, hw⟩ | ⟨hleg, hresult⟩ := hback
  · rw [hresult]
    exact ⟨fun _ => hleg, fun _ => ⟨hutf8, w, rfl, hw⟩⟩
  · rw [hresult]
    constructor
    · rintro ⟨_, w, hnone, _⟩
      cases hnone
    · intro hleg'
      exact absurd hleg' hleg


/-- The array of a string with a newline and of a map. -/
theorem roundTrips_lines :
  RoundTrips (fun _ : Empty => [])
      (.arr [.str [97, 10, 34], .map [([107], .int (-5)), ([], .nil)], .bol true])
    ↔ Dyn.BuiltFrom (F := Empty) Legible
      (.arr [.str [97, 10, 34], .map [([107], .int (-5)), ([], .nil)], .bol true])
  := by
  have hline : IsText [97, 10, 34] := ⟨isUtf8_of_ascii (by simp), by decide⟩
  have hkey : IsText [107] := ⟨isUtf8_of_ascii (by simp), by decide⟩
  have hempty : IsText [] := ⟨isUtf8_nil, by decide⟩
  apply roundTrips_iff
  exact ⟨hline, ⟨hkey, trivial, hempty, trivial, trivial⟩, trivial, trivial⟩

/-- A carriage return is written as it is, so the text is no JSON document. -/
theorem not_roundTrips_carriageReturn :
  ¬ ∀ v : Dyn Empty, v.BuiltFrom IsText → RoundTrips (fun _ => []) v
  := by
  intro h
  have htext : IsText [13] := ⟨isUtf8_of_ascii (by simp), by decide⟩
  have hread : readDocument (jsonStringifyValue (fun _ : Empty => []) (.str [13])) = none := rfl
  obtain ⟨_, w, hvalue, _⟩ := h (.str [13]) htext
  rw [hread] at hvalue
  cases hvalue

end Caster
