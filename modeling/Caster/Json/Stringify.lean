import Mathlib.Data.List.Sort
import Caster.Library.JsonReader

/-!
# The text of a dynamic value

The functions `flx_json_stringify_*` of the emitted runtime.  Each appends to the text it is
given; here each returns what it appends.  The text `%.17g` prints for a number is a
parameter.
-/

namespace Caster

/-- The bytes of a string. -/
abbrev Bytes := List UInt8

/-- A value `FLX_OBJ`, where `F` are the numbers of kind `FLT`.  A map holds its entries in
the order `hashmap_iter` yields them, none where the table is null. -/
inductive Dyn (F : Type) where
  | int (value : ℤ)
  | flt (value : F)
  | bol (value : Bool)
  | str (text : Bytes)
  | nil
  | map (entries : List (Bytes × Dyn F))
  | arr (elems : List (Dyn F))
  | box

/-! ### Strings -/

/-- The bytes one byte of a string is written as. -/
def escapeByte (ch : UInt8) : Bytes :=
  if ch = 34 then [92, 34]
  else if ch = 92 then [92, 92]
  else if ch = 10 then [92, 110]
  else if ch = 9 then [92, 116]
  else [ch]

/-- The text of `flx_json_stringify_string`. -/
def jsonStringifyString (text : Bytes) : Bytes := 34 :: text.flatMap escapeByte ++ [34]

/-! ### Sorting -/

/-- The difference of the first two bytes that differ among the first `n`. -/
def memcmp : Bytes → Bytes → ℕ → ℤ
  | a :: left, b :: right, n + 1 => if a = b then memcmp left right n else (a.toNat : ℤ) - b.toNat
  | _, _, _ => 0

/-- The order of `flx_json_compare_entries` on the keys of two entries. -/
def jsonCompareEntries (left right : Bytes) : ℤ :=
  let minLen := if left.length < right.length then left.length else right.length
  let cmp := if 0 < minLen then memcmp left right minLen else 0
  if cmp ≠ 0 then cmp
  else if left.length < right.length then -1
  else if right.length < left.length then 1
  else 0

/-- Entries sorted as `qsort` does with `flx_json_compare_entries`. -/
def sortEntries {α : Type} (entries : List (Bytes × α)) : List (Bytes × α) :=
  entries.insertionSort fun left right => jsonCompareEntries left.1 right.1 ≤ 0

/-! ### Values -/

/-- Texts with commas between them. -/
def commaSeparated : List Bytes → Bytes
  | [] => []
  | [text] => text
  | text :: texts => text ++ 44 :: commaSeparated texts

/-- The text of an entry whose value has the given text. -/
def entryText (entry : Bytes × Bytes) : Bytes := jsonStringifyString entry.1 ++ 58 :: entry.2

section

variable {F : Type} (printG17 : F → Bytes)

mutual

/-- The text of `flx_json_stringify_value`. -/
def jsonStringifyValue : Dyn F → Bytes
  | .int value => JsonReader.integerText value
  | .flt value => printG17 value
  | .bol value => if value then JsonReader.trueText else JsonReader.falseText
  | .str text => jsonStringifyString text
  | .nil => JsonReader.nullText
  | .arr elems => 91 :: commaSeparated (elemTexts elems) ++ [93]
  -- the entries are sorted by their keys, each with the text its value has
  | .map entries => 123 :: commaSeparated ((sortEntries (valueTexts entries)).map entryText) ++ [125]
  | .box => JsonReader.nullText

/-- The texts of the elements of an array. -/
def elemTexts : List (Dyn F) → List Bytes
  | [] => []
  | v :: vs => jsonStringifyValue v :: elemTexts vs

/-- The entries of a map with the texts of their values. -/
def valueTexts : List (Bytes × Dyn F) → List (Bytes × Bytes)
  | [] => []
  | (key, v) :: entries => (key, jsonStringifyValue v) :: valueTexts entries

end

end

end Caster
