import Mathlib.Data.List.Basic
import Mathlib.Tactic

/-!
# Scans of source texts

The driver works on source texts before they are parsed.  Its functions all pass comments
and strings and stop at identifiers; they differ in what they do there.
-/

namespace Caster.Driver

/-- A source text. -/
abbrev Text := List Char

theorem lawfulBEq_text : LawfulBEq Text := inferInstance

/-- The quotation mark. -/
def quote : Char := Char.ofNat 34

/-- The mark around a raw string. -/
def backtick : Char := Char.ofNat 96

/-- The characters `isspace` accepts. -/
def isSpace (c : Char) : Bool := c ∈ [' ', '\t', '\n', '\r', Char.ofNat 11, Char.ofNat 12]

/-- The first character of an identifier. -/
def isIdentStart (c : Char) : Bool := c.isAlpha || c = '_'

/-- The other characters of an identifier. -/
def isIdentChar (c : Char) : Bool := c.isAlphanum || c = '_'

/-- What a character of a source text belongs to. -/
inductive Mode where
  | code | lineComment | blockComment | string | raw
deriving DecidableEq, Repr

/-- The number of characters that are passed at once, and what the next one belongs to. -/
def passed : Mode → Text → ℕ × Mode
  | .lineComment, c :: _ => (1, if c = '\n' ∨ c = '\r' then .code else .lineComment)
  | .blockComment, '*' :: '/' :: _ => (2, .code)
  | .string, '\\' :: _ :: _ => (2, .string)
  | .string, c :: _ => (1, if c = quote then .code else .string)
  | .raw, c :: _ => (1, if c = backtick then .code else .raw)
  | .code, '/' :: '/' :: _ => (2, .lineComment)
  | .code, '/' :: '*' :: _ => (2, .blockComment)
  | .code, c :: _ => (1, if c = quote then .string else if c = backtick then .raw else .code)
  | mode, _ => (1, mode)

/-- A part of a source text: an identifier with the characters before it, the last one
first, and those after it, or other characters. -/
inductive Part where
  | ident (before name after : Text)
  | chars (mode : Mode) (text : Text)
deriving DecidableEq, Repr

/-- The characters of a part. -/
def Part.text : Part → Text
  | .ident _ name _ => name
  | .chars _ text => text

/-- The parts of a text behind the characters before it, no more than a number of them. -/
def partsFrom : ℕ → Mode → Text → Text → List Part
  | 0, _, _, _ => []
  | _ + 1, _, _, [] => []
  | n + 1, mode, before, c :: rest =>
    if mode = .code ∧ isIdentStart c then
      let name := (c :: rest).takeWhile isIdentChar
      let after := (c :: rest).dropWhile isIdentChar
      .ident before name after :: partsFrom n .code (name.reverse ++ before) after
    else
      let (count, mode') := passed mode (c :: rest)
      let text := (c :: rest).take count
      .chars mode text :: partsFrom n mode' (text.reverse ++ before) ((c :: rest).drop count)

/-- The parts of a text. -/
def parts (src : Text) : List Part := partsFrom src.length .code [] src

theorem passed_pos (mode : Mode) (text : Text) : 0 < (passed mode text).1 := by
  unfold passed
  split <;> exact Nat.succ_pos _

theorem isIdentChar_of_isIdentStart {c : Char} (h : isIdentStart c = true) : isIdentChar c = true := by
  unfold isIdentStart at h
  unfold isIdentChar Char.isAlphanum
  rcases Bool.or_eq_true_iff.mp h with h | h <;> simp [h]

/-- No digit starts an identifier. -/
theorem isDigit_of_isIdentStart {c : Char} (h : isIdentStart c = true) : c.isDigit = false := by
  by_contra hdigit
  have hdef : c.isAlpha =
      (decide (c.val ≥ 'A'.val ∧ c.val ≤ 'Z'.val) || (c.val ≥ 'a'.val && c.val ≤ 'z'.val)) := rfl
  have halpha : c.isAlpha = false := by
    rw [hdef]
    simp only [Char.isDigit] at hdigit
    grind
  have hunderscore : c = '_' := by simpa [isIdentStart, halpha] using h
  subst hunderscore
  exact hdigit rfl

/-- The parts of a text are its characters. -/
theorem flatMap_partsFrom (n : ℕ) (mode : Mode) (before src : Text) (hn : src.length ≤ n) :
  (partsFrom n mode before src).flatMap Part.text = src
  := by
  induction n generalizing mode before src with
  | zero => simp [partsFrom, List.length_eq_zero_iff.mp (Nat.le_zero.mp hn)]
  | succ n ih =>
    cases src with
    | nil => rfl
    | cons c rest =>
      rw [List.length_cons] at hn
      unfold partsFrom
      split_ifs with hident
      · have hchar := isIdentChar_of_isIdentStart hident.2
        dsimp only
        rw [List.flatMap_cons, ih]
        · exact List.takeWhile_append_dropWhile
        · rw [List.dropWhile_cons_of_pos hchar]
          exact (List.dropWhile_sublist _).length_le.trans (by omega)
      · have hpos := passed_pos mode (c :: rest)
        dsimp only
        rw [List.flatMap_cons, ih]
        · exact List.take_append_drop _ _
        · rw [List.length_drop, List.length_cons]
          omega

theorem flatMap_parts (src : Text) : (parts src).flatMap Part.text = src :=
  flatMap_partsFrom _ _ _ _ le_rfl

end Caster.Driver
