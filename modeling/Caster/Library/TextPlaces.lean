import Mathlib.Data.List.DropRight
import Mathlib.Tactic

/-!
# Places in texts

The line and column of a position in a text whose lines end with a line feed, with a
carriage return, or with both in this order.  Lines and columns start with one.
-/

namespace TextPlaces

/-- A line and a column. -/
structure Place where
  line : ℕ
  col : ℕ
deriving DecidableEq, Repr

/-- A place comes before another one. -/
def Place.Before (a b : Place) : Prop := a.line < b.line ∨ a.line = b.line ∧ a.col < b.col

theorem Place.Before.trans {a b c : Place} (hab : a.Before b) (hbc : b.Before c) : a.Before c := by
  unfold Place.Before at *
  omega

/-- A character of an end of a line. -/
def isLineEnd (c : Char) : Bool := c = '\n' || c = '\r'

/-- The number of ends of lines in a text.  A carriage return before a line feed ends no
line of its own. -/
def lineEnds : List Char → ℕ
  | [] => 0
  | c :: rest => (if c = '\n' ∨ c = '\r' ∧ rest.head? ≠ some '\n' then 1 else 0) + lineEnds rest

/-- The characters behind the last end of a line. -/
def lastLine (text : List Char) : List Char := text.rtakeWhile fun c => !isLineEnd c

/-- The place behind a text. -/
def placeAfter (text : List Char) : Place := ⟨1 + lineEnds text, 1 + (lastLine text).length⟩

/-- The position between two texts is not within an end of a line. -/
def Between (before after : List Char) : Prop :=
  before.getLast? = some '\r' → after.head? ≠ some '\n'

theorem between_nil (after : List Char) : Between [] after := by simp [Between]

/-- A position behind a character that is not a carriage return. -/
theorem between_of_getLast {before after : List Char} (h : before.getLast? ≠ some '\r') :
  Between before after
  := fun hlast => absurd hlast h

theorem between_append {read p after : List Char} (hp : p ≠ []) (h : Between p after) :
  Between (read ++ p) after
  := by
  unfold Between
  rwa [List.getLast?_append_of_ne_nil _ hp]

/-- Ends of lines are counted on both sides of a position that is not within one. -/
theorem lineEnds_append {before after : List Char} (h : Between before after) :
  lineEnds (before ++ after) = lineEnds before + lineEnds after
  := by
  induction before with
  | nil => simp [lineEnds]
  | cons c rest ih =>
    cases rest with
    | nil =>
      have hc : c = '\r' → after.head? ≠ some '\n' := by simpa [Between] using h
      simp only [List.cons_append, List.nil_append, lineEnds, List.head?_nil, add_zero]
      grind
    | cons d rest =>
      have hrest : Between (d :: rest) after := by simpa [Between] using h
      rw [List.cons_append, lineEnds, ih hrest, lineEnds.eq_2 c, List.cons_append, List.head?_cons,
        List.head?_cons, add_assoc]

theorem lineEnds_of_plain {text : List Char} (h : ∀ c ∈ text, isLineEnd c = false) :
  lineEnds text = 0
  := by
  induction text with
  | nil => rfl
  | cons c rest ih =>
    have hc := h c (by simp)
    simp only [isLineEnd, Bool.or_eq_false_iff, decide_eq_false_iff_not] at hc
    rw [lineEnds, ih fun d hd => h d (by simp [hd])]
    simp [hc.1, hc.2]

/-- Behind characters that end no line, the column has moved by their number. -/
theorem placeAfter_append_plain {before text : List Char} (hbetween : Between before text)
    (h : ∀ c ∈ text, isLineEnd c = false) :
  placeAfter (before ++ text) =
    ⟨(placeAfter before).line, (placeAfter before).col + text.length⟩
  := by
  have hlast : lastLine (before ++ text) = lastLine before ++ text := by
    unfold lastLine List.rtakeWhile
    rw [List.reverse_append, List.takeWhile_append_of_pos (by simpa using h)]
    simp
  simp only [placeAfter, lineEnds_append hbetween, lineEnds_of_plain h, hlast, List.length_append]
  congr 1
  omega

/-- The texts that end one line. -/
def IsLineEnd (text : List Char) : Prop := text = ['\n'] ∨ text = ['\r'] ∨ text = ['\r', '\n']

theorem isLineEnd_singleton {c : Char} (h : isLineEnd c = true) : IsLineEnd [c] := by
  simp only [isLineEnd, Bool.or_eq_true, decide_eq_true_eq] at h
  rcases h with rfl | rfl <;> simp [IsLineEnd]

/-- Behind an end of a line, a new line starts. -/
theorem placeAfter_append_lineEnd {before text : List Char} (hbetween : Between before text)
    (h : IsLineEnd text) :
  placeAfter (before ++ text) = ⟨(placeAfter before).line + 1, 1⟩
  := by
  have hends : lineEnds text = 1 := by rcases h with rfl | rfl | rfl <;> rfl
  have hlast : lastLine (before ++ text) = [] := by
    unfold lastLine List.rtakeWhile
    rcases h with rfl | rfl | rfl <;> simp [isLineEnd]
  simp only [placeAfter, lineEnds_append hbetween, hends, hlast, List.length_nil]
  congr 1

/-- A text in which no line ends is plain. -/
theorem plain_of_lineEnds {text : List Char} (h : lineEnds text = 0) :
  ∀ c ∈ text, isLineEnd c = false
  := by
  induction text with
  | nil => simp
  | cons c rest ih =>
    rw [lineEnds, Nat.add_eq_zero_iff] at h
    have hrest := ih h.2
    intro d hd
    rcases List.mem_cons.mp hd with rfl | hd
    · have hhead : d = '\r' → rest.head? = some '\n' := by grind
      have hno : rest.head? ≠ some '\n' := by
        intro hhead
        have := hrest '\n' (List.mem_of_mem_head? hhead)
        simp [isLineEnd] at this
      have hd : d ≠ '\n' := by grind
      simp only [isLineEnd, Bool.or_eq_false_iff, decide_eq_false_iff_not]
      exact ⟨hd, fun hr => hno (hhead hr)⟩
    · exact hrest d hd

/-- A position further on in a text has a place further on. -/
theorem placeAfter_before {before text : List Char} (hbetween : Between before text)
    (hne : text ≠ []) :
  (placeAfter before).Before (placeAfter (before ++ text))
  := by
  by_cases hplain : lineEnds text = 0
  · have hlength := List.length_pos_iff.mpr hne
    rw [placeAfter_append_plain hbetween (plain_of_lineEnds hplain)]
    right
    simp only [true_and]
    omega
  · left
    simp only [placeAfter, lineEnds_append hbetween]
    omega

/-! ### Whole lines -/

/-- A text is empty or ends with a line feed. -/
def Whole (text : List Char) : Prop := ∀ c, text.getLast? = some c → c = '\n'

theorem whole_nil : Whole [] := by simp [Whole]

theorem whole_line (line : List Char) : Whole (line ++ ['\n']) := by simp [Whole]

theorem Whole.append {text text' : List Char} (h : Whole text) (h' : Whole text') :
  Whole (text ++ text')
  := by
  cases text' with
  | nil => simpa using h
  | cons c text' =>
    unfold Whole
    rwa [List.getLast?_append_of_ne_nil _ (List.cons_ne_nil _ _)]

theorem whole_flatMap {α : Type*} {f : α → List Char} {l : List α} (h : ∀ a ∈ l, Whole (f a)) :
  Whole (l.flatMap f)
  := by
  induction l with
  | nil => exact whole_nil
  | cons a l ih =>
    rw [List.flatMap_cons]
    apply (h a (by simp)).append
    apply ih
    exact fun b hb => h b (by simp [hb])

theorem Whole.between {before : List Char} (h : Whole before) (after : List Char) :
  Between before after
  := by
  intro hlast
  have := h _ hlast
  contradiction

/-- Behind whole lines, the places of a text are those it has alone, so many lines further on. -/
theorem Whole.placeAfter_append {before : List Char} (h : Whole before) (text : List Char) :
  placeAfter (before ++ text) =
    ⟨lineEnds before + (placeAfter text).line, (placeAfter text).col⟩
  := by
  have hlast : lastLine (before ++ text) = lastLine text := by
    unfold lastLine List.rtakeWhile
    congr 1
    rw [List.reverse_append, List.takeWhile_append]
    split_ifs with hall
    · have hwhole := List.takeWhile_prefix (l := text.reverse) fun c => !isLineEnd c
      rw [hwhole.eq_of_length hall]
      cases hbefore : before.reverse with
      | nil => simp
      | cons c rest =>
        have hc : c = '\n' := by
          apply h
          rw [← List.head?_reverse, hbefore, List.head?_cons]
        simp [hc, isLineEnd]
    · rfl
  simp only [placeAfter, lineEnds_append (h.between text), hlast]
  congr 1
  omega

end TextPlaces
