import Mathlib.Data.List.TakeWhile
import Mathlib.Tactic

/-!
# The string literals of C

The phases of translation that change a text before its tokens are read, trigraphs and the splicing of
lines, and the value of a string literal.
-/

namespace CLang

/-! ### Phases of translation -/

/-- The third characters of trigraphs, and what they stand for. -/
def trigraphs : List (Char × Char) :=
  [('=', '#'), ('(', '['), ('/', '\\'), (')', ']'), (Char.ofNat 39, '^'), ('<', Char.ofNat 123),
    ('!', '|'), ('>', Char.ofNat 125), ('-', '~')]

/-- What the trigraph stands for that a text starts with. -/
def trigraphAt : List Char → Option Char
  | a :: b :: c :: _ => if a = '?' ∧ b = '?' then trigraphs.lookup c else none
  | _ => none

/-- A trigraph starts somewhere in a text. -/
def HasTrigraph : List Char → Prop
  | [] => False
  | c :: text => (trigraphAt (c :: text)).isSome ∨ HasTrigraph text

instance decidableHasTrigraph : (text : List Char) → Decidable (HasTrigraph text)
  | [] => inferInstanceAs (Decidable False)
  | c :: text =>
    have := decidableHasTrigraph text
    inferInstanceAs (Decidable ((trigraphAt (c :: text)).isSome ∨ HasTrigraph text))

/-- Trigraphs are replaced, from left to right. -/
def replaceTrigraphs : List Char → List Char
  | [] => []
  | c :: text =>
    match trigraphAt (c :: text) with
    | some replacement => replacement :: replaceTrigraphs (text.drop 2)
    | none => c :: replaceTrigraphs text
termination_by text => text.length
decreasing_by all_goals simp; try omega

/-- A backslash at the end of a line is deleted with the end of the line. -/
def spliceLines : List Char → List Char
  | c :: d :: text =>
    if c = '\\' ∧ d = '\n' then spliceLines text else c :: spliceLines (d :: text)
  | text => text

/-- A text behind the first two phases. -/
def translatePhases (text : List Char) : List Char := spliceLines (replaceTrigraphs text)

/-! ### Escape sequences -/

/-- The characters that denote one character behind a backslash. -/
def simpleEscapes : List (Char × Char) :=
  [(Char.ofNat 39, Char.ofNat 39), ('"', '"'), ('?', '?'), ('\\', '\\'), ('a', Char.ofNat 7),
    ('b', Char.ofNat 8), ('f', Char.ofNat 12), ('n', '\n'), ('r', '\r'), ('t', '\t'),
    ('v', Char.ofNat 11)]

def isOctal (c : Char) : Bool := '0' ≤ c && c ≤ '7'

def isHex (c : Char) : Bool :=
  ('0' ≤ c && c ≤ '9') || ('a' ≤ c && c ≤ 'f') || ('A' ≤ c && c ≤ 'F')

/-- The value of a hexadecimal digit. -/
def hexValue (c : Char) : ℕ :=
  if c ≤ '9' then c.toNat - '0'.toNat
  else if c ≤ 'F' then c.toNat - 'A'.toNat + 10
  else c.toNat - 'a'.toNat + 10

/-- The value of some digits in a base. -/
def escapeValue (base : ℕ) (digits : List Char) : ℕ :=
  digits.foldl (fun value c => value * base + hexValue c) 0

/-- The bytes of a universal character name, which may not name a half of a surrogate pair, and of the
characters below 160 only the dollar sign, the at sign and the grave accent. -/
def universalBytes (code : ℕ) : Option (List Char) :=
  if (code < 160 ∧ code ∉ [36, 64, 96]) ∨ (0xD800 ≤ code ∧ code ≤ 0xDFFF) ∨ 0x110000 ≤ code then none
  else some ((String.utf8EncodeChar (Char.ofNat code)).map fun b => Char.ofNat b.toNat)

/-- The bytes of a universal character name of a number of digits, and what is behind it. -/
def readUniversal (count : ℕ) (text : List Char) : Option (List Char × List Char) :=
  if (text.take count).length = count ∧ (text.take count).all isHex then
    (universalBytes (escapeValue 16 (text.take count))).map fun bytes => (bytes, text.drop count)
  else none

/-- The byte of an escape sequence of digits, which is out of range from 256 on. -/
def numericEscape (base : ℕ) (digits text : List Char) : Option (List Char × List Char) :=
  if digits ≠ [] ∧ escapeValue base digits < 256 then
    some ([Char.ofNat (escapeValue base digits)], text.drop digits.length)
  else none

/-- The bytes of an escape sequence behind its backslash, and what is behind it. -/
def readEscape : List Char → Option (List Char × List Char)
  | [] => none
  | c :: text =>
    match simpleEscapes.lookup c with
    | some byte => some ([byte], text)
    | none =>
      if isOctal c then numericEscape 8 (((c :: text).take 3).takeWhile isOctal) (c :: text)
      else if c = 'x' then numericEscape 16 (text.takeWhile isHex) text
      else if c = 'u' then readUniversal 4 text
      else if c = 'U' then readUniversal 8 text
      else none

theorem exists_digits_of_numericEscape {base : ℕ} {digits text bytes rest : List Char}
    (h : numericEscape base digits text = some (bytes, rest)) :
    digits ≠ [] ∧ bytes.length = 1 ∧ rest = text.drop digits.length := by
  unfold numericEscape at h
  split_ifs at h with hdigits
  cases h
  exact ⟨hdigits.1, rfl, rfl⟩

theorem length_utf8EncodeChar_le (c : Char) : (String.utf8EncodeChar c).length ≤ 4 := by
  rw [String.length_utf8EncodeChar]
  exact Char.utf8Size_le_four c

theorem exists_digits_of_readUniversal {count : ℕ} {text bytes rest : List Char}
    (h : readUniversal count text = some (bytes, rest)) :
    (text.take count).length = count ∧ (∀ c ∈ text.take count, isHex c = true) ∧
      bytes.length ≤ 4 ∧ rest = text.drop count := by
  unfold readUniversal at h
  split_ifs at h with hdigits
  obtain ⟨bytes', hbytes, hpair⟩ := Option.map_eq_some_iff.mp h
  cases hpair
  refine ⟨hdigits.1, List.all_eq_true.mp hdigits.2, ?_, rfl⟩
  unfold universalBytes at hbytes
  split_ifs at hbytes
  cases hbytes
  rw [List.length_map]
  exact length_utf8EncodeChar_le _

/-- What an escape sequence is. -/
theorem readEscape_cases {text bytes rest : List Char} (h : readEscape text = some (bytes, rest)) :
    ∃ c behind, text = c :: behind ∧
      (bytes.length = 1 ∧ rest = behind ∨
        isOctal c = true ∧
          numericEscape 8 ((text.take 3).takeWhile isOctal) text = some (bytes, rest) ∨
        numericEscape 16 (behind.takeWhile isHex) behind = some (bytes, rest) ∨
        ∃ count, 4 ≤ count ∧ readUniversal count behind = some (bytes, rest)) := by
  cases text with
  | nil => cases h
  | cons c behind =>
    refine ⟨c, behind, rfl, ?_⟩
    simp only [readEscape] at h
    cases hlookup : simpleEscapes.lookup c with
    | some byte =>
      rw [hlookup] at h
      cases h
      exact Or.inl ⟨rfl, rfl⟩
    | none =>
      rw [hlookup] at h
      dsimp only at h
      split_ifs at h with hoctal
      · exact Or.inr (Or.inl ⟨hoctal, h⟩)
      · exact Or.inr (Or.inr (Or.inl h))
      · exact Or.inr (Or.inr (Or.inr ⟨4, by omega, h⟩))
      · exact Or.inr (Or.inr (Or.inr ⟨8, by omega, h⟩))

theorem length_readEscape {text bytes rest : List Char} (h : readEscape text = some (bytes, rest)) :
    rest.length ≤ text.length := by
  obtain ⟨c, behind, rfl, ⟨-, rfl⟩ | ⟨-, h⟩ | h | ⟨count, -, h⟩⟩ := readEscape_cases h
  · simp
  · rw [(exists_digits_of_numericEscape h).2.2, List.length_drop]
    omega
  · rw [(exists_digits_of_numericEscape h).2.2, List.length_drop, List.length_cons]
    omega
  · rw [(exists_digits_of_readUniversal h).2.2.2, List.length_drop, List.length_cons]
    omega

/-- The bytes of a string literal behind its first quote, and what is behind its last one. -/
def readChars : List Char → Option (List Char × List Char)
  | [] => none
  | c :: text =>
    if c = '"' then some ([], text)
    else if c = '\n' then none
    else if c = '\\' then
      match h : readEscape text with
      | some (bytes, rest) => (readChars rest).map fun r => (bytes ++ r.1, r.2)
      | none => none
    else (readChars text).map fun r => (c :: r.1, r.2)
termination_by text => text.length
decreasing_by
  · have := length_readEscape h
    simp only [List.length_cons]
    omega
  · simp

/-! ### Phases that change nothing -/

theorem spliceLines_of_not_mem {text : List Char} (h : '\n' ∉ text) : spliceLines text = text := by
  fun_induction spliceLines text with
  | case1 c d text hsplice ih => exact absurd (by simp [hsplice.2]) h
  | case2 c d text hsplice ih => rw [ih (List.not_mem_of_not_mem_cons h)]
  | case3 text hnot => rfl

/-! ### The first phase -/

theorem trigraphAt_of_ne {c : Char} (h : c ≠ '?') (text : List Char) :
    trigraphAt (c :: text) = none := by
  rcases text with _ | ⟨d, _ | ⟨e, text⟩⟩
  · rfl
  · rfl
  · simp [trigraphAt, h]

theorem trigraphAt_of_second_ne {d : Char} (h : d ≠ '?') (c : Char) (text : List Char) :
    trigraphAt (c :: d :: text) = none := by
  cases text with
  | nil => rfl
  | cons e text => simp [trigraphAt, h]

theorem trigraphAt_marks (c : Char) (text : List Char) :
    trigraphAt ('?' :: '?' :: c :: text) = trigraphs.lookup c := by
  simp [trigraphAt]

/-- A trigraph is three characters. -/
theorem exists_of_trigraphAt {c replacement : Char} {text : List Char}
    (h : trigraphAt (c :: text) = some replacement) :
    ∃ d rest, c = '?' ∧ text = '?' :: d :: rest ∧ trigraphs.lookup d = some replacement := by
  rcases text with _ | ⟨e, _ | ⟨d, rest⟩⟩
  · cases h
  · cases h
  · rw [trigraphAt] at h
    split_ifs at h with hmarks
    exact ⟨d, rest, hmarks.1, by rw [hmarks.2], h⟩

theorem mem_trigraphs_of_lookup {d replacement : Char} (h : trigraphs.lookup d = some replacement) :
    (d, replacement) ∈ trigraphs := by
  obtain ⟨before, after, hsplit, -⟩ := List.lookup_eq_some_iff.mp h
  rw [hsplit]
  simp

theorem replaceTrigraphs_of_trigraphAt {c replacement : Char} {text : List Char}
    (h : trigraphAt (c :: text) = some replacement) :
    replaceTrigraphs (c :: text) = replacement :: replaceTrigraphs (text.drop 2) := by
  rw [replaceTrigraphs, h]

theorem replaceTrigraphs_cons {c : Char} {text : List Char} (h : trigraphAt (c :: text) = none) :
    replaceTrigraphs (c :: text) = c :: replaceTrigraphs text := by
  rw [replaceTrigraphs, h]

/-- A text without a question mark is left as it is, and so is what is behind it. -/
theorem replaceTrigraphs_append {before : List Char} (h : '?' ∉ before) (text : List Char) :
    replaceTrigraphs (before ++ text) = before ++ replaceTrigraphs text := by
  induction before with
  | nil => rfl
  | cons c before ih =>
    rw [List.mem_cons, not_or] at h
    rw [List.cons_append, replaceTrigraphs_cons (trigraphAt_of_ne (Ne.symm h.1) _), ih h.2,
      List.cons_append]

theorem replaceTrigraphs_of_not_hasTrigraph {text : List Char} (h : ¬ HasTrigraph text) :
    replaceTrigraphs text = text := by
  induction text with
  | nil => rw [replaceTrigraphs]
  | cons c text ih =>
    rw [HasTrigraph, not_or, Option.not_isSome_iff_eq_none] at h
    rw [replaceTrigraphs_cons h.1, ih h.2]

theorem newline_not_mem_replaceTrigraphs {text : List Char} (h : '\n' ∉ text) :
    '\n' ∉ replaceTrigraphs text := by
  fun_induction replaceTrigraphs text with
  | case1 => exact List.not_mem_nil
  | case2 c text replacement hat ih =>
    obtain ⟨d, rest, -, rfl, hd⟩ := exists_of_trigraphAt hat
    have hne : '\n' ≠ replacement := by
      rintro rfl
      simpa [trigraphs] using mem_trigraphs_of_lookup hd
    simp only [List.mem_cons, not_or] at h ⊢
    exact ⟨hne, ih h.2.2.2⟩
  | case3 c text hat ih =>
    simp only [List.mem_cons, not_or] at h ⊢
    exact ⟨h.1, ih h.2⟩

/-- The first two phases behind a text that they leave as it is. -/
theorem translatePhases_append {before text : List Char} (hmark : '?' ∉ before)
    (hbefore : '\n' ∉ before) (htext : '\n' ∉ text) :
    translatePhases (before ++ text) = before ++ replaceTrigraphs text := by
  rw [translatePhases, replaceTrigraphs_append hmark, spliceLines_of_not_mem]
  simp [hbefore, newline_not_mem_replaceTrigraphs htext]

/-! ### Characters and escape sequences -/

/-- The number of characters and escape sequences of a text, where an escape sequence is a backslash with
one character. -/
def units : List Char → ℕ
  | [] => 0
  | [_] => 1
  | c :: d :: text => if c = '\\' then units text + 1 else units (d :: text) + 1

theorem units_cons_of_ne {c : Char} (h : c ≠ '\\') (text : List Char) :
    units (c :: text) = units text + 1 := by
  cases text with
  | nil => rfl
  | cons d text => rw [units, if_neg h]

theorem units_escape (c : Char) (text : List Char) : units ('\\' :: c :: text) = units text + 1 := by
  rw [units, if_pos rfl]

/-- One more character in front is at most one unit more, and no unit less. -/
theorem units_cons_bounds (c : Char) (text : List Char) :
    units text ≤ units (c :: text) ∧ units (c :: text) ≤ units text + 1 := by
  induction hn : text.length generalizing c text with
  | zero =>
    rw [List.length_eq_zero_iff.mp hn]
    simp [units]
  | succ n ih =>
    obtain ⟨d, text, rfl⟩ := List.exists_cons_of_length_eq_add_one hn
    have hlen : text.length = n := by simpa using hn
    obtain ⟨hle, hge⟩ := ih d text hlen
    by_cases hc : c = '\\'
    · rw [hc, units_escape]
      omega
    · rw [units_cons_of_ne hc]
      omega

theorem units_append_le (text text' : List Char) :
    units (text ++ text') ≤ units text + units text' := by
  fun_induction units text with
  | case1 => simp
  | case2 c =>
    have h := (units_cons_bounds c text').2
    simp only [List.singleton_append]
    omega
  | case3 d text ih =>
    rw [List.cons_append, List.cons_append, units_escape]
    omega
  | case4 c d text hc ih =>
    rw [List.cons_append, units_cons_of_ne hc]
    omega

theorem units_drop {text : List Char} {count : ℕ} (h : ∀ c ∈ text.take count, c ≠ '\\') :
    units (text.drop count) + (text.take count).length = units text := by
  induction text generalizing count with
  | nil => simp [units]
  | cons c text ih =>
    cases count with
    | zero => simp
    | succ count =>
      rw [List.take_succ_cons, List.forall_mem_cons] at h
      have hrest := ih h.2
      rw [List.drop_succ_cons, List.take_succ_cons, List.length_cons, units_cons_of_ne h.1]
      omega

theorem ne_backslash_of_isHex {c : Char} (h : isHex c = true) : c ≠ '\\' := by
  rintro rfl
  revert h
  decide

theorem ne_backslash_of_isOctal {c : Char} (h : isOctal c = true) : c ≠ '\\' := by
  rintro rfl
  revert h
  decide

/-- Digits at the start of a text are as many units. -/
theorem units_drop_digits {digits text : List Char} (hstart : digits <+: text)
    (hdigits : ∀ c ∈ digits, c ≠ '\\') :
    units (text.drop digits.length) + digits.length = units text := by
  have htake : text.take digits.length = digits := (List.prefix_iff_eq_take.mp hstart).symm
  have h := @units_drop text digits.length (by rwa [htake])
  rwa [htake] at h

/-- An escape sequence has no more bytes than units. -/
theorem units_readEscape {text bytes rest : List Char} (h : readEscape text = some (bytes, rest)) :
    bytes.length + units rest ≤ units ('\\' :: text) := by
  obtain ⟨c, behind, rfl, ⟨hlen, rfl⟩ | ⟨hoctal, h⟩ | h | ⟨count, hfour, h⟩⟩ := readEscape_cases h
  all_goals rw [units_escape]
  · omega
  · obtain ⟨hne, hlen, rfl⟩ := exists_digits_of_numericEscape h
    have hpos := List.length_pos_iff.mpr hne
    have hdrop := units_drop_digits
      ((List.takeWhile_prefix isOctal).trans (List.take_prefix 3 (c :: behind)))
      fun d hd => ne_backslash_of_isOctal (List.mem_takeWhile_imp hd)
    rw [units_cons_of_ne (ne_backslash_of_isOctal hoctal)] at hdrop
    omega
  · obtain ⟨hne, hlen, rfl⟩ := exists_digits_of_numericEscape h
    have hpos := List.length_pos_iff.mpr hne
    have hdrop := units_drop_digits (List.takeWhile_prefix isHex)
      fun d hd => ne_backslash_of_isHex (@List.mem_takeWhile_imp _ isHex behind d hd)
    omega
  · obtain ⟨hcount, hhex, hlen, rfl⟩ := exists_digits_of_readUniversal h
    have hdrop := units_drop fun d hd => ne_backslash_of_isHex (hhex d hd)
    omega

/-- The bytes of a string literal are fewer than its units with its last quote. -/
theorem units_readChars {text bytes rest : List Char} (h : readChars text = some (bytes, rest)) :
    bytes.length + 1 + units rest ≤ units text := by
  induction hn : text.length using Nat.strong_induction_on generalizing text bytes rest with
  | _ n ih =>
  cases text with
  | nil =>
    rw [readChars] at h
    cases h
  | cons c text =>
    rw [readChars] at h
    split_ifs at h with hquote hline hescape
    · cases h
      rw [units_cons_of_ne (by rw [hquote]; decide)]
      simp only [List.length_nil]
      omega
    · split at h
      · rename_i bytes' rest' hread
        obtain ⟨r, hr, hpair⟩ := Option.map_eq_some_iff.mp h
        cases hpair
        have hlen := length_readEscape hread
        have hinner := ih rest'.length (by simp at hn; omega) hr rfl
        have hunits := units_readEscape hread
        rw [hescape, List.length_append]
        omega
      · cases h
    · obtain ⟨r, hr, hpair⟩ := Option.map_eq_some_iff.mp h
      cases hpair
      have hinner := ih text.length (by simp at hn; omega) hr rfl
      rw [units_cons_of_ne hescape, List.length_cons]
      omega

/-- A trigraph is three units. -/
theorem units_of_trigraphAt {c replacement : Char} {text : List Char}
    (h : trigraphAt (c :: text) = some replacement) :
    units (c :: text) = units text + 1 ∧ units text = units (text.drop 2) + 2 := by
  obtain ⟨d, rest, rfl, rfl, hd⟩ := exists_of_trigraphAt h
  have hd : d ≠ '\\' := by
    rintro rfl
    simpa [trigraphs] using mem_trigraphs_of_lookup hd
  have hmark : '?' ≠ '\\' := by decide
  rw [units_cons_of_ne hmark, units_cons_of_ne hmark, units_cons_of_ne hd]
  exact ⟨rfl, rfl⟩

/-- A trigraph is replaced by fewer units than it has, also behind a backslash. -/
theorem units_replaceTrigraphs (text : List Char) :
    units (replaceTrigraphs text) ≤ units text ∧
      (HasTrigraph text → units (replaceTrigraphs text) < units text) := by
  induction hn : text.length using Nat.strong_induction_on generalizing text with
  | _ n ih =>
  cases text with
  | nil => simp [replaceTrigraphs, HasTrigraph]
  | cons c text =>
    cases hat : trigraphAt (c :: text) with
    | some replacement =>
      have hunits := units_of_trigraphAt hat
      have hle := (ih (text.drop 2).length (by simp at hn ⊢; omega) _ rfl).1
      have := (units_cons_bounds replacement (replaceTrigraphs (text.drop 2))).2
      rw [replaceTrigraphs_of_trigraphAt hat]
      omega
    | none =>
      rw [replaceTrigraphs_cons hat, HasTrigraph, hat, Option.isSome_none]
      by_cases hc : c = '\\'
      swap
      · have hrest := ih text.length (by simp at hn; omega) text rfl
        rw [units_cons_of_ne hc, units_cons_of_ne hc]
        simpa using hrest
      subst hc
      cases text with
      | nil => simp [replaceTrigraphs, HasTrigraph]
      | cons d text =>
        rw [units_escape]
        cases hat : trigraphAt (d :: text) with
        | some replacement =>
          have hunits := units_of_trigraphAt hat
          have hle := (ih (text.drop 2).length (by simp at hn ⊢; omega) _ rfl).1
          rw [replaceTrigraphs_of_trigraphAt hat, units_escape]
          omega
        | none =>
          have hrest := ih text.length (by simp at hn; omega) text rfl
          rw [replaceTrigraphs_cons hat, units_escape, HasTrigraph, hat, Option.isSome_none]
          simpa using hrest

/-! ### Carriage returns -/

theorem count_drop_of_not_mem {text : List Char} {count : ℕ} {c : Char} (h : c ∉ text.take count) :
    (text.drop count).count c = text.count c := by
  conv_rhs => rw [← List.take_append_drop count text, List.count_append,
    List.count_eq_zero_of_not_mem h, Nat.zero_add]

theorem count_drop_digits {digits text : List Char} {c : Char} (hstart : digits <+: text)
    (h : c ∉ digits) :
    (text.drop digits.length).count c = text.count c := by
  apply count_drop_of_not_mem
  rwa [← List.prefix_iff_eq_take.mp hstart]

/-- A carriage return is in no escape sequence. -/
theorem count_readEscape {text bytes rest : List Char} (h : readEscape text = some (bytes, rest)) :
    text.count '\r' = rest.count '\r' := by
  have hhex : ∀ c, isHex c = true → c ≠ '\r' := by
    rintro c hc rfl
    revert hc
    decide
  have hoctal : ∀ c, isOctal c = true → c ≠ '\r' := by
    rintro c hc rfl
    revert hc
    decide
  cases text with
  | nil => cases h
  | cons c behind =>
    simp only [readEscape] at h
    have huniversal : ∀ count, readUniversal count behind = some (bytes, rest) →
        behind.count '\r' = rest.count '\r' := by
      intro count hread
      obtain ⟨-, hdigits, -, rfl⟩ := exists_digits_of_readUniversal hread
      exact (count_drop_of_not_mem fun hmem => hhex _ (hdigits _ hmem) rfl).symm
    cases hlookup : simpleEscapes.lookup c with
    | some byte =>
      rw [hlookup] at h
      cases h
      apply List.count_cons_of_ne
      rintro rfl
      cases hlookup
    | none =>
      rw [hlookup] at h
      dsimp only at h
      split_ifs at h with hc hx hu hU
      · obtain ⟨-, -, rfl⟩ := exists_digits_of_numericEscape h
        apply (count_drop_digits ?_ ?_).symm
        · exact (List.takeWhile_prefix isOctal).trans (List.take_prefix 3 (c :: behind))
        · exact fun hmem => hoctal _ (List.mem_takeWhile_imp hmem) rfl
      · obtain ⟨-, -, rfl⟩ := exists_digits_of_numericEscape h
        rw [List.count_cons_of_ne (by rw [hx]; decide)]
        apply (count_drop_digits (List.takeWhile_prefix isHex) ?_).symm
        exact fun hmem => hhex _ (List.mem_takeWhile_imp hmem) rfl
      · rw [List.count_cons_of_ne (by rw [hu]; decide)]
        exact huniversal 4 h
      · rw [List.count_cons_of_ne (by rw [hU]; decide)]
        exact huniversal 8 h

/-- The carriage returns of a literal are in its bytes or behind it. -/
theorem count_readChars {text bytes rest : List Char} (h : readChars text = some (bytes, rest)) :
    text.count '\r' ≤ bytes.count '\r' + rest.count '\r' := by
  induction hn : text.length using Nat.strong_induction_on generalizing text bytes rest with
  | _ n ih =>
  cases text with
  | nil =>
    rw [readChars] at h
    cases h
  | cons c text =>
    rw [readChars] at h
    split_ifs at h with hquote hline hescape
    · cases h
      rw [List.count_cons_of_ne (by rw [hquote]; decide)]
      omega
    · split at h
      · rename_i bytes' rest' hread
        obtain ⟨r, hr, hpair⟩ := Option.map_eq_some_iff.mp h
        cases hpair
        have hlen := length_readEscape hread
        have hinner := ih rest'.length (by simp at hn; omega) hr rfl
        rw [List.count_cons_of_ne (by rw [hescape]; decide), count_readEscape hread, List.count_append]
        omega
      · cases h
    · obtain ⟨r, hr, hpair⟩ := Option.map_eq_some_iff.mp h
      cases hpair
      have hinner := ih text.length (by simp at hn; omega) hr rfl
      rw [List.count_cons, List.count_cons]
      omega

/-! ### Plain characters -/

theorem readChars_quote (text : List Char) : readChars ('"' :: text) = some ([], text) := by
  rw [readChars, if_pos rfl]

theorem readChars_plain {c : Char} (hquote : c ≠ '"') (hline : c ≠ '\n') (hescape : c ≠ '\\')
    (text : List Char) :
    readChars (c :: text) = (readChars text).map fun r => (c :: r.1, r.2) := by
  rw [readChars, if_neg hquote, if_neg hline, if_neg hescape]

theorem readChars_escape {c byte : Char} (h : simpleEscapes.lookup c = some byte)
    (text : List Char) :
    readChars ('\\' :: c :: text) = (readChars text).map fun r => (byte :: r.1, r.2) := by
  have hread : readEscape (c :: text) = some ([byte], text) := by
    rw [readEscape, h]
  rw [readChars, if_neg (by decide), if_neg (by decide), if_pos rfl]
  split
  · rename_i bytes rest hread'
    rw [hread] at hread'
    cases hread'
    rfl
  · rename_i hread'
    rw [hread] at hread'
    cases hread'

end CLang
