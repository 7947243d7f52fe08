import Caster.Driver.Scan
import Caster.Lex.Lexer
import Caster.Library.CStrings

/-!
# String literals

The C text of string literals, of keys and of the field prefixes of JSON, and the bytes that a C
compiler reads from it.
-/

namespace Caster

open CLang
open Driver (Text isIdentChar)

/-! ### The text -/

/-- What `c_escape` prints for a byte. -/
def escapePiece (c : Char) : Text :=
  if c = '"' then ['\\', '"']
  else if c = '\\' then ['\\', '\\']
  else if c = '\n' then ['\\', 'n']
  else if c = '\t' then ['\\', 't']
  else [c]

/-- The C string literal of a text. -/
def cEscape (text : Text) : Text := ['"'] ++ text.flatMap escapePiece ++ ['"']

/-- The text in front of the literal of a string. -/
def strLitOpening : Text := "flx_str_lit(".toList

/-- The text behind the literal of a string: its length. -/
def strLitClosing (length : ℕ) : Text := [',', ' '] ++ Nat.toDigits 10 length ++ [')']

/-- The C expression of a key, and of a string literal of the language. -/
def emitKeyLiteral (key : Text) : Text := strLitOpening ++ cEscape key ++ strLitClosing key.length

/-- The C string literal that `json_field_prefix_literal` prints for the name of a field. -/
def jsonFieldPrefixLiteral (name : Text) : Text := cEscape (['"'] ++ name ++ ['"', ':'])

/-! ### Its meaning -/

/-- A C string literal denotes some bytes. -/
def LiteralDenotes (code bytes : Text) : Prop :=
  ∃ chars, translatePhases code = '"' :: chars ∧ readChars chars = some (bytes, [])

/-- The C expression of a string denotes some bytes, with their number as its length. -/
def StrLitDenotes (code bytes : Text) : Prop :=
  ∃ chars, translatePhases code = strLitOpening ++ '"' :: chars ∧
    readChars chars = some (bytes, strLitClosing bytes.length)

/-! ### Trigraphs in the text -/

/-- The literal of a text behind the first phase of translation, without its last quote. -/
def convertedPieces : Text → Text
  | [] => []
  | c :: text =>
    match trigraphAt (c :: text) with
    | some replacement => replacement :: convertedPieces (text.drop 2)
    | none => escapePiece c ++ convertedPieces text
termination_by text => text.length
decreasing_by all_goals simp; try omega

/-- A byte is printed as it is, or as an escape sequence, and then no trigraph has the byte in it. -/
theorem escapePiece_cases (c : Char) :
  escapePiece c = [c] ∧ c ≠ '"' ∧ c ≠ '\\' ∧ c ≠ '\n' ∨
    ∃ d, escapePiece c = ['\\', d] ∧ simpleEscapes.lookup d = some c ∧ d ≠ '\n' ∧ d ≠ '?' ∧
      c ≠ '?' ∧ trigraphs.lookup c = none
  := by
  unfold escapePiece
  split_ifs with h₁ h₂ h₃ h₄
  · subst h₁
    exact Or.inr ⟨'"', rfl, by decide⟩
  · subst h₂
    exact Or.inr ⟨'\\', rfl, by decide⟩
  · subst h₃
    exact Or.inr ⟨'n', rfl, by decide⟩
  · subst h₄
    exact Or.inr ⟨'t', rfl, by decide⟩
  · exact Or.inl ⟨rfl, h₁, h₂, h₃⟩

/-- The pieces of a text start with a trigraph when the text does. -/
theorem trigraphAt_pieces (text after : Text) :
  trigraphAt (text.flatMap escapePiece ++ '"' :: after) = trigraphAt text
  := by
  rcases text with _ | ⟨c, text⟩
  · exact trigraphAt_of_ne (by decide) after
  rw [List.flatMap_cons]
  rcases escapePiece_cases c with ⟨hc, -⟩ | ⟨d, hc, -, -, -, hne, -⟩
  swap
  · rw [hc, trigraphAt_of_ne hne]
    exact trigraphAt_of_ne (by decide) _
  rw [hc]
  by_cases hmark : c = '?'
  swap
  · rw [trigraphAt_of_ne hmark]
    exact trigraphAt_of_ne hmark _
  subst hmark
  rcases text with _ | ⟨d, text⟩
  · exact trigraphAt_of_second_ne (by decide) _ after
  rw [List.flatMap_cons]
  rcases escapePiece_cases d with ⟨hd, -⟩ | ⟨e, hd, -, -, -, hne, -⟩
  swap
  · rw [hd, trigraphAt_of_second_ne hne]
    exact trigraphAt_of_second_ne (by decide) _ _
  rw [hd]
  by_cases hmark : d = '?'
  swap
  · rw [trigraphAt_of_second_ne hmark]
    exact trigraphAt_of_second_ne hmark _ _
  subst hmark
  rcases text with _ | ⟨e, text⟩
  · exact trigraphAt_marks '"' after
  rw [List.flatMap_cons, trigraphAt_marks]
  rcases escapePiece_cases e with ⟨he, -⟩ | ⟨f, he, -, -, -, -, hnone⟩
  · rw [he]
    exact trigraphAt_marks e _
  · rw [he, hnone]
    exact trigraphAt_marks '\\' _

/-- The first phase of translation on the pieces of a text. -/
theorem replaceTrigraphs_pieces (text : Text) {after : Text} (hafter : '?' ∉ after) :
  replaceTrigraphs (text.flatMap escapePiece ++ '"' :: after) = convertedPieces text ++ '"' :: after
  := by
  fun_induction convertedPieces text with
  | case1 =>
    have hmark : '?' ∉ '"' :: after := by simpa using hafter
    have hplain := replaceTrigraphs_append hmark []
    rwa [replaceTrigraphs, List.append_nil] at hplain
  | case2 c text replacement hat ih =>
    have hpieces := trigraphAt_pieces (c :: text) after
    obtain ⟨d, rest, rfl, rfl, hd⟩ := exists_of_trigraphAt hat
    have hpiece : escapePiece d = [d] := by
      rcases escapePiece_cases d with ⟨hpiece, -⟩ | ⟨e, -, -, -, -, -, hnone⟩
      · exact hpiece
      · rw [hnone] at hd
        cases hd
    have hmark : escapePiece '?' = ['?'] := by decide
    simp only [List.flatMap_cons, hpiece, hmark, List.cons_append, hat] at hpieces ⊢
    rw [replaceTrigraphs_of_trigraphAt hpieces]
    exact congrArg (replacement :: ·) ih
  | case3 c text hat ih =>
    have hpieces := trigraphAt_pieces (c :: text) after
    rw [hat] at hpieces
    rw [List.flatMap_cons] at hpieces ⊢
    rcases escapePiece_cases c with ⟨hc, -⟩ | ⟨d, hc, -, -, hne, -, -⟩
    · rw [hc, List.append_assoc, List.singleton_append] at hpieces ⊢
      rw [replaceTrigraphs_cons hpieces, ih, List.append_assoc, List.singleton_append]
    · rw [hc, List.append_assoc] at hpieces ⊢
      simp only [List.cons_append, List.nil_append] at hpieces ⊢
      rw [replaceTrigraphs_cons hpieces, replaceTrigraphs_cons (trigraphAt_of_ne hne _), ih]

theorem convertedPieces_of_not_hasTrigraph {text : Text} (h : ¬ HasTrigraph text) :
  convertedPieces text = text.flatMap escapePiece
  := by
  induction text with
  | nil => rw [convertedPieces, List.flatMap_nil]
  | cons c text ih =>
    rw [HasTrigraph, not_or, Option.not_isSome_iff_eq_none] at h
    rw [convertedPieces, h.1, List.flatMap_cons, ← ih h.2]

theorem newline_not_mem_escapePiece (c : Char) : '\n' ∉ escapePiece c := by
  rcases escapePiece_cases c with ⟨hc, -, -, hne⟩ | ⟨d, hc, -, hne, -⟩
  · rw [hc, List.mem_singleton]
    exact Ne.symm hne
  · rw [hc]
    simp [Ne.symm hne]

/-- What is printed for a byte is one unit. -/
theorem units_escapePiece_append (c : Char) (after : Text) :
  units (escapePiece c ++ after) = units after + 1
  := by
  rcases escapePiece_cases c with ⟨hc, -, hne, -⟩ | ⟨d, hc, -⟩
  · rw [hc, List.singleton_append, units_cons_of_ne hne]
  · rw [hc]
    exact units_escape d after

/-- A trigraph in a text is read as fewer characters than it has. -/
theorem units_convertedPieces (text : Text) :
  units (convertedPieces text) ≤ text.length ∧
    (HasTrigraph text → units (convertedPieces text) < text.length)
  := by
  fun_induction convertedPieces text with
  | case1 => exact ⟨le_refl 0, False.elim⟩
  | case2 c text replacement hat ih =>
    obtain ⟨d, rest, -, rfl, -⟩ := exists_of_trigraphAt hat
    have hle := (units_cons_bounds replacement (convertedPieces rest)).2
    have hrest := ih.1
    simp only [List.drop_succ_cons, List.drop_zero, List.length_cons] at hrest ⊢
    constructor
    · omega
    · intro _
      omega
  | case3 c text hat ih =>
    rw [units_escapePiece_append, List.length_cons]
    refine ⟨by omega, ?_⟩
    rintro (hat' | hrest)
    · rw [hat] at hat'
      cases hat'
    · have := ih.2 hrest
      omega

/-! ### Reading the text -/

/-- What is printed for a byte is read as the byte. -/
theorem readChars_escapePiece (c : Char) (after : Text) :
  readChars (escapePiece c ++ after) = (readChars after).map fun r => (c :: r.1, r.2)
  := by
  rcases escapePiece_cases c with ⟨hc, hquote, hescape, hline⟩ | ⟨d, hc, hlookup, -⟩
  · rw [hc, List.singleton_append, readChars_plain hquote hline hescape]
  · rw [hc]
    exact readChars_escape hlookup after

theorem readChars_pieces (text after : Text) :
  readChars (text.flatMap escapePiece ++ '"' :: after) = some (text, after)
  := by
  induction text with
  | nil => exact readChars_quote after
  | cons c text ih =>
    rw [List.flatMap_cons, List.append_assoc, readChars_escapePiece, ih]
    rfl

/-- The first two phases of translation on a string literal between two texts. -/
theorem translate_cEscape (text : Text) {before after : Text} (hbefore : '?' ∉ before)
    (hbefore' : '\n' ∉ before) (hafter : '?' ∉ after) (hafter' : '\n' ∉ after) :
  translatePhases (before ++ cEscape text ++ after) =
    before ++ '"' :: (convertedPieces text ++ '"' :: after)
  := by
  have hcode : before ++ cEscape text ++ after =
      before ++ '"' :: (text.flatMap escapePiece ++ '"' :: after) := by
    simp [cEscape]
  have hpieces : '\n' ∉ text.flatMap escapePiece := by
    simp [newline_not_mem_escapePiece]
  rw [hcode, translatePhases_append hbefore hbefore' (by simp [hafter', hpieces]),
    replaceTrigraphs_cons (trigraphAt_of_ne (by decide) _), replaceTrigraphs_pieces text hafter]

theorem strLitClosing_plain (length : ℕ) :
  '?' ∉ strLitClosing length ∧ '\n' ∉ strLitClosing length
  := by
  have hdigits : ∀ c ∈ Nat.toDigits 10 length, c.isDigit = true := fun c hc =>
    Nat.isDigit_of_mem_toDigits (by decide) (by decide) hc
  constructor
  all_goals
    intro hmem
    simp only [strLitClosing, List.mem_append, List.mem_cons, List.not_mem_nil, or_false] at hmem
    rcases hmem with (hmem | hmem) | hmem
    · revert hmem
      decide
    · exact absurd (hdigits _ hmem) (by decide)
    · revert hmem
      decide

/-- The C expression of a string denotes the string exactly when the string has no trigraph. -/
theorem emitKeyLiteral_denotes_iff (text : Text) :
  StrLitDenotes (emitKeyLiteral text) text ↔ ¬ HasTrigraph text
  := by
  have hclosing := strLitClosing_plain text.length
  have htranslate := @translate_cEscape text strLitOpening (strLitClosing text.length) (by decide)
    (by decide) hclosing.1 hclosing.2
  constructor
  · rintro ⟨chars, hchars, hread⟩ htrigraph
    rw [emitKeyLiteral, htranslate] at hchars
    obtain rfl := (List.cons_inj_right _).mp (List.append_cancel_left hchars)
    have hunits := units_readChars hread
    have hle := units_append_le (convertedPieces text) ('"' :: strLitClosing text.length)
    have hlt := (units_convertedPieces text).2 htrigraph
    rw [units_cons_of_ne (by decide)] at hle
    omega
  · intro htrigraph
    refine ⟨_, htranslate, ?_⟩
    rw [convertedPieces_of_not_hasTrigraph htrigraph]
    exact readChars_pieces text _

theorem literalDenotes_cEscape {text : Text} (h : ¬ HasTrigraph text) :
  LiteralDenotes (cEscape text) text
  := by
  have htranslate := @translate_cEscape text [] [] (by simp) (by simp) (by simp) (by simp)
  rw [List.nil_append, List.append_nil] at htranslate
  refine ⟨_, htranslate, ?_⟩
  rw [convertedPieces_of_not_hasTrigraph h]
  exact readChars_pieces text _

theorem not_hasTrigraph_of_not_mem {text : Text} (h : '?' ∉ text) : ¬ HasTrigraph text := by
  induction text with
  | nil => exact id
  | cons c text ih =>
    rw [List.mem_cons, not_or] at h
    rw [HasTrigraph, trigraphAt_of_ne (Ne.symm h.1)]
    simp [ih h.2]

end Caster
