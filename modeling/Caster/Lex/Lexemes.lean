import Caster.Lex.ModuleTokens
import Caster.Parse.Printing

/-!
# Tokens without their places

The tokens the lexer makes of a text that is written word by word, up to their places.
-/

namespace Caster.Lex

open Driver TextPlaces
open Parse (Token Lexeme TokenKind)

variable {s : LexState} {lexemes : List Lexeme}

/-- From a state the lexer reads a text to its end, into given tokens. -/
def LexesTo (s : LexState) (text : Text) (lexemes : List Lexeme) : Prop :=
  ∃ pieces last, lexer.scan s text = .ok (pieces, last) ∧
    (pieces.filterMap Piece.output).map Token.lexeme = lexemes

theorem lexesTo_nil (s : LexState) : LexesTo s [] [] := ⟨[], s, rfl, rfl⟩

theorem LexesTo.step {s' : LexState} {c : Char} {rest rest' : Text} {tok : Token}
    (hstep : lexStep s c rest = .ok (some tok, s', rest')) (h : LexesTo s' rest' lexemes) :
  LexesTo s (c :: rest) (tok.lexeme :: lexemes)
  := by
  obtain ⟨pieces, last, hscan, rfl⟩ := h
  have hstep' : lexer.step s c rest = .ok (some tok, s', rest') := hstep
  refine ⟨⟨(c :: rest).take ((c :: rest).length - rest'.length), some tok⟩ :: pieces, last, ?_, rfl⟩
  rw [lexer.scan_cons, hstep']
  simp only [hscan]

/-- The tokens of a source, and the one that ends them. -/
theorem LexesTo.lexSource {src : Text} (h : LexesTo .start src lexemes) :
  ∃ tokens, lexSource src = .ok tokens ∧ tokens.map Token.lexeme = lexemes ++ [⟨.EOF, ""⟩]
  := by
  obtain ⟨pieces, last, hscan, rfl⟩ := h
  refine ⟨pieces.filterMap Piece.output ++ [last.token .EOF []], ?_, ?_⟩
  · rw [Lex.lexSource, lexPieces, hscan]
    rfl
  · rw [List.map_append]
    rfl

/-! ### Numbers -/

/-- No fraction and no exponent follows the digits of an integer, and no more digits. -/
def EndsDigits (rest : Text) : Prop :=
  rest.head?.any Char.isDigit = false ∧ fraction rest = [] ∧ exponentMark rest = []

theorem LexState.chars_nil (s : LexState) : s.chars [] = s := rfl

theorem LexesTo.integer {digits rest : Text} (hne : digits ≠ [])
    (hdigits : ∀ d ∈ digits, d.isDigit = true) (hends : EndsDigits rest)
    (h : LexesTo (s.chars digits) rest lexemes) :
  LexesTo s (digits ++ rest) (⟨.INT_LITERAL, String.ofList digits⟩ :: lexemes)
  := by
  obtain ⟨hdigit, hfrac, hmark⟩ := hends
  have hnumber : lexNumber s (digits ++ rest) =
      .ok (.INT_LITERAL, digits, s.chars digits, rest) := by
    have hparts := @lexNumber_parts digits [] rest hdigits hdigit hfrac s
    rw [if_pos hmark, if_pos rfl, List.append_nil, LexState.chars_nil] at hparts
    exact hparts
  obtain ⟨d, digits, rfl⟩ := List.exists_cons_of_ne_nil hne
  rw [List.cons_append] at hnumber
  have hstep := lexStep_digit (hdigits d List.mem_cons_self) s (digits ++ rest)
  rw [hnumber] at hstep
  exact LexesTo.step hstep h

/-- Digits that stand on both sides of a dot are read at once. -/
theorem LexesTo.fraction {digits digits' rest : Text} (hne : digits ≠ [])
    (hdigits : ∀ d ∈ digits, d.isDigit = true) (hne' : digits' ≠ [])
    (hdigits' : ∀ d ∈ digits', d.isDigit = true) (hdigit : rest.head?.any Char.isDigit = false)
    (hmark : exponentMark rest = [])
    (h : LexesTo ((s.chars digits).chars ('.' :: digits')) rest lexemes) :
  LexesTo s (digits ++ '.' :: (digits' ++ rest))
    (⟨.FLT_LITERAL, String.ofList (digits ++ '.' :: digits')⟩ :: lexemes)
  := by
  have hfrac : Lex.fraction ('.' :: digits' ++ rest) = '.' :: digits' := by
    obtain ⟨d, digits', rfl⟩ := List.exists_cons_of_ne_nil hne'
    have htake := (takeWhile_append_eq hdigits' hdigit).1
    have hd : d.isDigit = true := hdigits' d List.mem_cons_self
    rw [List.cons_append] at htake
    simp only [List.cons_append, Lex.fraction, hd, if_true, htake]
  have hnumber : lexNumber s (digits ++ ('.' :: digits' ++ rest)) =
      .ok (.FLT_LITERAL, digits ++ '.' :: digits', (s.chars digits).chars ('.' :: digits'), rest) := by
    have hparts := lexNumber_parts hdigits rfl hfrac s
    rw [if_pos hmark, if_neg (List.cons_ne_nil _ _)] at hparts
    exact hparts
  obtain ⟨d, digits, rfl⟩ := List.exists_cons_of_ne_nil hne
  have hstep := lexStep_digit (hdigits d List.mem_cons_self) s (digits ++ '.' :: (digits' ++ rest))
  rw [List.cons_append, List.cons_append] at hnumber
  rw [hnumber] at hstep
  exact LexesTo.step hstep h

theorem lexNumber_integer {s s' : LexState} {text out rest : Text}
    (h : lexNumber s text = .ok (.INT_LITERAL, out, s', rest)) :
  ∀ d ∈ out, d.isDigit = true
  := by
  simp only [lexNumber] at h
  split_ifs at h with hmark hfrac
  · simp only [Except.ok.injEq, Prod.mk.injEq, hfrac, List.append_nil] at h
    rw [← h.2.1]
    exact fun d hd => List.mem_takeWhile_imp hd
  · simp at h
  · simp at h

/-- An integer is a text of digits. -/
theorem lexStep_integer {s s' : LexState} {c : Char} {rest rest' : Text} {tok : Token}
    (h : lexStep s c rest = .ok (some tok, s', rest')) (hkind : tok.kind = .INT_LITERAL) :
  ∀ d ∈ tok.text.toList, d.isDigit = true
  := by
  unfold lexStep at h
  split_ifs at h with hblank hend hline hblock hquote hraw hdigit hident hmark
  · cases h
  · cases h
    cases hkind
  · cases h
  · split at h <;> cases h
  · split at h <;> cases h
    cases hkind
  · split at h <;> cases h
    cases hkind
  · split at h
    · cases h
    · rename_i kind text s₁ rest₁ hnumber
      cases h
      obtain rfl : kind = .INT_LITERAL := hkind
      simp only [LexState.token, String.toList_ofList]
      exact lexNumber_integer hnumber
  · cases h
    cases hkind
  · cases h
    exfalso
    rcases keywordKind_mem (String.ofList ((c :: rest).takeWhile isIdentChar)) with hname | hmem
    · simp [LexState.token, hname] at hkind
    · have hkind' : keywordKind (String.ofList ((c :: rest).takeWhile isIdentChar)) = .INT_LITERAL := hkind
      rw [hkind'] at hmem
      revert hmem
      decide
  · split at h
    · cases h
    · rename_i hsign
      cases h
      have hkind' := (lexSign_kind_sign hsign).1
      simp only [LexState.token] at hkind
      rw [hkind] at hkind'
      cases hkind'

/-! ### Words and signs -/

theorem LexesTo.word {c : Char} {word rest : Text} (hc : isIdentStart c = true)
    (hword : ∀ d ∈ word, isIdentChar d = true)
    (hmark : isShapeMark s.before c (word ++ rest) = false)
    (hrest : rest.head?.any isIdentChar = false) (h : LexesTo (s.chars (c :: word)) rest lexemes) :
  LexesTo s (c :: word ++ rest)
    (⟨keywordKind (String.ofList (c :: word)), String.ofList (c :: word)⟩ :: lexemes)
  := by
  have hchars : ∀ d ∈ c :: word, isIdentChar d = true := by
    intro d hd
    rcases List.mem_cons.mp hd with rfl | hd
    · exact isIdentChar_of_isIdentStart hc
    · exact hword d hd
  obtain ⟨htake, hdrop⟩ := takeWhile_append_eq hchars hrest
  have hstep := lexStep_ident hc s (word ++ rest)
  rw [List.cons_append] at htake hdrop
  rw [if_neg (by simp [hmark]), htake, hdrop] at hstep
  exact LexesTo.step hstep h

theorem LexesTo.dot {rest : Text} (h : LexesTo (s.chars ['.']) rest lexemes) :
  LexesTo s ('.' :: rest) (⟨.DOT, "."⟩ :: lexemes)
  := by
  have hsign : lexSign '.' rest = some (.DOT, ['.'], rest) := by cases rest <;> rfl
  have hstep := @lexStep_sign '.' rest rfl (by decide) rfl (by simp) s
  rw [hsign] at hstep
  exact LexesTo.step hstep h

/-- A minus sign before a digit. -/
theorem LexesTo.minus {rest : Text} (hdigit : rest.head?.any Char.isDigit = true)
    (h : LexesTo (s.chars ['-']) rest lexemes) :
  LexesTo s ('-' :: rest) (⟨.MINUS, "-"⟩ :: lexemes)
  := by
  have hsign : lexSign '-' rest = some (.MINUS, ['-'], rest) := by
    cases rest with
    | nil => rfl
    | cons d rest =>
      have hd : d.isDigit = true := hdigit
      have htwo : twoCharKind '-' d = none := by
        unfold twoCharKind
        split <;> first | rfl | cases hd
      simp only [lexSign, htwo]
      rfl
  have hstep := @lexStep_sign '-' rest rfl (by decide) rfl (by simp) s
  rw [hsign] at hstep
  exact LexesTo.step hstep h

theorem lexesTo_newline (s : LexState) : LexesTo s ['\n'] [⟨.NEWLINE, "\n"⟩] :=
  LexesTo.step (lexStep_lineEnd rfl s []) (lexesTo_nil _)

end Caster.Lex
