import Caster.Emit.StringLiterals
import Caster.Lex.Lookahead
import Caster.SelfHosting.LexerDifferences

/-!
# String literals of the self-hosted compiler

The self-hosted lexer keeps the text between the marks of a literal as it is, and does not keep
the marks, so its emitter reads the escapes of a raw string like those of a quoted one.  The C text
of a literal denotes the bytes that the lexer of the C compiler has for it when the text between
the marks has no escapes but those of a quoted string, and no trigraph.
-/

namespace Caster.SelfHosting

open CLang Driver TextPlaces
open Caster.Lex (LexState)

/-! ### The text -/

/-- The characters that a backslash in front is kept with. -/
def isEscaped (next : Char) : Bool :=
  next = 'n' || next = 't' || next = 'r' || next = '"' || next = '\\'

/-- The number of characters of a text where a backslash and what it is kept with are one. -/
def decodedStringLength : Text → ℕ
  | [] => 0
  | [_] => 1
  | ch :: next :: text =>
    if ch = '\\' ∧ isEscaped next then decodedStringLength text + 1
    else decodedStringLength (next :: text) + 1

/-- What `emitCStringLiteral` writes between the quotes.  A character without a backslash in front
is written as `c_escape` prints it. -/
def literalBody : Text → Text
  | [] => []
  | [ch] => escapePiece ch
  | ch :: next :: text =>
    if ch = '\\' then
      if isEscaped next then '\\' :: next :: literalBody text
      else '\\' :: literalBody (next :: text)
    else escapePiece ch ++ literalBody (next :: text)

/-- The C expression of a string literal. -/
def emitCStringLiteral (text : Text) : Text :=
  strLitOpening ++ '"' :: (literalBody text ++ '"' :: strLitClosing (decodedStringLength text))

/-- The C expression of a lexeme denotes some bytes, and has their number as its length. -/
def KeepsBytes (lexeme bytes : Text) : Prop :=
  StrLitDenotes (emitCStringLiteral lexeme) bytes ∧ decodedStringLength lexeme = bytes.length

/-- The literals whose text has no trigraph and, between the marks of a raw string, no carriage
return and no backslash but a last one. -/
def IsPlainLiteral (mark : Char) (body : Text) : Prop :=
  ¬ HasTrigraph body ∧ (mark = backtick → '\r' ∉ body ∧ '\\' ∉ body.dropLast)

/-! ### Characters without a backslash -/

theorem literalBody_cons {c : Char} (h : c ≠ '\\') (text : Text) :
  literalBody (c :: text) = escapePiece c ++ literalBody text
  := by
  cases text with
  | nil => rw [literalBody, literalBody, List.append_nil]
  | cons d text => rw [literalBody, if_neg h]

theorem decodedStringLength_cons {c : Char} (h : c ≠ '\\') (text : Text) :
  decodedStringLength (c :: text) = decodedStringLength text + 1
  := by
  cases text with
  | nil => rfl
  | cons d text => rw [decodedStringLength, if_neg fun hc => h hc.1]

theorem literalBody_escape {next : Char} (h : isEscaped next = true) (text : Text) :
  literalBody ('\\' :: next :: text) = '\\' :: next :: literalBody text
  := by
  rw [literalBody, if_pos rfl, if_pos h]

theorem decodedStringLength_escape {next : Char} (h : isEscaped next = true) (text : Text) :
  decodedStringLength ('\\' :: next :: text) = decodedStringLength text + 1
  := by
  rw [decodedStringLength, if_pos ⟨rfl, h⟩]

/-- Where no backslash has a character behind it, the literal is the one of the text. -/
theorem literalBody_plain {text : Text} (h : '\\' ∉ text.dropLast) :
  literalBody text = text.flatMap escapePiece ∧ decodedStringLength text = text.length
  := by
  induction text with
  | nil => exact ⟨rfl, rfl⟩
  | cons c text ih =>
    cases text with
    | nil => exact ⟨(List.append_nil _).symm, rfl⟩
    | cons d text =>
      rw [List.dropLast_cons_cons, List.mem_cons, not_or] at h
      obtain ⟨hbody, hlength⟩ := ih h.2
      rw [literalBody_cons (Ne.symm h.1), decodedStringLength_cons (Ne.symm h.1), hbody, hlength]
      exact ⟨rfl, rfl⟩

theorem emitCStringLiteral_eq {lexeme bytes : Text}
    (hbody : literalBody lexeme = bytes.flatMap escapePiece)
    (hlength : decodedStringLength lexeme = bytes.length) :
  emitCStringLiteral lexeme = emitKeyLiteral bytes
  := by
  rw [emitCStringLiteral, hbody, hlength, emitKeyLiteral, cEscape]
  simp

/-- A literal that is the one of some bytes keeps them when they have no trigraph. -/
theorem keepsBytes_iff_of_eq {lexeme bytes : Text}
    (hbody : literalBody lexeme = bytes.flatMap escapePiece)
    (hlength : decodedStringLength lexeme = bytes.length) :
  KeepsBytes lexeme bytes ↔ ¬ HasTrigraph bytes
  := by
  rw [KeepsBytes, emitCStringLiteral_eq hbody hlength, emitKeyLiteral_denotes_iff]
  exact and_iff_left hlength

/-! ### Quoted strings -/

/-- The text of a quoted string without a mark in it, and the bytes it stands for. -/
inductive Decodes : Text → Text → Prop where
  | nil : Decodes [] []
  | plain {c : Char} {body out : Text} : c ≠ '\\' → Decodes body out → Decodes (c :: body) (c :: out)
  | escape {e o : Char} {body out : Text} : e ≠ quote → Lex.unescape e = some o → Decodes body out →
      Decodes ('\\' :: e :: body) (o :: out)

/-- An escape is kept, is what `c_escape` prints, and has no part in a trigraph. -/
theorem escapePiece_of_unescape {e o : Char} (hquote : e ≠ quote) (h : Lex.unescape e = some o) :
  isEscaped e = true ∧ escapePiece o = ['\\', e] ∧ e ≠ '?' ∧ o ≠ '?' ∧ trigraphs.lookup o = none
  := by
  unfold Lex.unescape at h
  split_ifs at h with hmark hslash hn ht
  · exact absurd hmark hquote
  · cases h
    subst hslash
    decide
  · cases h
    subst hn
    decide
  · cases h
    subst ht
    decide

theorem literalBody_decodes {body out : Text} (h : Decodes body out) :
  literalBody body = out.flatMap escapePiece ∧ decodedStringLength body = out.length
  := by
  induction h with
  | nil => exact ⟨rfl, rfl⟩
  | plain hc _ ih =>
    rw [literalBody_cons hc, decodedStringLength_cons hc, ih.1, ih.2]
    exact ⟨rfl, rfl⟩
  | escape hquote hout _ ih =>
    obtain ⟨hkept, hpiece, -⟩ := escapePiece_of_unescape hquote hout
    rw [literalBody_escape hkept, decodedStringLength_escape hkept, ih.1, ih.2, List.flatMap_cons,
      hpiece]
    exact ⟨rfl, rfl⟩

theorem trigraphAt_decodes {body out : Text} (h : Decodes body out) :
  trigraphAt body = trigraphAt out
  := by
  cases h with
  | nil => rfl
  | escape hquote hout h =>
    obtain ⟨-, -, -, hmark, -⟩ := escapePiece_of_unescape hquote hout
    rw [trigraphAt_of_ne (by decide), trigraphAt_of_ne hmark]
  | @plain c body out _ h =>
    by_cases hmark : c = '?'
    swap
    · rw [trigraphAt_of_ne hmark, trigraphAt_of_ne hmark]
    subst hmark
    cases h with
    | nil => rfl
    | escape hquote hout h =>
      obtain ⟨-, -, -, hmark, -⟩ := escapePiece_of_unescape hquote hout
      rw [trigraphAt_of_second_ne (by decide), trigraphAt_of_second_ne hmark]
    | @plain d body out _ h =>
      by_cases hmark : d = '?'
      swap
      · rw [trigraphAt_of_second_ne hmark, trigraphAt_of_second_ne hmark]
      subst hmark
      cases h with
      | nil => rfl
      | escape hquote hout h =>
        obtain ⟨-, -, -, -, hnone⟩ := escapePiece_of_unescape hquote hout
        rw [trigraphAt_marks, trigraphAt_marks, hnone]
        rfl
      | plain => rw [trigraphAt_marks, trigraphAt_marks]

theorem hasTrigraph_decodes {body out : Text} (h : Decodes body out) :
  HasTrigraph body ↔ HasTrigraph out
  := by
  induction h with
  | nil => exact Iff.rfl
  | plain hc h ih => rw [HasTrigraph, HasTrigraph, trigraphAt_decodes (.plain hc h), ih]
  | escape hquote hout h ih =>
    obtain ⟨-, -, hmark, hmark', -⟩ := escapePiece_of_unescape hquote hout
    rw [HasTrigraph, HasTrigraph, HasTrigraph, trigraphAt_of_ne (by decide), trigraphAt_of_ne hmark,
      trigraphAt_of_ne hmark', ih]
    simp

/-- A quoted string that ends at its first mark. -/
theorem decodes_of_lexString {start s s' : LexState} {text out rest : Text}
    (h : Lex.lexString start text s = .ok (out, s', rest))
    (hrest : (text.dropWhile (· ≠ quote)).drop 1 = rest) :
  Decodes (text.takeWhile (· ≠ quote)) out
  := by
  induction text, s using Lex.lexString.induct generalizing out with
  | case1 s => cases h
  | case2 s => cases h
  | case3 e text s hescape =>
    rw [Lex.lexString, hescape] at h
    cases h
  | case4 e text s o hescape ih =>
    rw [Lex.lexString, hescape] at h
    obtain ⟨⟨out', s₁, rest₁⟩, hstring, heq⟩ := Lex.except_map_eq_ok h
    cases heq
    have hslash : '\\' ≠ quote := by decide
    by_cases he : e = quote
    · subst he
      obtain ⟨p, hp, htext, -⟩ := Lex.lexString_reads hstring
      have hpos := List.length_pos_iff.mpr hp
      have hdrop : ('\\' :: quote :: text).dropWhile (· ≠ quote) = quote :: text := by
        simp [hslash]
      rw [hdrop, List.drop_succ_cons, List.drop_zero, htext] at hrest
      have hlength := congrArg List.length hrest
      rw [List.length_append] at hlength
      omega
    · have htake : ('\\' :: e :: text).takeWhile (· ≠ quote) =
          '\\' :: e :: text.takeWhile (· ≠ quote) := by
        simp [hslash, he]
      have hdrop : ('\\' :: e :: text).dropWhile (· ≠ quote) = text.dropWhile (· ≠ quote) := by
        simp [hslash, he]
      rw [hdrop] at hrest
      rw [htake]
      exact .escape he hescape (ih hstring hrest)
  | case5 text s hlast hescape =>
    rw [Lex.lexString.eq_4 _ _ _ _ hlast hescape, if_pos rfl] at h
    cases h
    simpa using Decodes.nil
  | case6 c text s hlast hescape hquote hend =>
    rw [Lex.lexString.eq_4 _ _ _ _ hlast hescape, if_neg hquote, if_pos hend] at h
    cases h
  | case7 c text s hlast hescape hquote hend ih =>
    rw [Lex.lexString.eq_4 _ _ _ _ hlast hescape, if_neg hquote, if_neg hend] at h
    obtain ⟨⟨out', s₁, rest₁⟩, hstring, heq⟩ := Lex.except_map_eq_ok h
    cases heq
    have hslash : c ≠ '\\' := by
      intro hc
      cases text with
      | nil => exact hlast hc rfl
      | cons d text => exact hescape d text hc rfl
    have htake : (c :: text).takeWhile (· ≠ quote) = c :: text.takeWhile (· ≠ quote) := by
      simp [hquote]
    have hdrop : (c :: text).dropWhile (· ≠ quote) = text.dropWhile (· ≠ quote) := by
      simp [hquote]
    rw [hdrop] at hrest
    rw [htake]
    exact .plain hslash (ih hstring hrest)

/-! ### Raw strings -/

theorem units_literalBody_append (text after : Text) :
  units (literalBody text ++ after) ≤ decodedStringLength text + units after
  := by
  fun_induction literalBody text with
  | case1 => simp [decodedStringLength]
  | case2 c =>
    rw [decodedStringLength, units_escapePiece_append]
    omega
  | case3 next text hkept ih =>
    rw [decodedStringLength_escape hkept]
    have := units_escape next (literalBody text ++ after)
    simp only [List.cons_append]
    omega
  | case4 next text hkept ih =>
    have := (units_cons_bounds '\\' (literalBody (next :: text) ++ after)).2
    rw [decodedStringLength, if_neg fun h => hkept h.2, List.cons_append]
    omega
  | case5 ch next text hc ih =>
    rw [decodedStringLength_cons hc, List.append_assoc, units_escapePiece_append]
    omega

theorem decodedStringLength_le (text : Text) : decodedStringLength text ≤ text.length := by
  fun_induction decodedStringLength text with
  | case1 | case2 => simp
  | case3 ch next text hkept ih =>
    simp only [List.length_cons]
    omega
  | case4 ch next text hkept ih =>
    simp only [List.length_cons] at ih ⊢
    omega

theorem newline_not_mem_literalBody (text : Text) : '\n' ∉ literalBody text := by
  fun_induction literalBody text with
  | case1 => exact List.not_mem_nil
  | case2 c => exact newline_not_mem_escapePiece c
  | case3 next text hkept ih =>
    have hne : '\n' ≠ next := by
      rintro rfl
      cases hkept
    simp [hne, ih]
  | case4 next text hkept ih => simp [ih]
  | case5 ch next text hc ih => simp [newline_not_mem_escapePiece ch, ih]

theorem return_mem_literalBody {text : Text} (h : '\r' ∈ text) : '\r' ∈ literalBody text := by
  have hpiece : ∀ {c}, '\r' = c → '\r' ∈ escapePiece c := by
    rintro c rfl
    decide
  fun_induction literalBody text with
  | case1 => cases h
  | case2 c => exact hpiece (List.mem_singleton.mp h)
  | case3 next text hkept ih =>
    simp only [List.mem_cons] at h ⊢
    exact h.imp_right (Or.imp_right ih)
  | case4 next text hkept ih =>
    rw [List.mem_cons] at h ⊢
    exact h.imp_right ih
  | case5 ch next text hc ih =>
    rw [List.mem_append]
    rcases List.mem_cons.mp h with h | h
    · exact Or.inl (hpiece h)
    · exact Or.inr (ih h)

/-- A literal that keeps bytes has no trigraph, and as many characters and escape sequences as
bytes. -/
theorem reads_of_keepsBytes {lexeme bytes : Text} (h : KeepsBytes lexeme bytes) :
  readChars (literalBody lexeme ++ '"' :: strLitClosing bytes.length) =
      some (bytes, strLitClosing bytes.length) ∧
    bytes.length + units ('"' :: strLitClosing bytes.length) ≤
      units (literalBody lexeme ++ '"' :: strLitClosing bytes.length)
  := by
  obtain ⟨⟨chars, hchars, hread⟩, hlength⟩ := h
  have hbody := newline_not_mem_literalBody lexeme
  have hclosing := (strLitClosing_plain bytes.length).2
  have hle := units_literalBody_append lexeme ('"' :: strLitClosing bytes.length)
  have hquote := units_cons_of_ne (show '"' ≠ '\\' by decide) (strLitClosing bytes.length)
  rw [emitCStringLiteral, hlength, translatePhases_append (by decide) (by decide)
    (by simp [hbody, hclosing]), replaceTrigraphs_cons (trigraphAt_of_ne (by decide) _)] at hchars
  obtain rfl := (List.cons_inj_right _).mp (List.append_cancel_left hchars)
  have hunits := units_readChars hread
  obtain ⟨hconverted, hlt⟩ := units_replaceTrigraphs
    (literalBody lexeme ++ '"' :: strLitClosing bytes.length)
  by_cases htrigraph : HasTrigraph (literalBody lexeme ++ '"' :: strLitClosing bytes.length)
  · have := hlt htrigraph
    omega
  · rw [replaceTrigraphs_of_not_hasTrigraph htrigraph] at hread
    exact ⟨hread, by omega⟩

/-- The bytes of a literal with a carriage return have one. -/
theorem return_not_mem_of_keepsBytes {lexeme bytes : Text} (h : KeepsBytes lexeme bytes)
    (hbytes : '\r' ∉ bytes) :
  '\r' ∉ lexeme
  := by
  intro hmem
  have hcount := count_readChars (reads_of_keepsBytes h).1
  have hpos := List.count_pos_iff.mpr (return_mem_literalBody hmem)
  rw [List.count_append, List.count_cons_of_ne (by decide), List.count_eq_zero_of_not_mem hbytes] at hcount
  omega

/-- What is printed for a character that a backslash is not kept with. -/
theorem escapePiece_of_not_isEscaped {c : Char} (h : ¬ isEscaped c = true) :
  escapePiece c = [c] ∨
    ∃ d, escapePiece c = ['\\', d] ∧ d ≠ '"' ∧ d ≠ '\n' ∧ d ≠ '\\' ∧ d ≠ c
  := by
  unfold escapePiece
  split_ifs with hquote hslash hline htab
  · exact absurd (by rw [hquote]; rfl) h
  · exact absurd (by rw [hslash]; rfl) h
  · subst hline
    exact Or.inr ⟨'n', rfl, by decide⟩
  · subst htab
    exact Or.inr ⟨'t', rfl, by decide⟩
  · exact Or.inl rfl

/-- A literal that denotes its text has no backslash in front of another character: a pair is one
byte, and another character is read as an escape sequence with the backslash, or as a pair of the
backslash with that of its own escape. -/
theorem backslash_not_mem_of_reads {body after : Text}
    (hread : readChars (literalBody body ++ '"' :: after) = some (body, after))
    (hlength : decodedStringLength body = body.length)
    (hunits : body.length + units ('"' :: after) ≤ units (literalBody body ++ '"' :: after)) :
  '\\' ∉ body.dropLast
  := by
  induction body with
  | nil => exact List.not_mem_nil
  | cons c body ih =>
    cases body with
    | nil => exact List.not_mem_nil
    | cons d body =>
      have hshort := decodedStringLength_le body
      simp only [List.length_cons] at hlength hunits
      by_cases hc : c = '\\'
      · subst hc
        exfalso
        by_cases hkept : isEscaped d = true
        · rw [decodedStringLength_escape hkept] at hlength
          omega
        have hd : d ≠ '\\' := by
          rintro rfl
          exact hkept rfl
        have hbody : literalBody ('\\' :: d :: body) = '\\' :: (escapePiece d ++ literalBody body) := by
          rw [literalBody, if_pos rfl, if_neg hkept, literalBody_cons hd]
        have hle := units_literalBody_append body ('"' :: after)
        rw [hbody] at hread hunits
        rcases escapePiece_of_not_isEscaped hkept with hpiece | ⟨e, hpiece, hquote, hline, hescape, hne⟩
        · rw [hpiece] at hunits
          simp only [List.cons_append, List.nil_append, units_escape] at hunits
          omega
        · rw [hpiece] at hread
          simp only [List.cons_append, List.nil_append] at hread
          have hslash : simpleEscapes.lookup '\\' = some '\\' := rfl
          rw [readChars_escape hslash, readChars_plain hquote hline hescape, Option.map_map] at hread
          obtain ⟨⟨bytes, rest⟩, -, hpair⟩ := Option.map_eq_some_iff.mp hread
          cases hpair
          exact hne rfl
      · rw [literalBody_cons hc, List.append_assoc] at hread hunits
        rw [decodedStringLength_cons hc] at hlength
        rw [units_escapePiece_append] at hunits
        rw [List.dropLast_cons_cons, List.mem_cons, not_or]
        refine ⟨Ne.symm hc, ih ?_ (by simpa using hlength) (by simp only [List.length_cons]; omega)⟩
        rw [readChars_escapePiece] at hread
        obtain ⟨⟨bytes, rest⟩, hr, hpair⟩ := Option.map_eq_some_iff.mp hread
        cases hpair
        exact hr

/-- A raw string keeps its bytes when it has no trigraph, no carriage return and no backslash but a
last one. -/
theorem keepsBytes_raw_iff {s s' : LexState} {text out rest : Text}
    (h : Lex.lexRaw text s = some (out, s', rest)) :
  KeepsBytes (text.takeWhile (· ≠ backtick)) out ↔
    ¬ HasTrigraph (text.takeWhile (· ≠ backtick)) ∧
      '\r' ∉ text.takeWhile (· ≠ backtick) ∧ '\\' ∉ (text.takeWhile (· ≠ backtick)).dropLast
  := by
  obtain ⟨hout, hplain⟩ := lexRaw_cases h
  have hlexeme : '\r' ∉ text.takeWhile (· ≠ backtick) → text.takeWhile (· ≠ backtick) = out := by
    intro hreturn
    obtain ⟨hchars, htext⟩ := hplain hreturn
    rw [htext]
    exact Marks.takeWhile_append_mark (fun hmem => (hchars _ hmem).1 rfl) rest
  constructor
  · intro hkeeps
    have hreturn := return_not_mem_of_keepsBytes hkeeps hout
    rw [hlexeme hreturn] at hkeeps ⊢
    obtain ⟨hread, hunits⟩ := reads_of_keepsBytes hkeeps
    have hslash := backslash_not_mem_of_reads hread hkeeps.2 hunits
    obtain ⟨hbody, hlength⟩ := literalBody_plain hslash
    exact ⟨(keepsBytes_iff_of_eq hbody hlength).mp hkeeps, hout, hslash⟩
  · rintro ⟨htrigraph, hreturn, hslash⟩
    rw [hlexeme hreturn] at htrigraph hslash ⊢
    obtain ⟨hbody, hlength⟩ := literalBody_plain hslash
    exact (keepsBytes_iff_of_eq hbody hlength).mpr htrigraph

/-- A string literal that both lexers read as one token keeps the bytes that the lexer of the C
compiler has for it if and only if it is plain. -/
theorem stringLiteral_keepsBytes_iff {s s' : LexState} {p p' : Place} {mark : Char}
    {text rest : Text} {tok : Parse.Token} {tok' : Token} (hmark : mark = quote ∨ mark = backtick)
    (hcaster : Lex.lexStep s mark text = .ok (some tok, s', rest))
    (hself : lexStep p mark text = (some tok', p', rest)) :
  KeepsBytes tok'.lexeme.toList tok.text.toList ↔
    IsPlainLiteral mark (text.takeWhile (· ≠ mark))
  := by
  obtain ⟨stop, hstep, -⟩ := casterStep_mark hmark p text
  rw [hstep] at hself
  simp only [Prod.mk.injEq, Option.some.injEq] at hself
  obtain ⟨rfl, -, hrest⟩ := hself
  have hlexeme : (makeToken .STRING_LITERAL (text.takeWhile (· ≠ mark)) p stop).lexeme.toList =
      text.takeWhile (· ≠ mark) := String.toList_ofList
  rw [hlexeme]
  rcases hmark with rfl | rfl
  · rw [Lex.lexStep_quote] at hcaster
    split at hcaster
    · cases hcaster
    · rename_i out s₁ rest' hstring
      cases hcaster
      have hdecodes := decodes_of_lexString hstring hrest
      obtain ⟨hbody, hlength⟩ := literalBody_decodes hdecodes
      have hout : (s.token .STRING_LITERAL out).text.toList = out := String.toList_ofList
      rw [hout, keepsBytes_iff_of_eq hbody hlength, ← hasTrigraph_decodes hdecodes, IsPlainLiteral]
      simp [show quote ≠ backtick by decide]
  · rw [Lex.lexStep_backtick] at hcaster
    split at hcaster
    · cases hcaster
    · rename_i out s₁ rest' hraw
      cases hcaster
      have hout : (s.token .STRING_LITERAL out).text.toList = out := String.toList_ofList
      rw [hout, keepsBytes_raw_iff hraw, IsPlainLiteral]
      simp

/-- The quoted string of an `a` and an escaped end of a line. -/
theorem stringLiteral_keepsBytes_line : KeepsBytes ['a', '\\', 'n'] ['a', '\n'] := by
  have hcaster : ∃ s', Lex.lexStep .start quote ['a', '\\', 'n', '"'] =
      .ok (some ⟨.STRING_LITERAL, "a\n", 1, 1⟩, s', []) := ⟨_, rfl⟩
  have hself : lexStep ⟨1, 1⟩ quote ['a', '\\', 'n', '"'] =
      (some ⟨.STRING_LITERAL, "a\\n", ⟨1, 1, 1, 6⟩⟩, ⟨1, 6⟩, []) := by decide
  obtain ⟨s', hcaster⟩ := hcaster
  have hplain : IsPlainLiteral quote ['a', '\\', 'n'] := by
    refine ⟨by decide, fun h => ?_⟩
    revert h
    decide
  exact (stringLiteral_keepsBytes_iff (Or.inl rfl) hcaster hself).mpr hplain

/-- The raw string of a backslash and an `n` is two bytes, and is emitted as one. -/
theorem not_stringLiteral_keepsBytes :
  ¬ ∀ (s s' : LexState) (p p' : Place) (mark : Char) (text rest : Text) (tok : Parse.Token)
      (tok' : Token), mark = quote ∨ mark = backtick →
    Lex.lexStep s mark text = .ok (some tok, s', rest) →
      lexStep p mark text = (some tok', p', rest) →
        KeepsBytes tok'.lexeme.toList tok.text.toList
  := by
  intro h
  have hcaster : ∃ s', Lex.lexStep .start backtick ['\\', 'n', backtick] =
      .ok (some ⟨.STRING_LITERAL, "\\n", 1, 1⟩, s', []) := ⟨_, rfl⟩
  have hself : lexStep ⟨1, 1⟩ backtick ['\\', 'n', backtick] =
      (some ⟨.STRING_LITERAL, "\\n", ⟨1, 1, 1, 5⟩⟩, ⟨1, 5⟩, []) := by decide
  obtain ⟨s', hcaster⟩ := hcaster
  have hkeeps := h _ _ _ _ _ _ _ _ _ (Or.inr rfl) hcaster hself
  cases hkeeps.2

end Caster.SelfHosting
