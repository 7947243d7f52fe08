import Caster.Driver.Imports
import Caster.Driver.Prefixing
import Caster.Lex.Lookahead

/-!
# The tokens of rewritten modules

The rewriting of a module looks for identifiers by itself, and where it finds letters the
lexer reads as a part of a number, or does not read as a name, prefixed names change the
tokens of the module.
-/

namespace Caster.Lex

open Driver TextPlaces Insertions
open Parse (Token TokenKind ParseError)

/-- A text starts with the separator of a shape, given the characters before it. -/
def isSeparator (before : Text) : Text → Bool
  | [] => false
  | c :: rest => isShapeMark before c rest

/-- The pieces of a text whose names may have been prefixed, given the characters before.
Names that are separators of shapes stay as they are. -/
inductive Prefixed (names : List Text) (pre : Text) :
    Text → List (Piece Char Token) → List (Piece Char Token) → Prop
  | nil (before : Text) : Prefixed names pre before [] []
  | same {before : Text} {piece piece' : Piece Char Token} {pieces pieces' : List (Piece Char Token)}
      (htext : piece'.text = piece.text) (htoken : Option.Rel SameToken piece.output piece'.output)
      (hrest : Prefixed names pre (piece.text.reverse ++ before) pieces pieces') :
      Prefixed names pre before (piece :: pieces) (piece' :: pieces')
  | name {before name : Text} {tok tok' : Token} {pieces pieces' : List (Piece Char Token)}
      (hname : name ∈ names) (hkind : tok.kind = .NAME) (htext : tok.text = String.ofList name)
      (hkind' : tok'.kind = .NAME) (htext' : tok'.text = String.ofList (pre ++ name))
      (hwhole : isSeparator before (name ++ pieces.flatMap Piece.text) = false)
      (hrest : Prefixed names pre (name.reverse ++ before) pieces pieces') :
      Prefixed names pre before (⟨name, some tok⟩ :: pieces) (⟨pre ++ name, some tok'⟩ :: pieces')

/-- The rewritten text of a module that the lexer accepts is accepted, and it has the same
pieces but for exported names that were prefixed. -/
def RespectsTokens (src pre : Text) : Prop :=
  ∀ pieces last, lexPieces src = .ok (pieces, last) →
    ∃ pieces' last', lexPieces (rewriteLocalModuleSource src pre) = .ok (pieces', last') ∧
      Prefixed (collectLocalModuleExportNames src) pre [] pieces pieces'

theorem Prefixed.length_eq {names : List Text} {pre before : Text}
    {pieces pieces' : List (Piece Char Token)} (h : Prefixed names pre before pieces pieces') :
  pieces'.length = pieces.length
  := by
  induction h with
  | nil before => rfl
  | same htext htoken hrest ih => rw [List.length_cons, List.length_cons, ih]
  | name hname hkind htext hkind' htext' hwhole hrest ih =>
    rw [List.length_cons, List.length_cons, ih]

/-- A token is the same, or an exported name that was prefixed. -/
def SameOrPrefixed (names : List Text) (pre : Text) (tok tok' : Token) : Prop :=
  SameToken tok tok' ∨ tok.kind = .NAME ∧ tok'.kind = .NAME ∧
    ∃ name ∈ names, tok.text = String.ofList name ∧ tok'.text = String.ofList (pre ++ name)

/-- No token is split, joined or lost. -/
theorem Prefixed.tokens {names : List Text} {pre before : Text}
    {pieces pieces' : List (Piece Char Token)} (h : Prefixed names pre before pieces pieces') :
  List.Forall₂ (SameOrPrefixed names pre) (pieces.filterMap Piece.output)
    (pieces'.filterMap Piece.output)
  := by
  induction h with
  | nil before => exact .nil
  | @same before piece piece' pieces pieces' htext htoken hrest ih =>
    obtain ⟨text, output⟩ := piece
    obtain ⟨text', output'⟩ := piece'
    cases htoken with
    | none => exact ih
    | some htoken => exact .cons (.inl htoken) ih
  | name hname hkind htext hkind' htext' hwhole hrest ih =>
    exact .cons (.inr ⟨hkind, hkind', _, hname, htext, htext'⟩) ih

/-- A piece is a name that stays one behind a prefix. -/
structure StaysName (pre before : Text) (previous : Option (Piece Char Token))
    (piece : Piece Char Token) (after : Text) : Prop where
  name : ∃ tok ∈ piece.output, tok.kind = .NAME
  whole : isSeparator before (piece.text ++ after) = false
  starts : pre.head?.any isIdentStart = true
  chars : ∀ c ∈ pre, isIdentChar c = true
  noKeyword : keywordKind (String.ofList (pre ++ piece.text)) = .NAME
  noSeparator : pre.head? = some 'x' → before.head?.any Char.isDigit = false
  noExponent : ∀ tok ∈ previous.bind Piece.output, IsPlainNumber tok →
    pre.head? ≠ some 'e' ∧ pre.head? ≠ some 'E'

/-- A piece at a place is a name that stays one behind a prefix, given the characters before
the pieces. -/
def StaysNameAt (pre before : Text) (pieces : List (Piece Char Token)) (i : ℕ) : Prop :=
  ∃ front piece back, pieces = front ++ piece :: back ∧
    i = before.length + (front.flatMap Piece.text).length ∧
    StaysName pre ((front.flatMap Piece.text).reverse ++ before) front.getLast? piece
      (back.flatMap Piece.text)

/-- Wherever the prefix is put, the lexer reads a name that stays one. -/
def PrefixesNames (src pre : Text) : Prop :=
  ∀ pieces last, lexPieces src = .ok (pieces, last) → ∀ i ∈ localPrefixedPlaces src pre,
    StaysNameAt pre [] pieces i

/-! ### What steps read -/

theorem exponentMark_eq_nil_iff (text : Text) :
  exponentMark text = [] ↔ text.head? ≠ some 'e' ∧ text.head? ≠ some 'E'
  := by
  unfold exponentMark
  split
  · simp
  · split_ifs with he
    · rcases he with rfl | rfl <;> simp
    · simpa using not_or.mp he

theorem keywordKind_mem (s : String) :
  keywordKind s = .NAME ∨ keywordKind s ∈ keywords.map Prod.snd
  := by
  unfold keywordKind
  cases h : keywords.lookup s with
  | none => exact .inl rfl
  | some kind =>
    obtain ⟨front, back, heq, -⟩ := List.lookup_eq_some_iff.mp h
    right
    apply List.mem_map.mpr
    exact ⟨(s, kind), by simp [heq], rfl⟩

/-- The kinds of names and numbers. -/
def isNameOrNumber : TokenKind → Bool
  | .NAME | .INT_LITERAL | .FLT_LITERAL => true
  | _ => false

theorem lexSign_kind_sign {c : Char} {rest out rest' : Text} {kind : TokenKind}
    (h : lexSign c rest = some (kind, out, rest')) :
  isNameOrNumber kind = false ∧ (∀ d ∈ out, d ≠ '_')
  := by
  have hone : ∀ {c kind}, oneCharKind c = some kind → isNameOrNumber kind = false ∧ c ≠ '_' := by
    intro c kind hkind
    unfold oneCharKind at hkind
    split at hkind <;> first | (cases hkind; decide) | cases hkind
  have htwo : ∀ {c d kind}, twoCharKind c d = some kind →
      isNameOrNumber kind = false ∧ c ≠ '_' ∧ d ≠ '_' := by
    intro c d kind hkind
    unfold twoCharKind at hkind
    split at hkind <;> first | (cases hkind; decide) | cases hkind
  unfold lexSign at h
  split at h
  · obtain ⟨kind', hkind, heq⟩ := Option.map_eq_some_iff.mp h
    cases heq
    simpa using hone hkind
  · split at h
    · rename_i hkind
      cases h
      simpa using htwo hkind
    · obtain ⟨kind', hkind, heq⟩ := Option.map_eq_some_iff.mp h
      cases heq
      simpa using hone hkind

theorem IsPlainNumber.isNameOrNumber {tok : Token} (h : IsPlainNumber tok) :
  isNameOrNumber tok.kind = true
  := by
  rcases h.1 with hkind | hkind <;> rw [hkind] <;> rfl

theorem lexNumber_plain {s s' : LexState} {text out rest' : Text} {kind : TokenKind}
    (h : lexNumber s text = .ok (kind, out, s', rest')) (he : 'e' ∉ out ∧ 'E' ∉ out) :
  exponentMark rest' = []
  := by
  simp only [lexNumber] at h
  set text₂ := (text.dropWhile Char.isDigit).drop (fraction (text.dropWhile Char.isDigit)).length
  by_cases hplain : exponentMark text₂ = []
  · rw [if_pos hplain] at h
    simp only [Except.ok.injEq, Prod.mk.injEq, hplain, List.length_nil, List.drop_zero] at h
    rw [← h.2.2.2, hplain]
  · rw [if_neg hplain] at h
    split_ifs at h
    simp only [Except.ok.injEq, Prod.mk.injEq] at h
    obtain ⟨e, sign, hmark, hletter⟩ := exponentMark_head hplain
    rw [← h.2.1, hmark] at he
    rcases hletter with rfl | rfl <;> simp at he

/-- No exponent follows a number without one. -/
theorem lexStep_plainNumber {s s' : LexState} {c : Char} {rest rest' : Text} {tok : Token}
    (h : lexStep s c rest = .ok (some tok, s', rest')) (hplain : IsPlainNumber tok) :
  exponentMark rest' = []
  := by
  have hkind := hplain.1
  unfold lexStep at h
  split_ifs at h with hblank hend hline hblock hquote hraw hdigit hident hmark
  · cases h
  · cases h
    simp [LexState.token] at hkind
  · cases h
  · split at h <;> cases h
  · split at h <;> cases h
    simp [LexState.token] at hkind
  · split at h <;> cases h
    simp [LexState.token] at hkind
  · split at h
    · cases h
    · rename_i hnumber
      cases h
      have he := hplain.2
      simp only [LexState.token, String.toList_ofList] at he
      exact lexNumber_plain hnumber he
  · cases h
    simp [LexState.token] at hkind
  · cases h
    simp only [LexState.token] at hkind
    rcases keywordKind_mem (String.ofList ((c :: rest).takeWhile isIdentChar)) with hname | hmem
    · simp [hname] at hkind
    · exfalso
      rcases hkind with hkind | hkind <;> rw [hkind] at hmem <;> revert hmem <;> decide
  · split at h
    · cases h
    · rename_i hsign
      cases h
      have hnumber := hplain.isNameOrNumber
      simp only [LexState.token, (lexSign_kind_sign hsign).1] at hnumber
      cases hnumber

/-- A name starts as a word, and it is one or the separator of a shape. -/
theorem lexStep_name {s s' : LexState} {c : Char} {rest rest' : Text} {tok : Token}
    (h : lexStep s c rest = .ok (some tok, s', rest')) (hkind : tok.kind = .NAME) :
  isIdentStart c = true ∧ (isShapeMark s.before c rest = true ∧ rest' = rest ∨
    isShapeMark s.before c rest = false ∧ rest' = (c :: rest).dropWhile isIdentChar ∧
      keywordKind (String.ofList ((c :: rest).takeWhile isIdentChar)) = .NAME)
  := by
  unfold lexStep at h
  split_ifs at h with hblank hend hline hblock hquote hraw hdigit hident hmark
  · cases h
  · cases h
    cases hkind
  · cases h
  · split at h <;> cases h
  · split at h <;> cases h
    cases hkind
  · split at h <;> cases h
    cases hkind
  · split at h
    · cases h
    · rename_i hnumber
      cases h
      simp only [LexState.token] at hkind
      rw [hkind] at hnumber
      rcases (lexNumber_spec hnumber).2 with hkind | hkind <;> cases hkind
  · cases h
    exact ⟨hident, .inl ⟨hmark, rfl⟩⟩
  · cases h
    exact ⟨hident, .inr ⟨by simpa using hmark, rfl, hkind⟩⟩
  · split at h
    · cases h
    · rename_i hsign
      cases h
      have hfalse := (lexSign_kind_sign hsign).1
      simp only [LexState.token] at hkind
      rw [hkind] at hfalse
      cases hfalse

/-! ### Underscores -/

theorem blockComment_last {text rest : Text} {s s' : LexState}
    (h : blockComment text s = some (s', rest)) :
  s'.before.head? = some '/'
  := by
  induction text, s using blockComment.induct with
  | case1 s => cases h
  | case2 text s => cases h; rfl
  | case3 text s ih => exact ih h
  | case4 c text s hclose hpair hend ih =>
    rw [blockComment.eq_4 _ _ _ hclose hpair, if_pos hend] at h
    exact ih h
  | case5 c text s hclose hpair hend ih =>
    rw [blockComment.eq_4 _ _ _ hclose hpair, if_neg hend] at h
    exact ih h

theorem lexString_last {start s s' : LexState} {text out rest : Text}
    (h : lexString start text s = .ok (out, s', rest)) :
  s'.before.head? = some quote
  := by
  induction text, s using lexString.induct generalizing out with
  | case1 s => cases h
  | case2 s => cases h
  | case3 e text s hescape =>
    rw [lexString, hescape] at h
    cases h
  | case4 e text s o hescape ih =>
    rw [lexString, hescape] at h
    obtain ⟨⟨out', s₁, rest₁⟩, hrest, heq⟩ := except_map_eq_ok h
    cases heq
    exact ih hrest
  | case5 text s hlast hescape =>
    rw [lexString.eq_4 _ _ _ _ hlast hescape, if_pos rfl] at h
    cases h
    rfl
  | case6 c text s hlast hescape hquote hend =>
    rw [lexString.eq_4 _ _ _ _ hlast hescape, if_neg hquote, if_pos hend] at h
    cases h
  | case7 c text s hlast hescape hquote hend ih =>
    rw [lexString.eq_4 _ _ _ _ hlast hescape, if_neg hquote, if_neg hend] at h
    obtain ⟨⟨out', s₁, rest₁⟩, hrest, heq⟩ := except_map_eq_ok h
    cases heq
    exact ih hrest

theorem lexRaw_last {s s' : LexState} {text out rest : Text}
    (h : lexRaw text s = some (out, s', rest)) :
  s'.before.head? = some backtick
  := by
  induction text, s using lexRaw.induct generalizing out with
  | case1 s => cases h
  | case2 text s ih =>
    obtain ⟨⟨out', s₁, rest₁⟩, hrest, heq⟩ := Option.map_eq_some_iff.mp h
    cases heq
    exact ih hrest
  | case3 text s hpair =>
    rw [lexRaw.eq_3 _ _ _ hpair, if_pos rfl] at h
    cases h
    rfl
  | case4 c text s hpair hmark hend ih =>
    rw [lexRaw.eq_3 _ _ _ hpair, if_neg hmark, if_pos hend] at h
    obtain ⟨⟨out', s₁, rest₁⟩, hrest, heq⟩ := Option.map_eq_some_iff.mp h
    cases heq
    exact ih hrest
  | case5 c text s hpair hmark hend ih =>
    rw [lexRaw.eq_3 _ _ _ hpair, if_neg hmark, if_neg hend] at h
    obtain ⟨⟨out', s₁, rest₁⟩, hrest, heq⟩ := Option.map_eq_some_iff.mp h
    cases heq
    exact ih hrest

theorem lexNumber_chars {s s' : LexState} {text out rest' : Text} {kind : TokenKind}
    (h : lexNumber s text = .ok (kind, out, s', rest')) :
  ∀ c ∈ out, c ≠ '_'
  := by
  have hdigit : ∀ {text : Text}, ∀ c ∈ text.takeWhile Char.isDigit, c ≠ '_' := by
    rintro text c hc rfl
    cases List.mem_takeWhile_imp hc
  have hfrac : ∀ {text : Text}, ∀ c ∈ fraction text, c ≠ '_' := by
    rintro text c hc rfl
    rcases fraction_digits text _ hc with h | h <;> cases h
  have hmark : ∀ {text : Text}, ∀ c ∈ exponentMark text, c ≠ '_' := by
    rintro text c hc rfl
    unfold exponentMark at hc
    split at hc
    · cases hc
    · split_ifs at hc with he
      · rcases List.mem_cons.mp hc with rfl | hc
        · rcases he with he | he <;> cases he
        · have hsign := List.mem_takeWhile_imp hc
          simp at hsign
      · cases hc
  simp only [lexNumber] at h
  set text₂ := (text.dropWhile Char.isDigit).drop (fraction (text.dropWhile Char.isDigit)).length
  intro c hc
  by_cases hplain : exponentMark text₂ = []
  · rw [if_pos hplain] at h
    simp only [Except.ok.injEq, Prod.mk.injEq] at h
    obtain ⟨-, rfl, -⟩ := h
    exact (List.mem_append.mp hc).elim (hdigit c) (hfrac c)
  · rw [if_neg hplain] at h
    split_ifs at h
    simp only [Except.ok.injEq, Prod.mk.injEq] at h
    obtain ⟨-, rfl, -⟩ := h
    simp only [List.mem_append] at hc
    rcases hc with ((hc | hc) | hc) | hc
    · exact hdigit c hc
    · exact hfrac c hc
    · exact hmark c hc
    · exact hdigit c hc

/-- Nothing goes on behind an underscore the lexer has read. -/
theorem lexStep_underscore {s s' : LexState} {c : Char} {rest rest' : Text} {tok : Option Token}
    (h : lexStep s c rest = .ok (tok, s', rest')) (hlast : s'.before.head? = some '_') :
  rest'.head?.any isIdentChar = false
  := by
  obtain ⟨p, hp, htext, hbefore⟩ := (lexStep_advances h).text
  dsimp only at htext hbefore
  -- what ends in another character ends before an underscore
  have hother : (∀ d ∈ p, d ≠ '_') → rest'.head?.any isIdentChar = false := by
    intro hall
    exfalso
    rw [hbefore, List.head?_append_of_ne_nil _ (by simpa using hp)] at hlast
    have hmem := List.mem_of_mem_head? hlast
    exact hall '_' (List.mem_reverse.mp hmem) rfl
  unfold lexStep at h
  split_ifs at h with hblank hend hline hblock hquote hraw hdigit hident hmark
  · cases h
    obtain rfl : p = [c] := List.append_cancel_right (htext.symm.trans rfl)
    apply hother
    rcases hblank with rfl | rfl <;> simp
  · cases h
    obtain ⟨hsplit, hisEnd⟩ := splitLineEnd_spec hend rest
    obtain rfl := List.append_cancel_right (htext.symm.trans hsplit)
    apply hother
    rcases hisEnd with hp | hp | hp <;> rw [hp] <;> simp
  · cases h
    have hstop := head_dropWhile_eq inLine rest.tail
    cases hhead : (rest.tail.dropWhile inLine).head? with
    | none => rfl
    | some d =>
      rw [hhead, Option.any_some] at hstop
      have hd : isIdentChar d = false := by
        by_contra hd
        simp [inLine, isIdentChar_plain d (by simpa using hd)] at hstop
      simpa using hd
  · split at h
    · cases h
    · rename_i hcomment
      cases h
      rw [blockComment_last hcomment] at hlast
      cases hlast
  · split at h
    · cases h
    · rename_i hstring
      cases h
      rw [lexString_last hstring] at hlast
      cases hlast
  · split at h
    · cases h
    · rename_i hstring
      cases h
      rw [lexRaw_last hstring] at hlast
      cases hlast
  · split at h
    · cases h
    · rename_i hnumber
      cases h
      obtain rfl := List.append_cancel_right (htext.symm.trans (lexNumber_spec hnumber).1)
      exact hother (lexNumber_chars hnumber)
  · cases h
    obtain rfl : p = [c] := List.append_cancel_right (htext.symm.trans rfl)
    apply hother
    simp only [isShapeMark, Bool.and_eq_true, decide_eq_true_eq] at hmark
    simp [hmark.1.1]
  · cases h
    exact head_dropWhile_eq _ _
  · split at h
    · cases h
    · rename_i hsign
      cases h
      obtain rfl := List.append_cancel_right (htext.symm.trans (lexSign_spec hsign).1)
      exact hother (lexSign_kind_sign hsign).2

theorem step_before {s s' : LexState} {c : Char} {rest rest' p : Text} {tok : Option Token}
    (h : lexStep s c rest = .ok (tok, s', rest')) (hp : c :: rest = p ++ rest') :
  s'.before = p.reverse ++ s.before
  := by
  obtain ⟨q, -, hq, hbefore⟩ := (lexStep_advances h).text
  obtain rfl := List.append_cancel_right (hq.symm.trans hp)
  exact hbefore

theorem head_reverse_append {p : Text} (hp : p ≠ []) {before before' : Text} :
  (p.reverse ++ before').head? = (p.reverse ++ before).head?
  := by
  have hne : p.reverse ≠ [] := by simpa using hp
  rw [List.head?_append_of_ne_nil _ hne, List.head?_append_of_ne_nil _ hne]

/-! ### Prefixed names stay names -/

section

variable {names : List Text} {pre : Text} {mark : ℕ → Bool}

/-- A text and the text with words put before its words are alike. -/
theorem alike_insertFrom {i : ℕ} {text : Text}
    (hpre : (∃ j, mark j = true) → pre.head?.any isIdentStart = true)
    (hwords : ∀ front rest, text = front ++ rest → mark (i + front.length) = true →
      rest.head?.any isIdentStart = true) :
  Alike text (insertFrom mark pre i text)
  := by
  induction text generalizing i with
  | nil => exact .nil
  | cons c text ih =>
    simp only [insertFrom]
    by_cases hmark : mark i = true
    · have hc := hwords [] (c :: text) rfl hmark
      have hd := hpre ⟨i, hmark⟩
      rw [if_pos hmark]
      cases pre with
      | nil => cases hd
      | cons d pre => exact .word hc hd
    · rw [if_neg hmark]
      apply Alike.char
      apply ih
      intro front rest htext hmark
      apply hwords (c :: front) rest (by rw [htext, List.cons_append])
      rwa [List.length_cons, Nat.add_comm front.length, ← Nat.add_assoc]

/-- The first piece is where a place is, or the place is behind it. -/
theorem StaysNameAt.behind {before : Text} {piece : Piece Char Token}
    {pieces : List (Piece Char Token)} {i : ℕ} (hne : ∀ p ∈ pieces, p.text ≠ [])
    (h : StaysNameAt pre before (piece :: pieces) i) :
  i = before.length ∧ StaysName pre before none piece (pieces.flatMap Piece.text) ∨
    before.length + piece.text.length ≤ i ∧
      StaysNameAt pre (piece.text.reverse ++ before) pieces i ∧
      (i = before.length + piece.text.length → ∀ tok ∈ piece.output, IsPlainNumber tok →
        pre.head? ≠ some 'e' ∧ pre.head? ≠ some 'E')
  := by
  obtain ⟨front, name, back, hpieces, hi, hstays⟩ := h
  cases front with
  | nil =>
    obtain ⟨rfl, rfl⟩ := List.cons.inj hpieces
    exact .inl ⟨hi, hstays⟩
  | cons first front =>
    obtain ⟨rfl, rfl⟩ := List.cons.inj hpieces
    rw [List.flatMap_cons, List.length_append] at hi
    refine .inr ⟨by omega, ⟨front, name, back, rfl, ?_, ?_⟩, ?_⟩
    · rw [hi, List.length_append, List.length_reverse]
      omega
    · rw [List.flatMap_cons, List.reverse_append, List.append_assoc] at hstays
      cases front with
      | nil => exact { hstays with noExponent := by simp }
      | cons second front => rwa [List.getLast?_cons_cons] at hstays
    · intro hplace tok htok hplain
      cases front with
      | nil => exact hstays.noExponent tok htok hplain
      | cons second front =>
        have hpos := List.length_pos_of_ne_nil (hne second (by simp))
        rw [List.flatMap_cons, List.length_append] at hi
        omega

theorem text_of_name {s s' : LexState} {c : Char} {rest rest' p : Text} {tok : Token}
    (h : lexStep s c rest = .ok (some tok, s', rest')) (hp : c :: rest = p ++ rest')
    (hkind : tok.kind = .NAME) :
  tok.text = String.ofList p
  := by
  obtain ⟨-, text, htext, hspells⟩ := lexStep_token h
  obtain rfl := List.append_cancel_right (htext.symm.trans hp)
  simp only [Spells, hkind] at hspells
  rw [← hspells, String.ofList_toList]

/-- A prefixed name is read as one. -/
theorem lexStep_prefixed {s₁ : LexState} {name after : Text}
    (hstart : pre.head?.any isIdentStart = true) (hpre : ∀ c ∈ pre, isIdentChar c = true)
    (hname : ∀ c ∈ name, isIdentChar c = true)
    (hkind : keywordKind (String.ofList (pre ++ name)) = .NAME)
    (hsep : pre.head? = some 'x' → s₁.before.head?.any Char.isDigit = false)
    (hafter : after.head?.any isIdentChar = false) :
  ∃ c rest tok s₁', pre ++ name ++ after = c :: rest ∧ lexStep s₁ c rest = .ok (some tok, s₁', after) ∧
    tok.kind = .NAME ∧ tok.text = String.ofList (pre ++ name)
  := by
  obtain ⟨c, pre, rfl⟩ : ∃ c pre', pre = c :: pre' := by
    cases pre with
    | nil => cases hstart
    | cons c pre => exact ⟨c, pre, rfl⟩
  have hmark : isShapeMark s₁.before c (pre ++ name ++ after) = false := by
    by_contra hmark
    simp only [isShapeMark, Bool.not_eq_false, Bool.and_eq_true, decide_eq_true_eq] at hmark
    obtain ⟨⟨rfl, hdigit⟩, -⟩ := hmark
    rw [hsep rfl] at hdigit
    cases hdigit
  have hchars : ∀ d ∈ c :: (pre ++ name), isIdentChar d = true := by
    intro d hd
    rw [← List.cons_append] at hd
    exact (List.mem_append.mp hd).elim (hpre d) (hname d)
  obtain ⟨htake, hdrop⟩ := takeWhile_append_eq hchars hafter
  have hstep := lexStep_ident hstart s₁ (pre ++ name ++ after)
  rw [hmark, ← List.cons_append, htake, hdrop] at hstep
  exact ⟨c, pre ++ name ++ after, _, _, rfl, hstep, hkind, rfl⟩

/-- Names that stay names can be prefixed. -/
theorem prefixed_of_staysName {s s₁ last : LexState} {text : Text}
    {pieces : List (Piece Char Token)} (h : lexer.Reads s text pieces last)
    (hhead : s₁.before.head? = s.before.head?)
    (hpre : (∃ j, mark j = true) → pre.head?.any isIdentStart = true)
    (hwords : ∀ front rest, text = front ++ rest → mark (s.before.length + front.length) = true →
      rest.head?.any isIdentStart = true ∧ rest.takeWhile isIdentChar ∈ names)
    (hstays : ∀ i, s.before.length ≤ i → i < s.before.length + text.length → mark i = true →
      StaysNameAt pre s.before pieces i) :
  ∃ pieces' last', lexer.Reads s₁ (insertFrom mark pre s.before.length text) pieces' last' ∧
    Prefixed names pre s.before pieces pieces'
  := by
  induction h generalizing s₁ with
  | nil s => exact ⟨[], s₁, .nil s₁, .nil _⟩
  | @cons s c rest o s' rest' p pieces last hstep htext hrest ih =>
    have hp := Scanner.ne_nil_of_step hstep htext
    have hpos := List.length_pos_of_ne_nil hp
    have hbefore := step_before hstep htext
    have hlength : s'.before.length = s.before.length + p.length := by
      rw [hbefore, List.length_append, List.length_reverse, Nat.add_comm]
    have hne := hrest.text_ne_nil
    rw [htext] at hwords hstays ⊢
    have hinner : ∀ j, s.before.length < j → j < s.before.length + p.length → mark j = false := by
      intro j hj hlt
      by_contra hmark
      have hat := hstays j hj.le (by rw [List.length_append]; omega) (by simpa using hmark)
      rcases hat.behind hne with ⟨rfl, -⟩ | ⟨hle, -⟩
      · exact lt_irrefl _ hj
      · exact absurd hlt (by simpa using hle)
    have hwords' : ∀ front rest, rest' = front ++ rest →
        mark (s'.before.length + front.length) = true →
        rest.head?.any isIdentStart = true ∧ rest.takeWhile isIdentChar ∈ names := by
      intro front rest hsplit hmark
      apply hwords (p ++ front) rest (by rw [hsplit, List.append_assoc])
      rwa [List.length_append, ← Nat.add_assoc, ← hlength]
    have halike : Alike rest' (insertFrom mark pre s'.before.length rest') :=
      alike_insertFrom hpre fun front rest hsplit hmark => (hwords' front rest hsplit hmark).1
    have hstays' : ∀ i, s'.before.length ≤ i → i < s'.before.length + rest'.length →
        mark i = true → StaysNameAt pre s'.before pieces i := by
      intro i hi hlt hmark
      have hat := hstays i (by omega) (by rw [List.length_append]; omega) hmark
      rcases hat.behind hne with ⟨rfl, -⟩ | ⟨-, hat, -⟩
      · omega
      · rwa [hbefore]
    have hnext := fun s₁' (hhead' : s₁'.before.head? = s'.before.head?) =>
      @ih s₁' hhead' hwords' hstays'
    rw [insertFrom_append, ← hlength]
    cases hmark : mark s.before.length with
    | true =>
      have hat := hstays s.before.length le_rfl (by rw [List.length_append]; omega) hmark
      obtain hstay : StaysName pre s.before none ⟨p, o⟩ (pieces.flatMap Piece.text) := by
        rcases hat.behind hne with ⟨-, hstay⟩ | ⟨hle, -⟩
        · exact hstay
        · simp only at hle
          omega
      obtain ⟨tok, rfl, hkind⟩ := hstay.name
      have hwhole := hstay.whole
      simp only [hrest.flatMap_text, ← htext] at hwhole
      obtain ⟨hstart, ⟨hsep, -⟩ | ⟨-, hdrop, -⟩⟩ := lexStep_name hstep hkind
      · simp [isSeparator, hsep] at hwhole
      have hword : p = (c :: rest).takeWhile isIdentChar := by
        apply List.append_cancel_right (htext.symm.trans _)
        rw [hdrop, List.takeWhile_append_dropWhile]
      have hchars : ∀ d ∈ p, isIdentChar d = true := by
        rw [hword]
        exact fun d hd => List.mem_takeWhile_imp hd
      have hstop : rest'.head?.any isIdentChar = false := by
        rw [hdrop]
        exact head_dropWhile_eq _ _
      have hafter : (insertFrom mark pre s'.before.length rest').head?.any isIdentChar = false := by
        rw [halike.any_eq true fun c hc => isIdentChar_of_isIdentStart hc, hstop]
      obtain ⟨d, rest₁, tok₁, s₁', hsplit, hstep₁, hkind₁, htext₁⟩ := lexStep_prefixed hstay.starts
        hstay.chars hchars hstay.noKeyword (fun hx => hhead ▸ hstay.noSeparator hx) hafter
      rw [insertFrom_first hp hmark hinner]
      have hhead₁ : s₁'.before.head? = s'.before.head? := by
        rw [step_before hstep₁ hsplit.symm, hbefore, List.reverse_append, List.append_assoc]
        exact head_reverse_append hp
      obtain ⟨pieces', last', hreads, hprefixed⟩ := hnext s₁' hhead₁
      refine ⟨⟨pre ++ p, some tok₁⟩ :: pieces', last', ?_, ?_⟩
      · rw [hsplit]
        exact .cons hstep₁ hsplit.symm hreads
      · have hmem := (hwords [] (p ++ rest') rfl hmark).2
        rw [← htext, ← hword] at hmem
        rw [hbefore] at hprefixed
        exact .name hmem hkind (text_of_name hstep htext hkind) hkind₁ htext₁ hstay.whole hprefixed
    | false =>
      have hclear : insertFrom mark pre s.before.length p = p := by
        apply insertFrom_clear
        intro j hj hlt
        rcases Nat.eq_or_lt_of_le hj with rfl | hj
        · exact hmark
        · exact hinner j hj hlt
      have hplain : ∀ tok ∈ o, IsPlainNumber tok →
          exponentMark (insertFrom mark pre s'.before.length rest') = [] := by
        rintro tok rfl hplain
        rw [exponentMark_eq_nil_iff]
        cases hnextMark : mark s'.before.length with
        | false =>
          rw [head_insertFrom hnextMark, ← exponentMark_eq_nil_iff]
          exact lexStep_plainNumber hstep hplain
        | true =>
          cases hrest' : rest' with
          | nil => simp [insertFrom]
          | cons d text =>
            have hat := hstays s'.before.length (by omega)
              (by rw [List.length_append, hrest', List.length_cons]; omega) hnextMark
            have hletter : pre.head? ≠ some 'e' ∧ pre.head? ≠ some 'E' := by
              rcases hat.behind hne with ⟨heq, -⟩ | ⟨-, -, hexpo⟩
              · omega
              · exact hexpo hlength tok rfl hplain
            have hpre' : pre ≠ [] := by
              rintro rfl
              cases hpre ⟨_, hnextMark⟩
            rw [insertFrom, if_pos hnextMark, List.head?_append_of_ne_nil _ hpre']
            exact hletter
      obtain ⟨q, hq, hrepeats⟩ := lexStep_repeats hstep
      obtain ⟨tok₁, s₁', hstep₁, hsame⟩ := hrepeats s₁ _ hhead halike hplain
      have hp' : p = c :: q := by
        rw [hq, ← List.cons_append] at htext
        exact (List.append_cancel_right htext).symm
      have hsplit : c :: (q ++ insertFrom mark pre s'.before.length rest') =
          p ++ insertFrom mark pre s'.before.length rest' := by rw [hp', List.cons_append]
      have hhead₁ : s₁'.before.head? = s'.before.head? := by
        rw [step_before hstep₁ hsplit, hbefore]
        exact head_reverse_append hp
      obtain ⟨pieces', last', hreads, hprefixed⟩ := hnext s₁' hhead₁
      rw [hbefore] at hprefixed
      refine ⟨⟨p, tok₁⟩ :: pieces', last', ?_, .same rfl hsame hprefixed⟩
      rw [hclear, ← hsplit]
      exact .cons hstep₁ hsplit hreads

/-! ### Prefixed names stayed names -/

theorem StaysNameAt.cons {before : Text} {piece : Piece Char Token}
    {pieces : List (Piece Char Token)} {i : ℕ}
    (h : StaysNameAt pre (piece.text.reverse ++ before) pieces i)
    (hexpo : pieces ≠ [] → i = before.length + piece.text.length → ∀ tok ∈ piece.output,
      IsPlainNumber tok → pre.head? ≠ some 'e' ∧ pre.head? ≠ some 'E') :
  StaysNameAt pre before (piece :: pieces) i
  := by
  obtain ⟨front, name, back, rfl, hi, hstays⟩ := h
  rw [List.length_append, List.length_reverse] at hi
  refine ⟨piece :: front, name, back, rfl, ?_, ?_⟩
  · rw [List.flatMap_cons, List.length_append]
    omega
  · rw [List.flatMap_cons, List.reverse_append, List.append_assoc]
    cases front with
    | nil =>
      rw [List.flatMap_nil, List.length_nil] at hi
      exact { hstays with noExponent := hexpo (by simp) (by omega) }
    | cons second front => rwa [List.getLast?_cons_cons]

theorem SameToken.isPlainNumber {tok tok' : Token} (h : SameToken tok tok')
    (hplain : IsPlainNumber tok) :
  IsPlainNumber tok'
  := by
  unfold IsPlainNumber
  rwa [h.1, h.2]

/-- What was read as a prefixed name is one. -/
theorem staysName_of_step {s s₁ s₁' : LexState} {c : Char} {p after rest₁ rest₁' : Text}
    {tok tok₁ : Token} (hpre : pre ≠ []) (hp : p ≠ []) (hkind : tok.kind = .NAME)
    (hwhole : isSeparator s.before (p ++ after) = false)
    (hstep₁ : lexStep s₁ c rest₁ = .ok (some tok₁, s₁', rest₁'))
    (htext₁ : c :: rest₁ = pre ++ p ++ rest₁') (hkind₁ : tok₁.kind = .NAME)
    (hhead : s₁.before.head? = s.before.head?) :
  StaysName pre s.before none ⟨p, some tok⟩ after
  := by
  obtain ⟨d, pre, rfl⟩ := List.exists_cons_of_ne_nil hpre
  obtain ⟨rfl, hrest₁⟩ := List.cons.inj htext₁
  obtain ⟨hstart, ⟨-, hshort⟩ | ⟨hmark, hdrop, hkw⟩⟩ := lexStep_name hstep₁ hkind₁
  · -- the separator of a shape has one character
    have hlength := congrArg List.length hrest₁
    have hpos := List.length_pos_of_ne_nil hp
    rw [hshort] at hlength
    simp only [List.append_eq, List.length_append] at hlength
    omega
  · have hword : c :: pre ++ p = (c :: rest₁).takeWhile isIdentChar := by
      apply List.append_cancel_right (htext₁.symm.trans _)
      rw [hdrop, List.takeWhile_append_dropWhile]
    have hchars : ∀ d ∈ c :: pre ++ p, isIdentChar d = true := by
      rw [hword]
      exact fun d hd => List.mem_takeWhile_imp hd
    refine ⟨⟨tok, rfl, hkind⟩, hwhole, hstart, ?_, ?_, ?_, by simp⟩
    · exact fun d hd => hchars d (List.mem_append_left _ hd)
    · rw [hword, hkw]
    · intro hx
      obtain rfl : c = 'x' := Option.some.inj hx
      have hnext : rest₁.head?.any isIdentChar = true := by
        obtain ⟨e, q, hq⟩ := List.exists_cons_of_ne_nil (List.append_ne_nil_of_right_ne_nil pre hp)
        have hsplit : rest₁ = pre ++ p ++ rest₁' := hrest₁
        rw [hsplit, hq, List.cons_append, List.head?_cons, Option.any_some]
        apply hchars
        rw [List.cons_append, hq]
        simp
      cases hrest : rest₁.head? with
      | none => simp [hrest] at hnext
      | some e =>
        rw [hrest, Option.any_some] at hnext
        simp only [isShapeMark, hrest, Option.any_some, hnext, decide_true, Bool.true_and,
          Bool.true_or, Bool.and_true] at hmark
        rw [← hhead, hmark]

/-- Wherever a prefix was put, a name stayed one. -/
theorem staysName_of_prefixed {s s₁ last last' : LexState} {text text₁ : Text}
    {pieces pieces' : List (Piece Char Token)} (hpre : pre ≠ [])
    (h : lexer.Reads s text pieces last) (h₁ : lexer.Reads s₁ text₁ pieces' last')
    (hprefixed : Prefixed names pre s.before pieces pieces')
    (hhead : s₁.before.head? = s.before.head?) :
  ∃ places : List ℕ, text₁ = insertFrom (fun i => i ∈ places) pre s.before.length text ∧
    ∀ i ∈ places, StaysNameAt pre s.before pieces i
  := by
  induction h generalizing s₁ text₁ pieces' with
  | nil s =>
    cases hprefixed
    cases h₁
    exact ⟨[], rfl, by simp⟩
  | @cons s c rest o s' rest' p pieces last hstep htext hrest ih =>
    have hp := Scanner.ne_nil_of_step hstep htext
    have hpos := List.length_pos_of_ne_nil hp
    have hbefore := step_before hstep htext
    have hlength : s'.before.length = s.before.length + p.length := by
      rw [hbefore, List.length_append, List.length_reverse, Nat.add_comm]
    have hlater : ∀ {places : List ℕ}, (∀ i ∈ places, StaysNameAt pre s'.before pieces i) →
        ∀ i ∈ places, s'.before.length ≤ i := by
      intro places hplaces i hi
      obtain ⟨front, -, -, -, rfl, -⟩ := hplaces i hi
      omega
    cases hprefixed with
    | same hsame htoken hprefixed =>
      cases h₁ with
      | @cons s₁ c₁ rest₁ o₁ s₁' rest₁' p₁ pieces' last' hstep₁ htext₁ hrest₁ =>
        simp only at hsame htoken hprefixed
        subst hsame
        rw [← hbefore] at hprefixed
        have hhead₁ : s₁'.before.head? = s'.before.head? := by
          rw [step_before hstep₁ htext₁, hbefore]
          exact head_reverse_append hp
        obtain ⟨places, hplaces, hstays⟩ := ih hrest₁ hprefixed hhead₁
        refine ⟨places, ?_, ?_⟩
        · rw [htext, htext₁, insertFrom_append, ← hlength, ← hplaces]
          congr 1
          symm
          apply insertFrom_clear
          intro j _ hlt
          by_contra hmark
          have := hlater hstays j (by simpa using hmark)
          omega
        · intro i hi
          have hat := hstays i hi
          rw [hbefore] at hat
          apply hat.cons
          intro hne hplace tok htok hplain
          obtain rfl : o = some tok := htok
          cases htoken with
          | @some _ tok₁ htoken =>
            have hexpo := lexStep_plainNumber hstep₁ (htoken.isPlainNumber hplain)
            rw [exponentMark_eq_nil_iff, hplaces] at hexpo
            cases hrest' : rest' with
            | nil =>
              rw [hrest'] at hrest
              cases hrest
              contradiction
            | cons d text =>
              rw [hrest', insertFrom, if_pos (by simpa [hlength, ← hplace] using hi),
                List.head?_append_of_ne_nil _ hpre] at hexpo
              exact hexpo
    | @name _ name tok tok₁ pieces _ hname hkind htext' hkind₁ htext'' hwhole hprefixed =>
      cases h₁ with
      | @cons s₁ c₁ rest₁ o₁ s₁' rest₁' p₁ pieces' last' hstep₁ htext₁ hrest₁ =>
        rw [← hbefore] at hprefixed
        have hhead₁ : s₁'.before.head? = s'.before.head? := by
          rw [step_before hstep₁ htext₁, hbefore, List.reverse_append, List.append_assoc]
          exact head_reverse_append hp
        obtain ⟨places, hplaces, hstays⟩ := ih hrest₁ hprefixed hhead₁
        have hin : ∀ i, s'.before.length ≤ i → (i ∈ s.before.length :: places ↔ i ∈ places) := by
          intro i hi
          rw [List.mem_cons, or_iff_right (by omega)]
        refine ⟨s.before.length :: places, ?_, ?_⟩
        · rw [htext, htext₁, insertFrom_append, ← hlength]
          congr 1
          · symm
            apply insertFrom_first hp (by simp)
            intro j hj hlt
            rw [decide_eq_false_iff_not, List.mem_cons]
            rintro (rfl | hmem)
            · exact lt_irrefl _ hj
            · have := hlater hstays j hmem
              omega
          · rw [hplaces]
            apply insertFrom_congr
            intro j hj _
            simp only [hin j hj]
        · intro i hi
          rcases List.mem_cons.mp hi with rfl | hi
          · refine ⟨[], _, _, rfl, rfl, ?_⟩
            exact staysName_of_step hpre hp hkind hwhole hstep₁ htext₁ hkind₁ hhead
          · have hat := hstays i hi
            rw [hbefore] at hat
            apply hat.cons
            intro _ _ tok' htok' hplain
            obtain rfl : tok = tok' := Option.some.inj htok'
            have hnumber := hplain.1
            simp [hkind] at hnumber

end

/-! ### Rewritten modules -/

/-- A state of the lexer in a text. -/
structure ReadTo (src read : Text) (s : LexState) (rest : Text) : Prop where
  before : s.before = read.reverse
  split : src = read ++ rest
  stops : s.before.head? = some '_' → rest.head?.any isIdentChar = false

theorem readTo_start (src : Text) : ReadTo src [] .start src := by
  constructor
  · rfl
  · rfl
  · rintro ⟨⟩

theorem ReadTo.step {src read : Text} {s s' : LexState} {c : Char} {rest rest' p : Text}
    {tok : Option Token} (h : ReadTo src read s (c :: rest))
    (hstep : lexStep s c rest = .ok (tok, s', rest')) (htext : c :: rest = p ++ rest') :
  ReadTo src (read ++ p) s' rest'
  := by
  constructor
  · rw [step_before hstep htext, h.before, List.reverse_append]
  · rw [h.split, htext, List.append_assoc]
  · exact lexStep_underscore hstep

/-- Where a name is, a word starts, and it is not behind an underscore. -/
theorem staysNameAt_around {src pre front rest : Text} {pieces : List (Piece Char Token)}
    {last : LexState} (h : lexer.Reads .start src pieces last) (hsrc : src = front ++ rest)
    (hstays : StaysNameAt pre [] pieces front.length) :
  rest.head?.any isIdentStart = true ∧ front.getLast? ≠ some '_'
  := by
  obtain ⟨read, piece, back, hpieces, hlength, hname⟩ := hstays
  obtain ⟨s, text, ⟨hbefore, hsplit, hunderscore⟩, hreads⟩ :=
    h.split hpieces (ReadTo src) (readTo_start src) fun hread hstep htext => hread.step hstep htext
  simp only [List.nil_append, List.length_nil, Nat.zero_add] at hbefore hsplit hlength
  obtain ⟨rfl, rfl⟩ := List.append_inj (hsrc.symm.trans hsplit) hlength
  cases hreads with
  | @cons s c rest o s' rest' p pieces last hstep htext hrest =>
    obtain ⟨tok, rfl, hkind⟩ := hname.name
    obtain ⟨hstart, -⟩ := lexStep_name hstep hkind
    refine ⟨hstart, fun hlast => ?_⟩
    have hend := hunderscore (by rw [hbefore, List.head?_reverse, hlast])
    rw [List.head?_cons, Option.any_some, isIdentChar_of_isIdentStart hstart] at hend
    cases hend

theorem respectsTokens_of_prefixesNames {src pre : Text} (h : PrefixesNames src pre) :
  RespectsTokens src pre
  := by
  intro pieces last hpieces
  have hstays := h pieces last hpieces
  have hwords : ∀ front rest, src = front ++ rest →
      decide (LexState.start.before.length + front.length ∈ localPrefixedPlaces src pre) = true →
      rest.head?.any isIdentStart = true ∧
        rest.takeWhile isIdentChar ∈ collectLocalModuleExportNames src := by
    intro front rest hsrc hmark
    have hmem : front.length ∈ localPrefixedPlaces src pre := by
      simpa [LexState.start] using hmark
    refine ⟨atStarts_localPrefixedPlaces src pre front rest hsrc (by simpa using hmem), ?_⟩
    obtain ⟨front', name, after, hsrc', hlength, hident⟩ := identAt_localPrefixedPlaces hmem
    obtain ⟨-, rfl⟩ := List.append_inj (hsrc.symm.trans hsrc') hlength
    rw [(takeWhile_append_eq hident.chars hident.stops).1]
    exact mem_exports_of_identAt hident
  have hpre : (∃ j, decide (j ∈ localPrefixedPlaces src pre) = true) →
      pre.head?.any isIdentStart = true := by
    rintro ⟨j, hj⟩
    obtain ⟨_, _, _, _, _, hname⟩ := hstays j (of_decide_eq_true hj)
    exact hname.starts
  have hhead : LexState.start.before.head? = LexState.start.before.head? := rfl
  obtain ⟨pieces', last', hreads, hprefixed⟩ := prefixed_of_staysName
    (lexer.reads_of_scan hpieces) hhead hpre hwords fun i _ _ hi => hstays i (of_decide_eq_true hi)
  refine ⟨pieces', last', ?_, hprefixed⟩
  rw [rewriteLocalModuleSource_eq]
  exact lexer.scan_of_reads hreads

theorem prefixesNames_of_respectsTokens {src pre : Text} (hlast : pre.getLast? = some '_')
    (h : RespectsTokens src pre) :
  PrefixesNames src pre
  := by
  intro pieces last hpieces
  obtain ⟨pieces', last', hpieces', hprefixed⟩ := h pieces last hpieces
  have hreads := lexer.reads_of_scan hpieces
  have hpre : pre ≠ [] := by
    rintro rfl
    cases hlast
  obtain ⟨places, hplaces, hstays⟩ := staysName_of_prefixed hpre hreads
    (lexer.reads_of_scan hpieces') hprefixed rfl
  rw [rewriteLocalModuleSource_eq] at hplaces
  have heq : ∀ j, j < src.length → j ∈ localPrefixedPlaces src pre → j ∈ places := by
    intro j hj hmem
    by_cases hchars : ∀ c ∈ pre, isIdentChar c = true
    · have hmarks := mark_eq_of_insertFrom_eq hchars hpre
        (fun c hc => isIdentChar_of_isIdentStart hc) (atStarts_localPrefixedPlaces src pre)
        (fun front rest hsrc hmark =>
          (staysNameAt_around hreads hsrc (hstays _ (of_decide_eq_true hmark))).1)
        (oncePerWord_localPrefixedPlaces src pre)
        (fun front rest hsrc hmark => by
          rw [hlast]
          exact (staysNameAt_around hreads hsrc (hstays _ (of_decide_eq_true hmark))).2)
        (show src = [] ++ src from rfl) hplaces j (Nat.zero_le j) (by simpa using hj)
      simpa [hmem] using hmarks
    · -- a prefix that no name can have was put nowhere
      have hnone : places = [] := by
        rw [List.eq_nil_iff_forall_not_mem]
        intro i hi
        obtain ⟨_, _, _, _, _, hname⟩ := hstays i hi
        exact hchars hname.chars
      rw [hnone] at hplaces
      have hsame := hplaces.trans (insertFrom_unmarked 0 src)
      have := unmarked_of_insertFrom_eq hpre hsame j (Nat.zero_le j) (by simpa using hj)
      simp [hmem] at this
  intro i hi
  apply hstays i
  apply heq i _ hi
  obtain ⟨front, name, after, hsrc, rfl, hident⟩ := identAt_localPrefixedPlaces hi
  have hname := hident.starts
  cases name with
  | nil => cases hname
  | cons c name =>
    rw [hsrc, List.length_append, List.length_append, List.length_cons]
    omega

/-- A rewritten module has the tokens of the module, but for names that were prefixed, if the
prefix is put before names that stay names only; for the prefixes of modules, only then. -/
theorem rewriteLocalModuleSource_respectsTokens (src : Text) :
  (∀ pre, PrefixesNames src pre → RespectsTokens src pre) ∧
    ∀ path, RespectsTokens src (modulePrefixFromPath path) →
      PrefixesNames src (modulePrefixFromPath path)
  := by
  constructor
  · intro pre h
    exact respectsTokens_of_prefixesNames h
  · intro path h
    apply prefixesNames_of_respectsTokens _ h
    simp [modulePrefixFromPath]

/-- The exponent of a number is taken for an exported name. -/
theorem not_rewriteLocalModuleSource_respectsTokens :
  ¬∀ src pre, RespectsTokens src pre
  := by
  intro h
  have hlex : (lexPieces "FN e5() -> FLT = (\n  ret 1e5\n)\n".toList).map
      (fun read => read.1.length) = .ok 22 := rfl
  obtain ⟨⟨pieces, last⟩, hpieces, hlength⟩ := except_map_eq_ok hlex
  obtain ⟨pieces', last', hpieces', hprefixed⟩ :=
    h _ (modulePrefixFromPath "util.cast".toList) pieces last hpieces
  have hlex' : (lexPieces (rewriteLocalModuleSource "FN e5() -> FLT = (\n  ret 1e5\n)\n".toList
      (modulePrefixFromPath "util.cast".toList))).map (fun read => read.1.length) = .ok 23 := rfl
  rw [hpieces'] at hlex'
  have hlength' : pieces'.length = 23 := Except.ok.inj hlex'
  have hsame := hprefixed.length_eq
  simp only at hlength
  omega

/-- The tokens of a module whose names stay names are those of the rewritten one. -/
theorem lexSource_rewriteLocalModuleSource {src pre : Text} (h : PrefixesNames src pre)
    {toks : List Token} (htoks : lexSource src = .ok toks) :
  ∃ toks', lexSource (rewriteLocalModuleSource src pre) = .ok toks' ∧
    List.Forall₂ (SameOrPrefixed (collectLocalModuleExportNames src) pre) toks toks'
  := by
  obtain ⟨⟨pieces, last⟩, hpieces, rfl⟩ := except_map_eq_ok htoks
  obtain ⟨pieces', last', hpieces', hprefixed⟩ :=
    respectsTokens_of_prefixesNames h pieces last hpieces
  refine ⟨pieces'.filterMap Piece.output ++ [last'.token .EOF []], ?_, ?_⟩
  · rw [lexSource, hpieces']
    rfl
  · exact List.rel_append hprefixed.tokens (.cons (.inl ⟨rfl, rfl⟩) .nil)

end Caster.Lex
