import Caster.Lex.Lexer

/-!
# Positions of tokens

The lexer counts lines and columns by hand wherever it reads.  Its counts are the places of
the characters in the text.
-/

namespace Caster.Lex

open Driver TextPlaces
open Parse (Token TokenKind ParseError)

/-- The place of the lexer. -/
def LexState.place (s : LexState) : Place := ⟨s.line, s.col⟩

/-- The place a token carries. -/
def place (tok : Token) : Place := ⟨tok.line, tok.col⟩

/-- The counts of a state are right before a text, and the state is not within an end of a line. -/
structure Placed (s : LexState) (text : Text) : Prop where
  place : s.place = placeAfter s.before.reverse
  between : Between s.before.reverse text

theorem placed_start (src : Text) : Placed .start src := ⟨rfl, between_nil src⟩

theorem Move.placed {a b : LexState × Text} (h : Move a b) (ha : Placed a.1 a.2) :
  Placed b.1 b.2
  := by
  obtain ⟨hplace, hbetween⟩ := ha
  cases h with
  | @char s c text hplain =>
    have hc : c ≠ '\r' := by
      rintro rfl
      cases hplain
    have hfront : Between s.before.reverse [c] := hbetween
    constructor
    · have hall : ∀ d ∈ [c], isLineEnd d = false := by simpa using hplain
      have hread := placeAfter_append_plain hfront hall
      simp only [LexState.chars, LexState.place, List.reverse_append, List.reverse_reverse, hread]
      rw [← hplace]
      rfl
    · apply between_of_getLast
      simp [LexState.chars, hc]
  | @lineEnd s p text hend hwhole =>
    have hne : p ≠ [] := by rcases hend with rfl | rfl | rfl <;> simp
    have hfront : Between s.before.reverse p := by
      unfold Between at hbetween ⊢
      rwa [List.head?_append_of_ne_nil _ hne] at hbetween
    constructor
    · have hread := placeAfter_append_lineEnd hfront hend
      simp only [LexState.lineEnd, LexState.place, List.reverse_append, List.reverse_reverse, hread]
      rw [← hplace]
      rfl
    · simp only [LexState.lineEnd, List.reverse_append, List.reverse_reverse]
      exact between_append hne hwhole

theorem Advances.placed {a b : LexState × Text} (h : Advances a b) (ha : Placed a.1 a.2) :
  Placed b.1 b.2
  := by
  induction h with
  | single hmove => exact hmove.placed ha
  | tail _ hmove ih => exact hmove.placed ih

/-- The lexer moves on to a later place. -/
theorem Advances.before {a b : LexState × Text} (h : Advances a b) (ha : Placed a.1 a.2) :
  a.1.place.Before b.1.place
  := by
  obtain ⟨p, hne, htext, hbefore⟩ := h.text
  have hfront : Between a.1.before.reverse p := by
    have := ha.between
    unfold Between at this ⊢
    rwa [htext, List.head?_append_of_ne_nil _ hne] at this
  rw [ha.place, (h.placed ha).place, hbefore, List.reverse_append, List.reverse_reverse]
  exact placeAfter_before hfront hne

/-! ### Tokens and their characters -/

/-- The characters a token is made of. -/
def Spells (text : Text) (tok : Token) : Prop :=
  match tok.kind with
  | .NEWLINE => IsLineEnd text
  | .STRING_LITERAL => text.head? = some quote ∨ text.head? = some backtick
  | _ => tok.text.toList = text

theorem keywordKind_ne (s : String) : keywordKind s ≠ .NEWLINE ∧ keywordKind s ≠ .STRING_LITERAL := by
  have hkeywords : ∀ kw ∈ keywords, kw.2 ≠ .NEWLINE ∧ kw.2 ≠ .STRING_LITERAL := by decide
  unfold keywordKind
  cases h : keywords.lookup s with
  | none => simp
  | some kind =>
    obtain ⟨front, back, heq, -⟩ := List.lookup_eq_some_iff.mp h
    exact hkeywords (s, kind) (by simp [heq])

theorem spells_of_ne {text : Text} {tok : Token} (hnewline : tok.kind ≠ .NEWLINE)
    (hstring : tok.kind ≠ .STRING_LITERAL) (h : tok.text.toList = text) :
  Spells text tok
  := by
  unfold Spells
  split <;> simp_all

theorem lexSign_kind {c : Char} {rest out rest' : Text} {kind : TokenKind}
    (h : lexSign c rest = some (kind, out, rest')) :
  kind ≠ .NEWLINE ∧ kind ≠ .STRING_LITERAL
  := by
  have hone : ∀ {c kind}, oneCharKind c = some kind → kind ≠ .NEWLINE ∧ kind ≠ .STRING_LITERAL := by
    intro c kind hkind
    unfold oneCharKind at hkind
    split at hkind <;> first | (cases hkind; simp) | cases hkind
  have htwo : ∀ {c d kind}, twoCharKind c d = some kind →
      kind ≠ .NEWLINE ∧ kind ≠ .STRING_LITERAL := by
    intro c d kind hkind
    unfold twoCharKind at hkind
    split at hkind <;> first | (cases hkind; simp) | cases hkind
  unfold lexSign at h
  split at h
  · obtain ⟨kind', hkind, heq⟩ := Option.map_eq_some_iff.mp h
    cases heq
    exact hone hkind
  · split at h
    · rename_i hkind
      cases h
      exact htwo hkind
    · obtain ⟨kind', hkind, heq⟩ := Option.map_eq_some_iff.mp h
      cases heq
      exact hone hkind

theorem lexNumber_spec {s s' : LexState} {text out rest' : Text} {kind : TokenKind}
    (h : lexNumber s text = .ok (kind, out, s', rest')) :
  text = out ++ rest' ∧ (kind = .INT_LITERAL ∨ kind = .FLT_LITERAL)
  := by
  simp only [lexNumber] at h
  set text₁ := text.dropWhile Char.isDigit with htext₁
  have hdigits : text = text.takeWhile Char.isDigit ++ text₁ := List.takeWhile_append_dropWhile.symm
  have hfrac := List.prefix_iff_eq_append.mp (fraction_front text₁)
  set text₂ := text₁.drop (fraction text₁).length
  have hmark := List.prefix_iff_eq_append.mp (exponentMark_front text₂)
  set text₃ := text₂.drop (exponentMark text₂).length
  by_cases hplain : exponentMark text₂ = []
  · rw [if_pos hplain] at h
    simp only [Except.ok.injEq, Prod.mk.injEq] at h
    obtain ⟨rfl, rfl, -, rfl⟩ := h
    constructor
    · rw [hplain, List.nil_append] at hmark
      rw [List.append_assoc, hmark, hfrac, ← hdigits]
    · split_ifs <;> simp
  · rw [if_neg hplain] at h
    split_ifs at h
    simp only [Except.ok.injEq, Prod.mk.injEq] at h
    obtain ⟨rfl, rfl, -, rfl⟩ := h
    constructor
    · rw [List.append_assoc, List.takeWhile_append_dropWhile, List.append_assoc, List.append_assoc,
        hmark, hfrac, ← hdigits]
    · exact .inr rfl

theorem splitLineEnd_spec {c : Char} (hend : isLineEnd c = true) (rest : Text) :
  c :: rest = (splitLineEnd c rest).1 ++ (splitLineEnd c rest).2 ∧ IsLineEnd (splitLineEnd c rest).1
  := by
  unfold splitLineEnd
  split_ifs with hpair
  · obtain ⟨rfl, hhead⟩ := hpair
    obtain ⟨text, rfl⟩ := List.head?_eq_some_iff.mp hhead
    exact ⟨rfl, by simp [IsLineEnd]⟩
  · exact ⟨rfl, isLineEnd_singleton hend⟩

theorem spells_token {s : LexState} {kind : TokenKind} {text : Text}
    (hkind : kind ≠ .NEWLINE ∧ kind ≠ .STRING_LITERAL) :
  Spells text (s.token kind text)
  := spells_of_ne hkind.1 hkind.2 String.toList_ofList

theorem spells_string {s : LexState} {c : Char} {rest rest' p out : Text}
    (hc : c = quote ∨ c = backtick) (hp : p ≠ []) (htext : c :: rest = p ++ rest') :
  Spells p (s.token .STRING_LITERAL out)
  := by
  cases p with
  | nil => contradiction
  | cons d p =>
    obtain rfl := (List.cons.inj htext).1
    simpa [Spells, LexState.token] using hc

/-- A token of a step is made of the characters of the step, and its place is where they start. -/
theorem lexStep_token {s s' : LexState} {c : Char} {rest rest' : Text} {tok : Token}
    (h : lexStep s c rest = .ok (some tok, s', rest')) :
  place tok = s.place ∧ ∃ text, c :: rest = text ++ rest' ∧ Spells text tok
  := by
  obtain ⟨p, hp, htext, -⟩ := (lexStep_advances h).text
  unfold lexStep at h
  split_ifs at h with hblank hend hline hblock hquote hraw hdigit hident hmark
  · cases h
  · cases h
    obtain ⟨hsplit, hisEnd⟩ := splitLineEnd_spec hend rest
    exact ⟨rfl, _, hsplit, hisEnd⟩
  · cases h
  · split at h <;> cases h
  · split at h
    · cases h
    · cases h
      exact ⟨rfl, p, htext, spells_string (.inl hquote) hp htext⟩
  · split at h
    · cases h
    · cases h
      exact ⟨rfl, p, htext, spells_string (.inr hraw) hp htext⟩
  · split at h
    · cases h
    · rename_i hnumber
      cases h
      obtain ⟨hsplit, hkind⟩ := lexNumber_spec hnumber
      refine ⟨rfl, _, hsplit, spells_token ?_⟩
      rcases hkind with rfl | rfl <;> simp
  · cases h
    exact ⟨rfl, [c], rfl, spells_token (by simp)⟩
  · cases h
    exact ⟨rfl, _, List.takeWhile_append_dropWhile.symm, spells_token (keywordKind_ne _)⟩
  · split at h
    · cases h
    · rename_i hsign
      cases h
      exact ⟨rfl, _, (lexSign_spec hsign).1, spells_token (lexSign_kind hsign)⟩

/-! ### Positions of all tokens -/

/-- The numbers of characters before the tokens of some pieces and before the end. -/
def startsFrom : ℕ → List (Piece Char Token) → List ℕ
  | start, [] => [start]
  | start, piece :: pieces =>
    if piece.output.isSome then start :: startsFrom (start + piece.text.length) pieces
    else startsFrom (start + piece.text.length) pieces

/-- The numbers of characters before the tokens of a text. -/
def tokenStarts (src : Text) : Except ParseError (List ℕ) :=
  (lexPieces src).map fun (pieces, _) => startsFrom 0 pieces

/-- A token starts behind some characters of a text and has their place. -/
structure StartsAt (src : Text) (tok : Token) (start : ℕ) : Prop where
  spelled : ∃ text after, src.drop start = text ++ after ∧ Spells text tok
  place : place tok = placeAfter (src.take start)

/-- The tokens of some pieces and the end. -/
def tokensOf (pieces : List (Piece Char Token)) (last : LexState) : List Token :=
  pieces.filterMap Piece.output ++ [last.token .EOF []]

theorem startsAt_end {s : LexState} (h : Placed s []) :
  StartsAt (s.before.reverse ++ []) (s.token .EOF []) s.before.length
  := by
  constructor
  · exact ⟨[], [], by simp, rfl⟩
  · rw [← List.length_reverse, List.take_left]
    exact h.place

theorem startsAt_step {s s' : LexState} {c : Char} {rest rest' : Text} {tok : Token}
    (h : lexStep s c rest = .ok (some tok, s', rest')) (hs : Placed s (c :: rest)) :
  StartsAt (s.before.reverse ++ c :: rest) tok s.before.length
  := by
  obtain ⟨hplace, text, htext, hspells⟩ := lexStep_token h
  rw [← List.length_reverse]
  constructor
  · exact ⟨text, rest', by rw [List.drop_left, htext], hspells⟩
  · rw [List.take_left, hplace, hs.place]

/-- Each token of the pieces of a text starts at its place. -/
theorem forall₂_startsAt {s last : LexState} {text : Text} {pieces : List (Piece Char Token)}
    (h : lexer.Reads s text pieces last) (hs : Placed s text) :
  List.Forall₂ (StartsAt (s.before.reverse ++ text)) (tokensOf pieces last)
    (startsFrom s.before.length pieces)
  := by
  induction h with
  | nil s => exact .cons (startsAt_end hs) .nil
  | @cons s c rest tok s' rest' p pieces last hstep htext hrest ih =>
    have hadvance := lexStep_advances hstep
    have hih := ih (hadvance.placed hs)
    obtain ⟨q, -, hq, hbefore⟩ := hadvance.text
    obtain rfl : p = q := List.append_cancel_right (htext.symm.trans hq)
    simp only at hbefore
    have hsrc : s'.before.reverse ++ rest' = s.before.reverse ++ c :: rest := by
      rw [hbefore, htext, List.reverse_append, List.reverse_reverse, List.append_assoc]
    have hlength : s'.before.length = s.before.length + p.length := by
      rw [hbefore, List.length_append, List.length_reverse, Nat.add_comm]
    rw [hsrc, hlength] at hih
    cases tok with
    | none => exact hih
    | some tok => exact .cons (startsAt_step hstep hs) hih

/-- The tokens of the pieces of a text follow each other. -/
theorem pairwise_tokensOf {s last : LexState} {text : Text} {pieces : List (Piece Char Token)}
    (h : lexer.Reads s text pieces last) (hs : Placed s text) :
  (tokensOf pieces last).Pairwise (fun a b => (place a).Before (place b)) ∧
    ∀ tok ∈ tokensOf pieces last, place tok = s.place ∨ s.place.Before (place tok)
  := by
  induction h with
  | nil s => simp [tokensOf, place, LexState.token, LexState.place]
  | @cons s c rest tok s' rest' p pieces last hstep htext hrest ih =>
    have hadvance := lexStep_advances hstep
    obtain ⟨hpairwise, hlater⟩ := ih (hadvance.placed hs)
    have hbefore : s.place.Before s'.place := hadvance.before hs
    have hbehind : ∀ tok ∈ tokensOf pieces last, s.place.Before (place tok) := by
      intro tok htok
      rcases hlater tok htok with heq | hlt
      · rwa [heq]
      · exact hbefore.trans hlt
    cases tok with
    | none => exact ⟨hpairwise, fun tok htok => .inr (hbehind tok htok)⟩
    | some tok =>
      obtain ⟨hplace, -⟩ := lexStep_token hstep
      change (tok :: tokensOf pieces last).Pairwise _ ∧ ∀ tok' ∈ tok :: tokensOf pieces last, _
      constructor
      · rw [List.pairwise_cons, hplace]
        exact ⟨hbehind, hpairwise⟩
      · intro tok' htok'
        rcases List.mem_cons.mp htok' with rfl | htok'
        · exact .inl hplace
        · exact .inr (hbehind tok' htok')

/-- Behind a text, the counts are right for all of it. -/
theorem placed_last {s last : LexState} {text : Text} {pieces : List (Piece Char Token)}
    (h : lexer.Reads s text pieces last) (hs : Placed s text) :
  last.place = placeAfter (s.before.reverse ++ text)
  := by
  induction h with
  | nil s => rw [hs.place, List.append_nil]
  | @cons s c rest tok s' rest' p pieces last hstep htext hrest ih =>
    have hadvance := lexStep_advances hstep
    obtain ⟨q, -, hq, hbefore⟩ := hadvance.text
    simp only at hq hbefore
    rw [ih (hadvance.placed hs), hbefore, hq, List.reverse_append, List.reverse_reverse,
      List.append_assoc]

/-- The line and column of each token of a text are those of its first character, and the
tokens follow each other. -/
theorem lexSource_places {src : Text} {toks : List Token} (h : lexSource src = .ok toks) :
  (∃ starts, tokenStarts src = .ok starts ∧ List.Forall₂ (StartsAt src) toks starts) ∧
    toks.Pairwise (fun a b => (place a).Before (place b))
  := by
  obtain ⟨⟨pieces, last⟩, hpieces, rfl⟩ := except_map_eq_ok h
  have hreads := lexer.reads_of_scan hpieces
  refine ⟨⟨startsFrom 0 pieces, ?_, ?_⟩, ?_⟩
  · rw [tokenStarts, hpieces]
    rfl
  · exact forall₂_startsAt hreads (placed_start src)
  · exact (pairwise_tokensOf hreads (placed_start src)).1

theorem lexSource_places_shape :
  ∃ toks, lexSource ['1', 'x', '2'] = .ok toks ∧
    (∃ starts, tokenStarts ['1', 'x', '2'] = .ok starts ∧
      List.Forall₂ (StartsAt ['1', 'x', '2']) toks starts) ∧
    toks.Pairwise (fun a b => (place a).Before (place b))
  := ⟨_, rfl, lexSource_places rfl⟩

end Caster.Lex
