import Caster.Lex.Positions

/-!
# What a step looks at

A step of the lexer looks at no more than two characters behind those it reads.  If a word
starts there, it does not matter which one, except behind a number.
-/

namespace Caster.Lex

open Driver TextPlaces
open Parse (Token TokenKind ParseError)

/-- Two texts are the same up to a place where both go on with a word. -/
inductive Alike : Text → Text → Prop
  | nil : Alike [] []
  | char {text text'} (c : Char) (h : Alike text text') : Alike (c :: text) (c :: text')
  | word {c d text text'} (hc : isIdentStart c = true) (hd : isIdentStart d = true) :
    Alike (c :: text) (d :: text')

theorem Alike.append {text text' : Text} (h : Alike text text') (p : Text) : Alike (p ++ text) (p ++ text') := by
  induction p with
  | nil => exact h
  | cons c p ih => exact .char c ih

/-- The first characters of texts that are alike are the same or both start words. -/
theorem Alike.any_eq {text text' : Text} (h : Alike text text') {q : Char → Bool} (b : Bool)
    (hq : ∀ c, isIdentStart c = true → q c = b) :
  text'.head?.any q = text.head?.any q
  := by
  cases h with
  | nil => rfl
  | char c h => rfl
  | word hc hd => simp [hq _ hc, hq _ hd]

theorem Alike.head_eq {text text' : Text} {c : Char} (h : Alike text text')
    (hc : isIdentStart c = false) :
  text'.head? = some c → text.head? = some c
  := by
  intro hhead
  cases h with
  | nil => cases hhead
  | char d h => exact hhead
  | word hd he =>
    cases hhead
    simp [hc] at he

/-- A text reads as far as a condition holds. -/
theorem takeWhile_append_eq {q : Char → Bool} {p rest : Text} (hp : ∀ c ∈ p, q c = true)
    (hrest : rest.head?.any q = false) :
  (p ++ rest).takeWhile q = p ∧ (p ++ rest).dropWhile q = rest
  := by
  have hstop : rest.takeWhile q = [] ∧ rest.dropWhile q = rest := by
    cases rest with
    | nil => exact ⟨rfl, rfl⟩
    | cons c rest =>
      have hc : ¬q c = true := by simpa using hrest
      exact ⟨List.takeWhile_cons_of_neg hc, List.dropWhile_cons_of_neg hc⟩
  constructor
  · rw [List.takeWhile_append_of_pos hp, hstop.1, List.append_nil]
  · rw [List.dropWhile_append_of_pos hp, hstop.2]

theorem head_dropWhile_eq (q : Char → Bool) (text : Text) : (text.dropWhile q).head?.any q = false := by
  have h := List.head?_dropWhile_not q text
  cases hhead : (text.dropWhile q).head? with
  | none => rfl
  | some c => simpa [hhead] using h

/-! ### Comments and strings -/

theorem head_append {q rest after text : Text} {d : Char} (hq : q ≠ [])
    (h : q ++ after = d :: text) :
  ∃ text', q ++ rest = d :: text'
  := by
  cases q with
  | nil => contradiction
  | cons e q =>
    obtain ⟨rfl, -⟩ := List.cons.inj h
    exact ⟨q ++ rest, rfl⟩

/-- A block comment is read without a look at what follows. -/
theorem blockComment_reads {text rest : Text} {s s' : LexState}
    (h : blockComment text s = some (s', rest)) :
  ∃ p, p ≠ [] ∧ text = p ++ rest ∧
    ∀ s₁ after, ∃ s₁', blockComment (p ++ after) s₁ = some (s₁', after)
  := by
  induction text, s using blockComment.induct with
  | case1 s => cases h
  | case2 text s =>
    cases h
    exact ⟨['*', '/'], by simp, rfl, fun s₁ after => ⟨_, rfl⟩⟩
  | case3 text s ih =>
    obtain ⟨p, hp, rfl, hreads⟩ := ih h
    refine ⟨'\r' :: '\n' :: p, by simp, rfl, fun s₁ after => ?_⟩
    exact hreads (s₁.lineEnd ['\r', '\n']) after
  | case4 c text s hclose hpair hend ih =>
    rw [blockComment.eq_4 _ _ _ hclose hpair, if_pos hend] at h
    obtain ⟨p, hp, rfl, hreads⟩ := ih h
    refine ⟨c :: p, by simp, rfl, fun s₁ after => ?_⟩
    obtain ⟨s₁', hs₁'⟩ := hreads (s₁.lineEnd [c]) after
    refine ⟨s₁', ?_⟩
    rw [List.cons_append, blockComment.eq_4, if_pos hend, hs₁']
    · intro text hc heq
      obtain ⟨text', htext'⟩ := head_append hp heq
      exact hclose text' hc htext'
    · intro text hc heq
      obtain ⟨text', htext'⟩ := head_append hp heq
      exact hpair text' hc htext'
  | case5 c text s hclose hpair hend ih =>
    rw [blockComment.eq_4 _ _ _ hclose hpair, if_neg hend] at h
    obtain ⟨p, hp, rfl, hreads⟩ := ih h
    refine ⟨c :: p, by simp, rfl, fun s₁ after => ?_⟩
    obtain ⟨s₁', hs₁'⟩ := hreads (s₁.chars [c]) after
    refine ⟨s₁', ?_⟩
    rw [List.cons_append, blockComment.eq_4, if_neg hend, hs₁']
    · intro text hc heq
      obtain ⟨text', htext'⟩ := head_append hp heq
      exact hclose text' hc htext'
    · intro text hc heq
      obtain ⟨text', htext'⟩ := head_append hp heq
      exact hpair text' hc htext'

/-- A string is read without a look at what follows. -/
theorem lexString_reads {start s s' : LexState} {text out rest : Text}
    (h : lexString start text s = .ok (out, s', rest)) :
  ∃ p, p ≠ [] ∧ text = p ++ rest ∧
    ∀ start₁ s₁ after, ∃ s₁', lexString start₁ (p ++ after) s₁ = .ok (out, s₁', after)
  := by
  induction text, s using lexString.induct generalizing out with
  | case1 s => cases h
  | case2 s => cases h
  | case3 e text s hescape =>
    rw [lexString, hescape] at h
    cases h
  | case4 e text s o hescape ih =>
    rw [lexString, hescape] at h
    obtain ⟨⟨out', s₁, rest₁⟩, hrest, heq⟩ := except_map_eq_ok h
    cases heq
    obtain ⟨p, hp, rfl, hreads⟩ := ih hrest
    refine ⟨'\\' :: e :: p, by simp, rfl, fun start₁ s₁ after => ?_⟩
    obtain ⟨s₁', hs₁'⟩ := hreads start₁ (s₁.chars ['\\', e]) after
    refine ⟨s₁', ?_⟩
    rw [List.cons_append, List.cons_append, lexString, hescape]
    simp only [hs₁']
    rfl
  | case5 text s hlast hescape =>
    rw [lexString.eq_4 _ _ _ _ hlast hescape, if_pos rfl] at h
    cases h
    exact ⟨[quote], by simp, rfl, fun start₁ s₁ after => ⟨_, rfl⟩⟩
  | case6 c text s hlast hescape hquote hend =>
    rw [lexString.eq_4 _ _ _ _ hlast hescape, if_neg hquote, if_pos hend] at h
    cases h
  | case7 c text s hlast hescape hquote hend ih =>
    rw [lexString.eq_4 _ _ _ _ hlast hescape, if_neg hquote, if_neg hend] at h
    obtain ⟨⟨out', s₁, rest₁⟩, hrest, heq⟩ := except_map_eq_ok h
    cases heq
    have hslash : c ≠ '\\' := by
      intro hc
      cases text with
      | nil => exact hlast hc rfl
      | cons d text => exact hescape d text hc rfl
    obtain ⟨p, hp, rfl, hreads⟩ := ih hrest
    refine ⟨c :: p, by simp, rfl, fun start₁ s₁ after => ?_⟩
    obtain ⟨s₁', hs₁'⟩ := hreads start₁ (s₁.chars [c]) after
    refine ⟨s₁', ?_⟩
    rw [List.cons_append, lexString.eq_4 _ _ _ _ (by simp [hslash]) (by simp [hslash]),
      if_neg hquote, if_neg hend, hs₁']
    rfl

/-- A raw string is read without a look at what follows. -/
theorem lexRaw_reads {s s' : LexState} {text out rest : Text}
    (h : lexRaw text s = some (out, s', rest)) :
  ∃ p, p ≠ [] ∧ text = p ++ rest ∧
    ∀ s₁ after, ∃ s₁', lexRaw (p ++ after) s₁ = some (out, s₁', after)
  := by
  induction text, s using lexRaw.induct generalizing out with
  | case1 s => cases h
  | case2 text s ih =>
    obtain ⟨⟨out', s₁, rest₁⟩, hrest, heq⟩ := Option.map_eq_some_iff.mp h
    cases heq
    obtain ⟨p, hp, rfl, hreads⟩ := ih hrest
    refine ⟨'\r' :: '\n' :: p, by simp, rfl, fun s₁ after => ?_⟩
    obtain ⟨s₁', hs₁'⟩ := hreads (s₁.lineEnd ['\r', '\n']) after
    exact ⟨s₁', by rw [List.cons_append, List.cons_append, lexRaw, hs₁']; rfl⟩
  | case3 text s hpair =>
    rw [lexRaw.eq_3 _ _ _ hpair, if_pos rfl] at h
    cases h
    exact ⟨[backtick], by simp, rfl, fun s₁ after => ⟨_, rfl⟩⟩
  | case4 c text s hpair hmark hend ih =>
    rw [lexRaw.eq_3 _ _ _ hpair, if_neg hmark, if_pos hend] at h
    obtain ⟨⟨out', s₁, rest₁⟩, hrest, heq⟩ := Option.map_eq_some_iff.mp h
    cases heq
    obtain ⟨p, hp, rfl, hreads⟩ := ih hrest
    refine ⟨c :: p, by simp, rfl, fun s₁ after => ?_⟩
    obtain ⟨s₁', hs₁'⟩ := hreads (s₁.lineEnd [c]) after
    refine ⟨s₁', ?_⟩
    rw [List.cons_append, lexRaw.eq_3, if_neg hmark, if_pos hend, hs₁']
    · rfl
    · intro text hc heq
      obtain ⟨text', htext'⟩ := head_append hp heq
      exact hpair text' hc htext'
  | case5 c text s hpair hmark hend ih =>
    rw [lexRaw.eq_3 _ _ _ hpair, if_neg hmark, if_neg hend] at h
    obtain ⟨⟨out', s₁, rest₁⟩, hrest, heq⟩ := Option.map_eq_some_iff.mp h
    cases heq
    obtain ⟨p, hp, rfl, hreads⟩ := ih hrest
    refine ⟨c :: p, by simp, rfl, fun s₁ after => ?_⟩
    obtain ⟨s₁', hs₁'⟩ := hreads (s₁.chars [c]) after
    refine ⟨s₁', ?_⟩
    rw [List.cons_append, lexRaw.eq_3, if_neg hmark, if_neg hend, hs₁']
    · rfl
    · intro text hc heq
      obtain ⟨text', htext'⟩ := head_append hp heq
      exact hpair text' hc htext'

/-! ### Numbers -/

/-- A number without an exponent. -/
def IsPlainNumber (tok : Token) : Prop :=
  (tok.kind = .INT_LITERAL ∨ tok.kind = .FLT_LITERAL) ∧ 'e' ∉ tok.text.toList ∧ 'E' ∉ tok.text.toList

theorem fraction_digits (text : Text) : ∀ c ∈ fraction text, c = '.' ∨ c.isDigit = true := by
  unfold fraction
  split
  · split_ifs
    · intro c hc
      rcases List.mem_cons.mp hc with rfl | hc
      · exact .inl rfl
      · exact .inr (List.mem_takeWhile_imp hc)
    · simp
  · simp

theorem isPlainNumber_token {s : LexState} {text : Text} {kind : TokenKind}
    (hkind : kind = .INT_LITERAL ∨ kind = .FLT_LITERAL) :
  IsPlainNumber (s.token kind (text.takeWhile Char.isDigit ++ fraction (text.dropWhile Char.isDigit)))
  := by
  have hdigits : ∀ c ∈ text.takeWhile Char.isDigit ++ fraction (text.dropWhile Char.isDigit),
      c = '.' ∨ c.isDigit = true := by
    intro c hc
    rcases List.mem_append.mp hc with hc | hc
    · exact .inr (List.mem_takeWhile_imp hc)
    · exact fraction_digits _ c hc
  refine ⟨hkind, ?_, ?_⟩
  · intro he
    rw [LexState.token, String.toList_ofList] at he
    rcases hdigits _ he with h | h <;> cases h
  · intro he
    rw [LexState.token, String.toList_ofList] at he
    rcases hdigits _ he with h | h <;> cases h

/-- Whether a fraction follows does not depend on a word. -/
theorem fraction_alike {text text' : Text} (h : Alike text text') (hnone : fraction text = []) :
  fraction text' = []
  := by
  have hword : ∀ {c : Char} {rest : Text}, isIdentStart c = true → fraction (c :: rest) = [] := by
    intro c rest hc
    apply fraction_eq_nil
    rintro ⟨rfl, _⟩
    cases hc
  cases h with
  | nil => rfl
  | word hc hd => exact hword hd
  | @char text text' c h =>
    cases h with
    | nil => exact hnone
    | @char rest rest' d h =>
      unfold fraction at hnone ⊢
      grind
    | @word d e rest rest' hd he =>
      unfold fraction
      have := isDigit_of_isIdentStart he
      grind

/-- A fraction that is not followed by a digit is read again. -/
theorem fraction_append {text after : Text} (hsome : fraction text ≠ [])
    (hafter : after.head?.any Char.isDigit = false) :
  fraction (fraction text ++ after) = fraction text
  := by
  unfold fraction at hsome
  split at hsome
  · rename_i d rest
    split_ifs at hsome with hd
    · have hfrac : fraction ('.' :: d :: rest) = '.' :: d :: rest.takeWhile Char.isDigit := by
        simp [fraction, hd]
      have hdigits : ∀ c ∈ rest.takeWhile Char.isDigit, c.isDigit = true :=
        fun c hc => List.mem_takeWhile_imp hc
      have htake := (takeWhile_append_eq hdigits hafter).1
      rw [hfrac]
      simp only [List.cons_append, fraction, hd, if_true, List.takeWhile_cons_of_pos hd, htake]
    · contradiction
  · contradiction

/-- No digit follows a fraction. -/
theorem fraction_stop {text : Text} (hsome : fraction text ≠ []) :
  (text.drop (fraction text).length).head?.any Char.isDigit = false ∧
    ∃ rest, fraction text = '.' :: rest
  := by
  unfold fraction at hsome
  split at hsome
  · rename_i d rest
    split_ifs at hsome with hd
    · have hfrac : fraction ('.' :: d :: rest) = '.' :: (d :: rest).takeWhile Char.isDigit := by
        simp [fraction, hd]
      rw [hfrac, List.length_cons, List.drop_succ_cons, drop_takeWhile]
      exact ⟨head_dropWhile_eq _ _, _, rfl⟩
    · contradiction
  · contradiction

theorem exponentMark_head {text : Text} (hsome : exponentMark text ≠ []) :
  ∃ e rest, exponentMark text = e :: rest ∧ (e = 'e' ∨ e = 'E')
  := by
  unfold exponentMark at hsome ⊢
  split at hsome
  · contradiction
  · split_ifs at hsome with he
    · exact ⟨_, _, if_pos he, he⟩
    · contradiction

/-- The mark of an exponent is read again before its digits. -/
theorem exponentMark_append {text : Text} {d : Char} (hd : d.isDigit = true)
    (hsome : exponentMark text ≠ []) (after : Text) :
  exponentMark (exponentMark text ++ d :: after) = exponentMark text
  := by
  have hsign : ¬(decide (d = '+') || decide (d = '-')) = true := by
    simp only [Bool.or_eq_true, decide_eq_true_eq]
    rintro (rfl | rfl) <;> cases hd
  unfold exponentMark at hsome
  split at hsome
  · contradiction
  · rename_i e rest
    split_ifs at hsome with he
    · cases rest with
      | nil => simp [exponentMark, he, hsign]
      | cons sign rest =>
        by_cases hs : (decide (sign = '+') || decide (sign = '-')) = true
        · simp [exponentMark, he, hs]
        · simp [exponentMark, he, hs, hsign]
    · contradiction

/-- A number is read by its parts. -/
theorem lexNumber_parts {digits frac rest : Text} (hdigits : ∀ c ∈ digits, c.isDigit = true)
    (hhead : (frac ++ rest).head?.any Char.isDigit = false) (hfrac : fraction (frac ++ rest) = frac)
    (s : LexState) :
  lexNumber s (digits ++ (frac ++ rest)) =
    if exponentMark rest = [] then
      .ok (if frac = [] then .INT_LITERAL else .FLT_LITERAL, digits ++ frac,
        (s.chars digits).chars frac, rest)
    else
      let s' := ((s.chars digits).chars frac).chars (exponentMark rest)
      let text := rest.drop (exponentMark rest).length
      let expo := text.takeWhile Char.isDigit
      if expo = [] then .error (s'.dieAt "expected exponent digits")
      else
        .ok (.FLT_LITERAL, digits ++ frac ++ exponentMark rest ++ expo, s'.chars expo,
          text.dropWhile Char.isDigit)
  := by
  obtain ⟨htake, hdrop⟩ := takeWhile_append_eq hdigits hhead
  unfold lexNumber
  simp only [htake, hdrop, hfrac, List.drop_left]
  by_cases hmark : exponentMark rest = []
  · simp only [hmark, if_true, List.length_nil, List.drop_zero]
    rfl
  · simp only [hmark, if_false]

/-- A number is read with a look at what follows only for more digits, a fraction or an
exponent. -/
theorem lexNumber_reads {s s' : LexState} {text out rest after : Text} {kind : TokenKind}
    (h : lexNumber s text = .ok (kind, out, s', rest)) (halike : Alike rest after)
    (hmark : IsPlainNumber (s.token kind out) → exponentMark after = []) (s₁ : LexState) :
  ∃ s₁', lexNumber s₁ (out ++ after) = .ok (kind, out, s₁', after)
  := by
  simp only [lexNumber] at h
  set text₁ := text.dropWhile Char.isDigit with htext₁
  have hdigits : ∀ c ∈ text.takeWhile Char.isDigit, c.isDigit = true :=
    fun c hc => List.mem_takeWhile_imp hc
  have hhead₁ : text₁.head?.any Char.isDigit = false := head_dropWhile_eq _ _
  have hstop := @fraction_stop text₁
  have hfrac := List.prefix_iff_eq_append.mp (fraction_front text₁)
  set text₂ := text₁.drop (fraction text₁).length
  have hhead : ∀ {after : Text}, (fraction text₁ = [] → after.head?.any Char.isDigit = false) →
      (fraction text₁ ++ after).head?.any Char.isDigit = false := by
    intro after hafter
    by_cases hnone : fraction text₁ = []
    · rw [hnone]
      exact hafter hnone
    · obtain ⟨-, rest', hrest'⟩ := hstop hnone
      rw [hrest']
      rfl
  by_cases hplain : exponentMark text₂ = []
  · rw [if_pos hplain] at h
    simp only [Except.ok.injEq, Prod.mk.injEq, hplain, List.length_nil, List.drop_zero] at h
    obtain ⟨hkind, rfl, -, rfl⟩ := h
    have hdigit := halike.any_eq false fun c hc => isDigit_of_isIdentStart hc
    have hafter : fraction (fraction text₁ ++ after) = fraction text₁ := by
      by_cases hnone : fraction text₁ = []
      · rw [hnone, List.nil_append] at hfrac
        rw [hnone]
        exact fraction_alike halike (hfrac ▸ hnone)
      · exact fraction_append hnone (hdigit.trans (hstop hnone).1)
    have hfirst : fraction text₁ = [] → after.head?.any Char.isDigit = false := by
      intro hnone
      rw [hnone, List.nil_append] at hfrac
      rw [hdigit, hfrac, hhead₁]
    have hnumber : IsPlainNumber (s.token kind (text.takeWhile Char.isDigit ++ fraction text₁)) := by
      apply isPlainNumber_token
      rw [← hkind]
      split_ifs <;> simp
    rw [List.append_assoc, lexNumber_parts hdigits (hhead hfirst) hafter, if_pos (hmark hnumber), hkind]
    exact ⟨_, rfl⟩
  · rw [if_neg hplain] at h
    split_ifs at h with hexpo
    simp only [Except.ok.injEq, Prod.mk.injEq] at h
    obtain ⟨rfl, rfl, -, rfl⟩ := h
    obtain ⟨e, sign, hmark₂, he⟩ := exponentMark_head hplain
    set text₃ := text₂.drop (exponentMark text₂).length
    have hdigit := halike.any_eq false fun c hc => isDigit_of_isIdentStart hc
    have hexpos : ∀ c ∈ text₃.takeWhile Char.isDigit, c.isDigit = true :=
      fun c hc => List.mem_takeWhile_imp hc
    have hafter : after.head?.any Char.isDigit = false := hdigit.trans (head_dropWhile_eq _ _)
    obtain ⟨htake, hdrop⟩ := takeWhile_append_eq hexpos hafter
    set new := exponentMark text₂ ++ (text₃.takeWhile Char.isDigit ++ after) with hnew
    have hfirst : new.head?.any Char.isDigit = false := by
      rw [hnew, hmark₂]
      rcases he with rfl | rfl <;> rfl
    have hnewMark : exponentMark new = exponentMark text₂ := by
      obtain ⟨d, digits, hd⟩ := List.exists_cons_of_ne_nil hexpo
      rw [hnew, hd]
      exact exponentMark_append (hexpos d (by simp [hd])) hplain _
    have hnewFrac : fraction (fraction text₁ ++ new) = fraction text₁ := by
      by_cases hnone : fraction text₁ = []
      · rw [hnone, List.nil_append, hnew, hmark₂]
        rcases he with rfl | rfl <;> simp [fraction]
      · exact fraction_append hnone hfirst
    have hsplit : text.takeWhile Char.isDigit ++ fraction text₁ ++ exponentMark text₂ ++
        text₃.takeWhile Char.isDigit ++ after =
        text.takeWhile Char.isDigit ++ (fraction text₁ ++ new) := by
      simp [hnew]
    rw [hsplit, lexNumber_parts hdigits (hhead fun _ => hfirst) hnewFrac, hnewMark, if_neg hplain]
    simp only [hnew, List.drop_left, htake, hdrop, if_neg hexpo]
    exact ⟨_, rfl⟩

/-! ### Steps -/

/-- Tokens of the same kind and text, at whatever places. -/
def SameToken (tok tok' : Token) : Prop := tok'.kind = tok.kind ∧ tok'.text = tok.text

theorem sameToken_token (s s₁ : LexState) (kind : TokenKind) (text : Text) :
  Option.Rel SameToken (some (s.token kind text)) (some (s₁.token kind text))
  := .some ⟨rfl, rfl⟩

theorem lexStep_lineEnd {c : Char} (hend : isLineEnd c = true) (s : LexState) (rest : Text) :
  lexStep s c rest = .ok (some (s.token .NEWLINE ['\n']), s.lineEnd (splitLineEnd c rest).1,
    (splitLineEnd c rest).2)
  := by
  have hblank : ¬(c = ' ' ∨ c = '\t') := by
    rintro (rfl | rfl) <;> cases hend
  unfold lexStep
  rw [if_neg hblank, if_pos hend]

/-- A step can be repeated before another text that is alike. -/
def Repeats (s : LexState) (c : Char) (p rest : Text) (tok : Option Token) : Prop :=
  ∀ (s₁ : LexState) (after : Text), s₁.before.head? = s.before.head? → Alike rest after →
    (∀ t ∈ tok, IsPlainNumber t → exponentMark after = []) →
    ∃ tok₁ s₁', lexStep s₁ c (p ++ after) = .ok (tok₁, s₁', after) ∧ Option.Rel SameToken tok tok₁

theorem repeats_lineEnd {s : LexState} {c : Char} {rest : Text} (hend : isLineEnd c = true) :
  ∃ p, rest = p ++ (splitLineEnd c rest).2 ∧
    Repeats s c p (splitLineEnd c rest).2 (some (s.token .NEWLINE ['\n']))
  := by
  by_cases hpair : c = '\r' ∧ rest.head? = some '\n'
  · obtain ⟨rfl, hhead⟩ := hpair
    obtain ⟨text, rfl⟩ := List.head?_eq_some_iff.mp hhead
    exact ⟨['\n'], rfl, fun s₁ after _ _ _ => ⟨_, _, rfl, sameToken_token _ _ _ _⟩⟩
  · have hsplit : splitLineEnd c rest = ([c], rest) := if_neg hpair
    refine ⟨[], by rw [hsplit]; rfl, fun s₁ after _ halike _ => ?_⟩
    rw [hsplit] at halike
    have hafter : ¬(c = '\r' ∧ after.head? = some '\n') :=
      fun ⟨hc, hhead⟩ => hpair ⟨hc, halike.head_eq rfl hhead⟩
    have hsplit' : splitLineEnd c after = ([c], after) := if_neg hafter
    have hstep := lexStep_lineEnd hend s₁ after
    rw [hsplit'] at hstep
    exact ⟨_, _, hstep, sameToken_token _ _ _ _⟩

theorem inLine_of_isIdentStart {c : Char} (h : isIdentStart c = true) : inLine c = true := by
  simp [inLine, isIdentStart_plain h]

theorem repeats_lineComment {s : LexState} {text : Text} :
  Repeats s '/' ('/' :: text.takeWhile inLine) (text.dropWhile inLine) none
  := by
  intro s₁ after _ halike _
  have hany := halike.any_eq true fun c hc => inLine_of_isIdentStart hc
  have hlines : ∀ c ∈ text.takeWhile inLine, inLine c = true := fun c hc => List.mem_takeWhile_imp hc
  obtain ⟨htake, hdrop⟩ := takeWhile_append_eq hlines (hany.trans (head_dropWhile_eq _ _))
  refine ⟨none, (s₁.chars ['/', '/']).chars (text.takeWhile inLine), ?_, .none⟩
  change Except.ok (none, (s₁.chars ['/', '/']).chars ((text.takeWhile inLine ++ after).takeWhile inLine),
    (text.takeWhile inLine ++ after).dropWhile inLine) = _
  rw [htake, hdrop]

theorem repeats_blockComment {s s' s'' : LexState} {text rest : Text}
    (h : blockComment text s'' = some (s', rest)) :
  ∃ p, '*' :: text = p ++ rest ∧ Repeats s '/' p rest none
  := by
  obtain ⟨p, hp, rfl, hreads⟩ := blockComment_reads h
  refine ⟨'*' :: p, rfl, fun s₁ after _ _ _ => ?_⟩
  obtain ⟨s₁', hs₁'⟩ := hreads (s₁.chars ['/', '*']) after
  refine ⟨none, s₁', ?_, .none⟩
  rw [List.cons_append, lexStep_comment, hs₁']

theorem repeats_string {s s' s'' : LexState} {text out rest : Text}
    (h : lexString s text s'' = .ok (out, s', rest)) :
  ∃ p, text = p ++ rest ∧ Repeats s quote p rest (some (s.token .STRING_LITERAL out))
  := by
  obtain ⟨p, hp, rfl, hreads⟩ := lexString_reads h
  refine ⟨p, rfl, fun s₁ after _ _ _ => ?_⟩
  obtain ⟨s₁', hs₁'⟩ := hreads s₁ (s₁.chars [quote]) after
  refine ⟨_, s₁', ?_, sameToken_token s s₁ _ _⟩
  rw [lexStep_quote, hs₁']

theorem repeats_raw {s s' s'' : LexState} {text out rest : Text}
    (h : lexRaw text s'' = some (out, s', rest)) :
  ∃ p, text = p ++ rest ∧ Repeats s backtick p rest (some (s.token .STRING_LITERAL out))
  := by
  obtain ⟨p, hp, rfl, hreads⟩ := lexRaw_reads h
  refine ⟨p, rfl, fun s₁ after _ _ _ => ?_⟩
  obtain ⟨s₁', hs₁'⟩ := hreads (s₁.chars [backtick]) after
  refine ⟨_, s₁', ?_, sameToken_token s s₁ _ _⟩
  rw [lexStep_backtick, hs₁']

theorem repeats_number {s s' : LexState} {c : Char} {rest out rest' : Text} {kind : TokenKind}
    (hdigit : c.isDigit = true) (h : lexNumber s (c :: rest) = .ok (kind, out, s', rest')) :
  ∃ p, rest = p ++ rest' ∧ Repeats s c p rest' (some (s.token kind out))
  := by
  obtain ⟨hsplit, -⟩ := lexNumber_spec h
  obtain ⟨p, hp, htext, -⟩ := (lexNumber_advances hdigit h).text
  obtain rfl : out = p := List.append_cancel_right (hsplit.symm.trans htext)
  obtain ⟨d, p, rfl⟩ := List.exists_cons_of_ne_nil hp
  obtain ⟨rfl, hrest⟩ := List.cons.inj hsplit
  refine ⟨p, hrest, fun s₁ after _ halike hmark => ?_⟩
  obtain ⟨s₁', hs₁'⟩ := lexNumber_reads h halike (hmark _ rfl) s₁
  refine ⟨_, s₁', ?_, sameToken_token s s₁ _ _⟩
  rw [lexStep_digit hdigit, ← List.cons_append, hs₁']

theorem isShapeMark_alike {before before' : Text} {c : Char} {rest after : Text}
    (hbefore : before'.head? = before.head?) (halike : Alike rest after) :
  isShapeMark before' c after = isShapeMark before c rest
  := by
  have hany := halike.any_eq (q := fun d => isIdentChar d || decide (d = '(')) true fun d hd => by
    simp [isIdentChar_of_isIdentStart hd]
  simp only [isShapeMark, hbefore, hany]

theorem repeats_word {s : LexState} {c : Char} {rest : Text} (hc : isIdentStart c = true)
    (hmark : isShapeMark s.before c rest = false) :
  ∃ p, rest = p ++ (c :: rest).dropWhile isIdentChar ∧
    Repeats s c p ((c :: rest).dropWhile isIdentChar)
      (some (s.token (keywordKind (String.ofList ((c :: rest).takeWhile isIdentChar)))
        ((c :: rest).takeWhile isIdentChar)))
  := by
  have hchar := isIdentChar_of_isIdentStart hc
  rw [List.takeWhile_cons_of_pos hchar, List.dropWhile_cons_of_pos hchar]
  have hsplit : rest.takeWhile isIdentChar ++ rest.dropWhile isIdentChar = rest :=
    List.takeWhile_append_dropWhile
  refine ⟨rest.takeWhile isIdentChar, hsplit.symm, fun s₁ after hbefore halike _ => ?_⟩
  have hwhole := halike.append (rest.takeWhile isIdentChar)
  rw [hsplit] at hwhole
  have hmark₁ : isShapeMark s₁.before c (rest.takeWhile isIdentChar ++ after) = false := by
    rw [isShapeMark_alike hbefore hwhole, hmark]
  have hany := halike.any_eq true fun c hc => isIdentChar_of_isIdentStart hc
  have hchars : ∀ d ∈ c :: rest.takeWhile isIdentChar, isIdentChar d = true := by
    intro d hd
    rcases List.mem_cons.mp hd with rfl | hd
    · exact hchar
    · exact List.mem_takeWhile_imp hd
  obtain ⟨htake, hdrop⟩ := takeWhile_append_eq hchars (hany.trans (head_dropWhile_eq _ _))
  have hstep := lexStep_ident hc s₁ (rest.takeWhile isIdentChar ++ after)
  rw [hmark₁, ← List.cons_append, htake, hdrop] at hstep
  exact ⟨_, _, hstep, sameToken_token s s₁ _ _⟩

theorem repeats_shapeMark {s : LexState} {c : Char} {rest : Text} (hc : isIdentStart c = true)
    (hmark : isShapeMark s.before c rest = true) :
  Repeats s c [] rest (some (s.token .NAME [c]))
  := by
  intro s₁ after hbefore halike _
  have hmark₁ : isShapeMark s₁.before c after = true := by
    rw [isShapeMark_alike hbefore halike, hmark]
  have hstep := lexStep_ident hc s₁ after
  rw [if_pos hmark₁] at hstep
  exact ⟨_, _, hstep, sameToken_token s s₁ _ _⟩

theorem twoCharKind_ident {c d : Char} (hd : isIdentStart d = true) : twoCharKind c d = none := by
  cases h : twoCharKind c d with
  | none => rfl
  | some kind =>
    unfold twoCharKind at h
    split at h <;> first | cases hd | cases h

theorem repeats_sign {s : LexState} {c : Char} {rest out rest' : Text} {kind : TokenKind}
    (h : lexSign c rest = some (kind, out, rest'))
    (hcomment : ¬(c = '/' ∧ (rest.head? = some '/' ∨ rest.head? = some '*'))) :
  ∃ p, rest = p ++ rest' ∧ Repeats s c p rest' (some (s.token kind out))
  := by
  obtain ⟨hspace, hquote, hraw, hchar⟩ := lexSign_char h
  -- the new step reads the same sign, since neither a comment nor a longer sign has come up
  have hrepeat : ∀ p, rest = p ++ rest' → (∀ after, Alike rest' after →
      lexSign c (p ++ after) = some (kind, out, after)) →
      Repeats s c p rest' (some (s.token kind out)) := by
    intro p hrest hsign s₁ after _ halike _
    have hwhole := halike.append p
    rw [← hrest] at hwhole
    have hcomment₁ : ¬(c = '/' ∧ ((p ++ after).head? = some '/' ∨ (p ++ after).head? = some '*')) := by
      rintro ⟨hc, hhead⟩
      apply hcomment
      refine ⟨hc, ?_⟩
      exact hhead.imp (hwhole.head_eq rfl) (hwhole.head_eq rfl)
    have hstep := lexStep_sign hspace ⟨hquote, hraw⟩ hchar hcomment₁ s₁
    rw [hsign after halike] at hstep
    exact ⟨_, _, hstep, sameToken_token s s₁ _ _⟩
  unfold lexSign at h
  cases rest with
  | nil =>
    obtain ⟨kind', hkind, heq⟩ := Option.map_eq_some_iff.mp h
    cases heq
    refine ⟨[], rfl, hrepeat [] rfl fun after halike => ?_⟩
    cases halike
    simp [lexSign, hkind]
  | cons d rest =>
    simp only at h
    split at h
    · rename_i kind' hkind
      cases h
      refine ⟨[d], rfl, hrepeat [d] rfl fun after _ => ?_⟩
      simp [lexSign, hkind]
    · rename_i hnone
      obtain ⟨kind', hkind, heq⟩ := Option.map_eq_some_iff.mp h
      cases heq
      refine ⟨[], rfl, hrepeat [] rfl fun after halike => ?_⟩
      cases halike with
      | char d h => simp [lexSign, hnone, hkind]
      | word hd he => simp [lexSign, twoCharKind_ident he, hkind]

/-- Each step can be repeated before another text that is alike. -/
theorem lexStep_repeats {s s' : LexState} {c : Char} {rest rest' : Text} {tok : Option Token}
    (h : lexStep s c rest = .ok (tok, s', rest')) :
  ∃ p, rest = p ++ rest' ∧ Repeats s c p rest' tok
  := by
  have hread := h
  unfold lexStep at h
  split_ifs at h with hblank hend hline hblock hquote hraw hdigit hident hmark
  · cases h
    refine ⟨[], rfl, fun s₁ after _ _ _ => ⟨none, s₁.chars [c], ?_, .none⟩⟩
    rcases hblank with rfl | rfl <;> rfl
  · cases h
    exact repeats_lineEnd hend
  · obtain ⟨rfl, hhead⟩ := hline
    obtain ⟨text, rfl⟩ := List.head?_eq_some_iff.mp hhead
    cases h
    refine ⟨'/' :: text.takeWhile inLine, ?_, repeats_lineComment⟩
    rw [List.cons_append, List.tail_cons, List.takeWhile_append_dropWhile]
  · obtain ⟨rfl, hhead⟩ := hblock
    obtain ⟨text, rfl⟩ := List.head?_eq_some_iff.mp hhead
    split at h
    · cases h
    · rename_i hcomment
      cases h
      exact repeats_blockComment hcomment
  · subst hquote
    split at h
    · cases h
    · rename_i hstring
      cases h
      exact repeats_string hstring
  · subst hraw
    split at h
    · cases h
    · rename_i hstring
      cases h
      exact repeats_raw hstring
  · split at h
    · cases h
    · rename_i hnumber
      cases h
      exact repeats_number hdigit hnumber
  · cases h
    exact ⟨[], rfl, repeats_shapeMark hident hmark⟩
  · cases h
    exact repeats_word hident (by simpa using hmark)
  · split at h
    · cases h
    · rename_i hsign
      cases h
      exact repeats_sign hsign (by tauto)

end Caster.Lex
