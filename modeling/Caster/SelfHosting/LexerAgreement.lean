import Caster.Library.Marks
import Caster.SelfHosting.SharedText

/-!
# Agreement of the lexers

Both lexers have the same tokens exactly for the texts that are made of shared pieces.
-/

namespace Caster.SelfHosting

open Driver TextPlaces
open Caster.Lex (LexState isIdentChar_char isDigit_identChar not_digit_of_not_identChar
  not_isLineEnd_of_not_isSpace drop_takeWhile lexSign_char)
open Parse (TokenKind ParseError)

/-! ### Words, signs and numbers -/

/-- Apart from two words, the kinds of words correspond. -/
theorem keywordKind_eq {word : String} (huse : word ≠ "use") (hdyn : word ≠ "DYN") :
  keywordKind word = kindOf (Lex.keywordKind word)
  := by
  have hto : ∀ kw ∈ Lex.keywords, keywords.lookup kw.1 = some (kindOf kw.2) := by decide
  have hfrom : ∀ kw ∈ keywords, kw.1 = "use" ∨ kw.1 = "DYN" ∨ (Lex.keywords.lookup kw.1).isSome := by
    decide
  unfold keywordKind Lex.keywordKind
  cases h : Lex.keywords.lookup word with
  | some kind =>
    obtain ⟨front, back, heq, -⟩ := List.lookup_eq_some_iff.mp h
    rw [hto (word, kind) (by simp [heq])]
    rfl
  | none =>
    cases h' : keywords.lookup word with
    | none => rfl
    | some kind =>
      obtain ⟨front, back, heq, -⟩ := List.lookup_eq_some_iff.mp h'
      have := hfrom (word, kind) (by simp [heq])
      simp [huse, hdyn, h] at this

theorem twoCharKind_pair (c d : Char) : twoCharKind [c, d] = (Lex.twoCharKind c d).map kindOf := by
  unfold Lex.twoCharKind
  split <;> first | rfl | (unfold twoCharKind; split <;> simp_all)

theorem oneCharKind_eq (c : Char) :
  oneCharKind c = ((Lex.oneCharKind c).map kindOf).getD .UNKNOWN
  := by
  unfold Lex.oneCharKind
  split <;> first | rfl | (unfold oneCharKind; split <;> simp_all)

theorem numberLoop_true (text : Text) : numberLoop true text = (text.takeWhile Char.isDigit, true) := by
  induction text with
  | nil => rfl
  | cons c rest ih =>
    by_cases hc : c.isDigit = true
    · rw [numberLoop_digit hc, ih, List.takeWhile_cons_of_pos hc]
    · rw [numberLoop, if_neg hc, List.takeWhile_cons_of_neg hc]
      rfl

/-- The loop over a number reads its digits and its fraction. -/
theorem numberLoop_false (text : Text) :
  numberLoop false text =
    (text.takeWhile Char.isDigit ++ Lex.fraction (text.dropWhile Char.isDigit),
      decide (Lex.fraction (text.dropWhile Char.isDigit) ≠ []))
  := by
  induction text with
  | nil => rfl
  | cons c rest ih =>
    by_cases hc : c.isDigit = true
    · rw [numberLoop_digit hc, ih, List.takeWhile_cons_of_pos hc, List.dropWhile_cons_of_pos hc]
      rfl
    · rw [numberLoop, if_neg hc, List.takeWhile_cons_of_neg hc, List.dropWhile_cons_of_neg hc]
      cases rest with
      | nil => simp [Lex.fraction]
      | cons d rest =>
        by_cases hdot : c = '.' ∧ d.isDigit = true
        · obtain ⟨rfl, hd⟩ := hdot
          simp [Lex.fraction, hd, numberLoop_true]
        · have hfrac : Lex.fraction (c :: d :: rest) = [] := Lex.fraction_eq_nil hdot
          simp only [hfrac]
          grind

/-! ### Places -/

theorem right_right (p : Place) (m n : ℕ) : right (right p m) n = right p (m + n) := by
  simp [right, Nat.add_assoc]

theorem place_chars (s : LexState) (text : Text) :
  (s.chars text).place = right s.place text.length
  := rfl

theorem pass_plain {c : Char} (h : isLineEnd c = false) (p : Place) : pass p c = right p 1 := by
  have hc : c ≠ '\n' := by
    rintro rfl
    cases h
  simp [pass, right, hc]

/-- Characters of a line move the place to the right. -/
theorem foldl_pass_plain {text : Text} (h : ∀ c ∈ text, c ≠ '\n') (p : Place) :
  text.foldl pass p = right p text.length
  := by
  induction text generalizing p with
  | nil => rfl
  | cons c rest ih =>
    have hc : pass p c = right p 1 := by simp [pass, right, h c (by simp)]
    rw [List.foldl_cons, hc, ih (fun d hd => h d (by simp [hd])), right_right, List.length_cons,
      Nat.add_comm]

/-! ### Comments and strings -/

theorem pairedReturns_tail {c : Char} {text : Text} (h : PairedReturns (c :: text)) :
  PairedReturns text
  := fun before after heq => h (c :: before) after (by rw [heq, List.cons_append])

theorem splitComment_text {text body after : Text} (h : splitComment text = some (body, after)) :
  text = body ++ '*' :: '/' :: after
  := by
  fun_induction splitComment text generalizing body with
  | case1 => cases h
  | case2 rest =>
    cases h
    rfl
  | case3 c rest hclose ih =>
    obtain ⟨⟨body', after'⟩, hrest, heq⟩ := Option.map_eq_some_iff.mp h
    cases heq
    rw [ih hrest, List.cons_append]

/-- A block comment that ends is read by the loop of the lexer written in Caster. -/
theorem blockLoop_eq {text body after : Text} (h : splitComment text = some (body, after)) (p : Place) :
  blockLoop p text = (body.foldl pass p, '*' :: '/' :: after)
  := by
  fun_induction splitComment text generalizing body p with
  | case1 => cases h
  | case2 rest =>
    cases h
    rfl
  | case3 c rest hclose ih =>
    obtain ⟨⟨body', after'⟩, hrest, heq⟩ := Option.map_eq_some_iff.mp h
    cases heq
    rw [blockLoop.eq_3 _ _ _ hclose, ih hrest]
    rfl

theorem blockLoop_none {text : Text} (h : splitComment text = none) (p : Place) :
  (blockLoop p text).2 = []
  := by
  fun_induction splitComment text generalizing p with
  | case1 => rfl
  | case2 rest => cases h
  | case3 c rest hclose ih =>
    rw [blockLoop.eq_3 _ _ _ hclose]
    exact ih (by simpa using h) _

/-- A block comment that ends is read by the compiler, which counts the same lines and columns
if each carriage return is followed by a line feed. -/
theorem blockComment_eq {text body after : Text} (h : splitComment text = some (body, after))
    (hreturns : PairedReturns body) (s : LexState) :
  ∃ s', Lex.blockComment text s = some (s', after) ∧ s'.place = right (body.foldl pass s.place) 2
  := by
  induction text, s using Lex.blockComment.induct generalizing body with
  | case1 s => cases h
  | case2 rest s =>
    cases h
    exact ⟨_, rfl, rfl⟩
  | case3 rest s ih =>
    rw [splitComment.eq_3 _ _ (by simp), splitComment.eq_3 _ _ (by simp), Option.map_map] at h
    obtain ⟨⟨body', after'⟩, hrest, heq⟩ := Option.map_eq_some_iff.mp h
    cases heq
    obtain ⟨s', hs', hplace⟩ := ih hrest (pairedReturns_tail (pairedReturns_tail hreturns))
    exact ⟨s', hs', hplace⟩
  | case4 c rest s hclose hpair hend ih =>
    rw [splitComment.eq_3 _ _ hclose] at h
    obtain ⟨⟨body', after'⟩, hrest, heq⟩ := Option.map_eq_some_iff.mp h
    cases heq
    obtain ⟨s', hs', hplace⟩ := ih hrest (pairedReturns_tail hreturns)
    have hc : c = '\n' := by
      have hends : c = '\n' ∨ c = '\r' := by simpa [isLineEnd] using hend
      refine hends.resolve_right ?_
      rintro rfl
      have hhead := hreturns [] body' rfl
      obtain ⟨body, rfl⟩ := List.head?_eq_some_iff.mp hhead
      exact hpair _ rfl (splitComment_text hrest)
    subst hc
    exact ⟨s', by rw [Lex.blockComment.eq_4 _ _ _ hclose hpair, if_pos hend, hs'], hplace⟩
  | case5 c rest s hclose hpair hend ih =>
    rw [splitComment.eq_3 _ _ hclose] at h
    obtain ⟨⟨body', after'⟩, hrest, heq⟩ := Option.map_eq_some_iff.mp h
    cases heq
    obtain ⟨s', hs', hplace⟩ := ih hrest (pairedReturns_tail hreturns)
    refine ⟨s', by rw [Lex.blockComment.eq_4 _ _ _ hclose hpair, if_neg hend, hs'], ?_⟩
    rw [hplace, List.foldl_cons, pass_plain (by simpa using hend)]
    rfl

/-- A block comment the compiler reads ends where the first two characters that close it are. -/
theorem splitComment_of_blockComment {text after : Text} {s s' : LexState}
    (h : Lex.blockComment text s = some (s', after)) :
  ∃ body, splitComment text = some (body, after)
  := by
  induction text, s using Lex.blockComment.induct with
  | case1 s => cases h
  | case2 rest s =>
    cases h
    exact ⟨[], rfl⟩
  | case3 rest s ih =>
    obtain ⟨body, hbody⟩ := ih h
    refine ⟨'\r' :: '\n' :: body, ?_⟩
    rw [splitComment.eq_3 _ _ (by simp), splitComment.eq_3 _ _ (by simp), hbody]
    rfl
  | case4 c rest s hclose hpair hend ih =>
    rw [Lex.blockComment.eq_4 _ _ _ hclose hpair, if_pos hend] at h
    obtain ⟨body, hbody⟩ := ih h
    exact ⟨c :: body, by rw [splitComment.eq_3 _ _ hclose, hbody]; rfl⟩
  | case5 c rest s hclose hpair hend ih =>
    rw [Lex.blockComment.eq_4 _ _ _ hclose hpair, if_neg hend] at h
    obtain ⟨body, hbody⟩ := ih h
    exact ⟨c :: body, by rw [splitComment.eq_3 _ _ hclose, hbody]; rfl⟩

/-- A string without escapes is read by the compiler. -/
theorem lexString_plain {body : Text} (start : LexState)
    (hbody : ∀ c ∈ body, c ≠ quote ∧ c ≠ '\\' ∧ isLineEnd c = false) (rest : Text) (s : LexState) :
  Lex.lexString start (body ++ quote :: rest) s =
    .ok (body, (s.chars body).chars [quote], rest)
  := by
  induction body generalizing s with
  | nil => rfl
  | cons c body ih =>
    obtain ⟨hquote, hescape, hend⟩ := hbody c (by simp)
    rw [List.cons_append, Lex.lexString.eq_4 _ _ _ _ (by simp [hescape]) (by simp [hescape]),
      if_neg hquote, if_neg (by simp [hend]), ih (fun d hd => hbody d (by simp [hd]))]
    rw [LexState.chars_cons s c body]
    rfl

/-- A raw string without carriage returns is read by the compiler. -/
theorem lexRaw_plain {body : Text} (hbody : ∀ c ∈ body, c ≠ backtick ∧ c ≠ '\r') (rest : Text)
    (s : LexState) :
  ∃ s', Lex.lexRaw (body ++ backtick :: rest) s = some (body, s', rest) ∧
    s'.place = right (body.foldl pass s.place) 1
  := by
  induction body generalizing s with
  | nil => exact ⟨_, rfl, rfl⟩
  | cons c body ih =>
    obtain ⟨hmark, hreturn⟩ := hbody c (by simp)
    have hrest : ∀ d ∈ body, d ≠ backtick ∧ d ≠ '\r' := fun d hd => hbody d (by simp [hd])
    rw [List.cons_append, Lex.lexRaw.eq_3 _ _ _ (by simp [hreturn]), if_neg hmark]
    by_cases hend : isLineEnd c = true
    · have hc : c = '\n' := by simpa [isLineEnd, hreturn] using hend
      subst hc
      obtain ⟨s', hs', hplace⟩ := ih hrest (s.lineEnd ['\n'])
      rw [if_pos hend, hs']
      exact ⟨s', rfl, hplace⟩
    · obtain ⟨s', hs', hplace⟩ := ih hrest (s.chars [c])
      rw [if_neg hend, hs']
      refine ⟨s', rfl, ?_⟩
      rw [hplace, List.foldl_cons, pass_plain (by simpa using hend)]
      rfl

/-- A string between two marks is read by the lexer written in Caster. -/
theorem lexStep_string {q : Char} (hq : q = quote ∨ q = backtick) {body : Text}
    (hbody : ∀ c ∈ body, c ≠ q) (rest : Text) (p : Place) :
  lexStep p q (body ++ q :: rest) =
    (some (makeToken .STRING_LITERAL body p (right (body.foldl pass (right p 1)) 1)),
      right (body.foldl pass (right p 1)) 1, rest)
  := by
  have hchar : q ≠ '\n' ∧ isSpace q = false ∧ q ≠ '/' ∧ isIdentStart q = false ∧
      q.isDigit = false := by
    rcases hq with rfl | rfl <;> decide
  obtain ⟨hline, hspace, hslash, hident, hdigit⟩ := hchar
  have hmem : q ∉ body := fun h => hbody q h rfl
  have htake := Marks.takeWhile_append_mark hmem rest
  have hdrop := Marks.dropWhile_append_mark hmem rest
  simp only [lexStep, hline, hspace, hslash, hident, hdigit, hq, false_and, if_false, if_true,
    Bool.false_eq_true, htake, hdrop, List.cons_ne_nil, List.drop_succ_cons, List.drop_zero]

/-! ### Pieces -/

/-- Tokens of one step that correspond. -/
abbrev Matches : Option Parse.Token → Option Token → Prop := Option.Rel Corresponds

/-- Both lexers read the same characters and give tokens that correspond. -/
def StepsAlike (s : LexState) (c : Char) (rest after : Text) : Prop :=
  ∃ tok tok' s', Lex.lexStep s c rest = .ok (tok, s', after) ∧
    lexStep s.place c rest = (tok', s'.place, after) ∧ Matches tok tok'

theorem stepsAlike_token {s s' : LexState} {c : Char} {rest after out : Text} {kind : TokenKind}
    (stop : Place) (h : Lex.lexStep s c rest = .ok (some (s.token kind out), s', after))
    (h' : lexStep s.place c rest =
      (some (makeToken (kindOf kind) out s.place stop), s'.place, after)) :
  StepsAlike s c rest after
  := by
  have htoken : Corresponds (s.token kind out) (makeToken (kindOf kind) out s.place stop) :=
    ⟨rfl, rfl, rfl, rfl⟩
  exact ⟨_, _, s', h, h', .some htoken⟩

theorem stepsAlike_none {s s' : LexState} {c : Char} {rest after : Text}
    (h : Lex.lexStep s c rest = .ok (none, s', after))
    (h' : lexStep s.place c rest = (none, s'.place, after)) :
  StepsAlike s c rest after
  := ⟨none, none, s', h, h', .none⟩

/-- Both lexers read a sign alike. -/
theorem step_sign {s : LexState} {c : Char} {rest out after : Text} {kind : TokenKind}
    (hsign : Lex.lexSign c rest = some (kind, out, after))
    (hcomment : ¬(c = '/' ∧ (rest.head? = some '/' ∨ rest.head? = some '*'))) :
  StepsAlike s c rest after
  := by
  obtain ⟨hspace, hquote, hraw, hchar⟩ := lexSign_char hsign
  have hstep := Lex.lexStep_sign hspace ⟨hquote, hraw⟩ hchar hcomment s
  have hstep' := casterStep_sign hspace ⟨hquote, hraw⟩ hchar hcomment s.place
  rw [hsign] at hstep
  apply stepsAlike_token (right s.place out.length) hstep
  rw [hstep']
  unfold Lex.lexSign at hsign
  cases rest with
  | nil =>
    obtain ⟨kind', hkind, heq⟩ := Option.map_eq_some_iff.mp hsign
    cases heq
    have hnone : twoCharKind [c] = none := by unfold twoCharKind; split <;> simp_all
    simp only [List.take_nil, hnone, oneCharKind_eq, hkind]
    rfl
  | cons d rest =>
    simp only [List.take_succ_cons, List.take_zero, twoCharKind_pair, oneCharKind_eq] at hsign ⊢
    split at hsign
    · rename_i kind' hkind
      cases hsign
      simp only [hkind]
      rfl
    · rename_i hnone
      obtain ⟨kind', hkind, heq⟩ := Option.map_eq_some_iff.mp hsign
      cases heq
      simp only [hnone, hkind]
      rfl

/-- A line without a carriage return at its end ends at the same place for both lexers. -/
theorem takeWhile_inLine {rest : Text} (hend : (rest.dropWhile Lex.inLine).head? ≠ some '\r') :
  rest.takeWhile (· ≠ '\n') = rest.takeWhile Lex.inLine ∧
    rest.dropWhile (· ≠ '\n') = rest.dropWhile Lex.inLine
  := by
  induction rest with
  | nil => exact ⟨rfl, rfl⟩
  | cons c rest ih =>
    by_cases hc : Lex.inLine c = true
    · have hne : c ≠ '\n' := by
        rintro rfl
        cases hc
      have hdecide : decide (c ≠ '\n') = true := by simpa using hne
      rw [List.dropWhile_cons_of_pos hc] at hend
      obtain ⟨htake, hdrop⟩ := ih hend
      simp only [List.takeWhile_cons, List.dropWhile_cons, hc, hdecide, if_true, htake, hdrop]
      trivial
    · rw [List.dropWhile_cons_of_neg hc] at hend
      have hline : c = '\n' := by
        have hends : isLineEnd c = true := by simpa [Lex.inLine] using hc
        have hc' : c = '\n' ∨ c = '\r' := by simpa [isLineEnd] using hends
        exact hc'.resolve_right (by simpa using hend)
      subst hline
      exact ⟨rfl, rfl⟩

theorem step_lineComment {s : LexState} {rest : Text}
    (hend : (rest.dropWhile Lex.inLine).head? ≠ some '\r') :
  StepsAlike s '/' ('/' :: rest) (rest.dropWhile Lex.inLine)
  := by
  obtain ⟨htake, hdrop⟩ := takeWhile_inLine hend
  have hstep : Lex.lexStep s '/' ('/' :: rest) = .ok (none,
      (s.chars ['/', '/']).chars (rest.takeWhile Lex.inLine), rest.dropWhile Lex.inLine) := rfl
  apply stepsAlike_none hstep
  change (none, right s.place (('/' :: '/' :: rest).takeWhile (· ≠ '\n')).length,
    ('/' :: '/' :: rest).dropWhile (· ≠ '\n')) = _
  have hslash : decide ('/' ≠ '\n') = true := by decide
  simp only [List.takeWhile_cons, List.dropWhile_cons, hslash, if_true, htake, hdrop]
  rw [place_chars, place_chars, right_right, List.length_cons, List.length_cons, List.length_cons,
    List.length_cons, List.length_nil]
  congr 3
  omega

theorem step_blockComment {s : LexState} {rest body after : Text}
    (hbody : splitComment rest = some (body, after)) (hreturns : PairedReturns body) :
  StepsAlike s '/' ('*' :: rest) after
  := by
  obtain ⟨s', hs', hplace⟩ := blockComment_eq hbody hreturns (s.chars ['/', '*'])
  have hstep := Lex.lexStep_comment s rest
  rw [hs'] at hstep
  apply stepsAlike_none hstep
  rw [casterStep_comment, blockLoop_eq hbody, if_neg (List.cons_ne_nil _ _), hplace]
  rfl

theorem step_string {s : LexState} {body rest : Text}
    (hbody : ∀ c ∈ body, c ≠ quote ∧ c ≠ '\\' ∧ isLineEnd c = false) :
  StepsAlike s quote (body ++ quote :: rest) rest
  := by
  have hplain : ∀ c ∈ body, c ≠ '\n' := by
    rintro c hc rfl
    cases (hbody _ hc).2.2
  have hstep := Lex.lexStep_quote s (body ++ quote :: rest)
  rw [lexString_plain s hbody rest (s.chars [quote])] at hstep
  apply stepsAlike_token _ hstep
  rw [lexStep_string (.inl rfl) (fun c hc => (hbody c hc).1), foldl_pass_plain hplain]
  rfl

theorem step_raw {s : LexState} {body rest : Text} (hbody : ∀ c ∈ body, c ≠ backtick ∧ c ≠ '\r') :
  StepsAlike s backtick (body ++ backtick :: rest) rest
  := by
  obtain ⟨s', hs', hplace⟩ := lexRaw_plain hbody rest (s.chars [backtick])
  have hstep := Lex.lexStep_backtick s (body ++ backtick :: rest)
  rw [hs'] at hstep
  apply stepsAlike_token _ hstep
  rw [lexStep_string (.inr rfl) (fun c hc => (hbody c hc).1), hplace]
  rfl

/-- A number without an exponent. -/
theorem lexNumber_plain {text : Text} (hmark : Lex.exponentMark (behindNumber text) = []) (s : LexState) :
  ∃ s', Lex.lexNumber s text =
      .ok (if Lex.fraction (text.dropWhile Char.isDigit) = [] then .INT_LITERAL else .FLT_LITERAL,
        text.takeWhile Char.isDigit ++ Lex.fraction (text.dropWhile Char.isDigit), s',
        behindNumber text) ∧
    s'.place = right s.place
      (text.takeWhile Char.isDigit ++ Lex.fraction (text.dropWhile Char.isDigit)).length
  := by
  unfold behindNumber at hmark
  refine ⟨((s.chars (text.takeWhile Char.isDigit)).chars
    (Lex.fraction (text.dropWhile Char.isDigit))).chars [], ?_, ?_⟩
  · simp only [Lex.lexNumber, hmark, if_true, List.length_nil, List.drop_zero]
    rfl
  · rw [place_chars, place_chars, place_chars, right_right, right_right, List.length_append]
    rfl

/-- Both lexers read the digits and the fraction of a number. -/
theorem step_number {s : LexState} {c : Char} {rest : Text} (hc : c.isDigit = true)
    (hmark : Lex.exponentMark (behindNumber (c :: rest)) = []) :
  StepsAlike s c rest (behindNumber (c :: rest))
  := by
  obtain ⟨s', hs', hplace⟩ := lexNumber_plain hmark s
  have hstep := Lex.lexStep_digit hc s rest
  rw [hs'] at hstep
  apply stepsAlike_token s'.place hstep
  obtain ⟨hchar, hident⟩ := isDigit_identChar hc
  obtain ⟨hspace, hslash, -, -⟩ := isIdentChar_char hchar
  obtain ⟨-, -, hline, -⟩ := not_isLineEnd_of_not_isSpace hspace
  unfold lexStep
  rw [if_neg hline, if_neg (by simp [hspace]), if_neg (by simp [hslash]), if_neg (by simp [hslash]),
    if_neg (by simp [hident]), if_pos hc]
  have hbehind : (c :: rest).drop ((c :: rest).takeWhile Char.isDigit ++
      Lex.fraction ((c :: rest).dropWhile Char.isDigit)).length = behindNumber (c :: rest) := by
    rw [List.length_append, ← List.drop_drop, drop_takeWhile]
    rfl
  simp only [numberLoop_false, hbehind, ← hplace]
  split_ifs <;> simp_all [kindOf]

theorem step_word {s : LexState} {c : Char} {rest : Text} (hc : isIdentStart c = true)
    (hshape : ¬(c = 'x' ∧ s.before.head?.any Char.isDigit ∧ rest.head?.any isIdentChar))
    (hword : String.ofList ((c :: rest).takeWhile isIdentChar) ≠ "use" ∧
      String.ofList ((c :: rest).takeWhile isIdentChar) ≠ "DYN") :
  StepsAlike s c rest ((c :: rest).dropWhile isIdentChar)
  := by
  have hstep := Lex.lexStep_ident hc s rest
  by_cases hmark : Lex.isShapeMark s.before c rest = true
  · -- only the separator before a parenthesis is left, which is a word of its own
    have hmark' := hmark
    simp only [Lex.isShapeMark, Bool.and_eq_true, decide_eq_true_eq] at hmark'
    obtain ⟨⟨rfl, hdigit⟩, hnext⟩ := hmark'
    have hparen : ∃ text, rest = '(' :: text := by
      cases rest with
      | nil => cases hnext
      | cons d text =>
        have hd : ¬isIdentChar d = true := fun hd => hshape ⟨rfl, hdigit, by simpa using hd⟩
        simp only [List.head?_cons, Option.any_some, Bool.or_eq_true, decide_eq_true_eq] at hnext
        exact ⟨text, by rw [hnext.resolve_left hd]⟩
    obtain ⟨text, rfl⟩ := hparen
    rw [if_pos hmark] at hstep
    have hdrop : ('x' :: '(' :: text).dropWhile isIdentChar = '(' :: text := rfl
    rw [hdrop]
    apply stepsAlike_token _ hstep
    rw [casterStep_ident hc]
    rfl
  · rw [if_neg hmark] at hstep
    apply stepsAlike_token _ hstep
    rw [casterStep_ident hc, keywordKind_eq hword.1 hword.2]
    rfl

/-- Both lexers read a shared piece alike. -/
theorem SharedPiece.stepsAlike {s : LexState} {c : Char} {rest after : Text}
    (h : SharedPiece s.before (c :: rest) after) :
  StepsAlike s c rest after
  := by
  cases h with
  | blank hc =>
    rcases hc with rfl | rfl
    · exact stepsAlike_none rfl rfl
    · exact stepsAlike_none rfl rfl
  | newline => exact stepsAlike_token _ rfl rfl
  | lineComment hend => exact step_lineComment hend
  | blockComment hbody hreturns => exact step_blockComment hbody hreturns
  | string hbody => exact step_string hbody
  | raw hbody => exact step_raw hbody
  | number hc hmark => exact step_number hc hmark
  | word hc hshape hword => exact step_word hc hshape hword
  | sign hsign hcomment => exact step_sign hsign hcomment

/-! ### Texts -/

@[simp]
theorem tokensFrom_nil (p : Place) : tokensFrom p [] = [makeToken .EOF [] p p] := rfl

/-- The tokens from a character on are those of its step and those from there on. -/
theorem tokensFrom_cons (p : Place) (c : Char) (rest : Text) :
  tokensFrom p (c :: rest) =
    (lexStep p c rest).1.toList ++ tokensFrom (lexStep p c rest).2.1 (lexStep p c rest).2.2
  := by
  have hstep : lexer.step p c rest = .ok (lexStep p c rest) := rfl
  unfold tokensFrom
  rw [lexer.scan_cons, hstep]
  generalize lexStep p c rest = result
  obtain ⟨tok, p', rest'⟩ := result
  simp only
  cases hscan : lexer.scan p' rest' with
  | error e => exact e.elim
  | ok r =>
    obtain ⟨pieces, last⟩ := r
    cases tok <;> rfl

theorem tokensFrom_eq {p p' : Place} {c : Char} {rest rest' : Text} {tok : Option Token}
    (h : lexStep p c rest = (tok, p', rest')) :
  tokensFrom p (c :: rest) = tok.toList ++ tokensFrom p' rest'
  := by
  rw [tokensFrom_cons, h]

theorem lexSign_none {c : Char} {rest : Text} (h : Lex.lexSign c rest = none) :
  Lex.oneCharKind c = none ∧ twoCharKind (c :: rest.take 1) = none
  := by
  unfold Lex.lexSign at h
  cases rest with
  | nil =>
    have hnone : twoCharKind [c] = none := by unfold twoCharKind; split <;> simp_all
    exact ⟨Option.map_eq_none_iff.mp h, hnone⟩
  | cons d rest =>
    simp only at h
    split at h
    · cases h
    · rename_i hnone
      refine ⟨Option.map_eq_none_iff.mp h, ?_⟩
      rw [List.take_succ_cons, List.take_zero, twoCharKind_pair, hnone]
      rfl

/-- The compiler stops where the lexer written in Caster has an `UNKNOWN` token. -/
theorem StopsBoth.spec {s : LexState} {text : Text} (h : StopsBoth text) :
  (∃ e, Lex.lexer.scan s text = .error e) ∧ ∃ tok ∈ tokensFrom s.place text, tok.kind = .UNKNOWN
  := by
  cases h with
  | @openComment rest hopen =>
    constructor
    · have hstep : Lex.lexer.step s '/' ('*' :: rest) =
          .error (s.dieAt "unterminated block comment") := by
        change Lex.lexStep s '/' ('*' :: rest) = _
        rw [Lex.lexStep_comment]
        cases hcomment : Lex.blockComment rest (s.chars ['/', '*']) with
        | none => rfl
        | some r =>
          obtain ⟨body, hbody⟩ := splitComment_of_blockComment hcomment
          simp [hopen] at hbody
      exact ⟨_, Scanner.scan_of_step_error hstep⟩
    · have hstep := casterStep_comment s.place rest
      rw [if_pos (blockLoop_none hopen _)] at hstep
      rw [tokensFrom_eq hstep]
      exact ⟨_, List.mem_append_left _ (List.mem_singleton_self _), rfl⟩
  | @strange c rest hspace hsign hquote hchar =>
    obtain ⟨hone, htwo⟩ := lexSign_none hsign
    have hcomment : ¬(c = '/' ∧ (rest.head? = some '/' ∨ rest.head? = some '*')) := by
      rintro ⟨rfl, -⟩
      cases hone
    constructor
    · have hstep := Lex.lexStep_sign hspace hquote hchar hcomment s
      rw [hsign] at hstep
      exact ⟨_, Scanner.scan_of_step_error hstep⟩
    · have hstep := casterStep_sign hspace hquote hchar hcomment s.place
      rw [htwo] at hstep
      rw [tokensFrom_eq hstep]
      refine ⟨_, List.mem_append_left _ (List.mem_singleton_self _), ?_⟩
      simp [makeToken, oneCharKind_eq, hone]

/-- A text of shared pieces is read alike. -/
theorem SharedText.spec {before text : Text} (h : SharedText before text) {s : LexState}
    (hs : s.before = before) :
  (∃ pieces last, Lex.lexer.Reads s text pieces last ∧
      List.Forall₂ Corresponds (Lex.tokensOf pieces last) (tokensFrom s.place text)) ∨
    (∃ e, Lex.lexer.scan s text = .error e) ∧ ∃ tok ∈ tokensFrom s.place text, tok.kind = .UNKNOWN
  := by
  induction h generalizing s with
  | done =>
    left
    refine ⟨[], s, .nil s, .cons ⟨rfl, rfl, rfl, rfl⟩ .nil⟩
  | stop hstop => exact .inr hstop.spec
  | @piece before text p rest hpiece htext hrest ih =>
    subst hs
    cases text with
    | nil => cases hpiece
    | cons c text =>
      obtain ⟨tok, tok', s', hstep, hstep', hmatches⟩ := hpiece.stepsAlike
      obtain ⟨q, -, hq, hbefore⟩ := (Lex.lexStep_advances hstep).text
      obtain rfl : p = q := List.append_cancel_right (htext.symm.trans hq)
      rw [tokensFrom_eq hstep']
      rcases ih hbefore with ⟨pieces, last, hreads, htokens⟩ | ⟨⟨e, he⟩, tok₀, hmem, hkind⟩
      · left
        refine ⟨⟨p, tok⟩ :: pieces, last, .cons hstep htext hreads, ?_⟩
        cases hmatches with
        | none => exact htokens
        | some htok => exact .cons htok htokens
      · right
        constructor
        · exact ⟨e, Scanner.scan_of_scan_error hstep he⟩
        · exact ⟨tok₀, List.mem_append_right _ hmem, hkind⟩

/-- The lexers agree about a text of shared pieces. -/
theorem SharedText.agree {src : Text} (h : SharedText [] src) : LexersAgree src := by
  unfold LexersAgree Lex.lexSource Lex.lexPieces
  have hspec := h.spec (s := LexState.start) rfl
  rcases hspec with ⟨pieces, last, hreads, htokens⟩ | ⟨⟨e, he⟩, htok⟩
  · rw [Lex.lexer.scan_of_reads hreads]
    exact htokens
  · rw [he]
    exact htok

end Caster.SelfHosting
