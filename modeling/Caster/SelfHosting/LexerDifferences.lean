import Caster.SelfHosting.LexerAgreement

/-!
# Differences of the lexers

Where a text the compiler accepts leaves the shared pieces, the lexers have different tokens:
the places of their tokens tell it, or the texts of their tokens do.
-/

namespace Caster.SelfHosting

open Driver TextPlaces
open Caster.Lex (LexState isIdentChar_char isDigit_identChar not_isLineEnd_of_not_isSpace)
open Parse (TokenKind ParseError)

/-! ### Places of the lexer written in Caster -/

/-- The place where a token starts. -/
def startOf (tok : Token) : Place := ⟨tok.span.line, tok.span.col⟩

theorem before_pass (p : Place) (c : Char) : p.Before (pass p c) := by
  unfold pass Place.Before
  split_ifs <;> simp

/-- Characters move the place on. -/
theorem before_foldl_pass {text : Text} (hne : text ≠ []) (p : Place) :
  p.Before (text.foldl pass p)
  := by
  induction text generalizing p with
  | nil => contradiction
  | cons c rest ih =>
    rw [List.foldl_cons]
    by_cases hrest : rest = []
    · subst hrest
      exact before_pass p c
    · exact (before_pass p c).trans (ih hrest _)

theorem line_foldl_pass (text : Text) (p : Place) :
  (text.foldl pass p).line = p.line + text.count '\n'
  := by
  induction text generalizing p with
  | nil => rfl
  | cons c rest ih =>
    rw [List.foldl_cons, ih, List.count_cons]
    by_cases hc : c = '\n'
    · subst hc
      simp [pass]
      omega
    · simp [pass, hc]

theorem blockLoop_spec (p : Place) (text : Text) :
  ∃ q, text = q ++ (blockLoop p text).2 ∧ (blockLoop p text).1 = q.foldl pass p ∧
    ((blockLoop p text).2 = [] ∨ ∃ after, (blockLoop p text).2 = '*' :: '/' :: after)
  := by
  fun_induction blockLoop p text with
  | case1 p => exact ⟨[], rfl, rfl, .inl rfl⟩
  | case2 p rest => exact ⟨[], rfl, rfl, .inr ⟨rest, rfl⟩⟩
  | case3 p c rest hclose ih =>
    obtain ⟨q, hq, hplace, hrest⟩ := ih
    exact ⟨c :: q, by rw [List.cons_append, ← hq], hplace, hrest⟩

/-- What a step reads, with its place behind and the place of its token. -/
structure StepSpec (p : Place) (text : Text) (result : Option Token × Place × Text) : Prop where
  read : ∃ q, q ≠ [] ∧ text = q ++ result.2.2 ∧ result.2.1 = q.foldl pass p
  start : ∀ tok ∈ result.1, startOf tok = p

theorem stepSpec_plain {p : Place} {q : Text} {tok : Option Token} (rest : Text) (hne : q ≠ [])
    (hplain : ∀ c ∈ q, c ≠ '\n') (hstart : ∀ t ∈ tok, startOf t = p) :
  StepSpec p (q ++ rest) (tok, right p q.length, rest)
  := ⟨⟨q, hne, rfl, (foldl_pass_plain hplain p).symm⟩, hstart⟩

theorem startOf_makeToken (kind : Kind) (lexeme : Text) (p stop : Place) :
  ∀ tok ∈ some (makeToken kind lexeme p stop), startOf tok = p
  := by
  rintro tok htok
  cases htok
  rfl

theorem isIdentChar_ne {c : Char} (h : isIdentChar c = true) : c ≠ '\n' := by
  rintro rfl
  cases h

theorem takeWhile_step {p : Place} {c : Char} {rest : Text} {tok : Option Token} (q : Char → Bool)
    (hc : q c = true) (hplain : ∀ d, q d = true → d ≠ '\n') (hstart : ∀ t ∈ tok, startOf t = p) :
  StepSpec p (c :: rest)
    (tok, right p ((c :: rest).takeWhile q).length, (c :: rest).dropWhile q)
  := by
  have hne : (c :: rest).takeWhile q ≠ [] := by simp [hc]
  have hspec := stepSpec_plain ((c :: rest).dropWhile q) hne
    (fun d hd => hplain d (List.mem_takeWhile_imp hd)) hstart
  rwa [List.takeWhile_append_dropWhile] at hspec

theorem numberLoop_plain (sawDot : Bool) (text : Text) :
  ∀ c ∈ (numberLoop sawDot text).1, c ≠ '\n'
  := by
  have hfraction : ∀ c ∈ Lex.fraction (text.dropWhile Char.isDigit), c ≠ '\n' := by
    rintro c hc rfl
    cases Lex.fraction_plain _ _ hc
  cases sawDot with
  | true =>
    rw [numberLoop_true]
    exact fun c hc => isIdentChar_ne (isDigit_identChar (List.mem_takeWhile_imp hc)).1
  | false =>
    rw [numberLoop_false]
    intro c hc
    rcases List.mem_append.mp hc with hc | hc
    · exact isIdentChar_ne (isDigit_identChar (List.mem_takeWhile_imp hc)).1
    · exact hfraction c hc

theorem numberLoop_front (text : Text) : (numberLoop false text).1 <+: text := by
  rw [numberLoop_false]
  have hfraction := Lex.fraction_front (text.dropWhile Char.isDigit)
  have happend := (List.prefix_append_right_inj (text.takeWhile Char.isDigit)).mpr hfraction
  rwa [List.takeWhile_append_dropWhile] at happend

theorem twoCharKind_ne {c : Char} {rest : Text} {kind : Kind}
    (h : twoCharKind (c :: rest.take 1) = some kind) :
  ∃ d text, rest = d :: text ∧ c ≠ '\n' ∧ d ≠ '\n'
  := by
  cases rest with
  | nil =>
    have hnone : twoCharKind [c] = none := by unfold twoCharKind; split <;> simp_all
    simp [hnone] at h
  | cons d text =>
    rw [List.take_succ_cons, List.take_zero, twoCharKind_pair] at h
    obtain ⟨kind', hkind, -⟩ := Option.map_eq_some_iff.mp h
    obtain ⟨hc, hd⟩ := Lex.twoCharKind_plain hkind
    refine ⟨d, text, rfl, ?_, ?_⟩ <;> rintro rfl
    · cases hc
    · cases hd

theorem lexStep_comment_spec (p : Place) (text : Text) :
  StepSpec p ('/' :: '*' :: text) (lexStep p '/' ('*' :: text))
  := by
  obtain ⟨q, hq, hplace, hrest⟩ := blockLoop_spec (right p 2) text
  rw [casterStep_comment]
  generalize blockLoop (right p 2) text = result at hq hplace hrest
  obtain ⟨p', rest⟩ := result
  obtain rfl : text = q ++ rest := hq
  obtain rfl : p' = q.foldl pass (right p 2) := hplace
  rcases hrest with hend | ⟨after, hafter⟩
  · obtain rfl : rest = [] := hend
    exact ⟨⟨'/' :: '*' :: q, by simp, rfl, rfl⟩, startOf_makeToken _ _ _ _⟩
  · obtain rfl : rest = '*' :: '/' :: after := hafter
    refine ⟨⟨'/' :: '*' :: q ++ ['*', '/'], by simp, by simp, ?_⟩, by simp⟩
    rw [List.foldl_append]
    rfl

/-- A string starts with a mark and ends with the next one, or with the text. -/
theorem casterStep_mark {c : Char} (hc : c = quote ∨ c = backtick) (p : Place) (rest : Text) :
  ∃ stop, lexStep p c rest =
    (some (makeToken .STRING_LITERAL (rest.takeWhile (· ≠ c)) p stop), stop,
      (rest.dropWhile (· ≠ c)).drop 1) ∧
    stop = if rest.dropWhile (· ≠ c) = [] then (c :: rest.takeWhile (· ≠ c)).foldl pass p
      else (c :: rest.takeWhile (· ≠ c) ++ [c]).foldl pass p
  := by
  have hchar : c ≠ '\n' ∧ isSpace c = false ∧ c ≠ '/' ∧ isIdentStart c = false ∧
      c.isDigit = false := by
    rcases hc with rfl | rfl <;> decide
  obtain ⟨hline, hspace, hslash, hident, hdigit⟩ := hchar
  have hpass : ∀ p, pass p c = right p 1 := fun p => by simp [pass, right, hline]
  unfold lexStep
  rw [if_neg hline, if_neg (by simp [hspace]), if_neg (by simp [hslash]), if_neg (by simp [hslash]),
    if_neg (by simp [hident]), if_neg (by simp [hdigit]), if_pos hc]
  refine ⟨_, rfl, ?_⟩
  split_ifs
  · rw [List.foldl_cons, hpass]
  · rw [List.foldl_append, List.foldl_cons, List.foldl_cons, List.foldl_nil, hpass, hpass]

theorem lexStep_mark_spec {c : Char} (hc : c = quote ∨ c = backtick) (p : Place) (rest : Text) :
  StepSpec p (c :: rest) (lexStep p c rest)
  := by
  obtain ⟨stop, hstep, hstop⟩ := casterStep_mark hc p rest
  have hsplit : rest.takeWhile (· ≠ c) ++ rest.dropWhile (· ≠ c) = rest :=
    List.takeWhile_append_dropWhile
  rw [hstep]
  by_cases hend : rest.dropWhile (· ≠ c) = []
  · rw [if_pos hend] at hstop
    refine ⟨⟨_, by simp, ?_, hstop⟩, startOf_makeToken _ _ _ _⟩
    rw [hend, List.append_nil] at hsplit
    simp only [hend, List.drop_nil, List.append_nil, hsplit]
  · rw [if_neg hend] at hstop
    refine ⟨⟨_, by simp, ?_, hstop⟩, startOf_makeToken _ _ _ _⟩
    have hhead := List.head?_dropWhile_not (fun d => decide (d ≠ c)) rest
    obtain ⟨d, after, hafter⟩ := List.exists_cons_of_ne_nil hend
    rw [hafter] at hhead
    have hd : d = c := by simpa using hhead
    subst hd
    rw [hafter] at hsplit
    simp only [hafter, List.drop_succ_cons, List.drop_zero, List.cons_append, List.append_assoc,
      List.nil_append, hsplit]

/-- What a step reads, its place behind and the place of its token. -/
theorem lexStep_spec (p : Place) (c : Char) (rest : Text) : StepSpec p (c :: rest) (lexStep p c rest) := by
  by_cases hblock : c = '/' ∧ rest.head? = some '*'
  · obtain ⟨rfl, hhead⟩ := hblock
    obtain ⟨text, rfl⟩ := List.head?_eq_some_iff.mp hhead
    exact lexStep_comment_spec p text
  by_cases hmark : c = quote ∨ c = backtick
  · exact lexStep_mark_spec hmark p rest
  unfold lexStep
  split_ifs with hline hspace hcomment hident hdigit
  · subst hline
    exact ⟨⟨['\n'], by simp, rfl, rfl⟩, startOf_makeToken _ _ _ _⟩
  · exact stepSpec_plain _ (List.cons_ne_nil c []) (by simpa using hline) (by simp)
  · have hc : decide (c ≠ '\n') = true := by simpa using hline
    exact takeWhile_step (fun d => decide (d ≠ '\n')) hc (by simp) (by simp)
  · exact takeWhile_step isIdentChar (isIdentChar_of_isIdentStart hident) (fun d => isIdentChar_ne)
      (startOf_makeToken _ _ _ _)
  · have hne : (numberLoop false (c :: rest)).1 ≠ [] := by simp [numberLoop_digit hdigit]
    have hspec := stepSpec_plain ((c :: rest).drop (numberLoop false (c :: rest)).1.length)
      hne (numberLoop_plain false (c :: rest))
      (startOf_makeToken (if (numberLoop false (c :: rest)).2 then .FLT_LITERAL else .INT_LITERAL)
        (numberLoop false (c :: rest)).1 p (right p (numberLoop false (c :: rest)).1.length))
    rwa [List.prefix_iff_eq_append.mp (numberLoop_front (c :: rest))] at hspec
  · split
    · rename_i kind hkind
      obtain ⟨d, text, rfl, hc, hd⟩ := twoCharKind_ne hkind
      exact stepSpec_plain _ (List.cons_ne_nil c [d]) (by simp [hc, hd]) (startOf_makeToken _ _ _ _)
    · exact stepSpec_plain _ (List.cons_ne_nil c []) (by simpa using hline) (startOf_makeToken _ _ _ _)

/-- No token of a text starts before the text. -/
theorem startOf_tokensFrom {p : Place} {text : Text} :
  ∀ tok ∈ tokensFrom p text, startOf tok = p ∨ p.Before (startOf tok)
  := by
  induction hm : text.length using Nat.strong_induction_on generalizing p text with
  | _ m ih =>
    subst hm
    cases text with
    | nil =>
      intro tok htok
      obtain rfl := List.mem_singleton.mp htok
      exact .inl rfl
    | cons c rest =>
      have hspec := lexStep_spec p c rest
      have hsuffix := (lexStep_suffix p c rest).length_le
      rw [tokensFrom_cons]
      generalize lexStep p c rest = result at hspec hsuffix
      obtain ⟨tok, p', rest'⟩ := result
      obtain ⟨⟨q, hne, -, hplace⟩, hstart⟩ := hspec
      simp only at hplace hsuffix
      have hbefore : p.Before p' := hplace ▸ before_foldl_pass hne p
      intro t ht
      rcases List.mem_append.mp ht with ht | ht
      · exact .inl (hstart t (by simpa using ht))
      · have hle : rest'.length < (c :: rest).length := by
          rw [List.length_cons]
          omega
        rcases ih rest'.length hle rfl t ht with heq | hlt
        · exact .inr (heq ▸ hbefore)
        · exact .inr (hbefore.trans hlt)

/-- The last token is behind all line feeds. -/
theorem getLast_tokensFrom (p : Place) (text : Text) :
  ∃ tok, (tokensFrom p text).getLast? = some tok ∧ tok.span.line = p.line + text.count '\n'
  := by
  induction hm : text.length using Nat.strong_induction_on generalizing p text with
  | _ m ih =>
    subst hm
    cases text with
    | nil => exact ⟨_, rfl, rfl⟩
    | cons c rest =>
      have hspec := lexStep_spec p c rest
      have hsuffix := (lexStep_suffix p c rest).length_le
      rw [tokensFrom_cons]
      generalize lexStep p c rest = result at hspec hsuffix
      obtain ⟨tok, p', rest'⟩ := result
      obtain ⟨⟨q, hne, htext, hplace⟩, -⟩ := hspec
      simp only at hplace hsuffix htext
      have hle : rest'.length < (c :: rest).length := by
        rw [List.length_cons]
        omega
      obtain ⟨last, hlast, hline⟩ := ih rest'.length hle p' rest' rfl
      refine ⟨last, ?_, ?_⟩
      · rw [List.getLast?_append, hlast]
        rfl
      · rw [hline, hplace, line_foldl_pass, htext, List.count_append, Nat.add_assoc]

/-! ### Carriage returns -/

theorem count_le_lineEnds (text : Text) : text.count '\n' ≤ lineEnds text := by
  induction text with
  | nil => simp
  | cons c rest ih =>
    rw [lineEnds, List.count_cons]
    by_cases hc : c = '\n'
    · subst hc
      simp
      omega
    · simp [hc]
      omega

/-- If only line feeds end lines, each carriage return is followed by one. -/
theorem pairedReturns_of_lineEnds {text : Text} (h : lineEnds text = text.count '\n') :
  PairedReturns text
  := by
  induction text with
  | nil =>
    intro before after heq
    simp at heq
  | cons c rest ih =>
    have hle := count_le_lineEnds rest
    rw [lineEnds, List.count_cons] at h
    have hrest : lineEnds rest = rest.count '\n' := by
      by_cases hc : c = '\n'
      · simp [hc] at h
        omega
      · simp [hc] at h
        omega
    have hhead : c = '\r' → rest.head? = some '\n' := by
      rintro rfl
      by_contra hnone
      simp [hnone] at h
      omega
    intro before after heq
    cases before with
    | nil =>
      obtain ⟨rfl, rfl⟩ := List.cons.inj heq
      exact hhead rfl
    | cons d before =>
      exact ih hrest before after (List.cons.inj heq).2

theorem pairedReturns_suffix {text rest q : Text} (h : PairedReturns text) (htext : text = q ++ rest) :
  PairedReturns rest
  := fun before after heq => h (q ++ before) after (by rw [htext, heq, List.append_assoc])

theorem forall₂_getLast {α β : Type} {R : α → β → Prop} {l : List α} {l' : List β} {a : α} {b : β}
    (h : List.Forall₂ R l l') (ha : l.getLast? = some a) (hb : l'.getLast? = some b) :
  R a b
  := by
  induction h with
  | nil => cases ha
  | @cons x y l l' hxy hrest ih =>
    cases hrest with
    | nil =>
      cases ha
      cases hb
      exact hxy
    | cons hxy' hrest' =>
      rw [List.getLast?_cons_cons] at ha hb
      exact ih ha hb

theorem pairedReturns_body {body rest : Text} (h : PairedReturns (body ++ '*' :: rest)) :
  PairedReturns body
  := by
  intro before after heq
  have hhead := h before (after ++ '*' :: rest) (by rw [heq, List.append_assoc, List.cons_append])
  cases after with
  | nil => simp at hhead
  | cons c after => simpa using hhead

/-- Tokens that correspond to all tokens of a text tell that no line ends with a carriage
return alone. -/
theorem pairedReturns_of_corresponds {src : Text} {pieces : List (Piece Char Parse.Token)}
    {last : LexState} (h : Lex.lexer.Reads LexState.start src pieces last)
    (htokens : List.Forall₂ Corresponds (Lex.tokensOf pieces last) (lexSource src)) :
  PairedReturns src
  := by
  obtain ⟨tok, hlast, hline⟩ := getLast_tokensFrom ⟨1, 1⟩ src
  have heof : (Lex.tokensOf pieces last).getLast? = some (last.token .EOF []) := by
    simp [Lex.tokensOf]
  have hcorresponds := forall₂_getLast htokens heof hlast
  have hplace : last.line = 1 + lineEnds src :=
    congrArg Place.line (Lex.placed_last h (Lex.placed_start src))
  apply pairedReturns_of_lineEnds
  have hlines := hcorresponds.line
  simp only [LexState.token] at hlines hline
  omega

/-! ### Steps of the compiler on shared texts -/

theorem forall₂_mem_left {α β : Type} {R : α → β → Prop} {l : List α} {l' : List β}
    (h : List.Forall₂ R l l') :
  ∀ a ∈ l, ∃ b ∈ l', R a b
  := by
  induction h with
  | nil => simp
  | cons hxy hrest ih =>
    intro a ha
    rcases List.mem_cons.mp ha with rfl | ha
    · exact ⟨_, List.mem_cons_self, hxy⟩
    · obtain ⟨b, hb, hab⟩ := ih a ha
      exact ⟨b, List.mem_cons_of_mem _ hb, hab⟩

/-- A token of the compiler does not start before the text the lexer written in Caster reads. -/
theorem place_of_corresponds {toks : List Parse.Token} {p : Place} {text : Text}
    (h : List.Forall₂ Corresponds toks (tokensFrom p text)) :
  ∀ tok ∈ toks, ¬(Lex.place tok).Before p
  := by
  intro tok htok
  obtain ⟨tok', htok', hcorresponds⟩ := forall₂_mem_left h tok htok
  have hplace : startOf tok' = Lex.place tok := by
    simp [startOf, Lex.place, hcorresponds.line, hcorresponds.col]
  have hstart := startOf_tokensFrom tok' htok'
  rw [hplace] at hstart
  unfold Place.Before at *
  rcases hstart with heq | hlt
  · rw [heq]
    omega
  · omega

/-- The lexer written in Caster passes a carriage return, for which the compiler has a token. -/
theorem not_corresponds_return {s : LexState} {rest : Text} {toks : List Parse.Token}
    {tok : Parse.Token} (htok : Lex.place tok = s.place) :
  ¬List.Forall₂ Corresponds (tok :: toks) (tokensFrom s.place ('\r' :: rest))
  := by
  intro h
  have hstep : lexStep s.place '\r' rest = (none, right s.place 1, rest) := rfl
  rw [tokensFrom_eq hstep] at h
  apply place_of_corresponds h tok List.mem_cons_self
  rw [htok]
  simp [Place.Before, right]

theorem takeWhile_inLine_lt {rest : Text} (hend : (rest.dropWhile Lex.inLine).head? = some '\r') :
  (rest.takeWhile Lex.inLine).length < (rest.takeWhile (· ≠ '\n')).length
  := by
  induction rest with
  | nil => cases hend
  | cons c rest ih =>
    by_cases hc : Lex.inLine c = true
    · have hne : decide (c ≠ '\n') = true := by
        apply decide_eq_true
        rintro rfl
        cases hc
      rw [List.dropWhile_cons_of_pos hc] at hend
      simp only [List.takeWhile_cons, hc, hne, if_true, List.length_cons]
      exact Nat.succ_lt_succ (ih hend)
    · rw [List.dropWhile_cons_of_neg hc] at hend
      obtain rfl : c = '\r' := by simpa using hend
      rw [List.takeWhile_cons_of_neg hc]
      simp

/-- The lexer written in Caster passes a carriage return behind a comment. -/
theorem not_corresponds_comment {s : LexState} {rest : Text} {toks : List Parse.Token}
    {tok : Parse.Token} (hend : (rest.dropWhile Lex.inLine).head? = some '\r')
    (htok : Lex.place tok = right (right s.place 2) (rest.takeWhile Lex.inLine).length) :
  ¬List.Forall₂ Corresponds (tok :: toks) (tokensFrom s.place ('/' :: '/' :: rest))
  := by
  intro h
  have hstep : lexStep s.place '/' ('/' :: rest) =
      (none, right s.place (('/' :: '/' :: rest).takeWhile (· ≠ '\n')).length,
        ('/' :: '/' :: rest).dropWhile (· ≠ '\n')) := rfl
  rw [tokensFrom_eq hstep] at h
  apply place_of_corresponds h tok List.mem_cons_self
  have hlt := takeWhile_inLine_lt hend
  have hslash : decide ('/' ≠ '\n') = true := by decide
  rw [htok]
  right
  simp only [right, List.takeWhile_cons, hslash, if_true, List.length_cons, true_and]
  omega

/-- The first tokens of both lexers correspond. -/
theorem corresponds_head {toks : List Parse.Token} {tok : Parse.Token} {tok' : Token} {p p' : Place}
    {c : Char} {rest rest' : Text} (hstep : lexStep p c rest = (some tok', p', rest'))
    (h : List.Forall₂ Corresponds (tok :: toks) (tokensFrom p (c :: rest))) :
  Corresponds tok tok'
  := by
  rw [tokensFrom_eq hstep] at h
  cases h with
  | cons hhead hrest => exact hhead

/-- The texts of the first tokens of both lexers are the same. -/
theorem lexeme_eq {toks : List Parse.Token} {s : LexState} {kind : TokenKind} {kind' : Kind}
    {out lexeme rest rest' : Text} {stop p' : Place} {c : Char}
    (hstep : lexStep s.place c rest = (some (makeToken kind' lexeme s.place stop), p', rest'))
    (h : List.Forall₂ Corresponds (s.token kind out :: toks) (tokensFrom s.place (c :: rest))) :
  lexeme = out ∧ kind' = kindOf kind
  := by
  have hhead := corresponds_head hstep h
  exact ⟨String.ofList_injective hhead.text, hhead.kind⟩

/-- A string the compiler reads has an escape, and then another text between its marks, or it
is a shared piece. -/
theorem lexString_cases {start s s' : LexState} {text out rest : Text}
    (h : Lex.lexString start text s = .ok (out, s', rest)) :
  ((∀ c ∈ out, c ≠ quote ∧ c ≠ '\\' ∧ isLineEnd c = false) ∧ text = out ++ quote :: rest) ∨
    quote ∈ out ∨ out.length < (text.takeWhile (· ≠ quote)).length
  := by
  induction text, s using Lex.lexString.induct generalizing out with
  | case1 s => cases h
  | case2 s => cases h
  | case3 e text s hescape =>
    rw [Lex.lexString, hescape] at h
    cases h
  | case4 e text s o hescape ih =>
    rw [Lex.lexString, hescape] at h
    obtain ⟨⟨out', s₁, rest₁⟩, hrest, heq⟩ := Lex.except_map_eq_ok h
    cases heq
    right
    by_cases he : e = quote
    · subst he
      obtain rfl : quote = o := Option.some.inj hescape
      exact .inl List.mem_cons_self
    · have hmark : '\\' ≠ quote := by decide
      have htake : ('\\' :: e :: text).takeWhile (· ≠ quote) =
          '\\' :: e :: text.takeWhile (· ≠ quote) := by
        simp [he, hmark]
      rw [htake]
      rcases ih hrest with ⟨hplain, htext⟩ | hmem | hlt
      · right
        rw [htext, Marks.takeWhile_append_mark fun hc => (hplain _ hc).1 rfl]
        simp
      · exact .inl (List.mem_cons_of_mem _ hmem)
      · right
        simp only [List.length_cons]
        omega
  | case5 text s hlast hescape =>
    rw [Lex.lexString.eq_4 _ _ _ _ hlast hescape, if_pos rfl] at h
    cases h
    exact .inl ⟨by simp, rfl⟩
  | case6 c text s hlast hescape hquote hend =>
    rw [Lex.lexString.eq_4 _ _ _ _ hlast hescape, if_neg hquote, if_pos hend] at h
    cases h
  | case7 c text s hlast hescape hquote hend ih =>
    rw [Lex.lexString.eq_4 _ _ _ _ hlast hescape, if_neg hquote, if_neg hend] at h
    obtain ⟨⟨out', s₁, rest₁⟩, hrest, heq⟩ := Lex.except_map_eq_ok h
    cases heq
    have hslash : c ≠ '\\' := by
      intro hc
      cases text with
      | nil => exact hlast hc rfl
      | cons d text => exact hescape d text hc rfl
    rcases ih hrest with ⟨hplain, htext⟩ | hmem | hlt
    · left
      refine ⟨?_, by rw [htext, List.cons_append]⟩
      intro d hd
      rcases List.mem_cons.mp hd with rfl | hd
      · exact ⟨hquote, hslash, by simpa using hend⟩
      · exact hplain d hd
    · exact .inr (.inl (List.mem_cons_of_mem _ hmem))
    · right
      right
      have htake : (c :: text).takeWhile (· ≠ quote) = c :: text.takeWhile (· ≠ quote) := by
        simp [hquote]
      rw [htake, List.length_cons, List.length_cons]
      omega

/-- A raw string the compiler reads has no carriage return in its text, so it is a shared piece
if there is none between its marks. -/
theorem lexRaw_cases {s s' : LexState} {text out rest : Text}
    (h : Lex.lexRaw text s = some (out, s', rest)) :
  '\r' ∉ out ∧ ('\r' ∉ text.takeWhile (· ≠ backtick) →
    (∀ c ∈ out, c ≠ backtick ∧ c ≠ '\r') ∧ text = out ++ backtick :: rest)
  := by
  induction text, s using Lex.lexRaw.induct generalizing out with
  | case1 s => cases h
  | case2 text s ih =>
    obtain ⟨⟨out', s₁, rest₁⟩, hrest, heq⟩ := Option.map_eq_some_iff.mp h
    cases heq
    obtain ⟨hno, -⟩ := ih hrest
    refine ⟨by simp [hno], fun hreturn => ?_⟩
    have hmark : '\r' ≠ backtick := by decide
    simp [List.takeWhile_cons, hmark] at hreturn
  | case3 text s hpair =>
    rw [Lex.lexRaw.eq_3 _ _ _ hpair, if_pos rfl] at h
    cases h
    exact ⟨by simp, fun _ => ⟨by simp, rfl⟩⟩
  | case4 c text s hpair hmark hend ih =>
    rw [Lex.lexRaw.eq_3 _ _ _ hpair, if_neg hmark, if_pos hend] at h
    obtain ⟨⟨out', s₁, rest₁⟩, hrest, heq⟩ := Option.map_eq_some_iff.mp h
    cases heq
    obtain ⟨hno, hshared⟩ := ih hrest
    have htake : (c :: text).takeWhile (· ≠ backtick) = c :: text.takeWhile (· ≠ backtick) := by
      simp [hmark]
    refine ⟨by simp [hno], fun hreturn => ?_⟩
    rw [htake, List.mem_cons, not_or] at hreturn
    obtain ⟨hplain, htext⟩ := hshared hreturn.2
    have hc : c = '\n' := by
      have hends : c = '\n' ∨ c = '\r' := by simpa [isLineEnd] using hend
      exact hends.resolve_right (Ne.symm hreturn.1)
    subst hc
    exact ⟨by simpa [hmark] using hplain, by rw [htext, List.cons_append]⟩
  | case5 c text s hpair hmark hend ih =>
    rw [Lex.lexRaw.eq_3 _ _ _ hpair, if_neg hmark, if_neg hend] at h
    obtain ⟨⟨out', s₁, rest₁⟩, hrest, heq⟩ := Option.map_eq_some_iff.mp h
    cases heq
    obtain ⟨hno, hshared⟩ := ih hrest
    have htake : (c :: text).takeWhile (· ≠ backtick) = c :: text.takeWhile (· ≠ backtick) := by
      simp [hmark]
    have hc : c ≠ '\r' := by
      rintro rfl
      exact hend rfl
    refine ⟨by simp [hno, Ne.symm hc], fun hreturn => ?_⟩
    rw [htake, List.mem_cons, not_or] at hreturn
    obtain ⟨hplain, htext⟩ := hshared hreturn.2
    exact ⟨by simpa [hmark, hc] using hplain, by rw [htext, List.cons_append]⟩

/-- The piece of a number is shared if the lexers have the same text for it. -/
theorem sharedPiece_number {s s' : LexState} {c : Char} {rest out rest' : Text} {kind : TokenKind}
    {toks : List Parse.Token} (hc : c.isDigit = true)
    (h : Lex.lexNumber s (c :: rest) = .ok (kind, out, s', rest'))
    (htokens : List.Forall₂ Corresponds (s.token kind out :: toks) (tokensFrom s.place (c :: rest))) :
  SharedPiece s.before (c :: rest) rest'
  := by
  obtain ⟨hchar, hident⟩ := isDigit_identChar hc
  obtain ⟨hspace, hslash, -, -⟩ := isIdentChar_char hchar
  obtain ⟨-, -, hline, -⟩ := not_isLineEnd_of_not_isSpace hspace
  have hstep : lexStep s.place c rest =
      (some (makeToken (if (numberLoop false (c :: rest)).2 then .FLT_LITERAL else .INT_LITERAL)
        (numberLoop false (c :: rest)).1 s.place
        (right s.place (numberLoop false (c :: rest)).1.length)),
        right s.place (numberLoop false (c :: rest)).1.length,
        (c :: rest).drop (numberLoop false (c :: rest)).1.length) := by
    unfold lexStep
    rw [if_neg hline, if_neg (by simp [hspace]), if_neg (by simp [hslash]), if_neg (by simp [hslash]),
      if_neg (by simp [hident]), if_pos hc]
  obtain ⟨hlexeme, -⟩ := lexeme_eq hstep htokens
  rw [numberLoop_false] at hlexeme
  have hmark : Lex.exponentMark (behindNumber (c :: rest)) = [] := by
    by_contra hmark
    simp only [behindNumber] at hmark
    simp only [Lex.lexNumber, if_neg hmark] at h
    split_ifs at h
    simp only [Except.ok.injEq, Prod.mk.injEq] at h
    have hlength := congrArg List.length (hlexeme.trans h.2.1.symm)
    have hpos := List.length_pos_iff.mpr hmark
    simp only [List.length_append] at hlength
    omega
  obtain ⟨s₁, hplain, -⟩ := lexNumber_plain hmark s
  rw [hplain] at h
  simp only [Except.ok.injEq, Prod.mk.injEq] at h
  obtain ⟨-, -, -, rfl⟩ := h
  exact .number hc hmark

/-- The piece of a word is shared if the lexers have the same text and kind for it. -/
theorem sharedPiece_word {s s' : LexState} {c : Char} {rest rest' : Text} {tok : Parse.Token}
    {toks : List Parse.Token} (hc : isIdentStart c = true)
    (h : Lex.lexStep s c rest = .ok (some tok, s', rest'))
    (htokens : List.Forall₂ Corresponds (tok :: toks) (tokensFrom s.place (c :: rest))) :
  SharedPiece s.before (c :: rest) rest'
  := by
  rw [Lex.lexStep_ident hc] at h
  have hstep := casterStep_ident hc s.place rest
  by_cases hmark : Lex.isShapeMark s.before c rest = true
  · rw [if_pos hmark] at h
    simp only [Except.ok.injEq, Prod.mk.injEq, Option.some.injEq] at h
    obtain ⟨rfl, -, rfl⟩ := h
    obtain ⟨hword, -⟩ := lexeme_eq hstep htokens
    have hchar := isIdentChar_of_isIdentStart hc
    have hempty : rest.takeWhile isIdentChar = [] := by
      rw [List.takeWhile_cons_of_pos hchar] at hword
      exact (List.cons.inj hword).2
    have hdrop : (c :: rest).dropWhile isIdentChar = rest := by
      have happend := List.takeWhile_append_dropWhile (p := isIdentChar) (l := c :: rest)
      rw [hword] at happend
      exact (List.cons.inj happend).2
    have hx : c = 'x' := by
      simp only [Lex.isShapeMark, Bool.and_eq_true, decide_eq_true_eq] at hmark
      exact hmark.1.1
    have hnext : ¬(c = 'x' ∧ s.before.head?.any Char.isDigit ∧ rest.head?.any isIdentChar) := by
      rintro ⟨-, -, hnext⟩
      cases rest with
      | nil => cases hnext
      | cons d text =>
        rw [List.takeWhile_cons_of_pos (by simpa using hnext)] at hempty
        cases hempty
    have hplain : String.ofList ((c :: rest).takeWhile isIdentChar) ≠ "use" ∧
        String.ofList ((c :: rest).takeWhile isIdentChar) ≠ "DYN" := by
      rw [hword, hx]
      decide
    have hpiece := SharedPiece.word hc hnext hplain
    rwa [hdrop] at hpiece
  · rw [if_neg hmark] at h
    simp only [Except.ok.injEq, Prod.mk.injEq, Option.some.injEq] at h
    obtain ⟨rfl, -, rfl⟩ := h
    obtain ⟨-, hkind⟩ := lexeme_eq hstep htokens
    apply SharedPiece.word hc
    · rintro ⟨hx, hdigit, hnext⟩
      apply hmark
      cases rest with
      | nil => cases hnext
      | cons d text => simp_all [Lex.isShapeMark]
    · constructor
      · intro hword
        rw [hword] at hkind
        revert hkind
        decide
      · intro hword
        rw [hword] at hkind
        revert hkind
        decide

/-- A step of the compiler reads a shared piece, or the tokens do not correspond. -/
theorem sharedPiece_of_step {s s' : LexState} {c : Char} {rest rest' : Text} {tok : Option Parse.Token}
    {toks : List Parse.Token} (h : Lex.lexStep s c rest = .ok (tok, s', rest'))
    (hreturns : PairedReturns (c :: rest))
    (htokens : List.Forall₂ Corresponds (tok.toList ++ toks) (tokensFrom s.place (c :: rest)))
    (hnext : rest'.head? = some '\r' → ∃ tok' toks', toks = tok' :: toks' ∧ Lex.place tok' = s'.place) :
  SharedPiece s.before (c :: rest) rest'
  := by
  have hread := h
  unfold Lex.lexStep at h
  split_ifs at h with hblank hend hline hblock hquote hraw hdigit hident
  · cases h
    exact .blank hblank
  · cases h
    have hends : c = '\n' ∨ c = '\r' := by simpa [isLineEnd] using hend
    rcases hends with rfl | rfl
    · exact .newline
    · exact absurd htokens (not_corresponds_return rfl)
  · obtain ⟨rfl, hhead⟩ := hline
    obtain ⟨text, rfl⟩ := List.head?_eq_some_iff.mp hhead
    cases h
    apply SharedPiece.lineComment
    intro hreturn
    obtain ⟨tok', toks', rfl, hplace⟩ := hnext hreturn
    exact not_corresponds_comment hreturn hplace htokens
  · obtain ⟨rfl, hhead⟩ := hblock
    obtain ⟨text, rfl⟩ := List.head?_eq_some_iff.mp hhead
    split at h
    · cases h
    · rename_i hcomment
      cases h
      obtain ⟨body, hbody⟩ := splitComment_of_blockComment hcomment
      apply SharedPiece.blockComment hbody
      have htext : PairedReturns text := pairedReturns_tail (pairedReturns_tail hreturns)
      have hsplit : text = body ++ '*' :: '/' :: rest' := splitComment_text hbody
      rw [hsplit] at htext
      exact pairedReturns_body htext
  · subst hquote
    split at h
    · cases h
    · rename_i out s₁ rest₁ hstring
      cases h
      obtain ⟨stop, hstep, -⟩ := casterStep_mark (.inl rfl) s.place rest
      obtain ⟨hlexeme, -⟩ := lexeme_eq hstep htokens
      rcases lexString_cases hstring with ⟨hplain, htext⟩ | hmem | hlt
      · rw [htext]
        exact .string hplain
      · rw [← hlexeme] at hmem
        simpa using List.mem_takeWhile_imp hmem
      · exact absurd (congrArg List.length hlexeme) hlt.ne'
  · subst hraw
    split at h
    · cases h
    · rename_i hstring
      cases h
      obtain ⟨stop, hstep, -⟩ := casterStep_mark (.inr rfl) s.place rest
      obtain ⟨hlexeme, -⟩ := lexeme_eq hstep htokens
      obtain ⟨hno, hshared⟩ := lexRaw_cases hstring
      obtain ⟨hplain, htext⟩ := hshared (hlexeme ▸ hno)
      rw [htext]
      exact .raw hplain
  · split at h
    · cases h
    · rename_i hnumber
      cases h
      exact sharedPiece_number hdigit hnumber htokens
  · cases h
    exact sharedPiece_word hident hread htokens
  · cases h
    exact sharedPiece_word hident hread htokens
  · split at h
    · cases h
    · rename_i hsign
      cases h
      refine .sign hsign ?_
      tauto

/-- The compiler has a token for a carriage return. -/
theorem first_of_return {s last : LexState} {text : Text} {pieces : List (Piece Char Parse.Token)}
    (h : Lex.lexer.Reads s text pieces last) (hreturn : text.head? = some '\r') :
  ∃ tok toks, Lex.tokensOf pieces last = tok :: toks ∧ Lex.place tok = s.place
  := by
  obtain ⟨rest, rfl⟩ := List.head?_eq_some_iff.mp hreturn
  cases h with
  | @cons s c rest tok s' rest' p pieces last hstep htext hrest =>
    have hstep' : Lex.lexStep s '\r' rest = .ok (tok, s', rest') := hstep
    have hnewline : Lex.lexStep s '\r' rest = .ok (some (s.token .NEWLINE ['\n']),
        s.lineEnd (Lex.splitLineEnd '\r' rest).1, (Lex.splitLineEnd '\r' rest).2) := rfl
    rw [hnewline] at hstep'
    simp only [Except.ok.injEq, Prod.mk.injEq] at hstep'
    obtain ⟨rfl, -, -⟩ := hstep'
    exact ⟨_, _, rfl, rfl⟩

/-- A text whose tokens correspond is made of shared pieces. -/
theorem sharedText_of_corresponds {s last : LexState} {text : Text}
    {pieces : List (Piece Char Parse.Token)} (h : Lex.lexer.Reads s text pieces last)
    (hreturns : PairedReturns text)
    (htokens : List.Forall₂ Corresponds (Lex.tokensOf pieces last) (tokensFrom s.place text)) :
  SharedText s.before text
  := by
  induction h with
  | nil s => exact .done
  | @cons s c rest tok s' rest' p pieces last hstep htext hrest ih =>
    have hsplit : Lex.tokensOf (⟨p, tok⟩ :: pieces) last = tok.toList ++ Lex.tokensOf pieces last := by
      cases tok <;> rfl
    rw [hsplit] at htokens
    have hpiece := sharedPiece_of_step hstep hreturns htokens (first_of_return hrest)
    obtain ⟨tok₁, tok', s₁, hstep₁, hstep', hmatches⟩ := hpiece.stepsAlike
    obtain ⟨rfl, rfl, -⟩ : tok = tok₁ ∧ s' = s₁ ∧ rest' = rest' := by
      have hok : Lex.lexStep s c rest = .ok (tok, s', rest') := hstep
      rw [hok] at hstep₁
      simpa using hstep₁
    obtain ⟨q, -, hq, hbefore⟩ := (Lex.lexStep_advances hstep).text
    obtain rfl : p = q := List.append_cancel_right (htext.symm.trans hq)
    rw [tokensFrom_eq hstep'] at htokens
    apply SharedText.piece hpiece htext
    rw [← hbefore]
    apply ih (pairedReturns_suffix hreturns htext)
    cases hmatches with
    | none => exact htokens
    | some htok =>
      cases htokens with
      | cons _ htokens => exact htokens

theorem sharedText_of_agree {src : Text} {toks : List Parse.Token}
    (h : Lex.lexSource src = .ok toks) (hagree : LexersAgree src) :
  SharedText [] src
  := by
  obtain ⟨⟨pieces, last⟩, hpieces, rfl⟩ := Lex.except_map_eq_ok h
  have hreads := Lex.lexer.reads_of_scan hpieces
  unfold LexersAgree at hagree
  rw [h] at hagree
  exact sharedText_of_corresponds hreads (pairedReturns_of_corresponds hreads hagree) hagree

/-- The lexers agree about every text of shared pieces, and about no other text the compiler
accepts. -/
theorem lexers_agree (src : Text) :
  (SharedText [] src → LexersAgree src) ∧
    ((∃ toks, Lex.lexSource src = .ok toks) → (LexersAgree src ↔ SharedText [] src))
  := by
  constructor
  · exact SharedText.agree
  · rintro ⟨toks, htoks⟩
    exact ⟨sharedText_of_agree htoks, SharedText.agree⟩

/-- The compiler has one token for a number with an exponent, the lexer written in Caster has two. -/
theorem not_lexers_agree : ¬∀ src, LexersAgree src := by
  intro h
  have hagree : List.Forall₂ Corresponds [⟨.FLT_LITERAL, "1e5", 1, 1⟩, ⟨.EOF, "", 1, 4⟩]
      (lexSource ['1', 'e', '5']) := h ['1', 'e', '5']
  cases hagree.length_eq

end Caster.SelfHosting
