import Caster.SelfHosting.LexerAgreement
import Caster.SelfHosting.TypeAliases

/-!
# Parsed types of the self-hosted compiler

The text `parseTypeName` makes where it reports nothing is the one of a type, and an alias or a value
is declared with a name and a type.
-/

namespace Caster.SelfHosting

open Driver (Text isIdentChar isIdentStart isIdentChar_of_isIdentStart)
open TextPlaces (Place)

/-! ### Tokens -/

/-- A word has the characters and the kind of a word. -/
structure IsTypeWord (tok : Token) : Prop where
  kind : keywordKind tok.lexeme = tok.kind
  ne_nil : tok.lexeme.toList ≠ []
  ident : ∀ c ∈ tok.lexeme.toList, isIdentChar c = true

/-- The kinds of the words of types with one argument, of those without, and of names. -/
def typeWords : List Kind :=
  [.NAME, .ARR, .REF, .TSK, .INT_TYPE, .FLT_TYPE, .BOL_TYPE, .STR_TYPE, .NUL, .DYN_TYPE]

/-- A token of one of these kinds is a word. -/
def IsLexed (tok : Token) : Prop := tok.kind ∈ typeWords → IsTypeWord tok

theorem isLexed_makeToken {kind : Kind} (h : kind ∉ typeWords) (lexeme : Text) (start stop : Place) :
  IsLexed (makeToken kind lexeme start stop)
  := fun hmem => absurd hmem h

theorem isLexed_word {lexeme : Text} (hne : lexeme ≠ []) (hident : ∀ c ∈ lexeme, isIdentChar c = true)
    (start stop : Place) :
  IsLexed (makeToken (keywordKind (String.ofList lexeme)) lexeme start stop)
  := by
  have hchars : (makeToken (keywordKind (String.ofList lexeme)) lexeme start stop).lexeme.toList =
      lexeme := String.toList_ofList
  refine fun _ => ⟨rfl, ?_, ?_⟩
  · rwa [hchars]
  · rwa [hchars]

/-- A sign is no word. -/
theorem sign_not_mem_typeWords (c : Char) (text : Text) :
  oneCharKind c ∉ typeWords ∧ ∀ kind, twoCharKind text = some kind → kind ∉ typeWords
  := by
  constructor
  · unfold oneCharKind
    split <;> decide
  · intro kind h
    unfold twoCharKind at h
    split at h <;> cases h <;> decide

/-- A token of the lexer is a word when its kind is one of a word. -/
theorem isLexed_lexStep (p : Place) (ch : Char) (rest : Text) :
  ∀ tok ∈ (lexStep p ch rest).1, IsLexed tok
  := by
  intro tok htok
  unfold lexStep at htok
  split_ifs at htok with hline hspace hcomment hblock hident hdigit hquote
  · cases htok
    exact isLexed_makeToken (by decide) _ _ _
  · cases htok
  · cases htok
  · dsimp only at htok
    split_ifs at htok
    · cases htok
      exact isLexed_makeToken (by decide) _ _ _
    · cases htok
  · cases htok
    have hch := isIdentChar_of_isIdentStart hident
    apply isLexed_word
    · rw [List.takeWhile_cons_of_pos hch]
      exact List.cons_ne_nil _ _
    · exact fun c hc => List.mem_takeWhile_imp hc
  · cases htok
    apply isLexed_makeToken
    split_ifs <;> decide
  · cases htok
    exact isLexed_makeToken (by decide) _ _ _
  · obtain ⟨hone, htwo⟩ := sign_not_mem_typeWords ch (ch :: rest.take 1)
    split at htok
    · rename_i kind hkind
      cases htok
      exact isLexed_makeToken (htwo kind hkind) _ _ _
    · cases htok
      exact isLexed_makeToken hone _ _ _

/-- The tokens of the lexer are as its words are. -/
theorem isLexed_of_mem_lexSource (text : Text) : ∀ tok ∈ lexSource text, IsLexed tok := by
  have hfrom : ∀ (p : Place) (text : Text), ∀ tok ∈ tokensFrom p text, IsLexed tok := by
    intro p text
    induction hn : text.length using Nat.strong_induction_on generalizing p text with
    | _ n ih =>
    cases text with
    | nil =>
      rw [tokensFrom_nil]
      intro tok htok
      rw [List.mem_singleton.mp htok]
      exact isLexed_makeToken (by decide) _ _ _
    | cons c rest =>
      rw [tokensFrom_cons]
      intro tok htok
      rcases List.mem_append.mp htok with htok | htok
      · exact isLexed_lexStep p c rest tok (Option.mem_toList.mp htok)
      · have hle := (lexStep_suffix p c rest).length_le
        exact ih _ (by simp at hn; omega) _ _ rfl tok htok
  exact hfrom ⟨1, 1⟩ text

theorem eq_of_keywordKind {word : String} {kind : Kind} (h : keywordKind word = kind)
    (hkind : kind ≠ .NAME) :
  (word, kind) ∈ keywords
  := by
  unfold keywordKind at h
  cases hlookup : keywords.lookup word with
  | none =>
    rw [hlookup] at h
    exact absurd h.symm hkind
  | some kind' =>
    rw [hlookup] at h
    obtain rfl : kind' = kind := h
    obtain ⟨before, after, hsplit, -⟩ := List.lookup_eq_some_iff.mp hlookup
    rw [hsplit]
    simp

/-- A token of a primitive type is its word. -/
theorem exists_primitive {tok : Token} (h : IsLexed tok) (hkind : isPrimitive tok.kind = true) :
  ∃ p : Primitive, tok.lexeme.toList = p.text
  := by
  have hmem : tok.kind ∈ [Kind.INT_TYPE, .FLT_TYPE, .BOL_TYPE, .STR_TYPE, .NUL, .DYN_TYPE] :=
    of_decide_eq_true hkind
  have hword := h (List.mem_append_right [Kind.NAME, .ARR, .REF, .TSK] hmem)
  have hne : tok.kind ≠ .NAME := by
    intro hname
    rw [hname] at hkind
    cases hkind
  have hkeyword := eq_of_keywordKind hword.kind hne
  obtain ⟨lexeme, kind, hlexeme, hkinds⟩ : ∃ lexeme kind, tok.lexeme = lexeme ∧ tok.kind = kind :=
    ⟨_, _, rfl, rfl⟩
  rw [hlexeme, hkinds] at hkeyword
  rw [hkinds] at hmem
  rw [hlexeme]
  simp only [List.mem_cons, List.not_mem_nil, or_false] at hmem
  rcases hmem with rfl | rfl | rfl | rfl | rfl | rfl
  all_goals simp [keywords] at hkeyword; subst hkeyword
  · exact ⟨.INT, rfl⟩
  · exact ⟨.FLT, rfl⟩
  · exact ⟨.BOL, rfl⟩
  · exact ⟨.STR, rfl⟩
  · exact ⟨.NUL, rfl⟩
  · exact ⟨.DYN, rfl⟩

/-- A token of a constructor of one argument is its word. -/
theorem exists_container {tok : Token} (h : IsLexed tok) (hkind : tok.kind ∈ [Kind.ARR, .REF, .TSK]) :
  ∃ c : Container, tok.lexeme.toList = c.text
  := by
  have hword := h (by
    simp only [List.mem_cons, List.not_mem_nil, or_false] at hkind
    rcases hkind with hkind | hkind | hkind <;> simp [typeWords, hkind])
  have hne : tok.kind ≠ .NAME := by
    intro hname
    rw [hname] at hkind
    revert hkind
    decide
  have hkeyword := eq_of_keywordKind hword.kind hne
  obtain ⟨lexeme, kind, hlexeme, hkinds⟩ : ∃ lexeme kind, tok.lexeme = lexeme ∧ tok.kind = kind :=
    ⟨_, _, rfl, rfl⟩
  rw [hlexeme, hkinds] at hkeyword
  rw [hkinds] at hkind
  rw [hlexeme]
  simp only [List.mem_cons, List.not_mem_nil, or_false] at hkind
  rcases hkind with rfl | rfl | rfl
  all_goals simp [keywords] at hkeyword; subst hkeyword
  · exact ⟨.ARR, rfl⟩
  · exact ⟨.REF, rfl⟩
  · exact ⟨.TSK, rfl⟩

/-- A token of a name is one. -/
theorem exists_name {tok : Token} (h : IsLexed tok) (hkind : tok.kind = .NAME) :
  ∃ n : Name, tok.lexeme.toList = n.chars
  := by
  have hword := h (by simp [typeWords, hkind])
  refine ⟨⟨tok.lexeme.toList, hword.ne_nil, hword.ident, ?_⟩, rfl⟩
  rw [String.ofList_toList, hword.kind, hkind]

/-! ### Parsers that report nothing -/

/-- The parser keeps the tokens and the reports, and gives a value with a property unless it
reports something. -/
def Cleanly {α : Type} (p : Parser α) (Q : α → Prop) : Prop :=
  ∀ s a s', (∀ tok ∈ s.tokens, IsLexed tok) → p s = some (a, s') →
    s'.tokens = s.tokens ∧ s.diagnostics.length ≤ s'.diagnostics.length ∧
      (s'.diagnostics.length = s.diagnostics.length → Q a)

section

variable {α β : Type} {p : Parser α} {f : α → Parser β} {Q : α → Prop} {R : β → Prop}

theorem cleanly_pure {a : α} (h : Q a) : Cleanly (pure a) Q := by
  rintro s _ _ - heq
  cases heq
  exact ⟨rfl, le_refl _, fun _ => h⟩

theorem Cleanly.mono {Q' : α → Prop} (h : Cleanly p Q) (hQ : ∀ a, Q a → Q' a) : Cleanly p Q' := by
  intro s a s' hlexed heq
  obtain ⟨htokens, hle, ha⟩ := h s a s' hlexed heq
  exact ⟨htokens, hle, fun hsame => hQ a (ha hsame)⟩

/-- What follows may use what was given if nothing is reported. -/
theorem Cleanly.bind (hp : Cleanly p Q) (hf : ∀ a, Cleanly (f a) fun b => Q a → R b) :
  Cleanly (p >>= f) R
  := by
  intro s b s' hlexed heq
  obtain ⟨⟨a, s₁⟩, ha, hb⟩ := Option.bind_eq_some_iff.mp heq
  obtain ⟨htokens, hle, hQ⟩ := hp s a s₁ hlexed ha
  obtain ⟨htokens', hle', hR⟩ := hf a s₁ b s' (by rwa [htokens]) hb
  refine ⟨htokens'.trans htokens, hle.trans hle', fun hsame => ?_⟩
  exact hR (by omega) (hQ (by omega))

theorem current_eq_some {s s' : State} {tok : Token} (h : current s = some (tok, s')) :
  tok ∈ s.tokens ∧ s' = s
  := by
  obtain ⟨tok', htok, hpair⟩ := Option.map_eq_some_iff.mp h
  cases hpair
  split_ifs at htok
  · exact ⟨List.mem_of_getElem? htok, rfl⟩
  · exact ⟨List.mem_of_getLast? htok, rfl⟩

theorem advance_eq_some {s s' : State} {tok : Token} (h : advance s = some (tok, s')) :
  current s = some (tok, s) ∧ s'.tokens = s.tokens ∧ s'.diagnostics = s.diagnostics
  := by
  obtain ⟨⟨tok', s₁⟩, htok, hrest⟩ := Option.bind_eq_some_iff.mp h
  obtain ⟨-, rfl⟩ := current_eq_some htok
  cases hrest
  refine ⟨htok, ?_⟩
  dsimp only
  split_ifs <;> exact ⟨rfl, rfl⟩

theorem cleanly_current : Cleanly current IsLexed := by
  intro s tok s' hlexed heq
  obtain ⟨hmem, rfl⟩ := current_eq_some heq
  exact ⟨rfl, le_refl _, fun _ => hlexed tok hmem⟩

theorem cleanly_advance : Cleanly advance fun _ => True := by
  intro s tok s' _ heq
  obtain ⟨-, htokens, hdiagnostics⟩ := advance_eq_some heq
  exact ⟨htokens, hdiagnostics ▸ le_refl _, fun _ => trivial⟩

theorem cleanly_addError (tok : Token) (message : String) :
  Cleanly (addError tok message) fun _ => False
  := by
  rintro s _ s' - heq
  cases heq
  refine ⟨rfl, by simp, fun hsame => ?_⟩
  simp at hsame

theorem cleanly_expect (kind : Kind) (message : String) :
  Cleanly (expect kind message) fun tok => tok.kind = kind ∧ IsLexed tok
  := by
  intro s tok s' hlexed heq
  obtain ⟨⟨tok₁, s₁⟩, htok, hrest⟩ := Option.bind_eq_some_iff.mp heq
  obtain ⟨hmem, rfl⟩ := current_eq_some htok
  dsimp only at hrest
  by_cases hkind : tok₁.kind = kind
  · rw [if_pos hkind] at hrest
    obtain ⟨htok', htokens, hdiagnostics⟩ := advance_eq_some hrest
    rw [htok] at htok'
    cases htok'
    exact ⟨htokens, hdiagnostics ▸ le_refl _, fun _ => ⟨hkind, hlexed _ hmem⟩⟩
  · rw [if_neg hkind] at hrest
    have hreport : Cleanly (do
        addError tok₁ message
        if tok₁.kind ≠ .EOF then
          let _ ← advance
          pure tok₁
        else pure tok₁) fun tok => tok.kind = kind ∧ IsLexed tok := by
      apply (cleanly_addError tok₁ message).bind
      intro _
      split_ifs
      · exact cleanly_advance.bind fun _ => cleanly_pure fun _ => False.elim
      · exact cleanly_pure False.elim
    exact hreport s₁ tok s' hlexed hrest

theorem cleanly_atKind (kind : Kind) : Cleanly (atKind kind) fun _ => True :=
  cleanly_current.bind fun _ => cleanly_pure fun _ => trivial

theorem cleanly_matchKind (kind : Kind) : Cleanly (matchKind kind) fun _ => True := by
  apply (cleanly_atKind kind).bind
  intro b
  split_ifs
  · exact cleanly_advance.bind fun _ => cleanly_pure fun _ _ => trivial
  · exact cleanly_pure fun _ => trivial

end

theorem cleanly_loop {α β : Type} {body : α → Parser (α ⊕ β)} (h : ∀ a, Cleanly (body a) fun _ => True)
    (a : α) :
  Cleanly (loop body a) fun _ => True
  := by
  have hiterate : ∀ n a, Cleanly (iterate body n a) fun _ => True := by
    intro n
    induction n with
    | zero =>
      intro a s b s' _ heq
      cases heq
    | succ n ih =>
      intro a
      apply (h a).bind
      intro result
      cases result with
      | inl a => exact (ih a).mono fun _ _ _ => trivial
      | inr b => exact cleanly_pure fun _ => trivial
  exact fun s => hiterate _ a s

/-! ### Types -/

/-- The text of a type. -/
def IsTypeText (text : String) : Prop := ∃ t, text.toList = typeText t

theorem cleanly_parseSimpleName : Cleanly parseSimpleName IsTypeText := by
  apply (cleanly_expect .NAME _).bind
  intro first
  apply (cleanly_matchKind .DOT).bind
  intro b
  split_ifs
  · apply (cleanly_expect .NAME _).bind
    rintro member
    apply cleanly_pure
    rintro ⟨hmember, hlexed⟩ - ⟨hfirst, hlexed'⟩
    obtain ⟨n, hn⟩ := exists_name hlexed hmember
    obtain ⟨m, hm⟩ := exists_name hlexed' hfirst
    refine ⟨.leaf (.member m n), ?_⟩
    rw [String.toList_append, String.toList_append, hm, hn]
    exact List.append_assoc _ _ _
  · apply cleanly_pure
    rintro - ⟨hfirst, hlexed⟩
    obtain ⟨n, hn⟩ := exists_name hlexed hfirst
    exact ⟨.leaf (.name n), hn⟩

section

variable {self : Parser String} (hself : Cleanly self IsTypeText)

include hself

theorem cleanly_parseTypeArgument {tok : Token} (hkind : tok.kind ∈ [Kind.ARR, .REF, .TSK]) :
  Cleanly (parseTypeArgument self tok) fun text => IsLexed tok → IsTypeText text
  := by
  apply cleanly_advance.bind
  intro _
  apply (cleanly_expect .LBRACKET _).bind
  intro _
  apply hself.bind
  intro inner
  apply (cleanly_expect .RBRACKET _).bind
  intro _
  apply cleanly_pure
  rintro - ⟨t, ht⟩ - - hlexed
  obtain ⟨c, hc⟩ := exists_container hlexed hkind
  refine ⟨.unary c t, ?_⟩
  simp only [String.toList_append, hc, ht]
  rfl

theorem cleanly_parseMapType : Cleanly (parseMapType self) IsTypeText := by
  apply cleanly_advance.bind
  intro _
  apply (cleanly_expect .LBRACKET _).bind
  intro _
  apply hself.bind
  intro key
  apply (cleanly_expect .COMMA _).bind
  intro _
  apply hself.bind
  intro value
  apply (cleanly_expect .RBRACKET _).bind
  intro _
  apply cleanly_pure
  rintro - ⟨t', ht'⟩ - ⟨t, ht⟩ - -
  refine ⟨.binary .MAP t t', ?_⟩
  simp only [String.toList_append, ht, ht']
  simp [typeText, render, Pairing.text, Pairing.separator]

theorem cleanly_parseFnType : Cleanly (parseFnType self) IsTypeText := by
  apply cleanly_advance.bind
  intro _
  apply (cleanly_expect .LBRACKET _).bind
  intro _
  apply hself.bind
  intro input
  apply (cleanly_expect .ARROW _).bind
  intro _
  apply hself.bind
  intro output
  apply (cleanly_expect .RBRACKET _).bind
  intro _
  apply cleanly_pure
  rintro - ⟨t', ht'⟩ - ⟨t, ht⟩ - -
  refine ⟨.binary .FN t t', ?_⟩
  simp only [String.toList_append, ht, ht']
  simp [typeText, render, Pairing.text, Pairing.separator]

theorem cleanly_parseTypeBody : Cleanly (parseTypeBody self) IsTypeText := by
  apply cleanly_current.bind
  intro tok
  split_ifs with hprimitive
  · apply cleanly_advance.bind
    intro _
    apply cleanly_pure
    intro _ hlexed
    obtain ⟨p, hp⟩ := exists_primitive hlexed hprimitive
    exact ⟨.leaf (.primitive p), hp⟩
  · split
    · exact cleanly_parseSimpleName.mono fun _ htext _ => htext
    · exact cleanly_parseTypeArgument hself (by simp [*])
    · exact cleanly_parseTypeArgument hself (by simp [*])
    · exact cleanly_parseTypeArgument hself (by simp [*])
    · exact (cleanly_parseMapType hself).mono fun _ htext _ => htext
    · exact (cleanly_parseFnType hself).mono fun _ htext _ => htext
    · apply (cleanly_addError tok _).bind
      intro _
      apply cleanly_advance.bind
      intro _
      exact cleanly_pure fun _ => False.elim

end

theorem cleanly_fixTypeName (n : ℕ) : Cleanly (fixTypeName n) IsTypeText := by
  induction n with
  | zero =>
    intro s a s' _ heq
    cases heq
  | succ n ih => exact cleanly_parseTypeBody ih

/-- The text of a type that is read without a report is the one of a type. -/
theorem cleanly_parseTypeName : Cleanly parseTypeName IsTypeText := fun s => cleanly_fixTypeName _ s

/-! ### Declarations -/

theorem cleanly_captureUntilBoundary (closeKind : Kind) :
  Cleanly (captureUntilBoundary closeKind) fun _ => True
  := by
  apply cleanly_loop
  intro state
  apply (cleanly_atKind .EOF).bind
  intro b
  split_ifs
  · exact cleanly_pure fun _ => trivial
  · apply cleanly_current.bind
    intro tok
    split_ifs
    · exact cleanly_pure fun _ _ => trivial
    · exact cleanly_advance.bind fun _ => cleanly_pure fun _ _ _ => trivial

theorem cleanly_parseTypeAlias (start : Token) : Cleanly (parseTypeAlias start) IsWritten := by
  apply (cleanly_expect .NAME _).bind
  intro name
  apply (cleanly_expect .EQUAL _).bind
  intro _
  apply cleanly_parseTypeName.bind
  intro typeName
  apply (cleanly_captureUntilBoundary .EOF).bind
  intro initializer
  apply cleanly_pure
  rintro - htype - ⟨hname, hlexed⟩
  exact ⟨exists_name hlexed hname, htype⟩

theorem cleanly_parseValueDecl (start : Token) : Cleanly (parseValueDecl start) IsWritten := by
  apply cleanly_parseTypeName.bind
  intro typeName
  apply (cleanly_expect .NAME _).bind
  intro name
  apply (cleanly_matchKind .EQUAL).bind
  intro b
  split_ifs
  · apply (cleanly_captureUntilBoundary .EOF).bind
    intro initializer
    apply cleanly_pure
    rintro - - ⟨hname, hlexed⟩ htype
    exact ⟨exists_name hlexed hname, htype⟩
  · apply cleanly_pure
    rintro - ⟨hname, hlexed⟩ htype
    exact ⟨exists_name hlexed hname, htype⟩

/-- The declaration of an alias or a value that is read without a report has a name and a type. -/
theorem isWritten_of_parse {source : Text} {file : String} {before : List Diagnostic} {pos : ℕ}
    {item : TypeDecl} {s' : State}
    (h : parseAliasOrValue ⟨file, lexSource source, pos, before⟩ = some (item, s'))
    (hclean : s'.diagnostics = before) :
  IsWritten item
  := by
  have hparse : Cleanly parseAliasOrValue IsWritten := by
    apply cleanly_current.bind
    intro start
    apply (cleanly_matchKind .TYPE).bind
    intro b
    split_ifs
    · exact (cleanly_parseTypeAlias start).mono fun _ hitem _ _ => hitem
    · exact (cleanly_parseValueDecl start).mono fun _ hitem _ _ => hitem
  exact (hparse _ item s' (isLexed_of_mem_lexSource source) h).2.2 (congrArg List.length hclean)

/-- A type name that is read without a report is the text of a type. -/
theorem typeText_of_parse {source : Text} {file : String} {before : List Diagnostic} {pos : ℕ}
    {text : String} {s' : State}
    (h : parseTypeName ⟨file, lexSource source, pos, before⟩ = some (text, s'))
    (hclean : s'.diagnostics = before) :
  IsTypeText text
  := (cleanly_parseTypeName _ text s' (isLexed_of_mem_lexSource source) h).2.2
    (congrArg List.length hclean)

theorem typeText_of_parse_arrays :
  IsTypeText "ARR[INT]"
  := by
  have hparse : ∃ s', parseTypeName ⟨"a.cast", lexSource "ARR[INT] xs".toList, 0, []⟩ =
      some ("ARR[INT]", s') ∧ s'.diagnostics = [] := ⟨_, rfl, rfl⟩
  obtain ⟨s', hs', hclean⟩ := hparse
  exact typeText_of_parse hs' hclean

end Caster.SelfHosting
