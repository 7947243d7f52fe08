import Caster.SelfHosting.Emission

/-!
# The C expressions of scalar expressions

The tokens of the text that is written for an expression of integers and booleans, and the C
expression they are.  Two minus signs, one behind the other, are one token of C.
-/

namespace Caster.SelfHosting.Scalar

open CLang

/-- The tokens of the text of an expression. -/
def toks : Scalar → List Tok
  | int digits _ => [.number digits]
  | bol value => [.ident (bol value).emit]
  | name word _ => [.ident word]
  | group inner => .punct ['('] :: inner.toks ++ [.punct [')']]
  | neg (neg operand) => .punct ['-', '-'] :: operand.toks
  | neg operand => .punct ['-'] :: operand.toks
  | not operand => .punct ['!'] :: operand.toks
  | binary op left right => .punct ['('] :: left.toks ++ .punct op.text :: right.toks ++ [.punct [')']]

/-- The C expression of the text of an expression. -/
def ctree : Scalar → CTree
  | int digits _ => .leaf (.number digits)
  | bol value => .leaf (.number (if value then ['1'] else ['0']))
  | name word _ => .leaf (.ident word)
  | group inner => .group (.punct ['(']) inner.ctree (.punct [')'])
  | neg (neg operand) => .unary (.punct ['-', '-']) operand.ctree
  | neg operand => .unary (.punct ['-']) operand.ctree
  | not operand => .unary (.punct ['!']) operand.ctree
  | binary op left right =>
    .group (.punct ['(']) (.binary (.punct op.text) left.ctree right.ctree) (.punct [')'])

/-- An expression starts with a minus sign. -/
def IsNeg : Scalar → Prop
  | neg _ => True
  | _ => False

/-- No name is a keyword of C. -/
def Plain : Scalar → Prop
  | int _ _ | bol _ => True
  | name word _ => word ∉ CLang.keywords
  | group inner => inner.Plain
  | neg operand => operand.Plain
  | not operand => operand.Plain
  | binary _ left right => left.Plain ∧ right.Plain

/-- The first character of the text of an expression. -/
theorem emit_head (t : Scalar) :
  ∃ c text, t.emit = c :: text ∧ (isIdentChar c = true ∨ c = '(' ∨ c = '!' ∨ (c = '-' ∧ t.IsNeg))
  := by
  cases t with
  | int digits h =>
    obtain ⟨d, digits, rfl⟩ := List.exists_cons_of_ne_nil h.1
    exact ⟨d, digits, rfl, Or.inl (isIdentChar_of_isDigit (h.2 d List.mem_cons_self))⟩
  | bol value => cases value <;> exact ⟨_, _, rfl, Or.inl rfl⟩
  | name word h =>
    obtain ⟨c, word, rfl⟩ := List.exists_cons_of_ne_nil h.2.2.1
    exact ⟨c, word, rfl, Or.inl (h.2.1 c List.mem_cons_self)⟩
  | group inner => exact ⟨'(', _, rfl, Or.inr (Or.inl rfl)⟩
  | neg operand => exact ⟨'-', _, rfl, Or.inr (Or.inr (Or.inr ⟨rfl, trivial⟩))⟩
  | not operand => exact ⟨'!', _, rfl, Or.inr (Or.inr (Or.inl rfl))⟩
  | binary op left right => exact ⟨'(', _, rfl, Or.inr (Or.inl rfl)⟩

theorem delimited_cons {c : Char} (h : isIdentChar c = false ∧ c ≠ '.') (rest : List Char) :
  Delimited (c :: rest)
  := by
  intro d hd
  obtain rfl : c = d := Option.some.inj hd
  exact h

theorem lexes_open {rest : List Char} {tokens : List Tok} (h : Lexes rest tokens) :
  Lexes ('(' :: rest) (.punct ['('] :: tokens)
  := by
  have hlong : ∀ p ∈ punctuators, p.head? = some '(' → ¬ p.length > 1 := by decide
  exact Lexes.char (by decide) (fun p hp hhead hlength => absurd hlength (hlong p hp hhead)) (by decide) h

theorem lexes_close {rest : List Char} {tokens : List Tok} (h : Lexes rest tokens) :
  Lexes (')' :: rest) (.punct [')'] :: tokens)
  := by
  have hlong : ∀ p ∈ punctuators, p.head? = some ')' → ¬ p.length > 1 := by decide
  exact Lexes.char (by decide) (fun p hp hhead hlength => absurd hlength (hlong p hp hhead)) (by decide) h

/-- A minus sign is a token of its own if no other one is behind it. -/
theorem lexes_minus {t : Scalar} {rest : List Char} {tokens : List Tok} (ht : ¬ t.IsNeg)
    (h : Lexes (t.emit ++ rest) tokens) :
  Lexes ('-' :: (t.emit ++ rest)) (.punct ['-'] :: tokens)
  := by
  have hlong : ∀ p ∈ punctuators, p.head? = some '-' → p.length > 1 →
      p.tail.head? = some '>' ∨ p.tail.head? = some '-' ∨ p.tail.head? = some '=' := by decide
  obtain ⟨c, text, htext, hc⟩ := t.emit_head
  have hne : c ≠ '>' ∧ c ≠ '-' ∧ c ≠ '=' := by
    rcases hc with hc | rfl | rfl | ⟨_, hneg⟩
    · refine ⟨?_, ?_, ?_⟩ <;> rintro rfl <;> exact absurd hc (by decide)
    · decide
    · decide
    · exact absurd hneg ht
  apply Lexes.char (by decide) _ (by decide) h
  intro p hp hhead hlength heq
  have hnext := hlong p hp hhead hlength
  rw [heq, htext, List.cons_append, List.head?_cons, Option.some.injEq, Option.some.injEq, Option.some.injEq] at hnext
  tauto

/-- An exclamation mark is a token of its own. -/
theorem lexes_bang {t : Scalar} {rest : List Char} {tokens : List Tok} (h : Lexes (t.emit ++ rest) tokens) :
  Lexes ('!' :: (t.emit ++ rest)) (.punct ['!'] :: tokens)
  := by
  have hlong : ∀ p ∈ punctuators, p.head? = some '!' → p.length > 1 → p.tail.head? = some '=' := by decide
  obtain ⟨c, text, htext, hc⟩ := t.emit_head
  have hne : c ≠ '=' := by
    rintro rfl
    rcases hc with hc | hc | hc | ⟨hc, _⟩ <;> exact absurd hc (by decide)
  apply Lexes.char (by decide) _ (by decide) h
  intro p hp hhead hlength heq
  have hnext := hlong p hp hhead hlength
  rw [heq, htext, List.cons_append, List.head?_cons, Option.some.injEq] at hnext
  exact hne hnext

/-- Two minus signs are one token. -/
theorem lexes_decrement {rest : List Char} {tokens : List Tok} (h : Lexes rest tokens) :
  Lexes ('-' :: '-' :: rest) (.punct ['-', '-'] :: tokens)
  := by
  have hlong : ∀ p ∈ punctuators, ['-', '-'] <+: p → p.length ≤ 2 := by decide
  apply @Lexes.punct ['-', '-'] rest tokens (by decide) _ (fun heq => absurd heq (by decide)) (by decide) h
  intro longer hlonger hprefix
  by_contra hlt
  apply hlt
  apply hlong longer hlonger
  apply List.prefix_of_prefix_length_le (List.prefix_append _ _) hprefix
  exact Nat.le_of_lt (Nat.lt_of_not_le hlt)

theorem lexes_op (op : Op) {rest : List Char} {tokens : List Tok} (h : Lexes rest tokens) :
  Lexes (op.text ++ ' ' :: rest) (.punct op.text :: tokens)
  := by
  apply Lexes.spaced _ _ h.space
  · cases op <;> decide
  · cases op <;> decide

/-- The tokens of the text of an expression, with more text behind it. -/
theorem lexes_emit (t : Scalar) {rest : List Char} {tokens : List Tok} (hrest : Delimited rest)
    (h : Lexes rest tokens) :
  Lexes (t.emit ++ rest) (t.toks ++ tokens)
  := by
  have hclose (rest : List Char) : Delimited (')' :: rest) := delimited_cons (by decide) rest
  have hspace (rest : List Char) : Delimited (' ' :: rest) := delimited_cons (by decide) rest
  induction t using toks.induct generalizing rest tokens with
  | case1 digits hdigits =>
    obtain ⟨d, digits, rfl⟩ := List.exists_cons_of_ne_nil hdigits.1
    exact Lexes.number (hdigits.2 d List.mem_cons_self) (fun d' h => hdigits.2 d' (List.mem_cons_of_mem _ h)) hrest h
  | case2 value =>
    cases value
    · have hchars : ∀ c ∈ ['a', 'l', 's', 'e'], isIdentChar c = true := by simp [isIdentChar]
      exact @Lexes.ident 'f' ['a', 'l', 's', 'e'] rest tokens (by decide) hchars hrest h
    · have hchars : ∀ c ∈ ['r', 'u', 'e'], isIdentChar c = true := by simp [isIdentChar]
      exact @Lexes.ident 't' ['r', 'u', 'e'] rest tokens (by decide) hchars hrest h
  | case3 word hword =>
    obtain ⟨c, word, rfl⟩ := List.exists_cons_of_ne_nil hword.2.2.1
    exact Lexes.ident (hword.1 c rfl) (fun d h => hword.2.1 d (List.mem_cons_of_mem _ h)) hrest h
  | case4 inner ih =>
    have hinner := ih (hclose rest) (lexes_close h)
    simp only [emit, toks, List.append_assoc, List.cons_append, List.nil_append]
    exact lexes_open hinner
  | case5 operand ih =>
    rw [toks]
    exact lexes_decrement (ih hrest h)
  | case6 operand hneg ih =>
    have hne : ¬ operand.IsNeg := by
      cases operand with
      | neg operand => exact absurd rfl (hneg operand)
      | _ => exact id
    rw [toks]
    · exact lexes_minus hne (ih hrest h)
    · exact hneg
  | case7 operand ih =>
    exact lexes_bang (ih hrest h)
  | case8 op left right ihl ihr =>
    have hright := ihr (hclose rest) (lexes_close h)
    have hleft := ihl (hspace _) (lexes_op op hright).space
    simp only [emit, toks, List.append_assoc, List.cons_append, List.nil_append] at hleft ⊢
    exact lexes_open hleft

/-! ### Trees -/

theorem isOperand_ctree (t : Scalar) : t.ctree.IsOperand := by
  cases t with
  | neg operand => cases operand <;> exact trivial
  | _ => exact trivial

theorem expand_word {word : List Char} (h : IsWord word) : expand (.ident word) = .ident word := by
  have htrue : word ≠ ['t', 'r', 'u', 'e'] := by
    rintro rfl
    exact absurd h.2.2.2 (by decide)
  have hfalse : word ≠ ['f', 'a', 'l', 's', 'e'] := by
    rintro rfl
    exact absurd h.2.2.2 (by decide)
  rw [expand, if_neg htrue, if_neg hfalse]

/-- The tokens of the text, without macros, are those of the C expression. -/
theorem tokens_ctree (t : Scalar) : t.toks.map expand = t.ctree.tokens := by
  induction t using toks.induct with
  | case1 digits hdigits => rfl
  | case2 value => cases value <;> rfl
  | case3 word hword =>
    rw [toks, List.map_singleton, expand_word hword]
    rfl
  | case4 inner ih =>
    rw [toks, ctree, PrecedenceClimbing.Tree.tokens, ← ih]
    simp [expand]
  | case5 operand ih =>
    rw [toks, ctree, PrecedenceClimbing.Tree.tokens, ← ih]
    rfl
  | case6 operand hneg ih =>
    rw [toks, ctree, PrecedenceClimbing.Tree.tokens, ← ih]
    · rfl
    · exact hneg
    · exact hneg
  | case7 operand ih =>
    rw [toks, ctree, PrecedenceClimbing.Tree.tokens, ← ih]
    rfl
  | case8 op left right ihl ihr =>
    rw [toks, ctree, PrecedenceClimbing.Tree.tokens, PrecedenceClimbing.Tree.tokens, ← ihl, ← ihr]
    simp [expand]

theorem bindsAt_ctree (min : ℕ) (t : Scalar) : grammar.BindsAt min t.ctree := t.isOperand_ctree.bindsAt min

/-- The text is the C expression if no name is a keyword. -/
theorem follows_ctree {t : Scalar} (h : t.Plain) : grammar.Follows t.ctree := by
  have hprefix (t : Tok) (ht : t ∈ prefixOps) : grammar.prefixOp t = true := decide_eq_true ht
  induction t using toks.induct with
  | case1 digits hdigits => rfl
  | case2 value => rfl
  | case3 word hword => exact decide_eq_true h
  | case4 inner ih => exact ⟨rfl, rfl, ih h⟩
  | case5 operand ih =>
    rw [ctree]
    exact ⟨rfl, operand.isOperand_ctree, ih h⟩
  | case6 operand hneg ih =>
    rw [ctree]
    · exact ⟨rfl, operand.isOperand_ctree, ih h⟩
    · exact hneg
  | case7 operand ih => exact ⟨rfl, operand.isOperand_ctree, ih h⟩
  | case8 op left right ihl ihr =>
    obtain ⟨hleft, hright⟩ := h
    have hlevel : 0 < grammar.level (.punct op.text) := by
      show 0 < (Op.ofText op.text).elim 0 Op.level
      rw [Op.ofText_text]
      exact op.level_pos
    exact ⟨rfl, rfl, hlevel, left.bindsAt_ctree _, right.bindsAt_ctree _, ihl hleft, ihr hright⟩

theorem plain_of_mem {t : Scalar} (h : ∀ word ∈ CLang.keywords, .ident word ∉ t.ctree.tokens) : t.Plain := by
  induction t using toks.induct with
  | case1 digits hdigits => exact trivial
  | case2 value => exact trivial
  | case3 word hword => exact fun hmem => h word hmem (List.mem_singleton_self _)
  | case4 inner ih =>
    apply ih
    intro word hword hmem
    apply h word hword
    rw [ctree, PrecedenceClimbing.Tree.tokens]
    exact List.mem_append_left _ (List.mem_cons_of_mem _ hmem)
  | case5 operand ih =>
    apply ih
    intro word hword hmem
    apply h word hword
    rw [ctree]
    exact List.mem_cons_of_mem _ hmem
  | case6 operand hneg ih =>
    apply ih
    intro word hword hmem
    apply h word hword
    rw [ctree]
    · exact List.mem_cons_of_mem _ hmem
    · exact hneg
  | case7 operand ih =>
    apply ih
    intro word hword hmem
    exact h word hword (List.mem_cons_of_mem _ hmem)
  | case8 op left right ihl ihr =>
    constructor
    · apply ihl
      intro word hword hmem
      apply h word hword
      simp [ctree, PrecedenceClimbing.Tree.tokens, hmem]
    · apply ihr
      intro word hword hmem
      apply h word hword
      simp [ctree, PrecedenceClimbing.Tree.tokens, hmem]

/-- The text is no C expression if a name is a keyword. -/
theorem plain_of_parses {t : Scalar} {e : CTree} (h : Parses (t.toks.map expand) e) : t.Plain := by
  obtain ⟨hfollows, htokens⟩ := h
  rw [tokens_ctree] at htokens
  apply plain_of_mem
  intro word hword hmem
  rw [← htokens] at hmem
  rcases hfollows.mem_tokens hmem with hatom | hopen | hclose | hprefix | hlevel
  · exact absurd hword (of_decide_eq_true hatom)
  · exact absurd hopen Bool.false_ne_true
  · exact absurd hclose Bool.false_ne_true
  · exact absurd hprefix Bool.false_ne_true
  · exact absurd hlevel (Nat.lt_irrefl 0)

end Caster.SelfHosting.Scalar
