import Caster.SelfHosting.ParserAgreement
import Caster.SelfHosting.Recovery

/-!
# Runs of the parser of expressions

What the parser gives does not depend on its fuel, and a parser keeps the tokens and what was
reported.  The loop over the operators behind an expression goes on in the same way from the end of
a shorter expression.
-/

namespace Caster.SelfHosting

variable {α β : Type}

/-! ### More fuel -/

/-- A state among the same tokens, in which nothing that was reported is lost. -/
structure Grows (s s' : State) : Prop where
  tokens_eq : s'.tokens = s.tokens
  reported : s.diagnostics <+: s'.diagnostics

theorem Grows.refl (s : State) : Grows s s := ⟨rfl, List.prefix_rfl⟩

theorem Grows.trans {s s' s'' : State} (h : Grows s s') (h' : Grows s' s'') : Grows s s'' :=
  ⟨h'.tokens_eq.trans h.tokens_eq, h.reported.trans h'.reported⟩

/-- Where nothing is reported in the end, nothing was before. -/
theorem Grows.clean {s s' : State} (h : Grows s s') (hclean : s'.diagnostics = []) :
  s.diagnostics = []
  := List.prefix_nil.mp (hclean ▸ h.reported)

/-- What the first parser gives is also given by the second one, in a state that grows. -/
def Lifts (p q : Parser α) : Prop := ∀ s a s', Gives p s a s' → Gives q s a s' ∧ Grows s s'

theorem gives_bind_inv {p : Parser α} {f : α → Parser β} {s s'' : State} {b : β}
    (h : Gives (p >>= f) s b s'') :
  ∃ a s', Gives p s a s' ∧ Gives (f a) s' b s''
  := by
  obtain ⟨⟨a, s'⟩, ha, hb⟩ := Option.bind_eq_some_iff.mp h
  exact ⟨a, s', ha, hb⟩

theorem gives_pure_inv {a b : α} {s s' : State} (h : Gives (pure a) s b s') : b = a ∧ s' = s := by
  cases h
  exact ⟨rfl, rfl⟩

theorem current_inv {s s' : State} {tok : Token} (h : Gives current s tok s') : s' = s := by
  obtain ⟨_, _, hpair⟩ := Option.map_eq_some_iff.mp h
  cases hpair
  rfl

theorem lifts_pure (a : α) : Lifts (pure a : Parser α) (pure a) := by
  intro s b s' h
  obtain ⟨rfl, rfl⟩ := gives_pure_inv h
  exact ⟨h, .refl _⟩

theorem lifts_current : Lifts current current := by
  intro s tok s' h
  obtain rfl := current_inv h
  exact ⟨h, .refl _⟩

theorem lifts_failure (q : Parser α) : Lifts failure q := by
  intro s a s' h
  cases h

section

variable {p q p' q' : Parser α} {f g : α → Parser β}

theorem Lifts.bind (hp : Lifts p q) (hf : ∀ a, Lifts (f a) (g a)) : Lifts (p >>= f) (q >>= g) := by
  intro s b s'' h
  obtain ⟨a, s', ha, hb⟩ := gives_bind_inv h
  obtain ⟨ha', hgrows⟩ := hp s a s' ha
  obtain ⟨hb', hgrows'⟩ := hf a s' b s'' hb
  exact ⟨gives_bind ha' hb', hgrows.trans hgrows'⟩

theorem lifts_if {c : Prop} [Decidable c] (hp : Lifts p q) (hp' : Lifts p' q') :
  Lifts (if c then p else p') (if c then q else q')
  := by
  split_ifs
  · exact hp
  · exact hp'

theorem lifts_then {b b' : Parser Bool} (hb : Lifts b b') (hp : Lifts p q) (hp' : Lifts p' q') :
  Lifts (b >>= fun c => if c = true then p else p') (b' >>= fun c => if c = true then q else q')
  := hb.bind fun _ => lifts_if hp hp'

end

theorem lifts_advance : Lifts advance advance := by
  apply lifts_current.bind
  intro tok s a s' h
  refine ⟨h, ?_⟩
  cases h
  dsimp only
  split_ifs <;> exact ⟨rfl, List.prefix_rfl⟩

theorem lifts_atKind (kind : Kind) : Lifts (atKind kind) (atKind kind) :=
  lifts_current.bind fun _ => lifts_pure _

theorem lifts_matchKind (kind : Kind) : Lifts (matchKind kind) (matchKind kind) :=
  lifts_then (lifts_atKind kind) (lifts_advance.bind fun _ => lifts_pure _) (lifts_pure _)

theorem lifts_addError (tok : Token) (message : String) :
  Lifts (addError tok message) (addError tok message)
  := by
  intro s a s' h
  refine ⟨h, ?_⟩
  cases h
  exact ⟨rfl, List.prefix_append _ _⟩

theorem lifts_expect (kind : Kind) (message : String) :
  Lifts (expect kind message) (expect kind message)
  := by
  apply lifts_current.bind
  intro tok
  apply lifts_if lifts_advance
  apply (lifts_addError tok message).bind
  intro _
  exact lifts_if (lifts_advance.bind fun _ => lifts_pure _) (lifts_pure _)

theorem lifts_iterate {body body' : α → Parser (α ⊕ β)} (h : ∀ a, Lifts (body a) (body' a)) {n m : ℕ}
    (hle : n ≤ m) (a : α) :
  Lifts (iterate body n a) (iterate body' m a)
  := by
  induction n generalizing m a with
  | zero => exact lifts_failure _
  | succ n ih =>
    obtain ⟨m, rfl⟩ : ∃ k, m = k + 1 := ⟨m - 1, by omega⟩
    apply (h a).bind
    rintro (a' | b)
    · exact ih (Nat.le_of_succ_le_succ hle) a'
    · exact lifts_pure b

theorem lifts_loop {body body' : α → Parser (α ⊕ β)} (h : ∀ a, Lifts (body a) (body' a)) (a : α) :
  Lifts (loop body a) (loop body' a)
  := fun s => lifts_iterate h (le_refl (s.tokens.length + 1)) a s

theorem lifts_skipNewlines : Lifts skipNewlines skipNewlines := by
  apply lifts_loop
  intro _
  exact lifts_then (lifts_atKind _) (lifts_advance.bind fun _ => lifts_pure _) (lifts_pure _)

section

variable {self self' : Entry → Parser Expr} (hself : ∀ entry, Lifts (self entry) (self' entry))

include hself

omit hself in
theorem lifts_itemPass {item item' : Parser Expr} (hitem : Lifts item item') (closeKind : Kind)
    (items : List Expr) :
  Lifts (itemPass item closeKind items) (itemPass item' closeKind items)
  := by
  apply lifts_then (lifts_atKind _) (lifts_pure _)
  apply lifts_then (lifts_atKind _) (lifts_pure _)
  apply lifts_skipNewlines.bind
  intro _
  apply lifts_then (lifts_atKind _) (lifts_pure _)
  apply hitem.bind
  intro item
  apply lifts_skipNewlines.bind
  intro _
  exact lifts_then (lifts_matchKind _) (lifts_skipNewlines.bind fun _ => lifts_pure _) (lifts_pure _)

theorem lifts_parseExpressionList (closeKind : Kind) :
  Lifts (parseExpressionList self closeKind) (parseExpressionList self' closeKind)
  := by
  apply lifts_skipNewlines.bind
  intro _
  apply (lifts_loop (lifts_itemPass (hself _) closeKind) []).bind
  rintro ⟨items, closed⟩
  exact lifts_if (lifts_pure _) ((lifts_expect _ _).bind fun _ => lifts_pure _)

theorem lifts_parseArrayLiteral : Lifts (parseArrayLiteral self) (parseArrayLiteral self') := by
  apply (lifts_expect _ _).bind
  intro start
  exact (lifts_parseExpressionList hself _).bind fun _ => lifts_pure _

theorem lifts_parseRecordKey : Lifts (parseRecordKey self) (parseRecordKey self') := by
  apply lifts_current.bind
  intro tok
  apply lifts_if
  · exact lifts_advance.bind fun _ => lifts_pure _
  · exact (hself _).bind fun _ => lifts_pure _

theorem lifts_parseRecordField : Lifts (parseRecordField self) (parseRecordField self') := by
  apply lifts_current.bind
  intro start
  apply (lifts_parseRecordKey hself).bind
  intro key
  exact lifts_then (lifts_matchKind _) ((hself _).bind fun _ => lifts_pure _) (lifts_pure _)

theorem lifts_parseRecordLiteral : Lifts (parseRecordLiteral self) (parseRecordLiteral self') := by
  apply (lifts_expect _ _).bind
  intro start
  apply lifts_skipNewlines.bind
  intro _
  apply (lifts_loop (lifts_itemPass (lifts_parseRecordField hself) _) []).bind
  rintro ⟨items, closed⟩
  exact lifts_if (lifts_pure _) ((lifts_expect _ _).bind fun _ => lifts_pure _)

theorem lifts_parseCall (out : Expr) : Lifts (parseCall self out) (parseCall self' out) := by
  apply lifts_current.bind
  intro start
  have hargs : Lifts (parseCallArgs self) (parseCallArgs self') :=
    (lifts_expect _ _).bind fun _ => lifts_parseExpressionList hself _
  exact hargs.bind fun _ => lifts_pure _


theorem lifts_parseImplicitDot : Lifts (parseImplicitDot self) (parseImplicitDot self') := by
  apply (lifts_expect _ _).bind
  intro start
  apply lifts_then (lifts_matchKind _)
  · apply (hself _).bind
    intro index
    exact (lifts_expect _ _).bind fun _ => lifts_pure _
  · exact lifts_advance.bind fun _ => lifts_pure _

theorem lifts_parseDot (out : Expr) : Lifts (parseDot self out) (parseDot self' out) := by
  apply lifts_advance.bind
  intro dot
  apply lifts_then (lifts_matchKind _)
  · apply (hself _).bind
    intro index
    exact (lifts_expect _ _).bind fun _ => lifts_pure _
  · exact lifts_advance.bind fun _ => lifts_pure _

theorem lifts_parseGroup (tok : Token) : Lifts (parseGroup self tok) (parseGroup self' tok) := by
  apply lifts_advance.bind
  intro _
  apply (hself _).bind
  intro inner
  exact (lifts_expect _ _).bind fun _ => lifts_pure _

omit hself in
theorem lifts_parseToken (kind : ExprKind) (text : String) (tok : Token) :
  Lifts (parseToken kind text tok) (parseToken kind text tok)
  := lifts_advance.bind fun _ => lifts_pure _

omit hself in
theorem lifts_parseMissing (tok : Token) : Lifts (parseMissing tok) (parseMissing tok) := by
  apply (lifts_addError tok _).bind
  intro _
  exact lifts_then (lifts_atKind _) (lifts_pure _) (lifts_advance.bind fun _ => lifts_pure _)

theorem lifts_parsePrimary : Lifts (parsePrimary self) (parsePrimary self') := by
  apply lifts_current.bind
  intro tok
  split
  case h_14 => exact lifts_parseImplicitDot hself
  case h_15 => exact lifts_parseArrayLiteral hself
  case h_16 => exact lifts_parseRecordLiteral hself
  case h_17 => exact lifts_parseGroup hself tok
  case h_18 => exact lifts_parseMissing tok
  all_goals exact lifts_parseToken _ _ tok

theorem lifts_parsePostfix (base : Expr) : Lifts (parsePostfix self base) (parsePostfix self' base) := by
  apply lifts_loop
  intro out
  apply lifts_then (lifts_atKind _) (lifts_pure _)
  apply lifts_then (lifts_atKind _)
  · exact (lifts_parseCall hself out).bind fun _ => lifts_pure _
  apply lifts_then (lifts_atKind _)
  · exact (lifts_parseDot hself out).bind fun _ => lifts_pure _
  · exact lifts_pure _

theorem lifts_parseUnary : Lifts (parseUnary self) (parseUnary self') := by
  apply lifts_current.bind
  intro tok
  apply lifts_if
  · apply lifts_advance.bind
    intro _
    exact (hself _).bind fun _ => lifts_pure _
  · exact (lifts_parsePrimary hself).bind fun primary => lifts_parsePostfix hself primary

theorem lifts_parseOperator (minPrecedence : ℕ) (left : Expr) :
  Lifts (parseOperator self minPrecedence left) (parseOperator self' minPrecedence left)
  := by
  apply lifts_then (lifts_atKind _) (lifts_pure _)
  apply lifts_current.bind
  intro op
  dsimp only
  apply lifts_if (lifts_pure _)
  apply lifts_advance.bind
  intro _
  exact (hself _).bind fun _ => lifts_pure _

theorem lifts_parseBody (entry : Entry) : Lifts (parseBody self entry) (parseBody self' entry) := by
  cases entry with
  | expression minPrecedence =>
    apply (lifts_parseUnary hself).bind
    exact lifts_loop (lifts_parseOperator hself minPrecedence)
  | unary => exact lifts_parseUnary hself

end

/-- What is given with some fuel is given with more. -/
theorem lifts_fixFuel {n m : ℕ} (hle : n ≤ m) (entry : Entry) :
  Lifts (fixFuel n entry) (fixFuel m entry)
  := by
  induction n generalizing m entry with
  | zero => exact lifts_failure _
  | succ n ih =>
    obtain ⟨m, rfl⟩ : ∃ k, m = k + 1 := ⟨m - 1, by omega⟩
    exact lifts_parseBody (ih (Nat.le_of_succ_le_succ hle)) entry

/-! ### Runs with any fuel -/

theorem gives_bind_iff {p : Parser α} {f : α → Parser β} {s s' s'' : State} {a : α} {b : β}
    (hp : Gives p s a s') :
  Gives (p >>= f) s b s'' ↔ Gives (f a) s' b s''
  := by
  refine ⟨fun h => ?_, gives_bind hp⟩
  obtain ⟨a', s₁, ha, hb⟩ := gives_bind_inv h
  obtain ⟨rfl, rfl⟩ := hp.unique ha
  exact hb

/-- With some fuel the parser gives an expression. -/
def Runs (entry : Entry) (s : State) (expr : Expr) (s' : State) : Prop :=
  ∃ n, Gives (fixFuel n entry) s expr s'

/-- With some fuel the loop over the operators behind an expression gives another one. -/
def LoopRuns (minPrecedence : ℕ) (left : Expr) (s : State) (expr : Expr) (s' : State) : Prop :=
  ∃ n k, Gives (iterate (parseOperator (fixFuel n) minPrecedence) k left) s expr s'

section

variable {entry : Entry} {m : ℕ} {left expr : Expr} {s s' : State}

theorem Runs.grows (h : Runs entry s expr s') : Grows s s' := by
  obtain ⟨n, h⟩ := h
  exact (lifts_fixFuel (le_refl n) entry s expr s' h).2

theorem Runs.unique {expr' : Expr} {s'' : State} (h : Runs entry s expr s') (h' : Runs entry s expr' s'') :
  expr = expr' ∧ s' = s''
  := by
  obtain ⟨n, h⟩ := h
  obtain ⟨n', h'⟩ := h'
  have hlift := (lifts_fixFuel (le_max_left n n') entry s expr s' h).1
  exact hlift.unique (lifts_fixFuel (le_max_right n n') entry s expr' s'' h').1

theorem runs_of_parse (h : Gives (parse entry) s expr s') : Runs entry s expr s' := ⟨_, h⟩

theorem LoopRuns.grows (h : LoopRuns m left s expr s') : Grows s s' := by
  obtain ⟨n, k, h⟩ := h
  have hpass (out : Expr) := lifts_parseOperator (lifts_fixFuel (le_refl n)) m out
  exact (lifts_iterate hpass (le_refl k) left s expr s' h).2

/-- An expression is an operand and what the loop over its operators gives. -/
theorem Runs.exists_operand (h : Runs (.expression m) s expr s') :
  ∃ left s₁, Runs .unary s left s₁ ∧ LoopRuns m left s₁ expr s'
  := by
  obtain ⟨n, h⟩ := h
  cases n with
  | zero => cases h
  | succ n =>
    obtain ⟨left, s₁, hleft, hloop⟩ := gives_bind_inv h
    exact ⟨left, s₁, ⟨n + 1, hleft⟩, n, _, hloop⟩

variable {tok : Token} (htok : s.tokens[s.pos]? = some tok)

include htok

/-- The loop ends before a token that is no operator of its level. -/
theorem LoopRuns.stop (hstop : precedence tok.kind = 0 ∨ precedence tok.kind < m)
    (h : LoopRuns m left s expr s') :
  expr = left ∧ s' = s
  := by
  obtain ⟨n, k, h⟩ := h
  have hbreak : Gives (parseOperator (fixFuel n) m left) s (.inr left) s := by
    by_cases hend : tok.kind = .EOF
    · exact gives_then (atKind_gives_true htok hend) (gives_pure _ _)
    · apply gives_else (atKind_gives_false htok hend)
      apply gives_bind (current_gives htok)
      dsimp only
      rw [if_pos (by tauto)]
      exact gives_pure _ _
  cases k with
  | zero => cases h
  | succ k =>
    rw [iterate, gives_bind_iff hbreak] at h
    exact gives_pure_inv h

/-- The loop passes an operator of its level. -/
theorem LoopRuns.pass (hpos : 0 < precedence tok.kind) (hmin : m ≤ precedence tok.kind)
    (h : LoopRuns m left s expr s') :
  ∃ right s₁, Runs (.expression (precedence tok.kind + 1)) { s with pos := s.pos + 1 } right s₁ ∧
    LoopRuns m { kind := .binary, op := binaryOp tok.kind, children := [left, right], span := tok.span } s₁
      expr s'
  := by
  obtain ⟨n, k, h⟩ := h
  obtain ⟨heof, hboundary⟩ := not_isExpressionBoundary hpos
  cases k with
  | zero => cases h
  | succ k =>
    obtain ⟨r, s₁, hpass, hrest⟩ := gives_bind_inv h
    rw [parseOperator, atEnd, gives_bind_iff (atKind_gives_false htok heof), if_neg (by simp),
      gives_bind_iff (current_gives htok)] at hpass
    dsimp only at hpass
    rw [hboundary, if_neg (by simp only [Bool.false_eq_true, or_false]; omega),
      gives_bind_iff (advance_gives htok)] at hpass
    obtain ⟨right, s₂, hright, hjoined⟩ := gives_bind_inv hpass
    obtain ⟨rfl, rfl⟩ := gives_pure_inv hjoined
    exact ⟨right, s₁, ⟨n, hright⟩, n, k, hrest⟩

end

section

variable {self : Entry → Parser Expr} {m : ℕ} {left : Expr} {s s' : State}

/-- Without a pass nothing is read. -/
theorem gives_break_inv {expr : Expr} (h : Gives (parseOperator self m left) s (.inr expr) s') :
  expr = left ∧ s' = s
  := by
  obtain ⟨b, s₁, hend, hrest⟩ := gives_bind_inv h
  obtain ⟨tok, s₂, htok, hb⟩ := gives_bind_inv hend
  obtain rfl := current_inv htok
  obtain ⟨-, rfl⟩ := gives_pure_inv hb
  split_ifs at hrest
  · obtain ⟨hexpr, rfl⟩ := gives_pure_inv hrest
    exact ⟨Sum.inr.inj hexpr, rfl⟩
  · rw [gives_bind_iff htok] at hrest
    dsimp only at hrest
    split_ifs at hrest
    · obtain ⟨hexpr, rfl⟩ := gives_pure_inv hrest
      exact ⟨Sum.inr.inj hexpr, rfl⟩
    · obtain ⟨_, s₃, -, hright⟩ := gives_bind_inv hrest
      obtain ⟨right, s₄, -, hjoined⟩ := gives_bind_inv hright
      cases (gives_pure_inv hjoined).1

/-- An operator of a level is also passed for a lower one. -/
theorem gives_pass_of_le {m' : ℕ} {out : Expr} (hle : m ≤ m')
    (h : Gives (parseOperator self m' left) s (.inl out) s') :
  Gives (parseOperator self m left) s (.inl out) s'
  := by
  obtain ⟨b, s₁, hend, hrest⟩ := gives_bind_inv h
  apply gives_bind hend
  split_ifs at hrest with hb
  · cases (gives_pure_inv hrest).1
  · rw [if_neg hb]
    obtain ⟨op, s₂, hop, hrest⟩ := gives_bind_inv hrest
    apply gives_bind hop
    dsimp only at hrest ⊢
    split_ifs at hrest with hstop
    · cases (gives_pure_inv hrest).1
    · rw [if_neg (by simp only [not_or] at hstop ⊢; exact ⟨hstop.1, by omega, hstop.2.2⟩)]
      exact hrest

end

/-- The loop goes on from where it ends for a higher level. -/
theorem LoopRuns.resume {m m' : ℕ} {left mid expr : Expr} {s s₁ s' : State} (hle : m ≤ m')
    (hmid : LoopRuns m' left s mid s₁) (h : LoopRuns m left s expr s') :
  LoopRuns m mid s₁ expr s'
  := by
  obtain ⟨n, k, hmid⟩ := hmid
  induction k generalizing left s with
  | zero => cases hmid
  | succ k ih =>
    obtain ⟨r, s₂, hpass, hrest⟩ := gives_bind_inv hmid
    cases r with
    | inr out =>
      obtain ⟨rfl, rfl⟩ := gives_break_inv hpass
      obtain ⟨rfl, rfl⟩ := gives_pure_inv hrest
      exact h
    | inl out =>
      apply ih _ hrest
      obtain ⟨n', k', h⟩ := h
      have hlift (n'' : ℕ) (hn : n'' ≤ max n n') (out : Expr) :=
        lifts_parseOperator (lifts_fixFuel hn) m out
      have hpass := (hlift n (le_max_left n n') left s _ s₂ (gives_pass_of_le hle hpass)).1
      have h := (lifts_iterate (hlift n' (le_max_right n n')) (le_refl k') left s expr s' h).1
      cases k' with
      | zero => cases h
      | succ k' =>
        rw [iterate, gives_bind_iff hpass] at h
        exact ⟨_, k', h⟩

/-! ### What is given -/

/-- Everything a parser gives has a property. -/
def Yields (p : Parser α) (Q : α → Prop) : Prop := ∀ s a s', Gives p s a s' → Q a

theorem yields_pure {a : α} {Q : α → Prop} (h : Q a) : Yields (pure a) Q := by
  intro s b s' hgives
  obtain ⟨rfl, -⟩ := gives_pure_inv hgives
  exact h

theorem yields_bind {p : Parser α} {f : α → Parser β} {Q : β → Prop} (h : ∀ a, Yields (f a) Q) :
  Yields (p >>= f) Q
  := by
  intro s b s'' hgives
  obtain ⟨a, s', -, hb⟩ := gives_bind_inv hgives
  exact h a s' b s'' hb

theorem yields_if {c : Prop} [Decidable c] {p p' : Parser α} {Q : α → Prop} (hp : Yields p Q)
    (hp' : Yields p' Q) :
  Yields (if c then p else p') Q
  := by
  split_ifs
  · exact hp
  · exact hp'

theorem yields_iterate {body : α → Parser (α ⊕ β)} {Q : α → Prop} {R : β → Prop}
    (h : ∀ a, Q a → Yields (body a) (Sum.elim Q R)) (n : ℕ) {a : α} (ha : Q a) :
  Yields (iterate body n a) R
  := by
  intro s b s' hgives
  induction n generalizing a s with
  | zero => cases hgives
  | succ n ih =>
    obtain ⟨r, s₁, hpass, hrest⟩ := gives_bind_inv hgives
    have hr := h a ha s r s₁ hpass
    cases r with
    | inl a' => exact ih hr s₁ hrest
    | inr b' =>
      obtain ⟨rfl, -⟩ := gives_pure_inv hrest
      exact hr

/-- An expression is no binary operation. -/
def NotBinary (expr : Expr) : Prop := expr.kind ≠ .binary

section

variable {self : Entry → Parser Expr}

theorem yields_expr {kind : ExprKind} {text op : String} {children : List Expr} {span : Span}
    (h : kind ≠ .binary) :
  Yields (pure ⟨kind, text, op, children, span⟩) NotBinary
  := yields_pure h

theorem yields_parsePrimary : Yields (parsePrimary self) NotBinary := by
  apply yields_bind
  intro tok
  split
  case h_14 =>
    apply yields_bind
    intro _
    apply yields_bind
    intro _
    apply yields_if
    · exact yields_bind fun _ => yields_bind fun _ => yields_expr (by decide)
    · exact yields_bind fun _ => yields_expr (by decide)
  case h_15 => exact yields_bind fun _ => yields_bind fun _ => yields_expr (by decide)
  case h_16 =>
    apply yields_bind
    intro _
    apply yields_bind
    intro _
    apply yields_bind
    rintro ⟨items, closed⟩
    apply yields_if
    · exact yields_expr (by decide)
    · exact yields_bind fun _ => yields_expr (by decide)
  case h_17 =>
    exact yields_bind fun _ => yields_bind fun _ => yields_bind fun _ => yields_expr (by decide)
  case h_18 =>
    apply yields_bind
    intro _
    apply yields_bind
    intro _
    apply yields_if
    · exact yields_expr (by decide)
    · exact yields_bind fun _ => yields_expr (by decide)
  all_goals exact yields_bind fun _ => yields_expr (by decide)

/-- A pass through the loop over the calls and dots goes on with a call or a dot. -/
theorem yields_postfixPass {out : Expr} (h : NotBinary out) :
  Yields (postfixPass self out) (Sum.elim NotBinary NotBinary)
  := by
  have hinl {p : Parser Expr} (hp : Yields p NotBinary) :
      Yields (p >>= fun e => pure (Sum.inl e : Expr ⊕ Expr)) (Sum.elim NotBinary NotBinary) := by
    intro s r s' hgives
    obtain ⟨e, s₁, he, hr⟩ := gives_bind_inv hgives
    obtain ⟨rfl, -⟩ := gives_pure_inv hr
    exact hp s e s₁ he
  have hinr : Yields (pure (Sum.inr out : Expr ⊕ Expr)) (Sum.elim NotBinary NotBinary) := by
    apply yields_pure
    exact h
  apply yields_bind
  intro _
  apply yields_if hinr
  apply yields_bind
  intro _
  apply yields_if
  · exact hinl (yields_bind fun _ => yields_bind fun _ => yields_expr (by decide))
  apply yields_bind
  intro _
  apply yields_if
  · apply hinl
    apply yields_bind
    intro _
    apply yields_bind
    intro _
    apply yields_if
    · exact yields_bind fun _ => yields_bind fun _ => yields_expr (by decide)
    · exact yields_bind fun _ => yields_expr (by decide)
  · exact hinr

/-- An operand is no binary operation. -/
theorem yields_parseUnary : Yields (parseUnary self) NotBinary := by
  apply yields_bind
  intro tok
  apply yields_if
  · exact yields_bind fun _ => yields_bind fun _ => yields_expr (by decide)
  · intro s expr s' hgives
    obtain ⟨primary, s₁, hprimary, hrest⟩ := gives_bind_inv hgives
    have hbase := yields_parsePrimary s primary s₁ hprimary
    exact yields_iterate (fun out => yields_postfixPass) (s₁.tokens.length + 1) hbase s₁ expr s' hrest

end

/-- An expression of a level is an operand or a binary operation of at least that level. -/
def OfLevel (m : ℕ) (expr : Expr) : Prop :=
  NotBinary expr ∨ ∃ kind, m ≤ precedence kind ∧ 0 < precedence kind ∧ expr.op = binaryOp kind

theorem LoopRuns.ofLevel {m : ℕ} {left expr : Expr} {s s' : State} (h : LoopRuns m left s expr s')
    (hleft : OfLevel m left) :
  OfLevel m expr
  := by
  obtain ⟨n, k, h⟩ := h
  refine yields_iterate (fun out hout => ?_) k hleft s expr s' h
  intro s r s' hpass
  cases r with
  | inr expr =>
    obtain ⟨rfl, -⟩ := gives_break_inv hpass
    exact hout
  | inl expr =>
    obtain ⟨b, s₁, -, hrest⟩ := gives_bind_inv hpass
    split_ifs at hrest
    · cases (gives_pure_inv hrest).1
    · obtain ⟨op, s₂, -, hrest⟩ := gives_bind_inv hrest
      dsimp only at hrest
      split_ifs at hrest with hstop
      · cases (gives_pure_inv hrest).1
      · obtain ⟨_, s₃, -, hright⟩ := gives_bind_inv hrest
        obtain ⟨right, s₄, -, hjoined⟩ := gives_bind_inv hright
        obtain ⟨hexpr, -⟩ := gives_pure_inv hjoined
        obtain rfl := Sum.inl.inj hexpr
        exact .inr ⟨op.kind, by omega, by omega, rfl⟩

/-- What is read for a level is of that level. -/
theorem Runs.ofLevel {m : ℕ} {expr : Expr} {s s' : State} (h : Runs (.expression m) s expr s') :
  OfLevel m expr
  := by
  obtain ⟨left, s₁, ⟨n, hleft⟩, hloop⟩ := h.exists_operand
  apply hloop.ofLevel
  cases n with
  | zero => cases hleft
  | succ n => exact .inl (yields_parseUnary s left s₁ hleft)

end Caster.SelfHosting
