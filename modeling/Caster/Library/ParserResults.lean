import Caster.Library.TokenParser

/-!
# Results of parsers

What a parser returns from a state, and the state it ends in.
-/

namespace TokenParser

variable {τ ε α β : Type} {tokens : List τ} {c c' c'' : Cursor}

/-- From a state the parser returns a value in another state. -/
def Returns (tokens : List τ) (p : TokenParser τ ε α) (c : Cursor) (a : α) (c' : Cursor) : Prop :=
  p tokens c = .ok a c'

theorem returns_pure (a : α) : Returns tokens (Pure.pure a : TokenParser τ ε α) c a c := rfl

theorem returns_bind {p : TokenParser τ ε α} {f : α → TokenParser τ ε β} {a : α} {b : β}
    (hp : Returns tokens p c a c') (hf : Returns tokens (f a) c' b c'') :
  Returns tokens (p >>= f) c b c''
  := by
  have hbind : (p >>= f) tokens c = TokenParser.bind p f tokens c := rfl
  unfold Returns at hp hf ⊢
  rw [hbind, TokenParser.bind, hp]
  exact hf

theorem Returns.unique {p : TokenParser τ ε α} {a a' : α} (h : Returns tokens p c a c')
    (h' : Returns tokens p c a' c'') :
  a = a' ∧ c' = c''
  := by
  unfold Returns at h h'
  rw [h, ParseEnd.ok.injEq] at h'
  exact h'

theorem returns_pure_iff {a b : α} :
  Returns tokens (Pure.pure a : TokenParser τ ε α) c b c' ↔ a = b ∧ c = c'
  := by
  constructor
  · exact fun h => (returns_pure a).unique h
  · rintro ⟨rfl, rfl⟩
    exact returns_pure a

theorem returns_peek_iff {offset : ℕ} {t : τ} :
  Returns tokens (peek offset : TokenParser τ ε τ) c t c' ↔ tokens[c.pos + offset]? = some t ∧ c' = c
  := by
  unfold Returns peek
  cases tokens[c.pos + offset]? with
  | none => simp
  | some t' =>
    rw [ParseEnd.ok.injEq, Option.some.injEq, @eq_comm _ c c']

theorem not_returns_fail (e : ε) (a : α) : ¬ Returns tokens (fail e : TokenParser τ ε α) c a c' := nofun

/-- What a parser does behind one whose result is known. -/
theorem bind_of_returns {p : TokenParser τ ε α} {a : α} (hp : Returns tokens p c a c')
    (f : α → TokenParser τ ε β) :
  (p >>= f) tokens c = f a tokens c'
  := by
  have hbind : (p >>= f) tokens c = TokenParser.bind p f tokens c := rfl
  unfold Returns at hp
  rw [hbind, TokenParser.bind, hp]

/-- A parser behind another one returns what it does where the other one ends. -/
theorem returns_bind_iff {p : TokenParser τ ε α} {f : α → TokenParser τ ε β} {b : β} :
  Returns tokens (p >>= f) c b c'' ↔ ∃ a c', Returns tokens p c a c' ∧ Returns tokens (f a) c' b c''
  := by
  constructor
  · intro h
    have hbind : (p >>= f) tokens c = TokenParser.bind p f tokens c := rfl
    unfold Returns at h
    rw [hbind, TokenParser.bind] at h
    cases hresult : p tokens c with
    | ok a c' =>
      rw [hresult] at h
      exact ⟨a, c', hresult, h⟩
    | error e =>
      rw [hresult] at h
      cases h
    | outOfBounds =>
      rw [hresult] at h
      cases h
    | outOfFuel =>
      rw [hresult] at h
      cases h
  · rintro ⟨a, c', hp, hf⟩
    exact returns_bind hp hf

/-- A parser that returns nothing is behind no result. -/
theorem not_returns_bind {p : TokenParser τ ε α} {f : α → TokenParser τ ε β}
    (hp : ∀ a c', ¬ Returns tokens p c a c') (b : β) (c'' : Cursor) :
  ¬ Returns tokens (p >>= f) c b c''
  := by
  rw [returns_bind_iff]
  rintro ⟨a, c', hreturns, -⟩
  exact hp a c' hreturns

theorem safe_of_returns {p : TokenParser τ ε α} {a : α} {Q : α → Cursor → Prop}
    (hp : Returns tokens p c a c') (h : Q a c') :
  Safe tokens p c Q
  := by
  unfold Returns at hp
  unfold Safe
  rw [hp]
  exact h

/-- A parser behind one whose result is known. -/
theorem safe_after {p : TokenParser τ ε α} {f : α → TokenParser τ ε β} {a : α} {Q : β → Cursor → Prop}
    (hp : Returns tokens p c a c') (hf : Safe tokens (f a) c' Q) :
  Safe tokens (p >>= f) c Q
  := safe_bind (safe_of_returns hp hf)

section

variable {p : TokenParser τ ε Bool} {yes no : TokenParser τ ε α} {a : α}

theorem returns_then (hp : Returns tokens p c true c') (hyes : Returns tokens yes c' a c'') :
  Returns tokens (p >>= fun b => if b = true then yes else no) c a c''
  := returns_bind hp hyes

theorem returns_else (hp : Returns tokens p c false c') (hno : Returns tokens no c' a c'') :
  Returns tokens (p >>= fun b => if b = true then yes else no) c a c''
  := returns_bind hp hno

theorem safe_else {Q : α → Cursor → Prop} (hp : Returns tokens p c false c')
    (hno : Safe tokens no c' Q) :
  Safe tokens (p >>= fun b => if b = true then yes else no) c Q
  := safe_after hp hno

end

theorem returns_peek {offset : ℕ} {t : τ} (h : tokens[c.pos + offset]? = some t) :
  Returns tokens (peek offset : TokenParser τ ε τ) c t c
  := by
  unfold Returns peek
  rw [h]

theorem returns_position : Returns tokens (position : TokenParser τ ε ℕ) c c.pos c := rfl

theorem returns_seek (pos : ℕ) :
  Returns tokens (seek pos : TokenParser τ ε Unit) c () { c with pos }
  := rfl

theorem returns_advance :
  Returns tokens (advance : TokenParser τ ε Unit) c () { c with pos := c.pos + 1 }
  := rfl

theorem returns_flag : Returns tokens (flag : TokenParser τ ε Bool) c c.flag c := rfl

/-- A scan stops at a token without the property that only tokens with it precede. -/
theorem returns_scan {p : τ → Bool} {pos n : ℕ} (h : run p (tokens.drop pos) = some n) :
  Returns tokens (scan p pos : TokenParser τ ε ℕ) c (pos + n) c
  := by
  unfold Returns scan
  rw [h]

/-- The first token without a property is where a run of tokens with it ends. -/
theorem run_of_find? {p : τ → Bool} {t : τ} {rest : List τ} (h : rest.find? (fun t => !p t) = some t) :
  ∃ n, run p rest = some n ∧ rest[n]? = some t
  := by
  induction rest with
  | nil => cases h
  | cons first rest ih =>
    by_cases hfirst : p first = true
    · rw [List.find?_cons_of_neg (by simp [hfirst])] at h
      obtain ⟨n, hrun, ht⟩ := ih h
      exact ⟨n + 1, by rw [run, if_pos hfirst, hrun]; rfl, ht⟩
    · rw [List.find?_cons_of_pos (by simpa using hfirst)] at h
      exact ⟨0, if_neg hfirst, h⟩

/-! ### Loops -/

section

variable {body : α → TokenParser τ ε (α ⊕ β)}

/-- Passes through the body of a loop, each of which goes on at a later position. -/
inductive Passes (tokens : List τ) (body : α → TokenParser τ ε (α ⊕ β)) :
    α → Cursor → α → Cursor → Prop where
  | refl (a : α) (c : Cursor) : Passes tokens body a c a c
  | tail {a a' a'' : α} {c c' c'' : Cursor} :
      Passes tokens body a c a' c' → Returns tokens (body a') c' (.inl a'') c'' → c'.pos < c''.pos →
      Passes tokens body a c a'' c''

theorem Passes.pos_le {a a' : α} (h : Passes tokens body a c a' c') : c.pos ≤ c'.pos := by
  induction h with
  | refl => exact le_rfl
  | tail _ _ hlt ih => exact ih.trans hlt.le

theorem Passes.head {a a' a'' : α} (hpass : Returns tokens (body a) c (.inl a') c') (hlt : c.pos < c'.pos)
    (h : Passes tokens body a' c' a'' c'') :
  Passes tokens body a c a'' c''
  := by
  induction h with
  | refl => exact (Passes.refl _ _).tail hpass hlt
  | tail _ hlast hlt' ih => exact (ih hpass hlt).tail hlast hlt'

theorem Passes.trans {a a' a'' : α} (h : Passes tokens body a c a' c')
    (h' : Passes tokens body a' c' a'' c'') :
  Passes tokens body a c a'' c''
  := by
  induction h' with
  | refl => exact h
  | tail _ hlast hlt ih => exact (ih h).tail hlast hlt

/-- A loop returns nothing if a pass through its body returns nothing. -/
theorem Passes.not_returns {a a' : α} (h : Passes tokens body a c a' c')
    (hstop : ∀ r c'', ¬ Returns tokens (body a') c' r c'') (n : ℕ) (b : β) (c'' : Cursor) :
  ¬ Returns tokens (iterate body n a) c b c''
  := by
  suffices hloop : ∀ n b c'', ¬ Returns tokens (iterate body n a') c' b c'' by
    clear hstop
    induction h generalizing n b c'' with
    | refl => exact hloop n b c''
    | tail _ hpass _ ih =>
      apply ih
      intro n b c'' hreturns
      cases n with
      | zero => cases hreturns
      | succ n =>
        unfold Returns at hreturns
        rw [iterate, bind_of_returns hpass] at hreturns
        exact hloop n b c'' hreturns
  intro n b c'' hreturns
  cases n with
  | zero => cases hreturns
  | succ n => exact not_returns_bind hstop b c'' hreturns

/-- Passes leave a loop with the fuel for the tokens they have not passed. -/
theorem Passes.iterate {a a' : α} {b : β} {n : ℕ} (h : Passes tokens body a c a' c')
    (hafter : ∀ n, tokens.length - c'.pos < n → Returns tokens (iterate body n a') c' b c'')
    (hle : c'.pos ≤ tokens.length) (hn : tokens.length - c.pos < n) :
  Returns tokens (iterate body n a) c b c''
  := by
  induction h generalizing n with
  | refl => exact hafter n hn
  | tail hpasses hpass hlt ih =>
    apply ih _ (hlt.le.trans hle) hn
    intro n hn
    obtain ⟨n, rfl⟩ : ∃ m, n = m + 1 := ⟨n - 1, by omega⟩
    exact returns_bind hpass (hafter n (by omega))

/-- A loop returns what its body returns that breaks after a number of passes. -/
theorem returns_loop {a a' : α} {b : β} (h : Passes tokens body a c a' c') (hle : c'.pos ≤ tokens.length)
    (hbreak : Returns tokens (body a') c' (.inr b) c'') :
  Returns tokens (loop body a) c b c''
  := by
  apply h.iterate _ hle (by omega)
  intro n hn
  obtain ⟨n, rfl⟩ : ∃ m, n = m + 1 := ⟨n - 1, by omega⟩
  exact returns_bind hbreak (returns_pure b)

end

end TokenParser
