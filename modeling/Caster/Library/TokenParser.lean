import Mathlib.Tactic

/-!
# Parsers over an array of tokens

A parser reads tokens at positions of its own choice and may move back.  It ends with a
value, with an error, with a read outside the array, or without an end as far as its fuel
goes.  A parser is safe from a state for a postcondition if it ends with an error or with a
value and a state that meet the postcondition.
-/

/-- The end of a run of a parser. -/
inductive ParseEnd (ε σ α : Type) where
  | ok (value : α) (state : σ)
  | error (message : ε)
  | outOfBounds
  | outOfFuel

/-- A position among the tokens, and a flag a parser sets for its callees. -/
structure Cursor where
  pos : ℕ
  flag : Bool
deriving DecidableEq, Repr

/-- A parser of tokens `τ` with errors `ε`. -/
def TokenParser (τ ε α : Type) : Type := List τ → Cursor → ParseEnd ε Cursor α

namespace TokenParser

variable {τ ε α β : Type}

/-- A parser that returns a value and reads nothing. -/
protected def pure (a : α) : TokenParser τ ε α := fun _ c => .ok a c

/-- Two parsers one after the other. -/
protected def bind (p : TokenParser τ ε α) (f : α → TokenParser τ ε β) : TokenParser τ ε β := fun tokens c =>
  match p tokens c with
  | .ok a c => f a tokens c
  | .error e => .error e
  | .outOfBounds => .outOfBounds
  | .outOfFuel => .outOfFuel

instance : Monad (TokenParser τ ε) where
  pure := TokenParser.pure
  bind := TokenParser.bind

/-- A parser that reports an error. -/
def fail (e : ε) : TokenParser τ ε α := fun _ _ => .error e

/-- A parser without fuel. -/
def starve : TokenParser τ ε α := fun _ _ => .outOfFuel

/-- The token some positions ahead. -/
def peek (offset : ℕ) : TokenParser τ ε τ := fun tokens c =>
  match tokens[c.pos + offset]? with
  | some t => .ok t c
  | none => .outOfBounds

/-- The token before the position. -/
def prev : TokenParser τ ε τ := fun tokens c =>
  match c.pos with
  | 0 => .outOfBounds
  | pos + 1 =>
    match tokens[pos]? with
    | some t => .ok t c
    | none => .outOfBounds

/-- The token at a position. -/
def tokenAt (pos : ℕ) : TokenParser τ ε τ := fun tokens c =>
  match tokens[pos]? with
  | some t => .ok t c
  | none => .outOfBounds

/-- The position. -/
def position : TokenParser τ ε ℕ := fun _ c => .ok c.pos c

/-- The position is set. -/
def seek (pos : ℕ) : TokenParser τ ε Unit := fun _ c => .ok () { c with pos }

/-- The position is moved past a token. -/
def advance : TokenParser τ ε Unit := fun _ c => .ok () { c with pos := c.pos + 1 }

/-- The flag. -/
def flag : TokenParser τ ε Bool := fun _ c => .ok c.flag c

/-- The flag is set. -/
def setFlag (flag : Bool) : TokenParser τ ε Unit := fun _ c => .ok () { c with flag }

/-- The number of tokens up to the first one without a property, `none` if all have it. -/
def run (p : τ → Bool) : List τ → Option ℕ
  | [] => none
  | t :: tokens => if p t then (run p tokens).map (· + 1) else some 0

/-- The position of the first token from a position on without a property. -/
def scan (p : τ → Bool) (pos : ℕ) : TokenParser τ ε ℕ := fun tokens c =>
  match run p (tokens.drop pos) with
  | some n => .ok (pos + n) c
  | none => .outOfBounds

/-- A loop: its body goes on with a new value, or breaks with a result. -/
def iterate (body : α → TokenParser τ ε (α ⊕ β)) : ℕ → α → TokenParser τ ε β
  | 0, _ => starve
  | n + 1, a => do
    match ← body a with
    | .inl a => iterate body n a
    | .inr b => pure b

/-- A loop that runs no longer than there are tokens. -/
def loop (body : α → TokenParser τ ε (α ⊕ β)) (a : α) : TokenParser τ ε β := fun tokens c =>
  iterate body (tokens.length + 1) a tokens c

section

variable {ι : Type}

/-- Parsers that call each other, with the fuel for a number of calls. -/
def fixFuel (f : (ι → TokenParser τ ε α) → ι → TokenParser τ ε α) : ℕ → ι → TokenParser τ ε α
  | 0, _ => starve
  | n + 1, i => f (fixFuel f n) i

/-- Parsers that call each other no more than `calls` times for each token. -/
def fix (calls : ℕ) (f : (ι → TokenParser τ ε α) → ι → TokenParser τ ε α) (i : ι) :
    TokenParser τ ε α := fun tokens c =>
  fixFuel f (calls * (tokens.length + 1)) i tokens c

end

/-- The second condition is looked at if the first one holds. -/
def both (p q : TokenParser τ ε Bool) : TokenParser τ ε Bool := do
  if ← p then q else pure false

/-- The second condition is looked at if the first one does not hold. -/
def either (p q : TokenParser τ ε Bool) : TokenParser τ ε Bool := do
  if ← p then pure true else q

/-! ### Safety -/

variable {tokens : List τ} {c : Cursor} {Q : α → Cursor → Prop}

/-- The parser ends, reads no token outside the list, and any value it returns meets the
postcondition. -/
def Safe (tokens : List τ) (p : TokenParser τ ε α) (c : Cursor) (Q : α → Cursor → Prop) : Prop :=
  match p tokens c with
  | .ok a c => Q a c
  | .error _ => True
  | .outOfBounds => False
  | .outOfFuel => False

theorem safe_pure {a : α} (h : Q a c) : Safe tokens (Pure.pure a : TokenParser τ ε α) c Q := h

theorem safe_fail (e : ε) : Safe tokens (fail e : TokenParser τ ε α) c Q := trivial

theorem safe_bind {p : TokenParser τ ε α} {f : α → TokenParser τ ε β} {Q : β → Cursor → Prop}
    (h : Safe tokens p c fun a c => Safe tokens (f a) c Q) :
  Safe tokens (p >>= f) c Q
  := by
  have hbind : (p >>= f) tokens c = TokenParser.bind p f tokens c := rfl
  unfold Safe at h ⊢
  rw [hbind, TokenParser.bind]
  cases hp : p tokens c with
  | ok a c =>
    rw [hp] at h
    exact h
  | error e => trivial
  | outOfBounds =>
    rw [hp] at h
    exact h
  | outOfFuel =>
    rw [hp] at h
    exact h

theorem safe_mono {p : TokenParser τ ε α} {Q' : α → Cursor → Prop} (h : Safe tokens p c Q)
    (hQ : ∀ a c, Q a c → Q' a c) :
  Safe tokens p c Q'
  := by
  unfold Safe at h ⊢
  cases hp : p tokens c with
  | ok a c =>
    rw [hp] at h
    exact hQ a c h
  | error e => trivial
  | outOfBounds =>
    rw [hp] at h
    exact h
  | outOfFuel =>
    rw [hp] at h
    exact h

/-- A parser behind another one whose postcondition is known. -/
theorem safe_then {p : TokenParser τ ε α} {f : α → TokenParser τ ε β} {Q' : β → Cursor → Prop}
    (h : Safe tokens p c Q) (next : ∀ a c', Q a c' → Safe tokens (f a) c' Q') :
  Safe tokens (p >>= f) c Q'
  := safe_bind (safe_mono h next)

/-- A condition decides between two parsers. -/
theorem safe_ite {p : TokenParser τ ε Bool} {yes no : TokenParser τ ε α} {R : Bool → Cursor → Prop}
    (h : Safe tokens p c R) (hyes : ∀ c', R true c' → Safe tokens yes c' Q)
    (hno : ∀ c', R false c' → Safe tokens no c' Q) :
  Safe tokens (p >>= fun b => if b = true then yes else no) c Q
  := by
  apply safe_then h
  rintro (_ | _) c' hR
  · exact hno c' hR
  · exact hyes c' hR

theorem safe_peek {offset : ℕ} {Q : τ → Cursor → Prop} (hpos : c.pos + offset < tokens.length)
    (h : ∀ t, tokens[c.pos + offset]? = some t → Q t c) :
  Safe tokens (peek offset : TokenParser τ ε τ) c Q
  := by
  have ht := List.getElem?_eq_getElem hpos
  unfold Safe peek
  rw [ht]
  exact h _ ht

theorem safe_prev {Q : τ → Cursor → Prop} (hpos : 0 < c.pos) (hle : c.pos ≤ tokens.length)
    (h : ∀ t, Q t c) :
  Safe tokens (prev : TokenParser τ ε τ) c Q
  := by
  obtain ⟨pos, flag⟩ := c
  obtain ⟨pos, rfl⟩ : ∃ n, pos = n + 1 := ⟨pos - 1, (Nat.sub_add_cancel hpos).symm⟩
  have ht := List.getElem?_eq_getElem (Nat.lt_of_succ_le hle)
  unfold Safe prev
  simp only [ht]
  exact h _

theorem safe_tokenAt {pos : ℕ} {Q : τ → Cursor → Prop} (hpos : pos < tokens.length)
    (h : ∀ t, tokens[pos]? = some t → Q t c) :
  Safe tokens (tokenAt pos : TokenParser τ ε τ) c Q
  := by
  have ht := List.getElem?_eq_getElem hpos
  unfold Safe tokenAt
  rw [ht]
  exact h _ ht

theorem safe_position : Safe tokens (position : TokenParser τ ε ℕ) c fun n c' => n = c.pos ∧ c' = c :=
  ⟨rfl, rfl⟩

theorem safe_seek (pos : ℕ) :
  Safe tokens (seek pos : TokenParser τ ε Unit) c fun _ c' => c'.pos = pos
  := rfl

theorem safe_advance :
  Safe tokens (advance : TokenParser τ ε Unit) c fun _ c' => c'.pos = c.pos + 1
  := rfl

theorem safe_flag : Safe tokens (flag : TokenParser τ ε Bool) c fun _ c' => c' = c := rfl

theorem safe_setFlag (b : Bool) :
  Safe tokens (setFlag b : TokenParser τ ε Unit) c fun _ c' => c'.pos = c.pos
  := rfl

/-- The length of a run of tokens that ends before the end of the list. -/
theorem run_drop {p : τ → Bool} {last pos : ℕ} {t : τ} (hlast : tokens[last]? = some t)
    (ht : p t = false) (hpos : pos ≤ last) :
  ∃ n, run p (tokens.drop pos) = some n ∧ pos + n ≤ last
  := by
  obtain ⟨k, rfl⟩ := Nat.le.dest hpos
  have hdrop : (tokens.drop pos)[k]? = some t := by rw [List.getElem?_drop, hlast]
  generalize tokens.drop pos = rest at hdrop
  clear hlast hpos
  suffices ∃ n, run p rest = some n ∧ n ≤ k by
    obtain ⟨n, hrun, hn⟩ := this
    exact ⟨n, hrun, by omega⟩
  induction rest generalizing k with
  | nil => cases hdrop
  | cons first rest ih =>
    unfold run
    by_cases hfirst : p first = true
    · cases k with
      | zero =>
        rw [List.getElem?_cons_zero, Option.some.injEq] at hdrop
        rw [hdrop, ht] at hfirst
        cases hfirst
      | succ k =>
        rw [List.getElem?_cons_succ] at hdrop
        obtain ⟨n, hrun, hn⟩ := ih k hdrop
        exact ⟨n + 1, by rw [if_pos hfirst, hrun]; rfl, by omega⟩
    · exact ⟨0, if_neg hfirst, Nat.zero_le _⟩

theorem safe_scan {p : τ → Bool} {last pos : ℕ} {t : τ} {Q : ℕ → Cursor → Prop}
    (hlast : tokens[last]? = some t) (ht : p t = false) (hpos : pos ≤ last)
    (h : ∀ n, pos ≤ n → n ≤ last → Q n c) :
  Safe tokens (scan p pos : TokenParser τ ε ℕ) c Q
  := by
  obtain ⟨n, hrun, hn⟩ := run_drop hlast ht hpos
  unfold Safe scan
  rw [hrun]
  exact h (pos + n) (Nat.le_add_right _ _) hn

theorem safe_both {p q : TokenParser τ ε Bool} {R Q : Bool → Cursor → Prop} (h : Safe tokens p c R)
    (hyes : ∀ c', R true c' → Safe tokens q c' Q) (hno : ∀ c', R false c' → Q false c') :
  Safe tokens (both p q) c Q
  := safe_ite h hyes hno

theorem safe_either {p q : TokenParser τ ε Bool} {R Q : Bool → Cursor → Prop} (h : Safe tokens p c R)
    (hyes : ∀ c', R true c' → Q true c') (hno : ∀ c', R false c' → Safe tokens q c' Q) :
  Safe tokens (either p q) c Q
  := safe_ite h hyes hno

/-- What a pass through the body of a loop has to establish: it goes on at a later position
with the invariant, or breaks with the postcondition. -/
def Pass (last : ℕ) (inv : α → Cursor → Prop) (Q : β → Cursor → Prop) (c : Cursor) :
    α ⊕ β → Cursor → Prop
  | .inl a, c' => c.pos < c'.pos ∧ c'.pos ≤ last ∧ inv a c'
  | .inr b, c' => Q b c'

theorem safe_iterate {body : α → TokenParser τ ε (α ⊕ β)} {last : ℕ} {inv : α → Cursor → Prop}
    {Q : β → Cursor → Prop}
    (hbody : ∀ a c, c.pos ≤ last → inv a c → Safe tokens (body a) c (Pass last inv Q c))
    (n : ℕ) (a : α) (c : Cursor) (hn : last - c.pos < n) (hpos : c.pos ≤ last) (ha : inv a c) :
  Safe tokens (iterate body n a) c Q
  := by
  induction n generalizing a c with
  | zero => exact absurd hn (Nat.not_lt_zero _)
  | succ n ih =>
    apply safe_bind
    apply safe_mono (hbody a c hpos ha)
    rintro (a' | b) c' hpass
    · obtain ⟨hlt, hle, ha'⟩ := hpass
      exact ih a' c' (by omega) hle ha'
    · exact hpass

/-- A loop whose passes move forward is safe. -/
theorem safe_loop {body : α → TokenParser τ ε (α ⊕ β)} {last : ℕ} (inv : α → Cursor → Prop)
    {Q : β → Cursor → Prop} {a : α} (hlast : last < tokens.length) (hpos : c.pos ≤ last) (ha : inv a c)
    (hbody : ∀ a c, c.pos ≤ last → inv a c → Safe tokens (body a) c (Pass last inv Q c)) :
  Safe tokens (loop body a) c Q
  := safe_iterate hbody (tokens.length + 1) a c (by omega) hpos ha

/-- Parsers that call each other are safe when a measure decreases with every call. -/
theorem safe_fix {ι : Type} {calls : ℕ} {f : (ι → TokenParser τ ε α) → ι → TokenParser τ ε α}
    (measure : ι → Cursor → ℕ) (ok : ι → Cursor → Prop) {Q : ι → Cursor → α → Cursor → Prop}
    (hf : ∀ self i c, ok i c →
      (∀ j c', ok j c' → measure j c' < measure i c → Safe tokens (self j) c' (Q j c')) →
      Safe tokens (f self i) c (Q i c))
    {i : ι} (hok : ok i c) (hmeasure : measure i c < calls * (tokens.length + 1)) :
  Safe tokens (fix calls f i) c (Q i c)
  := by
  have hfuel : ∀ n i c, ok i c → measure i c < n → Safe tokens (fixFuel f n i) c (Q i c) := by
    intro n
    induction n with
    | zero => exact fun i c _ hlt => absurd hlt (Nat.not_lt_zero _)
    | succ n ih =>
      intro i c hi hlt
      apply hf _ i c hi
      intro j c' hj hdecrease
      exact ih j c' hj (by omega)
  exact hfuel _ i c hok hmeasure

end TokenParser
