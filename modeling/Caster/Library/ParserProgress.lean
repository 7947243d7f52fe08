import Caster.Library.TokenParser

/-!
# Parsers that move forward

A parser moves on if it is safe and ends at a position no earlier than the one it started
at, and forward if it ends at a later one.  The value it returns may tell whether it moved
forward.  Loops whose passes move forward are safe, and so are parsers that call each other
only after moving forward.
-/

namespace TokenParser

variable {τ ε α β : Type} {tokens : List τ} {last lo : ℕ}

/-- From the positions of a range the parser is safe and moves on, and it moves forward if
the value it returns says so. -/
def Moves (tokens : List τ) (last : ℕ) (far : α → Bool) (lo : ℕ) (p : TokenParser τ ε α) : Prop :=
  ∀ c : Cursor, lo ≤ c.pos → c.pos ≤ last →
    Safe tokens p c fun a c' => c.pos ≤ c'.pos ∧ c'.pos ≤ last ∧ (far a = true → c.pos < c'.pos)

/-- The parser moves on. -/
abbrev Onward (tokens : List τ) (last lo : ℕ) (p : TokenParser τ ε α) : Prop :=
  Moves tokens last (fun _ => false) lo p

/-- The parser moves forward. -/
abbrev Forward (tokens : List τ) (last lo : ℕ) (p : TokenParser τ ε α) : Prop :=
  Moves tokens last (fun _ => true) lo p

/-- The parser moves forward if its condition holds. -/
abbrev Takes (tokens : List τ) (last lo : ℕ) (p : TokenParser τ ε Bool) : Prop :=
  Moves tokens last id lo p

variable {far : α → Bool} {p : TokenParser τ ε α}

/-! ### Steps -/

theorem moves_pure {a : α} (h : far a = false) :
  Moves tokens last far lo (Pure.pure a : TokenParser τ ε α)
  := by
  intro c _ hpos
  exact safe_pure ⟨le_rfl, hpos, fun hfar => absurd (h.symm.trans hfar) Bool.false_ne_true⟩

theorem onward_pure (a : α) : Onward tokens last lo (Pure.pure a : TokenParser τ ε α) :=
  moves_pure rfl

theorem moves_fail (e : ε) : Moves tokens last far lo (fail e : TokenParser τ ε α) :=
  fun _ _ _ => safe_fail e

theorem onward_flag : Onward tokens last lo (flag : TokenParser τ ε Bool) :=
  fun _ _ hpos => ⟨le_rfl, hpos, fun h => nomatch h⟩

theorem onward_setFlag (b : Bool) : Onward tokens last lo (setFlag b : TokenParser τ ε Unit) :=
  fun _ _ hpos => ⟨le_rfl, hpos, fun h => nomatch h⟩

/-- There is a token before a later position. -/
theorem onward_prev (hlo : 0 < lo) (hlast : last < tokens.length) :
  Onward tokens last lo (prev : TokenParser τ ε τ)
  := by
  intro c hle hpos
  apply safe_prev (by omega) (by omega)
  intro _
  exact ⟨le_rfl, hpos, fun h => nomatch h⟩

/-- A parser that stays where it is. -/
theorem onward_of_stays (h : ∀ c, c.pos ≤ last → Safe tokens p c fun _ c' => c' = c) :
  Onward tokens last lo p
  := by
  intro c _ hpos
  apply safe_mono (h c hpos)
  rintro a c ⟨rfl⟩
  exact ⟨le_rfl, hpos, fun h => nomatch h⟩

theorem Forward.moves (h : Forward tokens last lo p) : Moves tokens last far lo p := by
  intro c hlo hpos
  apply safe_mono (h c hlo hpos)
  rintro a c' ⟨hle, hlast, hlt⟩
  exact ⟨hle, hlast, fun _ => hlt rfl⟩

theorem Moves.onward (h : Moves tokens last far lo p) : Onward tokens last lo p := by
  intro c hlo hpos
  apply safe_mono (h c hlo hpos)
  rintro a c' ⟨hle, hlast, _⟩
  exact ⟨hle, hlast, fun h => nomatch h⟩

theorem Moves.succ (h : Moves tokens last far lo p) : Moves tokens last far (lo + 1) p :=
  fun c hlo hpos => h c (by omega) hpos

/-! ### One parser behind another -/

variable {f : α → TokenParser τ ε β} {far' : β → Bool}

/-- A parser that moves on before one that may move forward. -/
theorem Onward.bind (hp : Onward tokens last lo p) (hf : ∀ a, Moves tokens last far' lo (f a)) :
  Moves tokens last far' lo (p >>= f)
  := by
  intro c hlo hpos
  apply safe_then (hp c hlo hpos)
  rintro a c' ⟨hle, hlast, _⟩
  apply safe_mono (hf a c' (hlo.trans hle) hlast)
  rintro b c'' ⟨hle', hlast', hlt'⟩
  exact ⟨hle.trans hle', hlast', fun hfar => hle.trans_lt (hlt' hfar)⟩

/-- Behind a parser that moves forward, positions are later. -/
theorem Forward.bind_succ (hp : Forward tokens last lo p)
    (hf : ∀ a, Onward tokens last (lo + 1) (f a)) :
  Moves tokens last far' lo (p >>= f)
  := by
  intro c hlo hpos
  apply safe_then (hp c hlo hpos)
  rintro a c' ⟨_, hlast, hlt⟩
  have hlt := hlt rfl
  apply safe_mono (hf a c' (hlo.trans_lt hlt) hlast)
  rintro b c'' ⟨hle', hlast', _⟩
  exact ⟨hlt.le.trans hle', hlast', fun _ => hlt.trans_le hle'⟩

/-- A parser that moves forward before one that moves on. -/
theorem Forward.bind (hp : Forward tokens last lo p) (hf : ∀ a, Onward tokens last lo (f a)) :
  Moves tokens last far' lo (p >>= f)
  := hp.bind_succ fun a => (hf a).succ

/-- A condition that takes tokens if it holds decides between two parsers. -/
theorem Takes.ite {p : TokenParser τ ε Bool} {yes no : TokenParser τ ε α} (hp : Takes tokens last lo p)
    (hyes : Onward tokens last (lo + 1) yes) (hno : Moves tokens last far lo no) :
  Moves tokens last far lo (p >>= fun b => if b = true then yes else no)
  := by
  intro c hlo hpos
  apply safe_ite (hp c hlo hpos)
  · rintro c' ⟨_, hlast, hlt⟩
    have hlt := hlt rfl
    apply safe_mono (hyes c' (hlo.trans_lt hlt) hlast)
    rintro a c'' ⟨hle', hlast', _⟩
    exact ⟨hlt.le.trans hle', hlast', fun _ => hlt.trans_le hle'⟩
  · rintro c' ⟨hle, hlast, _⟩
    apply safe_mono (hno c' (hlo.trans hle) hlast)
    rintro a c'' ⟨hle', hlast', hlt'⟩
    exact ⟨hle.trans hle', hlast', fun hfar => hle.trans_lt (hlt' hfar)⟩

/-- A condition that only looks ahead decides between two parsers. -/
theorem Onward.ite {p : TokenParser τ ε Bool} {yes no : TokenParser τ ε α}
    (hp : Onward tokens last lo p) (hyes : Moves tokens last far lo yes)
    (hno : Moves tokens last far lo no) :
  Moves tokens last far lo (p >>= fun b => if b = true then yes else no)
  := by
  apply hp.bind
  rintro (_ | _)
  · exact hno
  · exact hyes

theorem Onward.both {p q : TokenParser τ ε Bool} (hp : Onward tokens last lo p)
    (hq : Onward tokens last lo q) :
  Onward tokens last lo (both p q)
  := hp.ite hq (onward_pure false)

theorem Takes.either {p q : TokenParser τ ε Bool} (hp : Takes tokens last lo p)
    (hq : Takes tokens last lo q) :
  Takes tokens last lo (either p q)
  := hp.ite (onward_pure true) hq

theorem Takes.both {p q : TokenParser τ ε Bool} (hp : Onward tokens last lo p)
    (hq : Takes tokens last lo q) :
  Takes tokens last lo (both p q)
  := hp.ite hq (moves_pure rfl)

/-! ### Loops and recursion -/

/-- A loop whose passes move forward, unless they break, moves on. -/
theorem onward_loop {body : α → TokenParser τ ε (α ⊕ β)} {a : α} (hlast : last < tokens.length)
    (hbody : ∀ a, Moves tokens last Sum.isLeft lo (body a)) :
  Onward tokens last lo (loop body a)
  := by
  intro c hlo hpos
  apply safe_loop (fun _ c' => c.pos ≤ c'.pos) hlast hpos le_rfl
  intro a c' hpos' hle
  apply safe_mono (hbody a c' (hlo.trans hle) hpos')
  rintro (a' | b) c'' ⟨hle', hlast', hlt'⟩
  · exact ⟨hlt' rfl, hlast', hle.trans hle'⟩
  · exact ⟨hle.trans hle', hlast', fun h => nomatch h⟩

/-- Parsers that call each other move forward if each of them does, given that the others do
from later positions and those of a lower rank from the same one. -/
theorem forward_fix {ι : Type} {calls : ℕ} {f : (ι → TokenParser τ ε α) → ι → TokenParser τ ε α}
    (rank : ι → ℕ) (hrank : ∀ i, rank i < calls) (hlast : last < tokens.length)
    (hf : ∀ self i lo, (∀ j, Forward tokens last (lo + 1) (self j)) →
      (∀ j, rank j < rank i → Forward tokens last lo (self j)) →
      Forward tokens last lo (f self i)) (i : ι) :
  Forward tokens last lo (fix calls f i)
  := by
  have hdecrease : ∀ {m n r r' : ℕ}, m < n → r < calls → calls * m + r < calls * n + r' := by
    intro m n r r' hmn hr
    have hle := Nat.mul_le_mul_left calls hmn
    rw [Nat.succ_eq_add_one, Nat.mul_add, Nat.mul_one] at hle
    omega
  intro c _ hpos
  apply safe_fix (fun i c => calls * (last - c.pos) + rank i) (fun _ c => c.pos ≤ last)
    (Q := fun _ c _ c' => c.pos ≤ c'.pos ∧ c'.pos ≤ last ∧ (true = true → c.pos < c'.pos)) _ hpos
  · exact @hdecrease (last - c.pos) (tokens.length + 1) (rank i) 0 (by omega) (hrank i)
  · intro self i c hpos hself
    apply hf self i c.pos _ _ c le_rfl hpos
    · intro j c' hlo' hpos'
      exact hself j c' hpos' (hdecrease (by omega) (hrank j))
    · intro j hj c' hlo' hpos'
      rcases Nat.eq_or_lt_of_le hlo' with heq | hlt
      · exact hself j c' hpos' (by rw [heq]; omega)
      · exact hself j c' hpos' (hdecrease (by omega) (hrank j))

end TokenParser
