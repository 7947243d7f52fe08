import Caster.SelfHosting.Parser

/-!
# Results of the parser written in Caster

What a parser gives from a state, and the state it ends in.
-/

namespace Caster.SelfHosting

variable {α β : Type}

/-- From a state the parser returns a value in another state. -/
def Gives (p : Parser α) (s : State) (a : α) (s' : State) : Prop := p s = some (a, s')

theorem gives_pure (a : α) (s : State) : Gives (pure a) s a s := rfl

theorem gives_bind {p : Parser α} {f : α → Parser β} {s s' s'' : State} {a : α} {b : β}
    (hp : Gives p s a s') (hf : Gives (f a) s' b s'') :
  Gives (p >>= f) s b s''
  := by
  show (p s).bind (fun x => f x.1 x.2) = _
  rw [hp]
  exact hf

theorem Gives.unique {p : Parser α} {s s' s'' : State} {a b : α} (h : Gives p s a s')
    (h' : Gives p s b s'') :
  a = b ∧ s' = s''
  := Prod.ext_iff.mp (Option.some.inj (h.symm.trans h'))

section

variable {p : Parser Bool} {yes no : Parser α} {s s' s'' : State} {a : α}

theorem gives_then (hp : Gives p s true s') (hyes : Gives yes s' a s'') :
  Gives (p >>= fun b => if b = true then yes else no) s a s''
  := gives_bind hp hyes

theorem gives_else (hp : Gives p s false s') (hno : Gives no s' a s'') :
  Gives (p >>= fun b => if b = true then yes else no) s a s''
  := gives_bind hp hno

end

variable {s : State} {tok : Token} (htok : s.tokens[s.pos]? = some tok)

include htok

theorem current_gives : Gives current s tok s := by
  obtain ⟨hpos, _⟩ := List.getElem?_eq_some_iff.mp htok
  simp only [Gives, current, if_pos hpos, htok, Option.map_some]

theorem atKind_gives (kind : Kind) : Gives (atKind kind) s (tok.kind = kind) s :=
  gives_bind (current_gives htok) (gives_pure _ _)

theorem advance_gives : Gives advance s tok { s with pos := s.pos + 1 } := by
  obtain ⟨hpos, _⟩ := List.getElem?_eq_some_iff.mp htok
  apply gives_bind (current_gives htok)
  show some _ = some _
  dsimp only
  rw [if_pos hpos]

theorem expect_gives {kind : Kind} (hkind : tok.kind = kind) (message : String) :
  Gives (expect kind message) s tok { s with pos := s.pos + 1 }
  := by
  apply gives_bind (current_gives htok)
  rw [if_pos hkind]
  exact advance_gives htok

omit htok

theorem atKind_gives_true {kind : Kind} (htok : s.tokens[s.pos]? = some tok) (hkind : tok.kind = kind) :
  Gives (atKind kind) s true s
  := decide_eq_true hkind ▸ atKind_gives htok kind

theorem atKind_gives_false {kind : Kind} (htok : s.tokens[s.pos]? = some tok) (hkind : tok.kind ≠ kind) :
  Gives (atKind kind) s false s
  := decide_eq_false hkind ▸ atKind_gives htok kind

end Caster.SelfHosting
