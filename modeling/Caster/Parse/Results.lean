import Caster.Library.ParserResults
import Caster.Parse.Expressions

/-!
# Results at a known token

What the functions on single tokens return if the token at the position is known.
-/

namespace Caster.Parse

open TokenParser

variable {tokens : List Token} {c : Cursor} {tok : Token}

/-- The state behind the token at the position. -/
def next (c : Cursor) : Cursor := { c with pos := c.pos + 1 }

@[simp] theorem next_pos : (next c).pos = c.pos + 1 := rfl

@[simp] theorem next_flag : (next c).flag = c.flag := rfl

theorem returns_cur_iff {c' : Cursor} :
  Returns tokens cur c tok c' ↔ tokens[c.pos]? = some tok ∧ c' = c
  := returns_peek_iff

variable (htok : tokens[c.pos]? = some tok)

include htok

theorem cur_returns : Returns tokens cur c tok c :=
  returns_peek htok

theorem curIs_returns (k : TokenKind) : Returns tokens (curIs k) c (tok.kind = k) c :=
  returns_bind (cur_returns htok) (returns_pure _)

theorem matchToken_returns_true {k : TokenKind} (hk : tok.kind = k) :
  Returns tokens (matchToken k) c true (next c)
  := by
  apply returns_bind (curIs_returns htok k)
  rw [if_pos (decide_eq_true hk)]
  exact returns_bind returns_advance (returns_pure true)

theorem matchToken_returns_false {k : TokenKind} (hk : tok.kind ≠ k) :
  Returns tokens (matchToken k) c false c
  := by
  apply returns_bind (curIs_returns htok k)
  rw [if_neg (by simpa using hk)]
  exact returns_pure false

theorem expect_returns {k : TokenKind} (hk : tok.kind = k) (message : String) :
  Returns tokens (expect k message) c tok (next c)
  := by
  apply returns_bind (cur_returns htok)
  rw [if_pos hk]
  exact returns_bind returns_advance (returns_pure tok)

theorem skipNewlines_returns (hkind : tok.kind ≠ .NEWLINE) :
  Returns tokens skipNewlines c () c
  := by
  have hrun : run isNewline (tokens.drop c.pos) = some 0 := by
    rw [List.drop_eq_getElem?_toList_append, htok]
    exact if_neg (by simpa [isNewline] using hkind)
  apply returns_bind returns_position
  apply returns_bind (returns_scan hrun)
  exact returns_seek c.pos

theorem skipNewlinesBeforeDot_returns (hkind : tok.kind ≠ .NEWLINE) :
  Returns tokens skipNewlinesBeforeDot c () c
  := by
  apply returns_bind returns_position
  apply returns_bind (skipNewlines_returns htok hkind)
  apply returns_bind (curIs_returns htok .DOT)
  split_ifs
  · exact returns_pure ()
  · exact returns_seek c.pos

end Caster.Parse
