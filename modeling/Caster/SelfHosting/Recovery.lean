import Caster.SelfHosting.ParserResults
import Caster.SelfHosting.Statements

/-!
# The parser written in Caster ends

Every function of the parser ends on every list of tokens whose last token is the only end of
the file.  It does not move back, and behind a token that is not the end of the file it moves
forward.  A loop goes on only after it has moved forward, and functions call themselves only
behind a token they have passed.
-/

namespace Caster.SelfHosting

/-- The last token is the only end of the file. -/
def EndsWithEof (tokens : List Token) : Prop :=
  ∃ toks eof, tokens = toks ++ [eof] ∧ eof.kind = .EOF ∧ ∀ tok ∈ toks, tok.kind ≠ .EOF

/-- A state among some tokens or behind them. -/
structure Sound (tokens : List Token) (s : State) : Prop where
  tokens_eq : s.tokens = tokens
  pos_le : s.pos ≤ tokens.length

/-- A state is at the last token or behind it. -/
def AtEof (tokens : List Token) (s : State) : Prop := tokens.length ≤ s.pos + 1

variable {α β : Type}

/-- A parser gives a value and ends in a state. -/
def Ends (p : Parser α) (s : State) (Q : α → State → Prop) : Prop := ∃ a s', Gives p s a s' ∧ Q a s'

theorem Ends.mono {p : Parser α} {s : State} {Q Q' : α → State → Prop} (h : Ends p s Q)
    (hmono : ∀ a s', Q a s' → Q' a s') :
  Ends p s Q'
  := by
  obtain ⟨a, s', hgives, hQ⟩ := h
  exact ⟨a, s', hgives, hmono a s' hQ⟩

theorem Ends.bind {p : Parser α} {f : α → Parser β} {s : State} {Q : α → State → Prop}
    {Q' : β → State → Prop} (hp : Ends p s Q) (hf : ∀ a s', Q a s' → Ends (f a) s' Q') :
  Ends (p >>= f) s Q'
  := by
  obtain ⟨a, s', hgives, hQ⟩ := hp
  obtain ⟨b, s'', hgives', hQ'⟩ := hf a s' hQ
  exact ⟨b, s'', gives_bind hgives hgives', hQ'⟩

/-- From a position on a parser ends and does not move back.  If it starts before the end of the
file and its value says so, it moves forward.  It may have to start there. -/
def Moves (tokens : List Token) (live : Bool) (far : α → Bool) (lo : ℕ) (p : Parser α) : Prop :=
  ∀ s, Sound tokens s → lo ≤ s.pos → (live = true → ¬ AtEof tokens s) →
    Ends p s fun a s' =>
      Sound tokens s' ∧ s.pos ≤ s'.pos ∧ (¬ AtEof tokens s → far a = true → s.pos < s'.pos)

/-- A parser that does not move back. -/
abbrev Onward (tokens : List Token) (lo : ℕ) (p : Parser α) : Prop :=
  Moves tokens false (fun _ => false) lo p

/-- A parser that moves forward before the end of the file. -/
abbrev Forward (tokens : List Token) (lo : ℕ) (p : Parser α) : Prop :=
  Moves tokens false (fun _ => true) lo p

/-- A pass through a loop moves forward if the loop goes on. -/
def Passes (tokens : List Token) (lo : ℕ) (p : Parser (α ⊕ β)) : Prop :=
  ∀ s, Sound tokens s → lo ≤ s.pos →
    Ends p s fun r s' => Sound tokens s' ∧ s.pos ≤ s'.pos ∧ (r.isLeft = true → s.pos < s'.pos)

/-- A parser that only looks gives a value and does not move. -/
def Looks (tokens : List Token) (p : Parser α) : Prop := ∀ s, Sound tokens s → ∃ a, Gives p s a s

section

variable {tokens : List Token} {live : Bool} {far : α → Bool} {lo : ℕ} {p : Parser α}

/-! ### Rules -/

theorem moves_pure {a : α} (h : far a = false) : Moves tokens live far lo (pure a : Parser α) := by
  intro s hs _ _
  refine ⟨a, s, gives_pure a s, hs, le_rfl, fun _ hfar => ?_⟩
  rw [h] at hfar
  cases hfar

theorem onward_pure (a : α) : Onward tokens lo (pure a : Parser α) := moves_pure rfl

theorem Forward.moves (h : Forward tokens lo p) : Moves tokens live far lo p := by
  intro s hs hlo _
  apply (h s hs hlo (by simp)).mono
  rintro a s' ⟨hs', hle, hlt⟩
  exact ⟨hs', hle, fun hlive _ => hlt hlive rfl⟩

theorem Moves.anywhere (h : Moves tokens false far lo p) : Moves tokens live far lo p := by
  intro s hs hlo _
  exact h s hs hlo (by simp)

theorem Moves.onward (h : Moves tokens live far lo p) : Moves tokens live (fun _ => false) lo p := by
  intro s hs hlo hlive
  apply (h s hs hlo hlive).mono
  rintro a s' ⟨hs', hle, _⟩
  exact ⟨hs', hle, fun _ hfar => nomatch hfar⟩

theorem Moves.succ (h : Moves tokens live far lo p) : Moves tokens live far (lo + 1) p :=
  fun s hs hlo hlive => h s hs (by omega) hlive

variable {f : α → Parser β} {far' : β → Bool}

/-- A parser behind one that does not move back. -/
theorem Moves.bind (hp : Onward tokens lo p) (hf : ∀ a, Moves tokens false far' lo (f a)) :
  Moves tokens live far' lo (p >>= f)
  := by
  intro s hs hlo _
  apply (hp s hs hlo (by simp)).bind
  rintro a s' ⟨hs', hle, _⟩
  apply (hf a s' hs' (hlo.trans hle) (by simp)).mono
  rintro b s'' ⟨hs'', hle', hlt⟩
  refine ⟨hs'', hle.trans hle', fun hlive hfar => ?_⟩
  -- a parser that has not moved is still before the end of the file
  by_cases hsame : s.pos = s'.pos
  · have hlive' : ¬ AtEof tokens s' := by
      unfold AtEof at hlive ⊢
      rwa [← hsame]
    exact hle.trans_lt (hlt hlive' hfar)
  · omega

/-- A parser that moves forward from where it may start, before one that does not move back. -/
theorem Moves.bind_onward (hp : Moves tokens live (fun _ => true) lo p)
    (hf : ∀ a, Onward tokens lo (f a)) :
  Moves tokens live far' lo (p >>= f)
  := by
  intro s hs hlo hlive
  apply (hp s hs hlo hlive).bind
  rintro a s' ⟨hs', hle, hlt⟩
  apply (hf a s' hs' (hlo.trans hle) (by simp)).mono
  rintro b s'' ⟨hs'', hle', _⟩
  exact ⟨hs'', hle.trans hle', fun hbefore _ => (hlt hbefore rfl).trans_le hle'⟩

theorem Forward.bind (hp : Forward tokens lo p) (hf : ∀ a, Onward tokens lo (f a)) :
  Moves tokens live far' lo (p >>= f)
  := hp.moves.bind_onward hf

/-- Before the end of the file later positions are those behind a parser that moves forward. -/
theorem Forward.bind_succ (hp : Forward tokens lo p) (hf : ∀ a, Onward tokens (lo + 1) (f a)) :
  Moves tokens true far' lo (p >>= f)
  := by
  intro s hs hlo hlive
  have hlive := hlive rfl
  apply (hp s hs hlo (by simp)).bind
  rintro a s' ⟨hs', hle, hlt⟩
  have hlt := hlt hlive rfl
  apply (hf a s' hs' (by omega) (by simp)).mono
  rintro b s'' ⟨hs'', hle', _⟩
  exact ⟨hs'', hle.trans hle', fun _ _ => hlt.trans_le hle'⟩

/-! ### The cursor -/

theorem exists_current (htokens : EndsWithEof tokens) {s : State} (hs : Sound tokens s) :
  ∃ tok, Gives current s tok s ∧ (tok.kind = .EOF ↔ AtEof tokens s)
  := by
  obtain ⟨toks, eof, rfl, heof, hno⟩ := htokens
  have htokens := hs.tokens_eq
  rcases Nat.lt_or_ge s.pos toks.length with hlt | hge
  · have htok : s.tokens[s.pos]? = some toks[s.pos] := by
      rw [htokens, List.getElem?_append_left hlt, List.getElem?_eq_getElem hlt]
    refine ⟨toks[s.pos], current_gives htok, fun hkind => ?_, fun hend => ?_⟩
    · exact absurd hkind (hno _ (List.getElem_mem hlt))
    · rw [AtEof, List.length_append, List.length_singleton] at hend
      omega
  · have hcurrent : Gives current s eof s := by
      rcases Nat.lt_or_ge toks.length s.pos with hlt | hle
      · have hbehind : ¬ s.pos < s.tokens.length := by
          rw [htokens, List.length_append, List.length_singleton]
          omega
        rw [Gives, current, if_neg hbehind, htokens, List.getLast?_concat]
        rfl
      · apply current_gives
        rw [htokens, Nat.le_antisymm hle hge, List.getElem?_concat_length]
    refine ⟨eof, hcurrent, fun _ => ?_, fun _ => heof⟩
    rw [AtEof, List.length_append, List.length_singleton]
    omega

variable (htokens : EndsWithEof tokens)

include htokens

omit htokens in
/-- The token read depends on the position. -/
theorem Gives.current_same {s s' : State} (hs : Sound tokens s) (hs' : Sound tokens s') (h : s.pos = s'.pos)
    {tok tok' : Token} (hgives : Gives current s tok s) (hgives' : Gives current s' tok' s') :
  tok = tok'
  := by
  rw [Gives, current, hs.tokens_eq, h] at hgives
  rw [Gives, current, hs'.tokens_eq] at hgives'
  obtain ⟨_, htok, hpair⟩ := Option.map_eq_some_iff.mp hgives
  obtain ⟨_, htok', hpair'⟩ := Option.map_eq_some_iff.mp hgives'
  cases hpair
  cases hpair'
  exact Option.some.inj (htok.symm.trans htok')

omit htokens in
/-- A parser that only looks does not move. -/
theorem Looks.onward (h : Looks tokens p) : Onward tokens lo p := by
  intro s hs _ _
  obtain ⟨a, hgives⟩ := h s hs
  exact ⟨a, s, hgives, hs, le_rfl, fun _ hfar => nomatch hfar⟩

omit htokens in
theorem looks_pure (a : α) : Looks tokens (pure a : Parser α) := fun s _ => ⟨a, gives_pure a s⟩

omit htokens in
theorem Looks.bind (hp : Looks tokens p) (hf : ∀ a, Looks tokens (f a)) : Looks tokens (p >>= f) := by
  intro s hs
  obtain ⟨a, hgives⟩ := hp s hs
  obtain ⟨b, hgives'⟩ := hf a s hs
  exact ⟨b, gives_bind hgives hgives'⟩

theorem looks_current : Looks tokens current := by
  intro s hs
  obtain ⟨tok, hgives, _⟩ := exists_current htokens hs
  exact ⟨tok, hgives⟩

theorem looks_peek (offset : ℕ) : Looks tokens (peek offset) := by
  intro s hs
  obtain ⟨toks, eof, rfl, _⟩ := htokens
  have hsome : ∃ tok, (if s.pos + offset < s.tokens.length then s.tokens[s.pos + offset]?
      else s.tokens.getLast?) = some tok := by
    split_ifs with hlt
    · exact ⟨_, List.getElem?_eq_getElem hlt⟩
    · rw [hs.tokens_eq, List.getLast?_concat]
      exact ⟨_, rfl⟩
  obtain ⟨tok, htok⟩ := hsome
  refine ⟨tok, ?_⟩
  rw [Gives, peek, htok]
  rfl

theorem looks_atKind (kind : Kind) : Looks tokens (atKind kind) :=
  (looks_current htokens).bind fun _ => looks_pure _

omit htokens in
theorem Looks.ends_if {b : Parser Bool} {yes no : Parser α} {s : State} {Q : α → State → Prop}
    (hb : Looks tokens b) (hs : Sound tokens s) (hyes : Ends yes s Q) (hno : Ends no s Q) :
  Ends (b >>= fun c => if c = true then yes else no) s Q
  := by
  obtain ⟨c, hgives⟩ := hb s hs
  cases c
  · obtain ⟨a, s', hgives', hQ⟩ := hno
    exact ⟨a, s', gives_else hgives hgives', hQ⟩
  · obtain ⟨a, s', hgives', hQ⟩ := hyes
    exact ⟨a, s', gives_then hgives hgives', hQ⟩

omit htokens in
theorem Looks.moves_if {b : Parser Bool} {yes no : Parser α} (hb : Looks tokens b)
    (hyes : Moves tokens live far lo yes) (hno : Moves tokens live far lo no) :
  Moves tokens live far lo (b >>= fun c => if c = true then yes else no)
  := fun s hs hlo hlive => hb.ends_if hs (hyes s hs hlo hlive) (hno s hs hlo hlive)

theorem looks_peekAt (offset : ℕ) (kind : Kind) : Looks tokens (peekAt offset kind) :=
  (looks_peek htokens offset).bind fun _ => looks_pure _

/-- A parser that looks at the token at the position. -/
theorem moves_current {f : Token → Parser α}
    (hlive : ∀ tok, tok.kind ≠ .EOF → Moves tokens true far lo (f tok))
    (heof : ∀ tok, tok.kind = .EOF → Onward tokens lo (f tok)) :
  Moves tokens live far lo (current >>= f)
  := by
  intro s hs hlo _
  obtain ⟨tok, hgives, hiff⟩ := exists_current htokens hs
  by_cases hkind : tok.kind = .EOF
  · obtain ⟨a, s', hgives', hs', hle, _⟩ := heof tok hkind s hs hlo (by simp)
    exact ⟨a, s', gives_bind hgives hgives', hs', hle, fun hlive => absurd (hiff.mp hkind) hlive⟩
  · obtain ⟨a, s', hgives', hmoves⟩ :=
      hlive tok hkind s hs hlo fun _ hend => hkind (hiff.mpr hend)
    exact ⟨a, s', gives_bind hgives hgives', hmoves⟩

theorem onward_current {f : Token → Parser α} (h : ∀ tok, Onward tokens lo (f tok)) :
  Onward tokens lo (current >>= f)
  := moves_current htokens (fun tok _ => (h tok).anywhere) fun tok _ => h tok

/-- A parser that looks at the token at the position before the end of the file. -/
theorem moves_current_live {f : Token → Parser α}
    (hlive : ∀ tok, tok.kind ≠ .EOF → Moves tokens true far lo (f tok)) :
  Moves tokens true far lo (current >>= f)
  := by
  intro s hs hlo hbefore
  obtain ⟨tok, hgives, hiff⟩ := exists_current htokens hs
  have hkind : tok.kind ≠ .EOF := fun hkind => hbefore rfl (hiff.mp hkind)
  obtain ⟨a, s', hgives', hmoves⟩ := hlive tok hkind s hs hlo hbefore
  exact ⟨a, s', gives_bind hgives hgives', hmoves⟩

variable {yes no : Parser α}

/-- A parser that looks whether the token at the position has a kind. -/
theorem moves_at {kind : Kind} (hkind : kind ≠ .EOF) (hyes : Moves tokens true far lo yes)
    (hno : Moves tokens live far lo no) :
  Moves tokens live far lo (atKind kind >>= fun b => if b = true then yes else no)
  := by
  intro s hs hlo hlive
  obtain ⟨tok, hgives, hiff⟩ := exists_current htokens hs
  have hat : Gives (atKind kind) s (tok.kind = kind) s := gives_bind hgives (gives_pure _ _)
  by_cases heq : tok.kind = kind
  · rw [decide_eq_true heq] at hat
    obtain ⟨a, s', hgives', hmoves⟩ :=
      hyes s hs hlo fun _ hend => hkind (heq.symm.trans (hiff.mpr hend))
    exact ⟨a, s', gives_then hat hgives', hmoves⟩
  · rw [decide_eq_false heq] at hat
    obtain ⟨a, s', hgives', hmoves⟩ := hno s hs hlo hlive
    exact ⟨a, s', gives_else hat hgives', hmoves⟩

/-- A parser that looks whether a token is left. -/
theorem moves_atEnd (hyes : Onward tokens lo yes) (hno : Moves tokens true far lo no) :
  Moves tokens live far lo (atEnd >>= fun b => if b = true then yes else no)
  := by
  intro s hs hlo _
  obtain ⟨tok, hgives, hiff⟩ := exists_current htokens hs
  have hat : Gives atEnd s (tok.kind = .EOF) s := gives_bind hgives (gives_pure _ _)
  by_cases heq : tok.kind = .EOF
  · rw [decide_eq_true heq] at hat
    obtain ⟨a, s', hgives', hs', hle, _⟩ := hyes s hs hlo (by simp)
    exact ⟨a, s', gives_then hat hgives', hs', hle, fun hlive => absurd (hiff.mp heq) hlive⟩
  · rw [decide_eq_false heq] at hat
    obtain ⟨a, s', hgives', hmoves⟩ := hno s hs hlo fun _ hend => heq (hiff.mpr hend)
    exact ⟨a, s', gives_else hat hgives', hmoves⟩

theorem forward_advance : Forward tokens lo advance := by
  intro s hs hlo _
  obtain ⟨tok, hgives, _⟩ := exists_current htokens hs
  have hpos := hs.pos_le
  by_cases hlt : s.pos < s.tokens.length
  · refine ⟨tok, { s with pos := s.pos + 1 }, gives_bind hgives ?_, ⟨hs.tokens_eq, ?_⟩, ?_, ?_⟩
    · show some _ = some _
      dsimp only
      rw [if_pos hlt]
    · rw [hs.tokens_eq] at hlt
      exact hlt
    · exact Nat.le_succ _
    · exact fun _ _ => Nat.lt_succ_self _
  · refine ⟨tok, s, gives_bind hgives ?_, hs, le_rfl, fun hlive _ => ?_⟩
    · show some _ = some _
      dsimp only
      rw [if_neg hlt]
    · rw [hs.tokens_eq] at hlt
      exact absurd (by unfold AtEof; omega) hlive

omit htokens in
theorem ends_addError (tok : Token) (message : String) {s : State} (hs : Sound tokens s) :
  Ends (addError tok message) s fun _ s' => Sound tokens s' ∧ s'.pos = s.pos
  := ⟨(), _, rfl, ⟨hs.tokens_eq, hs.pos_le⟩, rfl⟩

omit htokens in
theorem onward_addError (tok : Token) (message : String) : Onward tokens lo (addError tok message) := by
  intro s hs _ _
  apply (ends_addError tok message hs).mono
  rintro _ s' ⟨hs', hpos⟩
  exact ⟨hs', hpos.ge, fun _ hfar => nomatch hfar⟩

theorem forward_expect (kind : Kind) (message : String) : Forward tokens lo (expect kind message) := by
  have hadvance := @forward_advance tokens lo htokens
  apply moves_current htokens
  · intro tok hlive
    by_cases hkind : tok.kind = kind
    · rw [if_pos hkind]
      exact hadvance.anywhere
    · rw [if_neg hkind, if_pos hlive]
      apply Moves.bind (onward_addError tok message)
      exact fun _ => hadvance.bind fun _ => onward_pure tok
  · intro tok heof
    by_cases hkind : tok.kind = kind
    · rw [if_pos hkind]
      exact hadvance.onward
    · rw [if_neg hkind, if_neg (not_not.mpr heof)]
      apply Moves.bind (onward_addError tok message)
      exact fun _ => onward_pure tok

theorem moves_match {kind : Kind} (hkind : kind ≠ .EOF) (hyes : Onward tokens lo yes)
    (hno : Moves tokens live far lo no) :
  Moves tokens live far lo (matchKind kind >>= fun b => if b = true then yes else no)
  := by
  intro s hs hlo hlive
  obtain ⟨tok, hgives, hiff⟩ := exists_current htokens hs
  have hat : Gives (atKind kind) s (tok.kind = kind) s := gives_bind hgives (gives_pure _ _)
  by_cases heq : tok.kind = kind
  · rw [decide_eq_true heq] at hat
    have hbefore : ¬ AtEof tokens s := fun hend => hkind (heq.symm.trans (hiff.mpr hend))
    obtain ⟨tok', s', hadvance, hs', hle, hlt⟩ := forward_advance htokens s hs hlo (by simp)
    obtain ⟨a, s'', hgives', hs'', hle', _⟩ := hyes s' hs' (hlo.trans hle) (by simp)
    have hmatch : Gives (matchKind kind) s true s' :=
      gives_then hat (gives_bind hadvance (gives_pure _ _))
    exact ⟨a, s'', gives_then hmatch hgives', hs'', hle.trans hle',
      fun _ _ => (hlt hbefore rfl).trans_le hle'⟩
  · rw [decide_eq_false heq] at hat
    obtain ⟨a, s', hgives', hmoves⟩ := hno s hs hlo hlive
    have hmatch : Gives (matchKind kind) s false s := gives_else hat (gives_pure _ _)
    exact ⟨a, s', gives_else hmatch hgives', hmoves⟩

theorem onward_matchKind {kind : Kind} (hkind : kind ≠ .EOF) : Onward tokens lo (matchKind kind) := by
  apply moves_at htokens hkind
  · exact (forward_advance htokens).bind fun _ => onward_pure true
  · exact onward_pure false

/-! ### Loops -/

omit htokens

/-- A loop whose passes move forward ends with a pass that breaks. -/
theorem ends_loop {body : α → Parser (α ⊕ β)} (h : ∀ a, Passes tokens lo (body a)) {R : State → Prop}
    (hbreaks : ∀ a s b s', Sound tokens s → Gives (body a) s (.inr b) s' → R s') (a : α) {s : State}
    (hs : Sound tokens s) (hlo : lo ≤ s.pos) :
  Ends (loop body a) s fun _ s' => Sound tokens s' ∧ s.pos ≤ s'.pos ∧ R s'
  := by
  have hiterate (n : ℕ) : ∀ a s, Sound tokens s → lo ≤ s.pos → tokens.length < s.pos + n →
      Ends (iterate body n a) s fun _ s' => Sound tokens s' ∧ s.pos ≤ s'.pos ∧ R s' := by
    induction n with
    | zero =>
      intro a s hs _ hn
      have := hs.pos_le
      omega
    | succ n ih =>
      intro a s hs hlo hn
      obtain ⟨r, s', hgives, hs', hle, hlt⟩ := h a s hs hlo
      cases r with
      | inl a' =>
        have hlt := hlt rfl
        obtain ⟨b, s'', hgives', hs'', hle', hR⟩ := ih a' s' hs' (by omega) (by omega)
        exact ⟨b, s'', gives_bind hgives hgives', hs'', hle.trans hle', hR⟩
      | inr b =>
        have hR := hbreaks a s b s' hs hgives
        exact ⟨b, s', gives_bind hgives (gives_pure b s'), hs', hle, hR⟩
  exact hiterate (s.tokens.length + 1) a s hs hlo (by rw [hs.tokens_eq]; omega)

/-- A loop whose passes move forward ends. -/
theorem onward_loop {body : α → Parser (α ⊕ β)} (h : ∀ a, Passes tokens lo (body a)) (a : α) :
  Onward tokens lo (loop body a)
  := by
  intro s hs hlo _
  apply (ends_loop h (fun _ _ _ _ _ _ => trivial) a hs hlo).mono
  rintro b s' ⟨hs', hle, _⟩
  exact ⟨hs', hle, fun _ hfar => nomatch hfar⟩

include htokens

/-- A pass that breaks where no token is left. -/
theorem passes_atEnd {b : β} {no : Parser (α ⊕ β)} (hno : Moves tokens true Sum.isLeft lo no) :
  Passes tokens lo (atEnd >>= fun c => if c = true then pure (.inr b) else no)
  := by
  intro s hs hlo
  obtain ⟨tok, hgives, hiff⟩ := exists_current htokens hs
  have hat : Gives atEnd s (tok.kind = .EOF) s := gives_bind hgives (gives_pure _ _)
  by_cases heq : tok.kind = .EOF
  · rw [decide_eq_true heq] at hat
    exact ⟨.inr b, s, gives_then hat (gives_pure _ s), hs, le_rfl, fun h => nomatch h⟩
  · rw [decide_eq_false heq] at hat
    have hlive : ¬ AtEof tokens s := fun hend => heq (hiff.mpr hend)
    obtain ⟨r, s', hgives', hs', hle, hlt⟩ := hno s hs hlo fun _ => hlive
    exact ⟨r, s', gives_else hat hgives', hs', hle, hlt hlive⟩

/-- A pass that breaks at another token. -/
theorem passes_at {kind : Kind} (hkind : kind ≠ .EOF) {b : β} {yes : Parser (α ⊕ β)}
    (hyes : Moves tokens true Sum.isLeft lo yes) :
  Passes tokens lo (atKind kind >>= fun c => if c = true then yes else pure (.inr b))
  := by
  intro s hs hlo
  obtain ⟨tok, hgives, hiff⟩ := exists_current htokens hs
  have hat : Gives (atKind kind) s (tok.kind = kind) s := gives_bind hgives (gives_pure _ _)
  by_cases heq : tok.kind = kind
  · rw [decide_eq_true heq] at hat
    have hlive : ¬ AtEof tokens s := fun hend => hkind (heq.symm.trans (hiff.mpr hend))
    obtain ⟨r, s', hgives', hs', hle, hlt⟩ := hyes s hs hlo fun _ => hlive
    exact ⟨r, s', gives_then hat hgives', hs', hle, hlt hlive⟩
  · rw [decide_eq_false heq] at hat
    exact ⟨.inr b, s, gives_else hat (gives_pure _ s), hs, le_rfl, fun h => nomatch h⟩

/-- One pass through the loop over the ends of lines. -/
def newlinePass (_ : Unit) : Parser (Unit ⊕ Unit) := do
  if ← atKind .NEWLINE then
    let _ ← advance
    pure (.inl ())
  else pure (.inr ())

theorem passes_newlinePass (a : Unit) : Passes tokens lo (newlinePass a) := by
  apply passes_at htokens (by decide)
  exact (forward_advance htokens).bind fun _ => onward_pure _

theorem breaks_newlinePass {a b : Unit} {s s' : State} (hs : Sound tokens s)
    (hgives : Gives (newlinePass a) s (.inr b) s') :
  ∃ tok, Gives current s' tok s' ∧ tok.kind ≠ .NEWLINE
  := by
  obtain ⟨tok, hcurrent, _⟩ := exists_current htokens hs
  have hat : Gives (atKind .NEWLINE) s (tok.kind = .NEWLINE) s :=
    gives_bind hcurrent (gives_pure _ _)
  by_cases hkind : tok.kind = .NEWLINE
  · rw [decide_eq_true hkind] at hat
    obtain ⟨_, s'', hadvance, _⟩ := forward_advance htokens s hs (Nat.zero_le _) (by simp)
    have hpass : Gives (newlinePass a) s (.inl ()) s'' :=
      gives_then hat (gives_bind hadvance (gives_pure _ _))
    exact nomatch (hgives.unique hpass).1
  · rw [decide_eq_false hkind] at hat
    have hpass : Gives (newlinePass a) s (.inr ()) s := gives_else hat (gives_pure _ _)
    rw [(hgives.unique hpass).2]
    exact ⟨tok, hcurrent, hkind⟩

theorem onward_skipNewlines : Onward tokens lo skipNewlines := onward_loop (passes_newlinePass htokens) ()

end

/-- Functions that call themselves behind a token they have passed end with fuel for the tokens.
The induction is on the fuel, which later positions need less of. -/
theorem forward_fix {ι : Type} {tokens : List Token} {fix : ℕ → ι → Parser α}
    (hstep : ∀ n lo, (∀ i, Forward tokens (lo + 1) (fix n i)) → ∀ i, Forward tokens lo (fix (n + 1) i))
    (n lo : ℕ) (hn : tokens.length + 1 ≤ lo + n) (i : ι) :
  Forward tokens lo (fix n i)
  := by
  induction n generalizing lo i with
  | zero =>
    intro s hs hlo _
    have := hs.pos_le
    omega
  | succ n ih => exact hstep n lo (ih (lo + 1) (by omega)) i

/-! ### Expressions -/

section

variable {tokens : List Token} {lo : ℕ} {self : Entry → Parser Expr} (htokens : EndsWithEof tokens)

include htokens

/-- One pass through the loop over the items of a list or a record. -/
def itemPass (item : Parser Expr) (closeKind : Kind) (items : List Expr) :
    Parser (List Expr ⊕ List Expr × Bool) := do
  if ← atEnd then pure (.inr (items, false))
  else if ← atKind closeKind then pure (.inr (items, false))
  else
    skipNewlines
    if ← atKind closeKind then pure (.inr (items, true))
    else
      let item ← item
      skipNewlines
      if ← matchKind .COMMA then
        skipNewlines
        pure (.inl (items ++ [item]))
      else pure (.inl (items ++ [item]))

theorem passes_itemPass {item : Parser Expr} (hitem : Forward tokens lo item) (closeKind : Kind)
    (items : List Expr) :
  Passes tokens lo (itemPass item closeKind items)
  := by
  have hskip := @onward_skipNewlines tokens lo htokens
  apply passes_atEnd htokens
  apply (looks_atKind htokens _).moves_if
  · exact moves_pure rfl
  apply Moves.bind hskip
  intro _
  apply (looks_atKind htokens _).moves_if
  · exact moves_pure rfl
  apply hitem.bind
  intro item
  apply Moves.bind hskip
  intro _
  apply moves_match htokens (by decide)
  · exact Moves.bind hskip fun _ => onward_pure _
  · exact onward_pure _

section

variable (hself : ∀ entry, Forward tokens lo (self entry))

include hself

theorem onward_parseExpressionList (closeKind : Kind) :
  Onward tokens lo (parseExpressionList self closeKind)
  := by
  apply Moves.bind (onward_skipNewlines htokens)
  intro _
  apply Moves.bind
  · exact onward_loop (passes_itemPass htokens (hself _) _) []
  · rintro ⟨items, closed⟩
    dsimp only
    split_ifs
    · exact onward_pure items
    · exact (forward_expect htokens _ _).bind fun _ => onward_pure items

theorem forward_parseRecordKey : Forward tokens lo (parseRecordKey self) := by
  have hname : Forward tokens lo (do let name ← advance; pure name.lexeme) :=
    (forward_advance htokens).bind fun name => onward_pure _
  have hcomputed : Forward tokens lo (do let computed ← parseExpression self; pure computed.text) :=
    (hself _).bind fun _ => onward_pure _
  apply moves_current htokens
  · intro tok _
    split_ifs
    · exact hname.anywhere
    · exact hcomputed.anywhere
  · intro tok _
    split_ifs
    · exact hname.onward
    · exact hcomputed.onward

theorem forward_parseRecordField : Forward tokens lo (parseRecordField self) := by
  have hrest (start : Token) : Forward tokens lo (do
      let key ← parseRecordKey self
      if ← matchKind .EQUAL then
        let value ← parseExpression self
        pure ({ kind := .field, text := key, children := [value], span := start.span } : Expr)
      else pure { kind := .field, text := key, span := start.span }) := by
    apply (forward_parseRecordKey htokens hself).bind
    intro key
    apply moves_match htokens (by decide)
    · exact (hself _).bind fun _ => onward_pure _
    · exact onward_pure _
  exact moves_current htokens (fun tok _ => (hrest tok).anywhere) fun tok _ => (hrest tok).onward

end

section

variable (hself : ∀ entry, Forward tokens (lo + 1) (self entry))

include hself

theorem moves_parseArrayLiteral {far : Expr → Bool} :
  Moves tokens true far lo (parseArrayLiteral self)
  := by
  apply (forward_expect htokens _ _).bind_succ
  intro start
  apply Moves.bind (onward_parseExpressionList htokens hself _)
  exact fun _ => onward_pure _

theorem moves_parseRecordLiteral {far : Expr → Bool} :
  Moves tokens true far lo (parseRecordLiteral self)
  := by
  apply (forward_expect htokens _ _).bind_succ
  intro start
  apply Moves.bind (onward_skipNewlines htokens)
  intro _
  apply Moves.bind
  · exact onward_loop (passes_itemPass htokens (forward_parseRecordField htokens hself) _) []
  · rintro ⟨items, closed⟩
    dsimp only
    split_ifs
    · exact onward_pure _
    · exact (forward_expect htokens _ _).bind fun _ => onward_pure _

/-- The arguments of a call. -/
theorem moves_parseCallArgs {far : List Expr → Bool} : Moves tokens true far lo (parseCallArgs self) := by
  apply (forward_expect htokens _ _).bind_succ
  exact fun _ => onward_parseExpressionList htokens hself _

theorem moves_parseCall {far : Expr → Bool} (out : Expr) :
  Moves tokens true far lo (parseCall self out)
  := by
  apply moves_current_live htokens
  intro start _
  exact (moves_parseCallArgs htokens hself).bind_onward fun _ => onward_pure _

theorem moves_parseDot {far : Expr → Bool} (out : Expr) : Moves tokens true far lo (parseDot self out) := by
  apply (forward_advance htokens).bind_succ
  intro dot
  apply moves_match htokens (by decide)
  · apply Moves.bind (hself _).onward
    intro index
    exact (forward_expect htokens _ _).bind fun _ => onward_pure _
  · exact (forward_advance htokens).bind fun _ => onward_pure _

/-- One pass through the loop over the calls and dots behind an expression. -/
def postfixPass (self : Entry → Parser Expr) (out : Expr) : Parser (Expr ⊕ Expr) := do
  if ← atEnd then pure (.inr out)
  else if ← atKind .LPAREN then
    let call ← parseCall self out
    pure (.inl call)
  else if ← atKind .DOT then
    let dot ← parseDot self out
    pure (.inl dot)
  else pure (.inr out)

theorem passes_postfixPass (out : Expr) : Passes tokens lo (postfixPass self out) := by
  apply passes_atEnd htokens
  apply moves_at htokens (by decide)
  · exact (moves_parseCall htokens hself out).bind_onward fun _ => onward_pure _
  apply moves_at htokens (by decide)
  · exact (moves_parseDot htokens hself out).bind_onward fun _ => onward_pure _
  · exact moves_pure rfl

theorem onward_parsePostfix (base : Expr) : Onward tokens lo (parsePostfix self base) :=
  onward_loop (passes_postfixPass htokens hself) base

theorem moves_parseImplicitDot {far : Expr → Bool} :
  Moves tokens true far lo (parseImplicitDot self)
  := by
  apply (forward_expect htokens _ _).bind_succ
  intro start
  apply moves_match htokens (by decide)
  · apply Moves.bind (hself _).onward
    intro index
    exact (forward_expect htokens _ _).bind fun _ => onward_pure _
  · exact (forward_advance htokens).bind fun _ => onward_pure _

theorem moves_parseGroup {far : Expr → Bool} (tok : Token) :
  Moves tokens true far lo (parseGroup self tok)
  := by
  apply (forward_advance htokens).bind_succ
  intro _
  apply Moves.bind (hself _).onward
  intro inner
  exact (forward_expect htokens _ _).bind fun _ => onward_pure _

omit hself in
theorem forward_parseToken (kind : ExprKind) (text : String) (tok : Token) :
  Forward tokens lo (parseToken kind text tok)
  := (forward_advance htokens).bind fun _ => onward_pure _

omit hself in
theorem forward_parseMissing (tok : Token) : Forward tokens lo (parseMissing tok) := by
  apply Moves.bind (onward_addError tok _)
  intro _
  apply moves_atEnd htokens
  · exact onward_pure _
  · exact (forward_advance htokens).bind fun _ => onward_pure _

theorem forward_parsePrimary : Forward tokens lo (parsePrimary self) := by
  have htoken (kind : ExprKind) (text : String) (tok : Token) :
      Moves tokens true (fun _ => true) lo (parseToken kind text tok) :=
    (forward_parseToken htokens kind text tok).anywhere
  apply moves_current htokens
  · intro tok _
    split
    case h_14 => exact moves_parseImplicitDot htokens hself
    case h_15 => exact moves_parseArrayLiteral htokens hself
    case h_16 => exact moves_parseRecordLiteral htokens hself
    case h_17 => exact moves_parseGroup htokens hself tok
    case h_18 => exact (forward_parseMissing htokens tok).anywhere
    all_goals exact htoken _ _ _
  · intro tok hkind
    rw [hkind]
    exact (forward_parseMissing htokens tok).onward

/-- An operand. -/
theorem forward_parseUnary : Forward tokens lo (parseUnary self) := by
  have hprimary : Forward tokens lo (do let primary ← parsePrimary self; parsePostfix self primary) :=
    (forward_parsePrimary htokens hself).bind fun primary => onward_parsePostfix htokens hself primary
  apply moves_current htokens
  · intro tok _
    split_ifs
    · apply (forward_advance htokens).bind_succ
      intro _
      exact (hself _).bind fun _ => onward_pure _
    · exact hprimary.anywhere
  · intro tok hkind
    have hop : isPrefixOp tok.kind = false := by
      rw [hkind]
      rfl
    rw [if_neg (by simp [hop])]
    exact hprimary.onward

theorem passes_parseOperator (minPrecedence : ℕ) (left : Expr) :
  Passes tokens lo (parseOperator self minPrecedence left)
  := by
  apply passes_atEnd htokens
  apply moves_current_live htokens
  intro op _
  dsimp only
  split_ifs
  · exact moves_pure rfl
  · apply (forward_advance htokens).bind_succ
    intro _
    exact (hself _).bind fun _ => onward_pure _

theorem forward_parseBody (entry : Entry) : Forward tokens lo (parseBody self entry) := by
  cases entry with
  | expression minPrecedence =>
    apply (forward_parseUnary htokens hself).bind
    intro left
    exact onward_loop (passes_parseOperator htokens hself minPrecedence) left
  | unary => exact forward_parseUnary htokens hself

end

end

/-- The parser of expressions ends with the fuel it has. -/
theorem forward_parse {tokens : List Token} (htokens : EndsWithEof tokens) (lo : ℕ) (entry : Entry) :
  Forward tokens lo (parse entry)
  := by
  intro s hs hlo hlive
  have hfix := @forward_fix _ _ tokens fixFuel
    (fun n lo hself => forward_parseBody htokens hself) (s.tokens.length + 1) lo
    (by rw [hs.tokens_eq]; omega) entry
  exact hfix s hs hlo hlive

end Caster.SelfHosting
