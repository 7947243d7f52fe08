import Caster.Library.ParserProgress
import Caster.Parse.Types

/-!
# Types are parsed within bounds

Every function reads tokens up to the token that ends the program and no further, whatever
the tokens are, and those that parse something move forward.
-/

namespace Caster.Parse

open TokenParser

/-- The tokens of a program: the last one, and no other, ends it. -/
structure Ended (tokens : List Token) (last : ℕ) : Prop where
  length_eq : tokens.length = last + 1
  eof_iff : ∀ i t, tokens[i]? = some t → (t.kind = .EOF ↔ i = last)

variable {tokens : List Token} {last lo : ℕ}

/-- What follows a look at the token at the position: a parser that moves, or one that passes
this token, which is not the last one. -/
def AtToken {α : Type} (tokens : List Token) (last : ℕ) (far : α → Bool) (lo : ℕ) (tok : Token)
    (p : P α) : Prop :=
  Moves tokens last far lo p ∨
  tok.kind ≠ .EOF ∧ ∃ q, p = advance >>= q ∧ Onward tokens last (lo + 1) (q ())

/-- A look at tokens ahead that finds later tokens are there. -/
def Looks (tokens : List Token) (last offset found : ℕ) (p : P Bool) : Prop :=
  ∀ c, c.pos + offset ≤ last →
    Safe tokens p c fun b c' => c' = c ∧ (b = true → c.pos + found ≤ last)

/-- A scan from a position that finds no position before it. -/
def Scans (tokens : List Token) (last pos : ℕ) (p : P (Option ℕ)) : Prop :=
  ∀ c, Safe tokens p c fun found c' => c' = c ∧ ∀ n, found = some n → pos ≤ n ∧ n ≤ last

section

variable {α : Type} {far : α → Bool} (hend : Ended tokens last)

include hend

theorem Ended.lt_length : last < tokens.length := by
  rw [hend.length_eq]
  exact Nat.lt_succ_self last

/-! ### Single tokens -/

theorem peek_safe {c : Cursor} {offset : ℕ} (hpos : c.pos + offset ≤ last) :
  Safe tokens (peek offset : P Token) c fun t c' => c' = c ∧ (t.kind = .EOF ↔ c.pos + offset = last)
  := by
  have hlt := hend.lt_length
  apply safe_peek (by omega)
  intro t ht
  exact ⟨rfl, hend.eof_iff _ t ht⟩

omit hend in
theorem AtToken.safe {tok : Token} {p : P α} {c : Cursor} (hp : AtToken tokens last far lo tok p)
    (heof : tok.kind = .EOF ↔ c.pos = last) (hlo : lo ≤ c.pos) (hpos : c.pos ≤ last) :
  Safe tokens p c fun a c' => c.pos ≤ c'.pos ∧ c'.pos ≤ last ∧ (far a = true → c.pos < c'.pos)
  := by
  rcases hp with hmoves | ⟨htok, q, hq, hmoves⟩
  · exact hmoves c hlo hpos
  · have hlt : c.pos < last := lt_of_le_of_ne hpos fun h => htok (heof.mpr h)
    rw [hq]
    apply safe_then safe_advance
    intro _ c' hc'
    apply safe_mono (hmoves c' (by omega) (by omega))
    rintro a c'' ⟨hle, hlast, _⟩
    exact ⟨by omega, hlast, fun _ => by omega⟩

/-- The token at the position is read, and passed only if it is not the last one. -/
theorem cur_bind {f : Token → P α} (hf : ∀ tok, AtToken tokens last far lo tok (f tok)) :
  Moves tokens last far lo (cur >>= f)
  := by
  intro c hlo hpos
  apply safe_then (peek_safe hend (c := c) hpos)
  rintro tok c ⟨rfl, heof⟩
  exact (hf tok).safe heof hlo hpos

theorem cur_onward : Onward tokens last lo cur := by
  apply onward_of_stays
  intro c hpos
  apply safe_mono (peek_safe hend (c := c) hpos)
  rintro tok _ ⟨rfl, _⟩
  rfl

theorem peekIs_looks (offset : ℕ) {k : TokenKind} (hk : k ≠ .EOF) :
  Looks tokens last offset (offset + 1) (peekIs offset k)
  := by
  intro c hpos
  apply safe_then (peek_safe hend hpos)
  rintro tok c ⟨rfl, heof⟩
  refine safe_pure ⟨rfl, ?_⟩
  intro hb
  have hkind : tok.kind = k := of_decide_eq_true hb
  have hne : c.pos + offset ≠ last := fun h => hk (hkind.symm.trans (heof.mpr h))
  omega

theorem curIs_looks {k : TokenKind} (hk : k ≠ .EOF) : Looks tokens last 0 1 (curIs k) :=
  peekIs_looks hend 0 hk

omit hend in
theorem Looks.both {offset found found' : ℕ} {p q : P Bool} (hp : Looks tokens last offset found p)
    (hq : Looks tokens last found found' q) :
  Looks tokens last offset found' (both p q)
  := by
  intro c hpos
  apply safe_both (hp c hpos)
  · rintro c ⟨rfl, hfound⟩
    exact hq c (hfound rfl)
  · rintro c ⟨rfl, _⟩
    exact ⟨rfl, fun h => nomatch h⟩

omit hend in
theorem Looks.either {offset found : ℕ} {p q : P Bool} (hp : Looks tokens last offset found p)
    (hq : Looks tokens last offset found q) :
  Looks tokens last offset found (either p q)
  := by
  intro c hpos
  apply safe_either (hp c hpos)
  · rintro c h
    exact h
  · rintro c ⟨rfl, _⟩
    exact hq c hpos

omit hend in
theorem Looks.onward {found : ℕ} {p : P Bool} (hp : Looks tokens last 0 found p) :
  Onward tokens last lo p
  := by
  apply onward_of_stays
  intro c hpos
  apply safe_mono (hp c hpos)
  rintro b c ⟨rfl, _⟩
  rfl

theorem curIs_onward {k : TokenKind} : Onward tokens last lo (curIs k) := by
  apply Onward.bind (cur_onward hend)
  intro tok
  exact onward_pure _

theorem matchToken_takes {k : TokenKind} (hk : k ≠ .EOF) : Takes tokens last lo (matchToken k) := by
  intro c hlo hpos
  apply safe_ite (curIs_looks hend hk c hpos)
  · rintro c ⟨rfl, hlt⟩
    have hlt := hlt rfl
    apply safe_then safe_advance
    intro _ c' hc'
    exact safe_pure ⟨by omega, by omega, fun _ => by omega⟩
  · rintro c ⟨rfl, _⟩
    exact safe_pure ⟨le_rfl, hpos, fun h => nomatch h⟩

theorem expect_forward {k : TokenKind} (hk : k ≠ .EOF) (message : String) :
  Forward tokens last lo (expect k message)
  := by
  apply cur_bind hend
  intro tok
  by_cases htok : tok.kind = k
  · right
    refine ⟨fun h => hk (htok.symm.trans h), _, if_pos htok, onward_pure _⟩
  · left
    rw [if_neg htok]
    exact moves_fail _

theorem scanNewlines_safe {c : Cursor} {pos : ℕ} (hpos : pos ≤ last) :
  Safe tokens (scanNewlines pos) c fun n c' => c' = c ∧ pos ≤ n ∧ n ≤ last
  := by
  obtain ⟨t, ht⟩ : ∃ t, tokens[last]? = some t :=
    ⟨_, List.getElem?_eq_getElem hend.lt_length⟩
  have hkind : t.kind = .EOF := (hend.eof_iff last t ht).mpr rfl
  apply safe_scan ht (by simp [isNewline, hkind]) hpos
  intro n hle hn
  exact ⟨rfl, hle, hn⟩

theorem skipNewlines_onward : Onward tokens last lo skipNewlines := by
  intro c _ hpos
  apply safe_then safe_position
  rintro _ c ⟨rfl, rfl⟩
  apply safe_then (scanNewlines_safe hend hpos)
  rintro n c ⟨rfl, hle, hn⟩
  apply safe_mono (safe_seek n)
  rintro _ c' rfl
  exact ⟨hle, hn, fun h => nomatch h⟩

/-! ### Types -/

theorem parseNamedType_onward (tok : Token) : Onward tokens last lo (parseNamedType tok) := by
  apply Takes.ite (matchToken_takes hend (by decide))
  · apply Forward.bind (expect_forward hend (by decide) _)
    intro member
    split_ifs <;> exact onward_pure _
  · exact onward_pure _

theorem matchBasicType_takes : Takes tokens last lo matchBasicType := by
  apply Takes.either (matchToken_takes hend (by decide))
  apply Takes.either (matchToken_takes hend (by decide))
  apply Takes.either (matchToken_takes hend (by decide))
  apply Takes.either (matchToken_takes hend (by decide))
  exact matchToken_takes hend (by decide)

section

variable {self : P ParsedType} (hself : Forward tokens last lo self)

include hself

/-- A type in brackets. -/
theorem bracketedType_onward (openMessage closeMessage : String) (f : ParsedType → ParsedType) :
  Onward tokens last lo (do
    let _ ← expect .LBRACKET openMessage
    let t ← self
    let _ ← expect .RBRACKET closeMessage
    pure (f t))
  := by
  apply Forward.bind (expect_forward hend (by decide) _)
  intro _
  apply Forward.bind hself
  intro t
  apply Forward.bind (expect_forward hend (by decide) _)
  intro _
  exact onward_pure _

/-- Two types in brackets. -/
theorem typePair_onward {separator : TokenKind} (hk : separator ≠ .EOF)
    (openMessage separatorMessage closeMessage : String) (f : ParsedType → ParsedType → ParsedType) :
  Onward tokens last lo (do
    let _ ← expect .LBRACKET openMessage
    let t ← self
    let _ ← expect separator separatorMessage
    let u ← self
    let _ ← expect .RBRACKET closeMessage
    pure (f t u))
  := by
  apply Forward.bind (expect_forward hend (by decide) _)
  intro _
  apply Forward.bind hself
  intro t
  apply Forward.bind (expect_forward hend hk _)
  intro _
  apply Forward.bind hself
  intro u
  apply Forward.bind (expect_forward hend (by decide) _)
  intro _
  exact onward_pure _

end

theorem parseTypeBody_forward {self : P ParsedType} (hself : Forward tokens last (lo + 1) self) :
  Forward tokens last lo (parseTypeBody self)
  := by
  apply Onward.bind (cur_onward hend)
  intro tok
  apply Takes.ite (matchToken_takes hend (by decide))
  · exact bracketedType_onward hend hself _ _ fun elem => ⟨"ARR[" ++ elem.type ++ "]", tok⟩
  apply Takes.ite (matchToken_takes hend (by decide))
  · exact typePair_onward hend hself (by decide) _ _ _ fun key value =>
      ⟨"MAP[" ++ key.type ++ "," ++ value.type ++ "]", tok⟩
  apply Takes.ite (matchToken_takes hend (by decide))
  · exact bracketedType_onward hend hself _ _ fun target => ⟨"REF[" ++ target.type ++ "]", tok⟩
  apply Takes.ite (matchToken_takes hend (by decide))
  · exact bracketedType_onward hend hself _ _ fun target => ⟨"TSK[" ++ target.type ++ "]", tok⟩
  apply Takes.ite (matchToken_takes hend (by decide))
  · exact typePair_onward hend hself (by decide) _ _ _ fun input output =>
      ⟨"FN[" ++ input.type ++ "->" ++ output.type ++ "]", tok⟩
  apply Takes.ite (matchBasicType_takes hend)
  · exact onward_pure _
  apply Takes.ite (matchToken_takes hend (by decide))
  · exact parseNamedType_onward hend tok
  · exact moves_fail _

theorem parseType_forward : Forward tokens last lo parseType := by
  apply forward_fix (fun _ => 0) (fun _ => Nat.one_pos) hend.lt_length
  intro self _ lo hself _
  exact parseTypeBody_forward hend (hself ())

theorem startsType_stays {c : Cursor} (hpos : c.pos ≤ last) :
  Safe tokens startsType c fun _ c' => c' = c
  := by
  apply safe_then (peek_safe hend (c := c) hpos)
  rintro tok c ⟨rfl, heof⟩
  dsimp only
  split_ifs with hbasic hname
  · exact safe_pure rfl
  · have hlt : c.pos + 1 ≤ last :=
      lt_of_le_of_ne hpos fun h => TokenKind.noConfusion (hname.symm.trans (heof.mpr h))
    have hmember : Looks tokens last 1 4 (both (peekIs 1 .DOT) (both (peekIs 2 .NAME) (peekIs 3 .NAME))) :=
      (peekIs_looks hend 1 (by decide)).both
        ((peekIs_looks hend 2 (by decide)).both (peekIs_looks hend 3 (by decide)))
    apply safe_either (peekIs_looks hend 1 (by decide) c hlt)
    · rintro c ⟨rfl, _⟩
      rfl
    · rintro c ⟨rfl, _⟩
      apply safe_mono (hmember c hlt)
      rintro b c ⟨rfl, _⟩
      rfl
  · exact safe_pure rfl

/-! ### Scans -/

theorem tokenAt_safe {c : Cursor} {pos : ℕ} (hpos : pos ≤ last) :
  Safe tokens (tokenAt pos : P Token) c fun t c' => c' = c ∧ (t.kind = .EOF ↔ pos = last)
  := by
  have hlt := hend.lt_length
  apply safe_tokenAt (by omega)
  intro t ht
  exact ⟨rfl, hend.eof_iff _ t ht⟩

theorem tokenAtIs_safe {c : Cursor} {pos : ℕ} {k : TokenKind} (hk : k ≠ .EOF) (hpos : pos ≤ last) :
  Safe tokens (tokenAtIs pos k) c fun b c' => c' = c ∧ (b = true → pos + 1 ≤ last)
  := by
  apply safe_then (tokenAt_safe hend hpos)
  rintro tok c ⟨rfl, heof⟩
  refine safe_pure ⟨rfl, ?_⟩
  intro hb
  have hkind : tok.kind = k := of_decide_eq_true hb
  have hne : pos ≠ last := fun h => hk (hkind.symm.trans (heof.mpr h))
  omega

omit hend in
theorem scans_some {pos n : ℕ} (hle : pos ≤ n) (hn : n ≤ last) :
  Scans tokens last pos (pure (some n))
  := by
  intro c
  refine safe_pure ⟨rfl, ?_⟩
  rintro _ ⟨rfl⟩
  exact ⟨hle, hn⟩

omit hend in
theorem scans_none {pos : ℕ} : Scans tokens last pos (pure none) :=
  fun _ => safe_pure ⟨rfl, fun _ h => nomatch h⟩

omit hend in
theorem Scans.mono {pos pos' : ℕ} {p : P (Option ℕ)} (hp : Scans tokens last pos' p)
    (hle : pos ≤ pos') :
  Scans tokens last pos p
  := by
  intro c
  apply safe_mono (hp c)
  rintro found c ⟨rfl, hfound⟩
  refine ⟨rfl, ?_⟩
  intro n hn
  obtain ⟨hle', hlast⟩ := hfound n hn
  exact ⟨hle.trans hle', hlast⟩

omit hend in
theorem Scans.then {pos : ℕ} {first : P (Option ℕ)} {next : ℕ → P (Option ℕ)}
    (hfirst : Scans tokens last pos first)
    (hnext : ∀ n, pos ≤ n → n ≤ last → Scans tokens last n (next n)) :
  Scans tokens last pos (thenScan first next)
  := by
  intro c
  apply safe_then (hfirst c)
  rintro (_ | n) c ⟨rfl, hfound⟩
  · exact scans_none c
  · obtain ⟨hle, hlast⟩ := hfound n rfl
    exact (hnext n hle hlast).mono hle c

theorem scanSeparator_scans {k : TokenKind} {pos : ℕ} (hk : k ≠ .EOF) (hpos : pos ≤ last) :
  Scans tokens last pos (scanSeparator k pos)
  := by
  intro c
  apply safe_then (scanNewlines_safe hend hpos)
  rintro n c ⟨rfl, hle, hn⟩
  apply safe_ite (tokenAtIs_safe hend hk hn)
  · rintro c ⟨rfl, hlt⟩
    apply safe_then (scanNewlines_safe hend (hlt rfl))
    rintro m c ⟨rfl, hle', hm⟩
    exact scans_some (by omega) hm c
  · rintro c ⟨rfl, _⟩
    exact scans_none c

theorem scanClose_scans {k : TokenKind} {pos : ℕ} (hk : k ≠ .EOF) (hpos : pos ≤ last) :
  Scans tokens last pos (scanClose k pos)
  := by
  intro c
  apply safe_then (scanNewlines_safe hend hpos)
  rintro n c ⟨rfl, hle, hn⟩
  apply safe_ite (tokenAtIs_safe hend hk hn)
  · rintro c ⟨rfl, hlt⟩
    exact scans_some (by omega) (hlt rfl) c
  · rintro c ⟨rfl, _⟩
    exact scans_none c

theorem scanOpen_scans {pos : ℕ} (hpos : pos ≤ last) : Scans tokens last pos (scanOpen pos) := by
  intro c
  apply safe_ite (tokenAtIs_safe hend (by decide) hpos)
  · rintro c ⟨rfl, hlt⟩
    apply safe_then (scanNewlines_safe hend (hlt rfl))
    rintro m c ⟨rfl, hle, hm⟩
    exact scans_some (by omega) hm c
  · rintro c ⟨rfl, _⟩
    exact scans_none c

section

variable {self : ℕ → P (Option ℕ)} {pos : ℕ}
  (hself : ∀ n, pos ≤ n → n ≤ last → Scans tokens last n (self n))

include hself

theorem scanBracketedType_scans (hpos : pos ≤ last) :
  Scans tokens last pos (scanBracketedType self pos)
  := by
  apply (scanOpen_scans hend hpos).then
  intro n hle hn
  apply (hself n hle hn).then
  intro m _ hm
  exact scanClose_scans hend (by decide) hm

theorem scanTypePair_scans {separator : TokenKind} (hk : separator ≠ .EOF) (hpos : pos ≤ last) :
  Scans tokens last pos (scanTypePair self separator pos)
  := by
  apply (scanOpen_scans hend hpos).then
  intro n hle hn
  apply (hself n hle hn).then
  intro m hle' hm
  apply (scanSeparator_scans hend hk hm).then
  intro n' hle'' hn'
  apply (hself n' (by omega) hn').then
  intro m' _ hm'
  exact scanClose_scans hend (by decide) hm'

end

theorem scanName_scans {pos : ℕ} (hpos : pos ≤ last) : Scans tokens last pos (scanName pos) := by
  intro c
  have hmember : Safe tokens (both (tokenAtIs pos .DOT) (tokenAtIs (pos + 1) .NAME)) c fun b c' =>
      c' = c ∧ (b = true → pos + 2 ≤ last) := by
    apply safe_both (tokenAtIs_safe hend (by decide) hpos)
    · rintro c ⟨rfl, hlt⟩
      exact tokenAtIs_safe hend (by decide) (hlt rfl)
    · rintro c ⟨rfl, _⟩
      exact ⟨rfl, fun h => nomatch h⟩
  apply safe_ite hmember
  · rintro c ⟨rfl, hlt⟩
    have hlt := hlt rfl
    apply safe_then (tokenAt_safe hend hlt)
    rintro tok c ⟨rfl, _⟩
    dsimp only
    split_ifs
    · exact scans_some le_rfl hpos c
    · exact scans_some (by omega) hlt c
  · rintro c ⟨rfl, _⟩
    exact scans_some le_rfl hpos c

theorem scanTypeEndBody_scans {self : ℕ → P (Option ℕ)} {pos : ℕ} (hpos : pos ≤ last)
    (hself : ∀ n, pos + 1 ≤ n → n ≤ last → Scans tokens last n (self n)) :
  Scans tokens last pos (scanTypeEndBody self pos)
  := by
  intro c
  apply safe_then (tokenAt_safe hend hpos)
  rintro tok c ⟨rfl, heof⟩
  have hlt (hkind : tok.kind ≠ .EOF) : pos + 1 ≤ last :=
    lt_of_le_of_ne hpos fun h => hkind (heof.mpr h)
  dsimp only
  split_ifs with hbasic hbracketed hmap hfn hname
  · exact scans_some (Nat.le_succ pos) (hlt fun h => by simp [h] at hbasic) c
  · have hle := hlt fun h => by simp [h] at hbracketed
    exact (scanBracketedType_scans hend hself hle).mono (Nat.le_succ pos) c
  · have hle := hlt fun h => by simp [h] at hmap
    exact (scanTypePair_scans hend hself (by decide) hle).mono (Nat.le_succ pos) c
  · have hle := hlt fun h => by simp [h] at hfn
    exact (scanTypePair_scans hend hself (by decide) hle).mono (Nat.le_succ pos) c
  · have hle := hlt fun h => by simp [h] at hname
    exact (scanName_scans hend hle).mono (Nat.le_succ pos) c
  · exact scans_none c

theorem scanTypeEnd_scans {pos : ℕ} (hpos : pos ≤ last) :
  Scans tokens last pos (scanTypeEnd pos)
  := by
  intro c
  have hlength := hend.lt_length
  apply safe_fix (fun pos _ => last - pos) (fun pos _ => pos ≤ last)
    (Q := fun pos c found c' => c' = c ∧ ∀ n, found = some n → pos ≤ n ∧ n ≤ last) _ hpos (by omega)
  intro self pos c hpos hself
  apply scanTypeEndBody_scans hend hpos
  intro n hle hn c'
  exact hself n c' hn (by omega)

theorem startsDestructure_stays {c : Cursor} (hpos : c.pos ≤ last) :
  Safe tokens startsDestructure c fun _ c' => c' = c
  := by
  apply safe_ite (curIs_looks hend (by decide) c hpos)
  · rintro c ⟨rfl, hlt⟩
    apply safe_then safe_position
    rintro _ c ⟨rfl, rfl⟩
    apply safe_then (scanNewlines_safe hend (hlt rfl))
    rintro n c ⟨rfl, _, hn⟩
    apply safe_ite (tokenAtIs_safe hend (by decide) hn)
    · rintro c ⟨rfl, _⟩
      exact safe_pure rfl
    · rintro c ⟨rfl, _⟩
      apply safe_then (scanTypeEnd_scans hend hn c)
      rintro (_ | m) c ⟨rfl, hfound⟩
      · exact safe_pure rfl
      · apply safe_then (scanNewlines_safe hend (hfound m rfl).2)
        rintro m' c ⟨rfl, _, hm'⟩
        apply safe_then (tokenAt_safe hend hm')
        rintro tok c ⟨rfl, _⟩
        exact safe_pure rfl
  · rintro c ⟨rfl, _⟩
    exact safe_pure rfl

theorem parseDestructureType_forward : Forward tokens last lo parseDestructureType := by
  intro c hlo hpos
  have hlooks : Looks tokens last 0 3 (both (curIs .NAME) (both (peekIs 1 .DOT) (peekIs 2 .NAME))) :=
    (curIs_looks hend (by decide)).both
      ((peekIs_looks hend 1 (by decide)).both (peekIs_looks hend 2 (by decide)))
  apply safe_ite (hlooks c hpos)
  · rintro c ⟨rfl, hfound⟩
    have hfound := hfound rfl
    apply safe_then (peek_safe hend hfound)
    rintro tok c ⟨rfl, _⟩
    dsimp only
    split_ifs
    · apply safe_then (peek_safe hend (c := c) hpos)
      rintro tok c ⟨rfl, _⟩
      apply safe_then safe_advance
      intro _ c' hc'
      exact ⟨by omega, by omega, fun _ => by omega⟩
    · exact parseType_forward hend c hlo hpos
  · rintro c ⟨rfl, _⟩
    exact parseType_forward hend c hlo hpos

end

end Caster.Parse
