import Mathlib.Data.List.Infix
import Mathlib.Tactic

/-!
# Scanners

A scanner reads a text from its start to its end, some characters at a time.  A step looks
at the characters that are left, reads some of them and gives an output, gives nothing, or
ends with an error.  A scan is what the steps read and give until no character is left.
-/

/-- Characters that one step reads, and what it gives. -/
structure Piece (χ τ : Type*) where
  text : List χ
  output : Option τ
deriving DecidableEq

/-- A scanner of characters `χ` with states `σ`, outputs `τ` and errors `ε`.  A step is given
the first character that is left and the others, and returns the characters it leaves. -/
structure Scanner (χ σ τ ε : Type*) where
  step : σ → χ → List χ → Except ε (Option τ × σ × List χ)
  suffix : ∀ {s c rest o s' rest'}, step s c rest = .ok (o, s', rest') → rest' <:+ rest

namespace Scanner

variable {χ σ τ ε : Type*} (S : Scanner χ σ τ ε)

/-- The pieces a scanner reads in no more than a number of steps, and its last state. -/
def run : ℕ → σ → List χ → Except ε (List (Piece χ τ) × σ)
  | _, s, [] => .ok ([], s)
  | 0, s, _ :: _ => .ok ([], s)
  | n + 1, s, c :: rest =>
    match S.step s c rest with
    | .error e => .error e
    | .ok (o, s', rest') =>
      match run n s' rest' with
      | .error e => .error e
      | .ok (pieces, last) =>
        .ok (⟨(c :: rest).take ((c :: rest).length - rest'.length), o⟩ :: pieces, last)

/-- The pieces of a text, and the last state. -/
def scan (s : σ) (text : List χ) : Except ε (List (Piece χ τ) × σ) := S.run text.length s text

/-- Each step reads a character, so more steps than characters change nothing. -/
theorem run_eq_scan {n : ℕ} {s : σ} {text : List χ} (hn : text.length ≤ n) :
  S.run n s text = S.scan s text
  := by
  unfold scan
  induction hm : text.length using Nat.strong_induction_on generalizing n s text with
  | _ m ih =>
    subst hm
    cases text with
    | nil => cases n <;> rfl
    | cons c rest =>
      cases n with
      | zero => simp at hn
      | succ n =>
        rw [List.length_cons] at hn ih ⊢
        simp only [run]
        cases hstep : S.step s c rest with
        | error e => rfl
        | ok r =>
          obtain ⟨o, s', rest'⟩ := r
          have hle := (S.suffix hstep).length_le
          simp only
          rw [ih rest'.length (by omega) (by omega) rfl]
          rw [ih rest'.length (by omega) hle rfl]

@[simp]
theorem scan_nil (s : σ) : S.scan s [] = .ok ([], s) := rfl

/-- The scan of a text that is not empty. -/
theorem scan_cons (s : σ) (c : χ) (rest : List χ) :
  S.scan s (c :: rest) =
    match S.step s c rest with
    | .error e => .error e
    | .ok (o, s', rest') =>
      match S.scan s' rest' with
      | .error e => .error e
      | .ok (pieces, last) =>
        .ok (⟨(c :: rest).take ((c :: rest).length - rest'.length), o⟩ :: pieces, last)
  := by
  change S.run (rest.length + 1) s (c :: rest) = _
  simp only [run]
  cases hstep : S.step s c rest with
  | error e => rfl
  | ok r => simp only [S.run_eq_scan (S.suffix hstep).length_le]

variable {S} in
theorem scan_of_step_error {s : σ} {c : χ} {rest : List χ} {e : ε} (h : S.step s c rest = .error e) :
  S.scan s (c :: rest) = .error e
  := by
  rw [scan_cons, h]

variable {S} in
theorem scan_of_scan_error {s s' : σ} {c : χ} {rest rest' : List χ} {o : Option τ} {e : ε}
    (h : S.step s c rest = .ok (o, s', rest')) (hrest : S.scan s' rest' = .error e) :
  S.scan s (c :: rest) = .error e
  := by
  rw [scan_cons, h]
  simp only [hrest]

/-- From a state, a scanner reads a text in pieces and ends in a state. -/
inductive Reads : σ → List χ → List (Piece χ τ) → σ → Prop
  | nil (s : σ) : Reads s [] [] s
  | cons {s c rest o s' rest' p pieces last} (hstep : S.step s c rest = .ok (o, s', rest'))
      (htext : c :: rest = p ++ rest') (hrest : Reads s' rest' pieces last) :
      Reads s (c :: rest) (⟨p, o⟩ :: pieces) last

theorem eq_take_append {c : χ} {rest rest' : List χ} (h : rest' <:+ rest) :
  c :: rest = (c :: rest).take ((c :: rest).length - rest'.length) ++ rest'
  := by
  obtain ⟨pre, rfl⟩ := h
  have hlength : (c :: (pre ++ rest')).length - rest'.length = (c :: pre).length := by
    simp only [List.length_cons, List.length_append]
    omega
  rw [hlength, ← List.cons_append, List.take_left]

theorem reads_of_scan {s : σ} {text : List χ} {pieces : List (Piece χ τ)} {last : σ}
    (h : S.scan s text = .ok (pieces, last)) :
  S.Reads s text pieces last
  := by
  induction hm : text.length using Nat.strong_induction_on generalizing s text pieces with
  | _ m ih =>
    subst hm
    cases text with
    | nil =>
      cases h
      apply Reads.nil
    | cons c rest =>
      rw [scan_cons] at h
      split at h
      · cases h
      · rename_i o s' rest' hstep
        split at h
        · cases h
        · rename_i pieces' last' hscan
          cases h
          have hsuffix := S.suffix hstep
          apply Reads.cons hstep (eq_take_append hsuffix)
          apply ih rest'.length _ hscan rfl
          have := hsuffix.length_le
          rw [List.length_cons]
          omega

theorem scan_of_reads {s : σ} {text : List χ} {pieces : List (Piece χ τ)} {last : σ}
    (h : S.Reads s text pieces last) :
  S.scan s text = .ok (pieces, last)
  := by
  induction h with
  | nil s => rfl
  | @cons s c rest o s' rest' p pieces last hstep htext hrest ih =>
    have hp := eq_take_append (c := c) (S.suffix hstep)
    rw [htext] at hp
    rw [scan_cons, hstep]
    simp only [ih, htext]
    rw [← List.append_cancel_right hp]

variable {S}

/-- The pieces of a text are its characters. -/
theorem Reads.flatMap_text {s : σ} {text : List χ} {pieces : List (Piece χ τ)} {last : σ}
    (h : S.Reads s text pieces last) :
  pieces.flatMap Piece.text = text
  := by
  induction h with
  | nil s => rfl
  | cons hstep htext hrest ih => rw [List.flatMap_cons, ih, ← htext]

/-- What a step reads is not empty. -/
theorem ne_nil_of_step {s : σ} {c : χ} {rest rest' p : List χ} {o : Option τ} {s' : σ}
    (hstep : S.step s c rest = .ok (o, s', rest')) (htext : c :: rest = p ++ rest') :
  p ≠ []
  := by
  intro hp
  have hle := (S.suffix hstep).length_le
  have hlength := congrArg List.length htext
  simp only [hp, List.nil_append, List.length_cons] at hlength
  omega

theorem Reads.text_ne_nil {s : σ} {text : List χ} {pieces : List (Piece χ τ)} {last : σ}
    (h : S.Reads s text pieces last) :
  ∀ piece ∈ pieces, piece.text ≠ []
  := by
  induction h with
  | nil s => simp
  | cons hstep htext hrest ih =>
    intro piece hpiece
    rcases List.mem_cons.mp hpiece with rfl | hpiece
    · exact ne_nil_of_step hstep htext
    · exact ih piece hpiece

/-- An invariant of the steps holds between all pieces. -/
theorem Reads.split {s : σ} {text : List χ} {pieces before after : List (Piece χ τ)} {last : σ}
    (h : S.Reads s text pieces last) (hpieces : pieces = before ++ after)
    (Inv : List χ → σ → List χ → Prop) {read : List χ} (hinv : Inv read s text)
    (hkeep : ∀ {read s c rest o s' rest' p}, Inv read s (c :: rest) →
      S.step s c rest = .ok (o, s', rest') → c :: rest = p ++ rest' → Inv (read ++ p) s' rest') :
  ∃ s' text', Inv (read ++ before.flatMap Piece.text) s' text' ∧ S.Reads s' text' after last
  := by
  induction before generalizing s text pieces read with
  | nil =>
    subst hpieces
    exact ⟨s, text, by simpa using hinv, h⟩
  | cons piece before ih =>
    cases h with
    | nil s => cases hpieces
    | @cons s c rest o s' rest' p pieces last hstep htext hrest =>
      rw [List.cons_append, List.cons.injEq] at hpieces
      obtain ⟨rfl, rfl⟩ := hpieces
      rw [List.flatMap_cons, ← List.append_assoc]
      exact ih hrest rfl (hkeep hinv hstep htext)

/-! ### Reading a part of a text -/

variable (S) in
/-- From a state, a scanner reads pieces of a text and comes to a state before the rest of it. -/
inductive ReadsTo : σ → List χ → List (Piece χ τ) → σ → List χ → Prop
  | refl (s : σ) (text : List χ) : ReadsTo s text [] s text
  | cons {s c rest o s' rest' p pieces last text} (hstep : S.step s c rest = .ok (o, s', rest'))
      (htext : c :: rest = p ++ rest') (hrest : ReadsTo s' rest' pieces last text) :
      ReadsTo s (c :: rest) (⟨p, o⟩ :: pieces) last text

theorem ReadsTo.text_eq {s last : σ} {text text' : List χ} {pieces : List (Piece χ τ)}
    (h : S.ReadsTo s text pieces last text') :
  text = pieces.flatMap Piece.text ++ text'
  := by
  induction h with
  | refl s text => rfl
  | cons hstep htext hrest ih => rw [htext, ih, List.flatMap_cons, List.append_assoc, ← ih]

theorem ReadsTo.length_le {s last : σ} {text text' : List χ} {pieces : List (Piece χ τ)}
    (h : S.ReadsTo s text pieces last text') :
  text'.length ≤ text.length
  := by
  rw [h.text_eq, List.length_append]
  omega

/-- Of two readings of a text, one goes on where the other one ends. -/
theorem ReadsTo.linear {s s₁ s₂ : σ} {text t₁ t₂ : List χ} {ps₁ ps₂ : List (Piece χ τ)}
    (h₁ : S.ReadsTo s text ps₁ s₁ t₁) (h₂ : S.ReadsTo s text ps₂ s₂ t₂) :
  (∃ qs, ps₂ = ps₁ ++ qs ∧ S.ReadsTo s₁ t₁ qs s₂ t₂) ∨
    ∃ qs, ps₁ = ps₂ ++ qs ∧ S.ReadsTo s₂ t₂ qs s₁ t₁
  := by
  induction h₁ generalizing ps₂ with
  | refl s text =>
    left
    use ps₂
    exact ⟨rfl, h₂⟩
  | @cons s c rest o s' rest' p pieces last text hstep htext hrest ih =>
    cases h₂ with
    | refl s text =>
      right
      use ⟨p, o⟩ :: pieces
      exact ⟨rfl, .cons hstep htext hrest⟩
    | @cons s c rest o₂ s₂' rest₂ p₂ pieces₂ last text hstep₂ htext₂ hrest₂ =>
      rw [hstep] at hstep₂
      cases hstep₂
      obtain rfl : p = p₂ := List.append_cancel_right (htext.symm.trans htext₂)
      rcases ih hrest₂ with ⟨qs, rfl, hqs⟩ | ⟨qs, rfl, hqs⟩
      · left
        use qs
        exact ⟨rfl, hqs⟩
      · right
        use qs
        exact ⟨rfl, hqs⟩

/-- Where a step reads a piece, no other reading ends within the piece. -/
theorem ReadsTo.not_within {s s₁ s' s₂ : σ} {text rest rest' t₂ : List χ} {c : χ} {o : Option τ}
    {ps₁ ps₂ : List (Piece χ τ)} (h₁ : S.ReadsTo s text ps₁ s₁ (c :: rest))
    (hstep : S.step s₁ c rest = .ok (o, s', rest')) (h₂ : S.ReadsTo s text ps₂ s₂ t₂) :
  t₂.length ≤ rest'.length ∨ (c :: rest).length ≤ t₂.length
  := by
  rcases h₁.linear h₂ with ⟨qs, -, hqs⟩ | ⟨qs, -, hqs⟩
  · cases hqs with
    | refl => exact .inr le_rfl
    | cons hstep₂ htext₂ hrest₂ =>
      rw [hstep] at hstep₂
      cases hstep₂
      exact .inl hrest₂.length_le
  · exact .inr hqs.length_le

/-- Behind an error, no other reading ends. -/
theorem ReadsTo.not_behind {s s₁ s₂ : σ} {text rest t₂ : List χ} {c : χ} {e : ε}
    {ps₁ ps₂ : List (Piece χ τ)} (h₁ : S.ReadsTo s text ps₁ s₁ (c :: rest))
    (hstep : S.step s₁ c rest = .error e) (h₂ : S.ReadsTo s text ps₂ s₂ t₂) :
  (c :: rest).length ≤ t₂.length
  := by
  rcases h₁.linear h₂ with ⟨qs, -, hqs⟩ | ⟨qs, -, hqs⟩
  · cases hqs with
    | refl => exact le_rfl
    | cons hstep₂ htext₂ hrest₂ =>
      rw [hstep] at hstep₂
      cases hstep₂
  · exact hqs.length_le

/-- Two readings up to one position read the same pieces. -/
theorem ReadsTo.unique {s s₁ s₂ : σ} {text t : List χ} {ps₁ ps₂ : List (Piece χ τ)}
    (h₁ : S.ReadsTo s text ps₁ s₁ t) (h₂ : S.ReadsTo s text ps₂ s₂ t) :
  ps₁ = ps₂ ∧ s₁ = s₂
  := by
  have hnone : ∀ {qs : List (Piece χ τ)} {s s' : σ}, S.ReadsTo s t qs s' t → qs = [] ∧ s = s' := by
    intro qs s s' h
    cases h with
    | refl => exact ⟨rfl, rfl⟩
    | cons hstep htext hrest =>
      have hshort := (S.suffix hstep).length_le.trans' hrest.length_le
      rw [List.length_cons] at hshort
      omega
  rcases h₁.linear h₂ with ⟨qs, rfl, hqs⟩ | ⟨qs, rfl, hqs⟩
  · obtain ⟨rfl, rfl⟩ := hnone hqs
    simp
  · obtain ⟨rfl, rfl⟩ := hnone hqs
    simp

/-- A position of a text is one a scanner comes to, or within a piece it reads, or behind the
character of an error. -/
theorem readsTo_split (S : Scanner χ σ τ ε) (s : σ) (before after : List χ) :
  (∃ pieces last, S.ReadsTo s (before ++ after) pieces last after) ∨
    ∃ pieces last c rest front, S.ReadsTo s (before ++ after) pieces last (c :: rest) ∧
      c :: rest = front ++ after ∧ front ≠ [] ∧ front <:+ before ∧
      ((∃ e, S.step last c rest = .error e) ∨ ∃ o s' rest' back,
        S.step last c rest = .ok (o, s', rest') ∧ c :: rest = (front ++ back) ++ rest' ∧ back ≠ [])
  := by
  induction hm : before.length using Nat.strong_induction_on generalizing s before with
  | _ m ih =>
    subst hm
    cases before with
    | nil =>
      left
      exact ⟨[], s, .refl s after⟩
    | cons c before =>
      cases hstep : S.step s c (before ++ after) with
      | error e =>
        right
        exact ⟨[], s, c, before ++ after, c :: before, .refl _ _, rfl, by simp, List.suffix_refl _,
          .inl ⟨e, hstep⟩⟩
      | ok r =>
        obtain ⟨o, s', rest'⟩ := r
        obtain ⟨q, hq⟩ := S.suffix hstep
        have htext : c :: (before ++ after) = (c :: q) ++ rest' := by rw [List.cons_append, hq]
        rcases List.append_eq_append_iff.mp hq with
          ⟨back, hbefore, hrest⟩ | ⟨back, hq', hafter⟩
        · -- the piece ends before the position
          have hless : back.length < (c :: before).length := by
            rw [hbefore, List.length_cons, List.length_append]
            omega
          subst hrest
          rcases ih _ hless s' back rfl with ⟨pieces, last, hreads⟩ |
            ⟨pieces, last, d, rest, front, hreads, hrest, hne, hsuffix, hend⟩
          · left
            exact ⟨_, last, .cons hstep htext hreads⟩
          · right
            refine ⟨_, last, d, rest, front, .cons hstep htext hreads, hrest, hne, ?_, hend⟩
            apply hsuffix.trans
            rw [hbefore]
            exact ⟨c :: q, rfl⟩
        · cases hback : back with
          | nil =>
            subst hback
            rw [List.append_nil] at hq'
            left
            refine ⟨[⟨c :: q, o⟩], s', .cons hstep htext ?_⟩
            rw [List.nil_append] at hafter
            rw [hafter]
            exact .refl _ _
          | cons d back' =>
            right
            refine ⟨[], s, c, before ++ after, c :: before, .refl _ _, rfl, by simp,
              List.suffix_refl _, .inr ⟨o, s', rest', back, hstep, ?_, by simp [hback]⟩⟩
            rw [htext, hq']
            rfl

end Scanner
