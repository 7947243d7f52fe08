import Mathlib.Data.List.Basic
import Mathlib.Tactic

/-!
# Loops with a header that is evaluated again

A loop evaluates its header before every iteration, in the state that the iteration before it has
left.  The header binds an element, or it ends the loop.  The results say when the elements that a
loop binds are those of a list that is given beforehand.
-/

namespace ForLoop

/-- How an execution of the body ends: it goes on to the next iteration, or it leaves the loop. -/
inductive Completion (σ : Type) where
  | goesOn (s : σ)
  | left

/-- A loop over states `σ`, with a cursor of type `κ`, that binds elements of type `ε` and hands
them to its body by variables of type `φ`. -/
structure Loop (κ φ ε σ : Type) where
  /-- The header binds an element or ends the loop.  It has no result when it stops the program. -/
  header : κ → σ → Option (Option (ε × φ × κ) × σ)
  /-- The body may change the cursor. -/
  body : φ → κ → σ → Completion (κ × σ)
  advance : κ → κ

/-- How a loop ends: by its header, from its body, or with the program. -/
inductive End (κ σ : Type) where
  | done (c : κ) (s : σ)
  | left
  | stopped

variable {κ φ ε σ : Type}

/-- A run of a loop that ends, with the elements it binds. -/
inductive Runs (L : Loop κ φ ε σ) : κ → σ → List ε → End κ σ → Prop
  | done {c : κ} {s s' : σ} (hheader : L.header c s = some (none, s')) : Runs L c s [] (.done c s')
  | stopped {c : κ} {s : σ} (hheader : L.header c s = none) : Runs L c s [] .stopped
  | left {c c' : κ} {s s' : σ} {e : ε} {x : φ} (hheader : L.header c s = some (some (e, x, c'), s'))
      (hbody : L.body x c' s' = .left) : Runs L c s [e] .left
  | again {c c' c'' : κ} {s s' s'' : σ} {e : ε} {x : φ} {trace : List ε} {o : End κ σ}
      (hheader : L.header c s = some (some (e, x, c'), s'))
      (hbody : L.body x c' s' = .goesOn (c'', s''))
      (hrest : Runs L (L.advance c'') s'' trace o) : Runs L c s (e :: trace) o

/-- A loop makes the iterations that a list determines: all of them, unless its body leaves it. -/
def Follows (L : Loop κ φ ε σ) (elements : List ε) (c : κ) (s : σ) : Prop :=
  ∃ trace o, Runs L c s trace o ∧ trace <+: elements ∧ o ≠ .stopped ∧
    ∀ c' s', o = .done c' s' → trace = elements

/-- The cursor and the state before the header is evaluated again after some iterations. -/
def after (L : Loop κ φ ε σ) : ℕ → κ → σ → Option (κ × σ)
  | 0, c, s => some (c, s)
  | n + 1, c, s =>
    match L.header c s with
    | some (some (_, x, c'), s') =>
      match L.body x c' s' with
      | .goesOn (c'', s'') => after L n (L.advance c'') s''
      | .left => none
    | _ => none

/-- The header of a loop binds an element, or ends the loop when there is none. -/
def Binds (L : Loop κ φ ε σ) (element : Option ε) (c : κ) (s : σ) : Prop :=
  ∃ r s', L.header c s = some (r, s') ∧ r.map Prod.fst = element

/-- A loop whose header stops the program makes no iteration. -/
theorem runs_stopped_iff {L : Loop κ φ ε σ} {c : κ} {s : σ} {trace : List ε} {o : End κ σ}
    (hheader : L.header c s = none) :
  Runs L c s trace o ↔ trace = [] ∧ o = .stopped
  := by
  constructor
  · intro h
    cases h <;> simp_all
  · rintro ⟨rfl, rfl⟩
    exact Runs.stopped hheader

/-- A loop whose body goes on makes one iteration and those behind it. -/
theorem runs_again_iff {L : Loop κ φ ε σ} {c c' c'' : κ} {s s' s'' : σ} {e : ε} {x : φ}
    (hheader : L.header c s = some (some (e, x, c'), s'))
    (hbody : L.body x c' s' = .goesOn (c'', s'')) {trace : List ε} {o : End κ σ} :
  Runs L c s trace o ↔ ∃ rest, trace = e :: rest ∧ Runs L (L.advance c'') s'' rest o
  := by
  constructor
  · intro h
    cases h with
    | done hheader' => simp_all
    | stopped hheader' => simp_all
    | left hheader' hbody' => simp_all
    | again hheader' hbody' hrest =>
      rw [hheader] at hheader'
      cases hheader'
      rw [hbody] at hbody'
      cases hbody'
      exact ⟨_, rfl, hrest⟩
  · rintro ⟨rest, rfl, hrest⟩
    exact Runs.again hheader hbody hrest

theorem after_succ_goesOn {L : Loop κ φ ε σ} {c c' c'' : κ} {s s' s'' : σ} {e : ε} {x : φ}
    (hheader : L.header c s = some (some (e, x, c'), s'))
    (hbody : L.body x c' s' = .goesOn (c'', s'')) (n : ℕ) :
  after L (n + 1) c s = after L n (L.advance c'') s''
  := by
  simp only [after, hheader, hbody]

theorem after_succ_left {L : Loop κ φ ε σ} {c c' : κ} {s s' : σ} {e : ε} {x : φ}
    (hheader : L.header c s = some (some (e, x, c'), s')) (hbody : L.body x c' s' = .left) (n : ℕ) :
  after L (n + 1) c s = none
  := by
  simp only [after, hheader, hbody]

/-- One more iteration after some iterations. -/
theorem after_add (L : Loop κ φ ε σ) (m n : ℕ) (c : κ) (s : σ) :
  after L (m + n) c s = (after L m c s).bind fun r => after L n r.1 r.2
  := by
  induction m generalizing c s with
  | zero => simp [after]
  | succ m ih =>
    rw [Nat.succ_add, after, after]
    split
    · split
      · exact ih _ _
      · rfl
    · rfl

/-- A loop that makes the iterations of a list binds its elements one after the other. -/
theorem Runs.binds {L : Loop κ φ ε σ} {elements trace : List ε} {c c' : κ} {s s' : σ} {o : End κ σ}
    (h : Runs L c s trace o) (hlead : trace <+: elements) (hstopped : o ≠ .stopped)
    (hdone : ∀ c' s', o = .done c' s' → trace = elements) {n : ℕ} (hafter : after L n c s = some (c', s'))
    (hn : n ≤ elements.length) :
  Binds L elements[n]? c' s'
  := by
  induction h generalizing elements n with
  | done hheader =>
    rw [← hdone _ _ rfl, List.length_nil, Nat.le_zero] at hn
    rw [hn, after] at hafter
    cases hafter
    rw [← hdone _ _ rfl]
    exact ⟨none, _, hheader, rfl⟩
  | stopped _ => exact absurd rfl hstopped
  | left hheader hbody =>
    obtain ⟨rest, rfl⟩ := hlead
    cases n with
    | zero =>
      cases hafter
      exact ⟨_, _, hheader, rfl⟩
    | succ n =>
      rw [after_succ_left hheader hbody] at hafter
      cases hafter
  | @again _ _ _ _ _ _ e _ trace o hheader hbody _ ih =>
    obtain ⟨rest, rfl⟩ := hlead
    cases n with
    | zero =>
      cases hafter
      exact ⟨_, _, hheader, rfl⟩
    | succ n =>
      rw [after_succ_goesOn hheader hbody] at hafter
      have hrest : ∀ c' s', o = .done c' s' → trace = trace ++ rest := by
        intro c' s' h
        simpa using hdone c' s' h
      exact ih (List.prefix_append trace rest) hstopped hrest hafter (by simpa using hn)

/-- A loop whose header binds the elements of a list one after the other makes its iterations. -/
theorem follows_of_binds {L : Loop κ φ ε σ} {elements : List ε} {c : κ} {s : σ}
    (h : ∀ n c' s', after L n c s = some (c', s') → n ≤ elements.length → Binds L elements[n]? c' s') :
  Follows L elements c s
  := by
  induction elements generalizing c s with
  | nil =>
    obtain ⟨r, s', hheader, hr⟩ := h 0 c s rfl (le_refl 0)
    have hnone : r = none := by simpa using hr
    rw [hnone] at hheader
    exact ⟨[], .done c s', Runs.done hheader, List.prefix_rfl, by simp, fun _ _ _ => rfl⟩
  | cons e rest ih =>
    obtain ⟨r, s', hheader, hr⟩ := h 0 c s rfl (Nat.zero_le _)
    cases r with
    | none => cases hr
    | some bound =>
      obtain ⟨e', x, c'⟩ := bound
      have he : e' = e := by simpa using hr
      rw [he] at hheader
      cases hbody : L.body x c' s' with
      | left =>
        refine ⟨[e], .left, Runs.left hheader hbody, ?_, by simp, by simp⟩
        simp
      | goesOn next =>
        obtain ⟨c'', s''⟩ := next
        have hrest : Follows L rest (L.advance c'') s'' := by
          apply ih
          intro n c' s' hafter hn
          have hnext := h (n + 1) c' s' (by rw [after_succ_goesOn hheader hbody, hafter]) (by simpa using hn)
          simpa using hnext
        obtain ⟨trace, o, hruns, hlead, hstopped, hdone⟩ := hrest
        refine ⟨e :: trace, o, Runs.again hheader hbody hruns, ?_, hstopped, ?_⟩
        · simpa using hlead
        · intro c₁ s₁ ho
          rw [hdone c₁ s₁ ho]

/-- The rule of invariants: what holds before the header after `n` iterations, and what it says
about the header. -/
theorem follows_of_invariant {L : Loop κ φ ε σ} {elements : List ε} (I : ℕ → κ → σ → Prop)
    (hheader : ∀ n c s, I n c s → n ≤ elements.length → Binds L elements[n]? c s)
    (hstep : ∀ n c s e x c' s' c'' s'', I n c s → L.header c s = some (some (e, x, c'), s') →
      L.body x c' s' = .goesOn (c'', s'') → I (n + 1) (L.advance c'') s'')
    {c : κ} {s : σ} (hinit : I 0 c s) :
  Follows L elements c s
  := by
  have hafter : ∀ n m c s c' s', I m c s → after L n c s = some (c', s') → I (m + n) c' s' := by
    intro n
    induction n with
    | zero =>
      intro m c s c' s' hI hafter
      cases hafter
      exact hI
    | succ n ih =>
      intro m c s c' s' hI hafter
      rw [after] at hafter
      split at hafter
      · rename_i e x c₁ s₁ hbinds
        split at hafter
        · rename_i c₂ s₂ hgoesOn
          have hnext := ih (m + 1) _ _ _ _ (hstep m c s e x c₁ s₁ c₂ s₂ hI hbinds hgoesOn) hafter
          rwa [Nat.add_assoc, Nat.add_comm 1 n] at hnext
        · cases hafter
      · cases hafter
  apply follows_of_binds
  intro n c' s' hn hle
  have hI := hafter n 0 c s c' s' hinit hn
  rw [Nat.zero_add] at hI
  exact hheader n c' s' hI hle

/-- A loop makes the iterations that a list determines exactly when its header, evaluated again
after any number of iterations, binds the next element of the list. -/
theorem follows_iff (L : Loop κ φ ε σ) (elements : List ε) (c : κ) (s : σ) :
  Follows L elements c s ↔
    ∀ n c' s', after L n c s = some (c', s') → n ≤ elements.length → Binds L elements[n]? c' s'
  := by
  constructor
  · rintro ⟨trace, o, hruns, hlead, hstopped, hdone⟩ n c' s' hafter hn
    exact hruns.binds hlead hstopped hdone hafter hn
  · exact follows_of_binds

/-! ### Simulation -/

section

variable {κ' φ' σ' : Type}

/-- Two loops end in the same way, with cursors and states in a relation. -/
inductive End.Alike (D : κ → σ → κ' → σ' → Prop) : End κ σ → End κ' σ' → Prop
  | done {c : κ} {s : σ} {c' : κ'} {s' : σ'} (h : D c s c' s') : Alike D (.done c s) (.done c' s')
  | left : Alike D .left .left
  | stopped : Alike D .stopped .stopped

/-- In states related by `R`, one loop binds the same element as another one and goes on to related
states, or it ends with it, in states related by `D`. -/
structure Simulates (L : Loop κ φ ε σ) (L' : Loop κ' φ' ε σ') (R D : κ → σ → κ' → σ' → Prop) :
    Prop where
  done : ∀ {c s c' s' s₁}, R c s c' s' → L.header c s = some (none, s₁) →
    ∃ s₁', L'.header c' s' = some (none, s₁') ∧ D c s₁ c' s₁'
  stopped : ∀ {c s c' s'}, R c s c' s' → L.header c s = none → L'.header c' s' = none
  left : ∀ {c s c' s' e x c₁ s₁}, R c s c' s' → L.header c s = some (some (e, x, c₁), s₁) →
    L.body x c₁ s₁ = .left →
    ∃ x' c₁' s₁', L'.header c' s' = some (some (e, x', c₁'), s₁') ∧ L'.body x' c₁' s₁' = .left
  goesOn : ∀ {c s c' s' e x c₁ s₁ c₂ s₂}, R c s c' s' →
    L.header c s = some (some (e, x, c₁), s₁) → L.body x c₁ s₁ = .goesOn (c₂, s₂) →
    ∃ x' c₁' s₁' c₂' s₂', L'.header c' s' = some (some (e, x', c₁'), s₁') ∧
      L'.body x' c₁' s₁' = .goesOn (c₂', s₂') ∧ R (L.advance c₂) s₂ (L'.advance c₂') s₂'

/-- A loop that simulates another one binds the same elements and ends in the same way. -/
theorem Simulates.runs {L : Loop κ φ ε σ} {L' : Loop κ' φ' ε σ'} {R D : κ → σ → κ' → σ' → Prop}
    (hsim : Simulates L L' R D) {c : κ} {s : σ} {trace : List ε} {o : End κ σ}
    (h : Runs L c s trace o) {c' : κ'} {s' : σ'} (hR : R c s c' s') :
  ∃ o', Runs L' c' s' trace o' ∧ End.Alike D o o'
  := by
  induction h generalizing c' s' with
  | done hheader =>
    obtain ⟨s₁', hheader', hD⟩ := hsim.done hR hheader
    exact ⟨_, Runs.done hheader', End.Alike.done hD⟩
  | stopped hheader => exact ⟨_, Runs.stopped (hsim.stopped hR hheader), End.Alike.stopped⟩
  | left hheader hbody =>
    obtain ⟨x', c₁', s₁', hheader', hbody'⟩ := hsim.left hR hheader hbody
    exact ⟨_, Runs.left hheader' hbody', End.Alike.left⟩
  | again hheader hbody _ ih =>
    obtain ⟨x', c₁', s₁', c₂', s₂', hheader', hbody', hR'⟩ := hsim.goesOn hR hheader hbody
    obtain ⟨o', hrest', halike⟩ := ih hR'
    exact ⟨o', Runs.again hheader' hbody' hrest', halike⟩

end

end ForLoop
