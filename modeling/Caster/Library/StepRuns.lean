import Mathlib.Data.List.Induction

/-!
# Runs of partial steps

A run takes a step for each action of a list, and there is none when some step is not allowed.  What
every step keeps, a run keeps, and a rank that every step lowers bounds the length of a run.
-/

namespace StepRuns

variable {σ α : Type}

/-- The state behind a list of actions. -/
def run (step : σ → α → Option σ) (s : σ) : List α → Option σ
  | [] => some s
  | a :: actions => (step s a).bind fun s => run step s actions

variable {step : σ → α → Option σ} {s s' s'' : σ}

@[simp] theorem run_nil : run step s [] = some s := rfl

theorem run_cons {a : α} {actions : List α} :
    run step s (a :: actions) = some s' ↔ ∃ m, step s a = some m ∧ run step m actions = some s' :=
  Option.bind_eq_some_iff

theorem run_append {before after : List α} :
    run step s (before ++ after) = some s' ↔
      ∃ m, run step s before = some m ∧ run step m after = some s' := by
  induction before generalizing s with
  | nil => simp
  | cons a before ih =>
    rw [List.cons_append, run_cons]
    simp only [ih, run_cons]
    constructor
    · rintro ⟨m, hm, m', hm', hafter⟩
      exact ⟨m', ⟨m, hm, hm'⟩, hafter⟩
    · rintro ⟨m', ⟨m, hm, hm'⟩, hafter⟩
      exact ⟨m, hm, m', hm', hafter⟩

/-- What the actions of a run say of its states, when each step says it of one action more. -/
theorem run_induction {P : List α → σ → Prop} {actions : List α}
    (hrun : run step s actions = some s') (hstart : P [] s)
    (hstep : ∀ before m a m', P before m → step m a = some m' → P (before ++ [a]) m') :
    P actions s' := by
  induction actions using List.reverseRecOn generalizing s' with
  | nil =>
    cases hrun
    exact hstart
  | append_singleton before a ih =>
    obtain ⟨m, hm, hlast⟩ := run_append.mp hrun
    obtain ⟨m', ha, hend⟩ := run_cons.mp hlast
    cases hend
    exact hstep before m a _ (ih hm) ha

/-- What every step keeps, a run keeps. -/
theorem run_invariant {P : σ → Prop} {actions : List α} (hrun : run step s actions = some s')
    (hstart : P s) (hstep : ∀ m a m', P m → step m a = some m' → P m') : P s' :=
  run_induction (P := fun _ m => P m) hrun hstart fun _ m a m' => hstep m a m'

/-- A run is no longer than a rank that every step lowers. -/
theorem length_le_rank {P : σ → Prop} {rank : σ → ℕ} {actions : List α}
    (hrun : run step s actions = some s') (hstart : P s)
    (hstep : ∀ m a m', P m → step m a = some m' → P m' ∧ rank m' < rank m) :
    actions.length + rank s' ≤ rank s := by
  have h : P s' ∧ actions.length + rank s' ≤ rank s := by
    apply run_induction (P := fun before m => P m ∧ before.length + rank m ≤ rank s) hrun
    · exact ⟨hstart, by simp⟩
    · rintro before m a m' ⟨hm, hle⟩ ha
      obtain ⟨hm', hlt⟩ := hstep m a m' hm ha
      refine ⟨hm', ?_⟩
      rw [List.length_append, List.length_singleton]
      omega
  exact h.2

/-- A run that is as long as a rank has come to a goal, when every step outside the goal lowers the
rank and no step leaves the goal. -/
theorem reaches_goal {P Goal : σ → Prop} {rank : σ → ℕ} {actions : List α}
    (hrun : run step s actions = some s') (hstart : P s) (hlength : rank s ≤ actions.length)
    (hstep : ∀ m a m', P m → step m a = some m' →
      P m' ∧ (Goal m' ∨ ¬ Goal m ∧ rank m' < rank m)) (hzero : ∀ m, P m → rank m = 0 → Goal m) :
    Goal s' := by
  have h : P s' ∧ (Goal s' ∨ actions.length + rank s' ≤ rank s) := by
    apply run_induction
      (P := fun before m => P m ∧ (Goal m ∨ before.length + rank m ≤ rank s)) hrun
    · exact ⟨hstart, .inr (by simp)⟩
    · rintro before m a m' ⟨hm, hgoal⟩ ha
      obtain ⟨hm', hstep⟩ := hstep m a m' hm ha
      refine ⟨hm', ?_⟩
      obtain hstep | ⟨hno, hlt⟩ := hstep
      · exact .inl hstep
      · right
        have hle := hgoal.resolve_left hno
        rw [List.length_append, List.length_singleton]
        omega
  obtain ⟨hs', hgoal | hle⟩ := h
  · exact hgoal
  · exact hzero s' hs' (by omega)

end StepRuns
