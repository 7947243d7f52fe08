import Mathlib.Control.Monad.Basic
import Mathlib.Tactic

/-!
# Code with a state that may stop

What holds behind code that reads and writes a state and may stop with an error: one property of the
value and the state when it ends, another one of the error when it stops.
-/

namespace StateTriples

variable {σ ε α β : Type}

/-- Code run from a state ends with a property, or stops with one. -/
def Meets (code : StateT σ (Except ε) α) (s : σ) (post : α → σ → Prop) (stops : ε → Prop) : Prop :=
  match code.run s with
  | .ok (a, s) => post a s
  | .error e => stops e

section

variable {s : σ} {post : α → σ → Prop} {stops : ε → Prop}

@[simp] theorem meets_pure (a : α) : Meets (pure a) s post stops ↔ post a s := Iff.rfl

@[simp] theorem meets_throw (e : ε) :
    Meets (throw e : StateT σ (Except ε) α) s post stops ↔ stops e := Iff.rfl

@[simp] theorem meets_get {post : σ → σ → Prop} :
    Meets (get : StateT σ (Except ε) σ) s post stops ↔ post s s := Iff.rfl

@[simp] theorem meets_modify (f : σ → σ) {post : PUnit → σ → Prop} :
    Meets (modify f : StateT σ (Except ε) PUnit) s post stops ↔ post ⟨⟩ (f s) := Iff.rfl

@[simp] theorem meets_bind (code : StateT σ (Except ε) α) (next : α → StateT σ (Except ε) β)
    {post : β → σ → Prop} :
    Meets (code >>= next) s post stops ↔
      Meets code s (fun a s => Meets (next a) s post stops) stops := by
  simp only [Meets, StateT.run_bind]
  cases code.run s <;> rfl

theorem Meets.mono {code : StateT σ (Except ε) α} {post' : α → σ → Prop} {stops' : ε → Prop}
    (h : Meets code s post stops) (hpost : ∀ a s, post a s → post' a s)
    (hstops : ∀ e, stops e → stops' e) : Meets code s post' stops' := by
  unfold Meets at h ⊢
  cases hrun : code.run s with
  | ok r =>
    rw [hrun] at h
    exact hpost r.1 r.2 h
  | error e =>
    rw [hrun] at h
    exact hstops e h

/-- What is known of a run from what the code meets. -/
theorem Meets.ok {code : StateT σ (Except ε) α} (h : Meets code s post stops) {a : α} {s' : σ}
    (hrun : code.run s = .ok (a, s')) : post a s' := by
  unfold Meets at h
  rwa [hrun] at h

theorem Meets.error {code : StateT σ (Except ε) α} (h : Meets code s post stops) {e : ε}
    (hrun : code.run s = .error e) : stops e := by
  unfold Meets at h
  rwa [hrun] at h

end

end StateTriples
