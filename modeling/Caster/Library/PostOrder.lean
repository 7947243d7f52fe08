import Mathlib.Data.Finset.Card
import Mathlib.Logic.Relation
import Mathlib.Tactic

/-!
# Depth-first traversal in post-order

A traversal of a directed graph that remembers the vertices that wait for others and those
that are done.  A vertex is done behind all its successors.  The traversal stops at an edge
to a vertex that waits, at a step of a vertex that fails, and at a vertex that does not pass
its check.
-/

namespace PostOrder

open Relation

/-- A graph whose vertices are left by steps, which lead to a successor or fail, and are
checked when their steps are done. -/
structure Graph (V E : Type) where
  steps : V → List (Except E V)
  check : V → Option E

/-- Why a traversal ends early. -/
inductive Stop (V E : Type) where
  | cyclic (v : V)
  | failed (e : E)
  | outOfFuel

variable {V E : Type}

/-- The steps of a vertex, each to a vertex that is visited. -/
def visitSteps (visit : V → List V → Except (Stop V E) (List V)) :
    List (Except E V) → List V → Except (Stop V E) (List V)
  | [], done => .ok done
  | .error e :: _, _ => .error (.failed e)
  | .ok w :: steps, done =>
    match visit w done with
    | .ok done => visitSteps visit steps done
    | .error stop => .error stop

/-- A visit of a vertex, given those that wait and those that are done. -/
def visit [DecidableEq V] (G : Graph V E) : ℕ → List V → V → List V → Except (Stop V E) (List V)
  | 0, _, _, _ => .error .outOfFuel
  | n + 1, waiting, v, done =>
    if v ∈ waiting then .error (.cyclic v)
    else if v ∈ done then .ok done
    else
      match visitSteps (visit G n (waiting ++ [v])) (G.steps v) done with
      | .error stop => .error stop
      | .ok done =>
        match G.check v with
        | some e => .error (.failed e)
        | none => .ok (done ++ [v])

/-! ### The graph -/

/-- A step leads from a vertex to another one. -/
def Graph.Edge (G : Graph V E) (v w : V) : Prop := .ok w ∈ G.steps v

/-- Steps lead from a vertex to another one. -/
def Graph.Reaches (G : Graph V E) : V → V → Prop := ReflTransGen G.Edge

/-- Steps do not leave a set of vertices that is closed under them. -/
theorem Graph.Reaches.mem {G : Graph V E} {vertices : Finset V}
    (hclosed : ∀ u ∈ vertices, ∀ w, G.Edge u w → w ∈ vertices) {v w : V} (hv : v ∈ vertices)
    (h : G.Reaches v w) :
  w ∈ vertices
  := by
  induction h with
  | refl => exact hv
  | tail _ hedge ih => exact hclosed _ ih _ hedge

/-- A vertex without failing steps that passes its check. -/
structure Graph.Passes (G : Graph V E) (v : V) : Prop where
  steps : ∀ e, .error e ∉ G.steps v
  check : G.check v = none

/-- A cycle that steps lead to. -/
def Graph.ReachesCycle (G : Graph V E) (v : V) : Prop := ∃ w, G.Reaches v w ∧ TransGen G.Edge w w

/-- Every vertex is listed once, behind its successors. -/
structure Ordered (G : Graph V E) (l : List V) : Prop where
  nodup : l.Nodup
  before : ∀ l₁ v l₂, l = l₁ ++ v :: l₂ → ∀ w, G.Edge v w → w ∈ l₁

variable {G : Graph V E} {l : List V}

theorem ordered_nil : Ordered G ([] : List V) := by
  constructor
  · exact List.nodup_nil
  · intro l₁ v l₂ h
    exact absurd h.symm (by simp)

theorem Ordered.concat (h : Ordered G l) {v : V} (hv : v ∉ l) (hsucc : ∀ w, G.Edge v w → w ∈ l) :
  Ordered G (l ++ [v])
  := by
  constructor
  · exact List.nodup_append.mpr ⟨h.nodup, List.nodup_singleton v, by
      rintro a ha b hb rfl
      exact hv (List.mem_singleton.mp hb ▸ ha)⟩
  · intro l₁ u l₂ heq w hw
    rcases List.eq_nil_or_concat l₂ with rfl | ⟨l₂, z, rfl⟩
    · obtain ⟨rfl, hu⟩ := List.append_inj' heq rfl
      cases hu
      exact hsucc w hw
    · have heq : l ++ [v] = (l₁ ++ u :: l₂) ++ [z] := by simpa using heq
      obtain ⟨rfl, _⟩ := List.append_inj' heq rfl
      exact h.before l₁ u l₂ rfl w hw

/-- What a listed vertex leads to is listed before it. -/
theorem Ordered.before_of_transGen (h : Ordered G l) {v w : V} (hvw : TransGen G.Edge v w) {l₁ l₂ : List V}
    (hl : l = l₁ ++ v :: l₂) :
  w ∈ l₁
  := by
  induction hvw with
  | single hedge => exact h.before l₁ v l₂ hl _ hedge
  | tail _ hedge ih =>
    obtain ⟨l₃, l₄, rfl⟩ := List.append_of_mem ih
    have hmem := h.before l₃ _ (l₄ ++ v :: l₂) (by simpa using hl) _ hedge
    exact List.mem_append_left _ hmem

theorem Ordered.mem_of_reaches (h : Ordered G l) {v w : V} (hv : v ∈ l) (hvw : G.Reaches v w) : w ∈ l := by
  rcases reflTransGen_iff_eq_or_transGen.mp hvw with rfl | hvw
  · exact hv
  · obtain ⟨l₁, l₂, hl⟩ := List.append_of_mem hv
    rw [hl]
    exact List.mem_append_left _ (h.before_of_transGen hvw hl)

/-- A list with every vertex behind its successors has no vertex on a cycle. -/
theorem Ordered.acyclic (h : Ordered G l) {v : V} (hv : v ∈ l) : ¬ G.ReachesCycle v := by
  rintro ⟨w, hvw, hcycle⟩
  obtain ⟨l₁, l₂, hl⟩ := List.append_of_mem (h.mem_of_reaches hv hvw)
  have hbefore := h.before_of_transGen hcycle hl
  have hnodup := h.nodup
  rw [hl] at hnodup
  exact (List.nodup_append.mp hnodup).2.2 w hbefore w List.mem_cons_self rfl

/-! ### One visit -/

/-- What a visit adds to the vertices that are done: vertices that are reached from the
visited one and that nothing waits for. -/
def Adds (G : Graph V E) (waiting : List V) (v : V) (done done' : List V) : Prop :=
  ∃ new, done' = done ++ new ∧ ∀ w ∈ new, G.Reaches v w ∧ w ∉ waiting

theorem adds_refl (waiting : List V) (v : V) (done : List V) : Adds G waiting v done done :=
  ⟨[], (List.append_nil done).symm, fun _ hw => absurd hw List.not_mem_nil⟩

theorem Adds.trans {waiting done₁ done₂ done₃ : List V} {v : V} (h : Adds G waiting v done₁ done₂)
    (h' : Adds G waiting v done₂ done₃) :
  Adds G waiting v done₁ done₃
  := by
  obtain ⟨new, rfl, hnew⟩ := h
  obtain ⟨new', rfl, hnew'⟩ := h'
  refine ⟨new ++ new', List.append_assoc _ _ _, ?_⟩
  intro w hw
  exact (List.mem_append.mp hw).elim (hnew w) (hnew' w)

theorem Adds.mem {waiting done done' : List V} {v w : V} (h : Adds G waiting v done done')
    (hw : w ∈ done) :
  w ∈ done'
  := by
  obtain ⟨new, rfl, _⟩ := h
  exact List.mem_append_left _ hw

theorem Adds.of_edge {waiting done done' : List V} {v w : V} (hvw : G.Edge v w)
    (h : Adds G waiting w done done') :
  Adds G waiting v done done'
  := by
  obtain ⟨new, rfl, hnew⟩ := h
  refine ⟨new, rfl, ?_⟩
  intro u hu
  obtain ⟨hreaches, hwaiting⟩ := hnew u hu
  exact ⟨ReflTransGen.head hvw hreaches, hwaiting⟩

/-- What a visit that ends has done. -/
structure Visited (G : Graph V E) (waiting : List V) (v : V) (done done' : List V) : Prop where
  ordered : Ordered G done'
  mem : v ∈ done'
  adds : Adds G waiting v done done'

theorem visitSteps_visited {visit : V → List V → Except (Stop V E) (List V)} {waiting : List V} {v : V}
    {steps : List (Except E V)} (hedges : ∀ w, .ok w ∈ steps → G.Edge v w)
    (hvisit : ∀ w done done', Ordered G done → visit w done = .ok done' →
      Visited G waiting w done done')
    {done done' : List V} (hdone : Ordered G done) (h : visitSteps visit steps done = .ok done') :
  Ordered G done' ∧ (∀ w, .ok w ∈ steps → w ∈ done') ∧ Adds G waiting v done done'
  := by
  induction steps generalizing done with
  | nil =>
    cases h
    exact ⟨hdone, fun w hw => absurd hw List.not_mem_nil, adds_refl _ _ _⟩
  | cons step steps ih =>
    cases step with
    | error e => cases h
    | ok w =>
      have hw := hedges w List.mem_cons_self
      unfold visitSteps at h
      cases hfirst : visit w done with
      | error stop =>
        rw [hfirst] at h
        cases h
      | ok done₁ =>
        rw [hfirst] at h
        have hvisited := hvisit w done done₁ hdone hfirst
        obtain ⟨hordered, hmem, hadds⟩ := ih (fun u hu => hedges u (List.mem_cons_of_mem _ hu))
          hvisited.ordered h
        refine ⟨hordered, ?_, (hvisited.adds.of_edge hw).trans hadds⟩
        intro u hu
        rcases List.mem_cons.mp hu with heq | hu
        · cases heq
          exact hadds.mem hvisited.mem
        · exact hmem u hu

/-- Where the steps of a vertex stop is where a step or a visit of a successor stops. -/
theorem visitSteps_stop {visit : V → List V → Except (Stop V E) (List V)} {steps : List (Except E V)}
    {done : List V} {stop : Stop V E} (h : visitSteps visit steps done = .error stop) :
  (∃ e, .error e ∈ steps ∧ stop = .failed e) ∨
    ∃ w done', .ok w ∈ steps ∧ visit w done' = .error stop
  := by
  induction steps generalizing done with
  | nil => cases h
  | cons step steps ih =>
    cases step with
    | error e =>
      cases h
      exact Or.inl ⟨e, List.mem_cons_self, rfl⟩
    | ok w =>
      unfold visitSteps at h
      cases hfirst : visit w done with
      | error stop' =>
        rw [hfirst] at h
        cases h
        exact Or.inr ⟨w, done, List.mem_cons_self, hfirst⟩
      | ok done₁ =>
        rw [hfirst] at h
        rcases ih h with ⟨e, he, rfl⟩ | ⟨u, done', hu, hstop⟩
        · exact Or.inl ⟨e, List.mem_cons_of_mem _ he, rfl⟩
        · exact Or.inr ⟨u, done', List.mem_cons_of_mem _ hu, hstop⟩

variable [DecidableEq V]

/-- A visit that ends lists its vertex behind all vertices it leads to. -/
theorem visit_visited {n : ℕ} {waiting : List V} {v : V} {done done' : List V} (hdone : Ordered G done)
    (h : visit G n waiting v done = .ok done') :
  Visited G waiting v done done'
  := by
  induction n generalizing waiting v done done' with
  | zero => cases h
  | succ n ih =>
    unfold visit at h
    split_ifs at h with hwaiting hmem
    · cases h
      exact ⟨hdone, hmem, adds_refl _ _ _⟩
    · cases hsteps : visitSteps (visit G n (waiting ++ [v])) (G.steps v) done with
      | error stop =>
        rw [hsteps] at h
        cases h
      | ok done₁ =>
        rw [hsteps] at h
        cases hcheck : G.check v with
        | some e =>
          rw [hcheck] at h
          cases h
        | none =>
          rw [hcheck] at h
          cases h
          obtain ⟨hordered, hsucc, new, rfl, hnew⟩ := visitSteps_visited (fun _ hw => hw)
            (fun w done done' hdone hw => ih hdone hw) hdone hsteps
          have hv : v ∉ done ++ new := by
            rw [List.mem_append, not_or]
            exact ⟨hmem, fun hv => (hnew v hv).2 (by simp)⟩
          refine ⟨hordered.concat hv hsucc, by simp, new ++ [v], List.append_assoc _ _ _, ?_⟩
          intro w hw
          rcases List.mem_append.mp hw with hw | hw
          · exact ⟨(hnew w hw).1, fun hmem => (hnew w hw).2 (List.mem_append_left _ hmem)⟩
          · cases List.mem_singleton.mp hw
            exact ⟨ReflTransGen.refl, hwaiting⟩

/-- Vertices are done when they have passed their checks. -/
theorem visit_passes {n : ℕ} {waiting : List V} {v : V} {done done' : List V}
    (hdone : ∀ w ∈ done, G.check w = none) (h : visit G n waiting v done = .ok done') :
  ∀ w ∈ done', G.check w = none
  := by
  induction n generalizing waiting v done done' with
  | zero => cases h
  | succ n ih =>
    have hall (steps : List (Except E V)) : ∀ done, (∀ w ∈ done, G.check w = none) → ∀ done',
        visitSteps (visit G n (waiting ++ [v])) steps done = .ok done' → ∀ w ∈ done', G.check w = none := by
      induction steps with
      | nil =>
        intro done hdone done' h
        cases h
        exact hdone
      | cons step steps ihsteps =>
        intro done hdone done' h
        cases step with
        | error e => cases h
        | ok w =>
          unfold visitSteps at h
          cases hfirst : visit G n (waiting ++ [v]) w done with
          | error stop =>
            rw [hfirst] at h
            cases h
          | ok done₁ =>
            rw [hfirst] at h
            exact ihsteps done₁ (ih hdone hfirst) done' h
    unfold visit at h
    split_ifs at h with hwaiting hmem
    · cases h
      exact hdone
    · cases hsteps : visitSteps (visit G n (waiting ++ [v])) (G.steps v) done with
      | error stop =>
        rw [hsteps] at h
        cases h
      | ok done₁ =>
        rw [hsteps] at h
        cases hcheck : G.check v with
        | some e =>
          rw [hcheck] at h
          cases h
        | none =>
          rw [hcheck] at h
          cases h
          intro w hw
          rcases List.mem_append.mp hw with hw | hw
          · exact hall _ done hdone done₁ hsteps w hw
          · rw [List.mem_singleton.mp hw]
            exact hcheck

/-- Where a visit stops: at a vertex that waits, at a failure, or at a successor. -/
theorem visit_stop {n : ℕ} {waiting : List V} {v : V} {done : List V} {stop : Stop V E}
    (h : visit G (n + 1) waiting v done = .error stop) :
  (v ∈ waiting ∧ stop = .cyclic v) ∨ v ∉ waiting ∧
    ((¬ G.Passes v ∧ ∃ e, stop = .failed e) ∨
      ∃ w done', G.Edge v w ∧ visit G n (waiting ++ [v]) w done' = .error stop)
  := by
  unfold visit at h
  split_ifs at h with hwaiting hmem
  · cases h
    exact Or.inl ⟨hwaiting, rfl⟩
  · refine Or.inr ⟨hwaiting, ?_⟩
    cases hsteps : visitSteps (visit G n (waiting ++ [v])) (G.steps v) done with
    | error stop' =>
      rw [hsteps] at h
      cases h
      rcases visitSteps_stop hsteps with ⟨e, he, rfl⟩ | ⟨w, done', hw, hstop⟩
      · exact Or.inl ⟨fun hpasses => hpasses.steps e he, e, rfl⟩
      · exact Or.inr ⟨w, done', hw, hstop⟩
    | ok done₁ =>
      rw [hsteps] at h
      cases hcheck : G.check v with
      | some e =>
        rw [hcheck] at h
        cases h
        refine Or.inl ⟨fun hpasses => ?_, e, rfl⟩
        rw [hpasses.check] at hcheck
        cases hcheck
      | none =>
        rw [hcheck] at h
        cases h

/-- A vertex that is reported lies on a cycle. -/
theorem visit_cyclic {n : ℕ} {waiting : List V} {v w : V} {done : List V}
    (hwaiting : ∀ u ∈ waiting, TransGen G.Edge u v)
    (h : visit G n waiting v done = .error (.cyclic w)) :
  TransGen G.Edge w w ∧ (w ∈ waiting ∨ G.Reaches v w)
  := by
  induction n generalizing waiting v done with
  | zero => cases h
  | succ n ih =>
    rcases visit_stop h with ⟨hv, heq⟩ | ⟨_, ⟨_, e, heq⟩ | ⟨u, done', hu, hstop⟩⟩
    · cases heq
      exact ⟨hwaiting w hv, Or.inl hv⟩
    · cases heq
    · have hwaits : ∀ x ∈ waiting ++ [v], TransGen G.Edge x u := by
        intro x hx
        rcases List.mem_append.mp hx with hx | hx
        · exact (hwaiting x hx).tail hu
        · rw [List.mem_singleton.mp hx]
          exact TransGen.single hu
      obtain ⟨hcycle, hw | hw⟩ := ih hwaits hstop
      · refine ⟨hcycle, ?_⟩
        rcases List.mem_append.mp hw with hw | hw
        · exact Or.inl hw
        · rw [List.mem_singleton.mp hw]
          exact Or.inr ReflTransGen.refl
      · exact ⟨hcycle, Or.inr (ReflTransGen.head hu hw)⟩

/-- A failure is one of a vertex that is reached. -/
theorem visit_failed {n : ℕ} {waiting : List V} {v : V} {done : List V} {e : E}
    (h : visit G n waiting v done = .error (.failed e)) :
  ∃ w, G.Reaches v w ∧ ¬ G.Passes w
  := by
  induction n generalizing waiting v done with
  | zero => cases h
  | succ n ih =>
    rcases visit_stop h with ⟨_, heq⟩ | ⟨_, ⟨hpasses, _⟩ | ⟨u, done', hu, hstop⟩⟩
    · cases heq
    · exact ⟨v, ReflTransGen.refl, hpasses⟩
    · obtain ⟨w, huw, hw⟩ := ih hstop
      exact ⟨w, ReflTransGen.head hu huw, hw⟩

/-- Fuel for each vertex that may wait is enough. -/
theorem visit_ne_outOfFuel {vertices : Finset V} (hclosed : ∀ u ∈ vertices, ∀ w, G.Edge u w → w ∈ vertices)
    {n : ℕ} {waiting : List V} {v : V} {done : List V} (hv : v ∈ vertices)
    (hnodup : waiting.Nodup) (hsub : ∀ u ∈ waiting, u ∈ vertices)
    (hn : vertices.card < n + waiting.length) :
  visit G n waiting v done ≠ .error .outOfFuel
  := by
  induction n generalizing waiting v done with
  | zero =>
    have hle : waiting.length ≤ vertices.card := by
      rw [← List.toFinset_card_of_nodup hnodup]
      apply Finset.card_le_card
      intro u hu
      exact hsub u (List.mem_toFinset.mp hu)
    omega
  | succ n ih =>
    intro h
    rcases visit_stop h with ⟨_, heq⟩ | ⟨hwaiting, ⟨_, e, heq⟩ | ⟨u, done', hu, hstop⟩⟩
    · cases heq
    · cases heq
    · apply ih (hclosed v hv u hu) _ _ _ hstop
      · exact List.nodup_append.mpr ⟨hnodup, List.nodup_singleton v, by
          rintro a ha b hb rfl
          exact hwaiting (List.mem_singleton.mp hb ▸ ha)⟩
      · intro w hw
        rcases List.mem_append.mp hw with hw | hw
        · exact hsub w hw
        · rw [List.mem_singleton.mp hw]
          exact hv
      · rw [List.length_append, List.length_singleton]
        omega

end PostOrder
