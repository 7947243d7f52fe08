import Caster.Library.PostOrder

/-!
# Depth-first traversal with marks

A traversal that marks a vertex when it comes to it and passes over the vertices that are marked.
It does not tell the vertices that wait from those that are done, so it ends on cycles.
-/

namespace PostOrder

open Relation

variable {V : Type}

/-- The vertices that are marked, and those that are done. -/
structure Marks (V : Type) where
  marked : List V
  done : List V

/-- The successors of a vertex, each of which is visited. -/
def markSteps (mark : V → Marks V → Option (Marks V)) : List V → Marks V → Option (Marks V)
  | [], p => some p
  | w :: ws, p => (mark w p).bind (markSteps mark ws)

/-- A visit of a vertex. -/
def mark [DecidableEq V] (succ : V → List V) : ℕ → V → Marks V → Option (Marks V)
  | 0, _, _ => none
  | n + 1, v, p =>
    if v ∈ p.marked then some p
    else
      (markSteps (mark succ n) (succ v) ⟨p.marked ++ [v], p.done⟩).map fun p => ⟨p.marked, p.done ++ [v]⟩

/-- A successor of a successor, and so on. -/
def Leads (succ : V → List V) : V → V → Prop := ReflTransGen fun v w => w ∈ succ v

variable {succ : V → List V}

/-! ### One visit -/

/-- What a visit adds: vertices that it leads to, each marked and done once, whose successors are
marked unless they are among some others. -/
def Completes (succ : V → List V) (from_ : V → Prop) (p p' : Marks V) : Prop :=
  ∃ marked done, p'.marked = p.marked ++ marked ∧ p'.done = p.done ++ done ∧ done.Perm marked ∧
    marked.Nodup ∧ ∀ w ∈ marked, w ∉ p.marked ∧ from_ w ∧ ∀ u ∈ succ w, u ∈ p'.marked

theorem completes_refl (from_ : V → Prop) (p : Marks V) : Completes succ from_ p p := by
  refine ⟨[], [], (List.append_nil _).symm, (List.append_nil _).symm, List.Perm.nil, List.nodup_nil, ?_⟩
  exact fun w hw => absurd hw List.not_mem_nil

theorem Completes.mono {from_ from_' : V → Prop} {p p' : Marks V} (h : Completes succ from_ p p')
    (hmono : ∀ w, from_ w → from_' w) :
  Completes succ from_' p p'
  := by
  obtain ⟨marked, done, hmarked, hdone, hperm, hnodup, hall⟩ := h
  refine ⟨marked, done, hmarked, hdone, hperm, hnodup, fun w hw => ?_⟩
  obtain ⟨hnew, hfrom, hsucc⟩ := hall w hw
  exact ⟨hnew, hmono w hfrom, hsucc⟩

theorem Completes.mem {from_ : V → Prop} {p p' : Marks V} (h : Completes succ from_ p p') {w : V}
    (hw : w ∈ p.marked) :
  w ∈ p'.marked
  := by
  obtain ⟨marked, _, hmarked, _⟩ := h
  rw [hmarked]
  exact List.mem_append_left _ hw

theorem Completes.trans {from_ : V → Prop} {p₁ p₂ p₃ : Marks V} (h : Completes succ from_ p₁ p₂)
    (h' : Completes succ from_ p₂ p₃) :
  Completes succ from_ p₁ p₃
  := by
  have hmem := @h'.mem
  obtain ⟨marked, done, hmarked, hdone, hperm, hnodup, hall⟩ := h
  obtain ⟨marked', done', hmarked', hdone', hperm', hnodup', hall'⟩ := h'
  refine ⟨marked ++ marked', done ++ done', ?_, ?_, hperm.append hperm', ?_, ?_⟩
  · rw [hmarked', hmarked, List.append_assoc]
  · rw [hdone', hdone, List.append_assoc]
  · apply List.nodup_append.mpr
    refine ⟨hnodup, hnodup', fun a ha b hb hab => ?_⟩
    apply (hall' b hb).1
    rw [hmarked, ← hab]
    exact List.mem_append_right _ ha
  · intro w hw
    rcases List.mem_append.mp hw with hw | hw
    · obtain ⟨hnew, hfrom, hsucc⟩ := hall w hw
      exact ⟨hnew, hfrom, fun u hu => hmem (hsucc u hu)⟩
    · obtain ⟨hnew, hfrom, hsucc⟩ := hall' w hw
      refine ⟨fun hold => hnew ?_, hfrom, hsucc⟩
      rw [hmarked]
      exact List.mem_append_left _ hold

theorem markSteps_completes {mark : V → Marks V → Option (Marks V)} {from_ : V → Prop} {ws : List V}
    (hmark : ∀ w ∈ ws, ∀ p p', mark w p = some p' → w ∈ p'.marked ∧ Completes succ from_ p p')
    {p p' : Marks V} (h : markSteps mark ws p = some p') :
  (∀ w ∈ ws, w ∈ p'.marked) ∧ Completes succ from_ p p'
  := by
  induction ws generalizing p with
  | nil =>
    cases h
    exact ⟨fun w hw => absurd hw List.not_mem_nil, completes_refl _ _⟩
  | cons w ws ih =>
    obtain ⟨p₁, hfirst, hrest⟩ := Option.bind_eq_some_iff.mp h
    obtain ⟨hmem, hcompletes⟩ := hmark w List.mem_cons_self p p₁ hfirst
    obtain ⟨hmems, hcompletes'⟩ := ih (fun u hu => hmark u (List.mem_cons_of_mem _ hu)) hrest
    refine ⟨fun u hu => ?_, hcompletes.trans hcompletes'⟩
    rcases List.mem_cons.mp hu with rfl | hu
    · exact hcompletes'.mem hmem
    · exact hmems u hu

variable [DecidableEq V]

/-- A visit marks what its vertex leads to. -/
theorem mark_completes {n : ℕ} {v : V} {p p' : Marks V} (h : mark succ n v p = some p') :
  v ∈ p'.marked ∧ Completes succ (Leads succ v) p p'
  := by
  induction n generalizing v p p' with
  | zero => cases h
  | succ n ih =>
    unfold mark at h
    split_ifs at h with hmem
    · cases h
      exact ⟨hmem, completes_refl _ _⟩
    · obtain ⟨p₁, hsteps, rfl⟩ := Option.map_eq_some_iff.mp h
      have hmark : ∀ w ∈ succ v, ∀ p p', mark succ n w p = some p' →
          w ∈ p'.marked ∧ Completes succ (Leads succ v) p p' := by
        intro w hw p p' hp
        obtain ⟨hmem, hcompletes⟩ := ih hp
        exact ⟨hmem, hcompletes.mono fun u hu => ReflTransGen.head hw hu⟩
      obtain ⟨hsucc, marked, done, hmarked, hdone, hperm, hnodup, hall⟩ :=
        markSteps_completes hmark hsteps
      have hmarked' : p₁.marked = p.marked ++ (v :: marked) := by rw [hmarked]; simp
      refine ⟨?_, v :: marked, done ++ [v], hmarked', ?_, ?_, ?_, ?_⟩
      · dsimp only
        rw [hmarked']
        simp
      · dsimp only
        rw [hdone, List.append_assoc]
      · exact (List.perm_append_singleton v done).trans (hperm.cons v)
      · apply List.nodup_cons.mpr
        refine ⟨fun hv => (hall v hv).1 ?_, hnodup⟩
        exact List.mem_append_right _ (List.mem_singleton_self v)
      · intro w hw
        rcases List.mem_cons.mp hw with rfl | hw
        · exact ⟨hmem, ReflTransGen.refl, hsucc⟩
        · obtain ⟨hnew, hfrom, hclosed⟩ := hall w hw
          exact ⟨fun hold => hnew (List.mem_append_left _ hold), hfrom, hclosed⟩

/-- A traversal that ends marks the vertices its root leads to, each once. -/
theorem mark_mem_iff {n : ℕ} {v : V} {p : Marks V} (h : mark succ n v ⟨[], []⟩ = some p) :
  p.done.Perm p.marked ∧ p.marked.Nodup ∧ ∀ w, w ∈ p.marked ↔ Leads succ v w
  := by
  obtain ⟨hmem, marked, done, hmarked, hdone, hperm, hnodup, hall⟩ := mark_completes h
  rw [List.nil_append] at hmarked hdone
  subst hmarked hdone
  refine ⟨hperm, hnodup, fun w => ⟨fun hw => (hall w hw).2.1, fun hw => ?_⟩⟩
  induction hw with
  | refl => exact hmem
  | tail _ hedge ih => exact (hall _ ih).2.2 _ hedge

/-! ### Traversals that notice cycles -/

section

variable {W E : Type} [DecidableEq W] {G : Graph W E} {f : V → W} {reached : V → Prop}

/-- The vertices that are done are those of another traversal, and the marked ones are those that
wait or are done there. -/
structure Follows (f : V → W) (reached : V → Prop) (waiting done : List W) (p : Marks V) : Prop where
  done_eq : p.done.map f = done
  marked_iff : ∀ v, reached v → (v ∈ p.marked ↔ f v ∈ waiting ∨ f v ∈ done)

variable (hsucc : ∀ v, reached v → ∀ w ∈ succ v, reached w)
variable (hsteps : ∀ v, reached v → G.steps (f v) = (succ v).map fun w => .ok (f w))
variable (hinj : ∀ v w, reached v → reached w → f v = f w → v = w)

include hsucc hsteps hinj

/-- Where the other traversal ends without a cycle, the one with marks does the same vertices in
the same order. -/
theorem mark_of_visit {n : ℕ} {waiting done done' : List W} {v : V} {p : Marks V} (hv : reached v)
    (hp : Follows f reached waiting done p) (h : visit G n waiting (f v) done = .ok done') :
  ∃ p', mark succ n v p = some p' ∧ Follows f reached waiting done' p'
  := by
  induction n generalizing waiting done done' v p with
  | zero => cases h
  | succ n ih =>
    have hall (ws : List V) (hws : ∀ w ∈ ws, reached w) : ∀ waiting done done' p,
        Follows f reached waiting done p →
        visitSteps (visit G n waiting) (ws.map fun w => .ok (f w)) done = .ok done' →
        ∃ p', markSteps (mark succ n) ws p = some p' ∧ Follows f reached waiting done' p' := by
      induction ws with
      | nil =>
        intro waiting done done' p hp hvisit
        cases hvisit
        exact ⟨p, rfl, hp⟩
      | cons w ws ihws =>
        intro waiting done done' p hp hvisit
        rw [List.map_cons, visitSteps] at hvisit
        cases hfirst : visit G n waiting (f w) done with
        | error stop =>
          rw [hfirst] at hvisit
          cases hvisit
        | ok done₁ =>
          rw [hfirst] at hvisit
          obtain ⟨p₁, hp₁, hfollows₁⟩ := ih (hws w List.mem_cons_self) hp hfirst
          obtain ⟨p₂, hp₂, hfollows₂⟩ := ihws (fun u hu => hws u (List.mem_cons_of_mem _ hu))
            waiting done₁ done' p₁ hfollows₁ hvisit
          exact ⟨p₂, Option.bind_eq_some_iff.mpr ⟨p₁, hp₁, hp₂⟩, hfollows₂⟩
    unfold visit at h
    unfold mark
    split_ifs at h with hwaiting hdone
    · cases h
      rw [if_pos ((hp.marked_iff v hv).mpr (Or.inr hdone))]
      exact ⟨p, rfl, hp⟩
    · have hnew : v ∉ p.marked := by
        intro hmem
        exact ((hp.marked_iff v hv).mp hmem).elim hwaiting hdone
      rw [if_neg hnew]
      have hentered : Follows f reached (waiting ++ [f v]) done ⟨p.marked ++ [v], p.done⟩ := by
        refine ⟨hp.done_eq, fun u hu => ?_⟩
        have hsame : f u = f v ↔ u = v := ⟨hinj u v hu hv, fun heq => heq ▸ rfl⟩
        simp only [List.mem_append, List.mem_singleton, hp.marked_iff u hu, hsame]
        tauto
      cases hsteps' : visitSteps (visit G n (waiting ++ [f v])) (G.steps (f v)) done with
      | error stop =>
        rw [hsteps'] at h
        cases h
      | ok done₁ =>
        rw [hsteps'] at h
        cases hcheck : G.check (f v) with
        | some e =>
          rw [hcheck] at h
          cases h
        | none =>
          rw [hcheck] at h
          cases h
          rw [hsteps v hv] at hsteps'
          obtain ⟨p₁, hp₁, hfollows⟩ := hall (succ v) (hsucc v hv) _ _ _ _ hentered hsteps'
          refine ⟨⟨p₁.marked, p₁.done ++ [v]⟩, ?_, ?_, fun u hu => ?_⟩
          · rw [hp₁]
            rfl
          · rw [List.map_append, hfollows.done_eq]
            rfl
          · dsimp only
            rw [hfollows.marked_iff u hu]
            simp only [List.mem_append, List.mem_singleton]
            tauto

end

end PostOrder
