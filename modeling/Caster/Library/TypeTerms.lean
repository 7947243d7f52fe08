import Mathlib.Tactic

/-!
# Type terms with aliases

Terms with constructors of one and of two arguments over leaves, some of which are other names of
terms.  Full expansion replaces every alias by what it stands for, at any depth.
-/

namespace TypeTerms

/-- A term over leaves `L` with constructors of one argument `U` and of two arguments `B`. -/
inductive Term (L U B : Type) where
  | leaf (l : L)
  | unary (u : U) (inner : Term L U B)
  | binary (b : B) (first second : Term L U B)

variable {L U B : Type}

namespace Term

/-- The leaves of a term, from left to right. -/
def leaves : Term L U B → List L
  | leaf l => [l]
  | unary _ inner => leaves inner
  | binary _ first second => leaves first ++ leaves second

/-- The leaves of a term are changed. -/
def map (f : L → L) : Term L U B → Term L U B
  | leaf l => leaf (f l)
  | unary u inner => unary u (map f inner)
  | binary b first second => binary b (map f first) (map f second)

theorem leaves_map (f : L → L) (t : Term L U B) : (t.map f).leaves = t.leaves.map f := by
  induction t with
  | leaf l => rfl
  | unary u inner ih => exact ih
  | binary b first second ih ih' => rw [map, leaves, leaves, ih, ih', List.map_append]

end Term

variable (standsFor : L → Term L U B → Prop)

/-- A term with a full expansion. -/
inductive Expands : Term L U B → Term L U B → Prop where
  | leaf {l : L} : (∀ t, ¬ standsFor l t) → Expands (.leaf l) (.leaf l)
  | step {l : L} {t e : Term L U B} : standsFor l t → Expands t e → Expands (.leaf l) e
  | unary {u : U} {inner e : Term L U B} : Expands inner e → Expands (.unary u inner) (.unary u e)
  | binary {b : B} {first second e e' : Term L U B} : Expands first e → Expands second e' →
      Expands (.binary b first second) (.binary b e e')

/-- A leaf is used in what another one stands for. -/
def UsedIn (l l' : L) : Prop := ∃ t, standsFor l' t ∧ l ∈ t.leaves

variable {standsFor} {t e e' : Term L U B}

/-- Where an alias stands for one term, a term has one full expansion. -/
theorem Expands.unique (hunique : ∀ l t t', standsFor l t → standsFor l t' → t = t')
    (h : Expands standsFor t e) (h' : Expands standsFor t e') :
    e = e' := by
  induction h generalizing e' with
  | leaf hnone =>
    cases h' with
    | leaf => rfl
    | step hstep _ => exact absurd hstep (hnone _)
  | step hstep _ ih =>
    cases h' with
    | leaf hnone => exact absurd hstep (hnone _)
    | step hstep' h' =>
      rw [hunique _ _ _ hstep' hstep] at h'
      exact ih h'
  | unary _ ih =>
    cases h' with
    | unary h' => rw [ih h']
  | binary _ _ ih ih' =>
    cases h' with
    | binary h h' => rw [ih h, ih' h']

theorem exists_expands_of_leaves (h : ∀ l ∈ t.leaves, ∃ e, Expands standsFor (.leaf l) e) :
    ∃ e, Expands standsFor t e := by
  induction t with
  | leaf l => exact h l (List.mem_singleton_self l)
  | unary u inner ih =>
    obtain ⟨e, he⟩ := ih h
    exact ⟨_, .unary he⟩
  | binary b first second ih ih' =>
    obtain ⟨e, he⟩ := ih fun l hl => h l (List.mem_append_left _ hl)
    obtain ⟨e', he'⟩ := ih' fun l hl => h l (List.mem_append_right _ hl)
    exact ⟨_, .binary he he'⟩

/-- Where no alias is used in what it stands for, every term has a full expansion. -/
theorem exists_expands (hacyclic : WellFounded (UsedIn standsFor)) (t : Term L U B) :
    ∃ e, Expands standsFor t e := by
  have hleaf : ∀ l, ∃ e, Expands standsFor (.leaf l) e := by
    intro l
    induction l using hacyclic.induction with
    | _ l ih =>
    by_cases hl : ∃ t, standsFor l t
    · obtain ⟨t, ht⟩ := hl
      obtain ⟨e, he⟩ := exists_expands_of_leaves fun l' hl' => ih l' ⟨t, ht, hl'⟩
      exact ⟨e, .step ht he⟩
    · exact ⟨_, .leaf (not_exists.mp hl)⟩
  exact exists_expands_of_leaves fun l _ => hleaf l

end TypeTerms
