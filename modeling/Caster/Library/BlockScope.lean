import Mathlib.Data.List.Basic
import Mathlib.Tactic

/-!
# Block scopes

Code with declarations in nested blocks.  A declaration is in scope from the end of its own
declarator on, so that its initializer already sees it, up to the end of its block; inner blocks
shadow outer ones.  Every occurrence of an identifier says which object it is meant to name, and the
occurrences resolve to these objects exactly when no one stands in the scope of a later declaration
of its identifier.
-/

namespace BlockScope

/-- Code in a block.  Objects are numbered in the order of their declarations. -/
inductive Code (ν : Type) where
  | done
  /-- An identifier that is meant to name an object, if it is meant to name one at all. -/
  | use (id : ν) (obj : Option ℕ) (rest : Code ν)
  /-- A declaration with its initializer. -/
  | declare (id : ν) (obj : ℕ) (init rest : Code ν)
  | block (body rest : Code ν)
deriving DecidableEq

variable {ν : Type} [DecidableEq ν]

/-- The object an identifier names in an environment. -/
def lookup : List (ν × ℕ) → ν → Option ℕ
  | [], _ => none
  | (id', obj) :: env, id => if id' = id then some obj else lookup env id

/-- The occurrences in code. -/
def Code.uses : Code ν → List (ν × Option ℕ)
  | .done => []
  | .use id obj rest => (id, obj) :: rest.uses
  | .declare _ _ init rest => init.uses ++ rest.uses
  | .block body rest => body.uses ++ rest.uses

/-- Every occurrence resolves to its object, and that object has its value, in an environment, with
the identifiers that the block has declared and the objects whose initializers are being evaluated.
A block may not declare an identifier twice. -/
def Code.Resolves (env : List (ν × ℕ)) (declared : List ν) (pending : List ℕ) : Code ν → Prop
  | .done => True
  | .use id obj rest =>
    (∃ o, obj = some o ∧ lookup env id = some o ∧ o ∉ pending) ∧ rest.Resolves env declared pending
  | .declare id obj init rest =>
    id ∉ declared ∧ init.Resolves ((id, obj) :: env) declared (obj :: pending) ∧
      rest.Resolves ((id, obj) :: env) (id :: declared) pending
  | .block body rest => body.Resolves env [] pending ∧ rest.Resolves env declared pending

/-- No occurrence of an earlier object stands in the scope of a declaration of its identifier. -/
def Code.Hygienic : Code ν → Prop
  | .done => True
  | .use _ _ rest => rest.Hygienic
  | .declare id obj init rest =>
    (∀ o, (id, some o) ∈ init.uses ++ rest.uses → obj ≤ o) ∧ init.Hygienic ∧ rest.Hygienic
  | .block body rest => body.Hygienic ∧ rest.Hygienic

/-- No block declares an identifier twice. -/
def Code.Distinct (declared : List ν) : Code ν → Prop
  | .done => True
  | .use _ _ rest => rest.Distinct declared
  | .declare id _ init rest => id ∉ declared ∧ init.Distinct declared ∧ rest.Distinct (id :: declared)
  | .block body rest => body.Distinct [] ∧ rest.Distinct declared

/-- Every occurrence is meant to name an object of an environment or of a declaration before it, and
the objects that are declared have numbers from a given one on. -/
def Code.WellScoped (env : List (ν × ℕ)) (next : ℕ) : Code ν → Prop
  | .done => True
  | .use id obj rest => (∀ o, obj = some o → (id, o) ∈ env) ∧ rest.WellScoped env next
  | .declare id obj init rest =>
    next ≤ obj ∧ init.WellScoped env (obj + 1) ∧ rest.WellScoped ((id, obj) :: env) (obj + 1)
  | .block body rest => body.WellScoped env next ∧ rest.WellScoped env next

/-! ### Environments -/

theorem mem_of_lookup {env : List (ν × ℕ)} {id : ν} {o : ℕ}
    (h : lookup env id = some o) :
  (id, o) ∈ env
  := by
  induction env with
  | nil => cases h
  | cons decl env ih =>
    rw [lookup] at h
    split at h
    · rename_i heq
      cases h
      cases heq
      exact List.mem_cons_self
    · exact List.mem_cons_of_mem _ (ih h)

theorem lookup_of_mem {env : List (ν × ℕ)} (hnodup : (env.map Prod.fst).Nodup) {id : ν}
    {o : ℕ} (h : (id, o) ∈ env) :
  lookup env id = some o
  := by
  induction env with
  | nil => cases h
  | cons decl env ih =>
    rw [List.map_cons, List.nodup_cons] at hnodup
    rw [lookup]
    rcases List.mem_cons.mp h with rfl | h
    · rw [if_pos rfl]
    · rw [if_neg, ih hnodup.2 h]
      intro heq
      exact hnodup.1 (heq ▸ List.mem_map_of_mem h)

omit [DecidableEq ν] in
/-- Code that is well scoped is so in a larger environment, and with smaller numbers. -/
theorem Code.WellScoped.weaken {c : Code ν} {env env' : List (ν × ℕ)} {next next' : ℕ}
    (h : c.WellScoped env next) (henv : ∀ e ∈ env, e ∈ env') (hnext : next' ≤ next) :
  c.WellScoped env' next'
  := by
  induction c generalizing env env' next next' with
  | done => trivial
  | use id obj rest ih => exact ⟨fun o ho => henv _ (h.1 o ho), ih h.2 henv hnext⟩
  | declare id obj init rest ihInit ihRest =>
    obtain ⟨hobj, hinit, hrest⟩ := h
    refine ⟨le_trans hnext hobj, ihInit hinit henv (le_refl _), ihRest hrest ?_ (le_refl _)⟩
    intro e he
    rcases List.mem_cons.mp he with rfl | he
    · exact List.mem_cons_self
    · exact List.mem_cons_of_mem _ (henv e he)
  | block body rest ihBody ihRest => exact ⟨ihBody h.1 henv hnext, ihRest h.2 henv hnext⟩

omit [DecidableEq ν] in
/-- An object that is used is in the environment or declared in the code. -/
theorem Code.WellScoped.mem_or_le {c : Code ν} {env : List (ν × ℕ)} {next : ℕ}
    (h : c.WellScoped env next) {id : ν} {o : ℕ} (huse : (id, some o) ∈ c.uses) :
  (id, o) ∈ env ∨ next ≤ o
  := by
  induction c generalizing env next with
  | done => cases huse
  | use id' obj rest ih =>
    rcases List.mem_cons.mp huse with heq | huse
    · cases heq
      exact Or.inl (h.1 o rfl)
    · exact ih h.2 huse
  | declare id' obj init rest ihInit ihRest =>
    obtain ⟨hobj, hinit, hrest⟩ := h
    rcases List.mem_append.mp huse with huse | huse
    · rcases ihInit hinit huse with hmem | hle
      · exact Or.inl hmem
      · exact Or.inr (by omega)
    · rcases ihRest hrest huse with hmem | hle
      · rcases List.mem_cons.mp hmem with heq | hmem
        · cases heq
          exact Or.inr hobj
        · exact Or.inl hmem
      · exact Or.inr (by omega)
  | block body rest ihBody ihRest =>
    rcases List.mem_append.mp huse with huse | huse
    · exact ihBody h.1 huse
    · exact ihRest h.2 huse

/-! ### Resolution -/

/-- The occurrences of objects of an environment find them in another one. -/
def Code.Finds (env scope : List (ν × ℕ)) (c : Code ν) : Prop :=
  ∀ id o, (id, some o) ∈ c.uses → (id, o) ∈ env → lookup scope id = some o

/-- In the scope of a declaration, the objects of the environment are found when those outside are,
and no earlier object is used under the identifier. -/
theorem finds_cons_iff (scope : List (ν × ℕ)) (id : ν) {env env' : List (ν × ℕ)} {obj next : ℕ}
    {c : Code ν}
    (hscoped : c.WellScoped env' next) (hobj : obj ≤ next)
    (henv : ∀ e ∈ env, e.2 < obj) (hsub : ∀ e ∈ env, e ∈ env')
    (henv' : ∀ e ∈ env', e = (id, obj) ∨ e ∈ env) :
  c.Finds env' ((id, obj) :: scope) ↔
    c.Finds env scope ∧ ∀ o, (id, some o) ∈ c.uses → obj ≤ o
  := by
  constructor
  · intro h
    constructor
    · intro id' o huse hmem
      have hfound := h id' o huse (hsub _ hmem)
      rw [lookup] at hfound
      split at hfound
      · cases hfound
        exact absurd (henv _ hmem) (lt_irrefl _)
      · exact hfound
    · intro o huse
      by_contra hlt
      rcases hscoped.mem_or_le huse with hmem | hle
      · have hfound := h id o huse hmem
        rw [lookup, if_pos rfl] at hfound
        cases hfound
        exact hlt (le_refl _)
      · omega
  · rintro ⟨h, hle⟩ id' o huse hmem
    rcases henv' _ hmem with heq | hmem
    · cases heq
      rw [lookup, if_pos rfl]
    · rw [lookup]
      split
      · rename_i heq
        subst heq
        exact absurd (henv _ hmem) (not_lt.mpr (hle o huse))
      · exact h id' o huse hmem

/-- Every occurrence resolves to its object exactly when it is meant to name one, the objects of the
environment are found, no occurrence stands in the scope of a later declaration of its identifier,
and no block declares an identifier twice. -/
theorem resolves_iff {c : Code ν} {env scope : List (ν × ℕ)} {declared : List ν} {pending : List ℕ}
    {next : ℕ} (hscoped : c.WellScoped env next) (hsub : ∀ e ∈ env, e ∈ scope)
    (hscope : ∀ e ∈ scope, e.2 < next) (hpending : ∀ e ∈ env, e.2 ∉ pending)
    (hlt : ∀ o ∈ pending, o < next) :
  c.Resolves scope declared pending ↔
    (∀ use ∈ c.uses, use.2 ≠ none) ∧ c.Finds env scope ∧ c.Hygienic ∧ c.Distinct declared
  := by
  induction c generalizing env scope declared pending next with
  | done => simp [Code.Resolves, Code.uses, Code.Finds, Code.Hygienic, Code.Distinct]
  | use id obj rest ih =>
    obtain ⟨hobj, hrest⟩ := hscoped
    rw [Code.Resolves, ih hrest hsub hscope hpending hlt]
    simp only [Code.uses, List.forall_mem_cons, Code.Finds, Code.Hygienic, Code.Distinct]
    cases obj with
    | none => simp
    | some o =>
      have hmem := hobj o rfl
      have hnot := hpending _ hmem
      constructor
      · rintro ⟨⟨o', heq, hfound, -⟩, hnone, hfinds, hrest⟩
        cases heq
        refine ⟨⟨by simp, hnone⟩, ?_, hrest⟩
        intro id' o' huse hmem'
        rcases List.mem_cons.mp huse with heq | huse
        · cases heq
          exact hfound
        · exact hfinds id' o' huse hmem'
      · rintro ⟨⟨-, hnone⟩, hfinds, hrest⟩
        refine ⟨⟨o, rfl, hfinds id o List.mem_cons_self hmem, hnot⟩, hnone, ?_, hrest⟩
        exact fun id' o' huse hmem' => hfinds id' o' (List.mem_cons_of_mem _ huse) hmem'
  | declare id obj init rest ihInit ihRest =>
    obtain ⟨hobj, hinit, hrest⟩ := hscoped
    have henv : ∀ e ∈ env, e.2 < obj := fun e he => lt_of_lt_of_le (hscope e (hsub e he)) hobj
    have hscope' : ∀ e ∈ (id, obj) :: scope, e.2 < obj + 1 := by
      intro e he
      rcases List.mem_cons.mp he with rfl | he
      · exact Nat.lt_succ_self _
      · have := hscope e he
        omega
    have hinitIff : init.Resolves ((id, obj) :: scope) declared (obj :: pending) ↔ _ :=
      ihInit hinit (fun e he => List.mem_cons_of_mem _ (hsub e he)) hscope' (by
        intro e he hmem
        rcases List.mem_cons.mp hmem with heq | hmem
        · exact absurd (henv e he) (by rw [heq]; exact lt_irrefl _)
        · exact hpending e he hmem) (by
        intro o ho
        rcases List.mem_cons.mp ho with rfl | ho
        · exact Nat.lt_succ_self _
        · have := hlt o ho
          omega)
    have hrestIff : rest.Resolves ((id, obj) :: scope) (id :: declared) pending ↔ _ :=
      ihRest hrest (by
        intro e he
        rcases List.mem_cons.mp he with rfl | he
        · exact List.mem_cons_self
        · exact List.mem_cons_of_mem _ (hsub e he)) hscope' (by
        intro e he
        rcases List.mem_cons.mp he with rfl | he
        · intro hmem
          have := hlt _ hmem
          omega
        · exact hpending e he) (fun o ho => by have := hlt o ho; omega)
    have hfindsInit := finds_cons_iff scope id hinit (Nat.le_succ _) henv
      (fun e he => he) (fun e he => Or.inr he)
    have hfindsRest := finds_cons_iff scope id hrest (Nat.le_succ _) henv
      (fun e he => List.mem_cons_of_mem _ he) (fun e he => List.mem_cons.mp he)
    rw [Code.Resolves, hinitIff, hrestIff, hfindsInit, hfindsRest]
    simp only [Code.uses, Code.Hygienic, Code.Distinct, Code.Finds,
      List.mem_append]
    grind
  | block body rest ihBody ihRest =>
    rw [Code.Resolves, ihBody hscoped.1 hsub hscope hpending hlt,
      ihRest hscoped.2 hsub hscope hpending hlt]
    simp only [Code.uses, Code.Hygienic, Code.Distinct, Code.Finds,
      List.mem_append]
    grind

end BlockScope
