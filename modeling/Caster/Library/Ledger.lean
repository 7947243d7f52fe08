import Mathlib.Data.List.Range
import Mathlib.Data.List.Perm.Basic
import Mathlib.Tactic

/-!
# Ledgers of fresh allocations

Allocations are numbered in the order they are made, so the allocations made while a
computation runs are those between the counter at its start and the counter at its end.
A list of released allocations is `Exact` for a run when it releases each allocation of the
run once and nothing else.

When every release is older than a mark or belongs to its own run, being exact can be
checked run by run: a list of releases is exact for consecutive runs if and only if its
parts are exact for them.
-/

namespace Ledger

/-- The list `l` releases every allocation numbered from `n` up to `n'` once, and nothing
else. -/
def Exact (l : List ℕ) (n n' : ℕ) : Prop :=
  l.Perm (List.range' n (n' - n))

/-- The releases in `l` are older than the mark `n₀` or made between `n` and `n'`. -/
def Within (n₀ : ℕ) (l : List ℕ) (n n' : ℕ) : Prop :=
  ∀ a ∈ l, a < n₀ ∨ (n ≤ a ∧ a < n')

/-! ### Exact lists -/

/-- The empty list is exact for a run that allocates nothing. -/
theorem Exact.nil_iff {n n' : ℕ} (hn : n ≤ n') :
  Exact [] n n' ↔ n' = n
  := by
  constructor
  · intro h
    have hlen := h.length_eq
    rw [List.length_nil, List.length_range'] at hlen
    omega
  · rintro rfl
    simp [Exact]

/-- Membership in an exact list is membership in the range. -/
theorem Exact.mem_iff {l : List ℕ} {n n' a : ℕ} (h : Exact l n n') (hn : n ≤ n') :
  a ∈ l ↔ n ≤ a ∧ a < n'
  := by
  rw [List.Perm.mem_iff h, List.mem_range'_1]
  omega

theorem Exact.nodup {l : List ℕ} {n n' : ℕ} (h : Exact l n n') :
  l.Nodup
  := (List.Perm.nodup_iff h).mpr (List.nodup_range' ..)

/-- An exact list is one without repetitions whose members are the range. -/
theorem Exact.of_mem_iff {l : List ℕ} {n n' : ℕ} (hn : n ≤ n') (hl : l.Nodup)
    (h : ∀ a, a ∈ l ↔ n ≤ a ∧ a < n') :
  Exact l n n'
  := by
  apply (List.perm_ext_iff_of_nodup hl (List.nodup_range' ..)).mpr
  intro a
  rw [h, List.mem_range'_1]
  omega

/-! ### Lists within a run -/

theorem Within.nil (n₀ n n' : ℕ) : Within n₀ [] n n' := by
  simp [Within]

theorem Within.singleton (n₀ : ℕ) {a n n' : ℕ} (ha : n ≤ a ∧ a < n') :
  Within n₀ [a] n n'
  := by
  intro b hb
  rw [List.mem_singleton.mp hb]
  exact Or.inr ha

/-- A list within an earlier and a list within a later part of a run join. -/
theorem Within.append {n₀ : ℕ} {l₁ l₂ : List ℕ} {n n' n'' : ℕ}
    (h₁ : Within n₀ l₁ n n') (h₂ : Within n₀ l₂ n' n'') (hn : n ≤ n') (hn' : n' ≤ n'') :
  Within n₀ (l₁ ++ l₂) n n''
  := by
  intro a ha
  rcases List.mem_append.mp ha with ha | ha
  · have := h₁ a ha
    omega
  · have := h₂ a ha
    omega

/-- A list older than the mark is within every run. -/
theorem Within.of_lt {n₀ : ℕ} {l : List ℕ} (h : ∀ a ∈ l, a < n₀) (n n' : ℕ) :
  Within n₀ l n n'
  := fun a ha => Or.inl (h a ha)

/-! ### Runs joined -/

/-- Releases that are each within their own run are exact for both runs joined if and only
if they are exact for each. -/
theorem Exact.append_iff {n₀ : ℕ} {l₁ l₂ : List ℕ} {n n' n'' : ℕ}
    (h₁ : Within n₀ l₁ n n') (h₂ : Within n₀ l₂ n' n'') (h₀ : n₀ ≤ n)
    (hn : n ≤ n') (hn' : n' ≤ n'') :
  Exact (l₁ ++ l₂) n n'' ↔ Exact l₁ n n' ∧ Exact l₂ n' n''
  := by
  constructor
  · intro h
    obtain ⟨hl₁, hl₂, hdisjoint⟩ := List.nodup_append.mp h.nodup
    have hmem : ∀ a, a ∈ l₁ ∨ a ∈ l₂ ↔ n ≤ a ∧ a < n'' := by
      intro a
      rw [← List.mem_append, h.mem_iff (le_trans hn hn')]
    constructor
    · apply Exact.of_mem_iff hn hl₁
      intro a
      have := hmem a
      have := h₁ a
      have := h₂ a
      grind
    · apply Exact.of_mem_iff hn' hl₂
      intro a
      have := hmem a
      have := h₁ a
      have := h₂ a
      grind
  · rintro ⟨h₁, h₂⟩
    have hsplit : List.range' n (n' - n) ++ List.range' n' (n'' - n')
        = List.range' n (n'' - n) := by
      have hstart : n' = n + 1 * (n' - n) := by omega
      have hlen : n'' - n = (n' - n) + (n'' - n') := by omega
      rw [hlen, ← List.range'_append, ← hstart]
    have h := List.Perm.append h₁ h₂
    rw [hsplit] at h
    exact h

/-- Releasing the first allocation of a run after the others are released. -/
theorem Exact.concat_iff {n₀ : ℕ} {l : List ℕ} {n n' : ℕ}
    (h : Within n₀ l (n + 1) n') (h₀ : n₀ ≤ n) (hn : n + 1 ≤ n') :
  Exact (l ++ [n]) n n' ↔ Exact l (n + 1) n'
  := by
  have hperm : Exact (l ++ [n]) n n' ↔ Exact ([n] ++ l) n n' := by
    unfold Exact
    constructor
    · exact fun h => List.Perm.trans List.perm_append_comm h
    · exact fun h => List.Perm.trans List.perm_append_comm h
  have hfirst : Exact [n] n (n + 1) := by simp [Exact]
  rw [hperm, Exact.append_iff (Within.singleton n₀ (by omega)) h h₀ (by omega) hn]
  simp [hfirst]

/-! ### Settled runs -/

/-- The releases stay within a run, and a test decides whether they are exact for it. -/
structure Settles (n₀ : ℕ) (l : List ℕ) (n n' : ℕ) (test : Bool) : Prop where
  within : Within n₀ l n n'
  exact_iff : Exact l n n' ↔ test = true

/-- Nothing is released after a run that may allocate. -/
theorem Settles.nil (n₀ : ℕ) {n n' : ℕ} {test : Bool} (hn : n ≤ n')
    (h : n' = n ↔ test = true) :
  Settles n₀ [] n n' test
  := by
  constructor
  · apply Within.nil
  · rw [Exact.nil_iff hn, h]

/-- Old allocations are released after a run that allocates nothing. -/
theorem Settles.old {n₀ n : ℕ} {l : List ℕ} {test : Bool} (hl : ∀ a ∈ l, a < n₀)
    (h : l = [] ↔ test = true) :
  Settles n₀ l n n test
  := by
  constructor
  · exact Within.of_lt hl n n
  · rw [← h]
    simp [Exact]

/-- The first allocation of a run is released after the others. -/
theorem Settles.concat {n₀ : ℕ} {l : List ℕ} {n n' : ℕ} {test : Bool}
    (h : Settles n₀ l (n + 1) n' test) (h₀ : n₀ ≤ n) (hn : n + 1 ≤ n') :
  Settles n₀ (l ++ [n]) n n' test
  := by
  constructor
  · intro a ha
    rcases List.mem_append.mp ha with ha | ha
    · have := h.within a ha
      omega
    · rw [List.mem_singleton.mp ha]
      omega
  · rw [Exact.concat_iff h.within h₀ hn]
    exact h.exact_iff

/-- Two consecutive runs are settled part by part. -/
theorem Settles.append {n₀ : ℕ} {l₁ l₂ : List ℕ} {n n' n'' : ℕ} {test₁ test₂ : Bool}
    (h₁ : Settles n₀ l₁ n n' test₁) (h₂ : Settles n₀ l₂ n' n'' test₂) (h₀ : n₀ ≤ n)
    (hn : n ≤ n') (hn' : n' ≤ n'') :
  Settles n₀ (l₁ ++ l₂) n n'' (test₁ && test₂)
  := by
  constructor
  · exact h₁.within.append h₂.within hn hn'
  · rw [Exact.append_iff h₁.within h₂.within h₀ hn hn', h₁.exact_iff, h₂.exact_iff,
      Bool.and_eq_true]

end Ledger
