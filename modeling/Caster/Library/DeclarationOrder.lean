import Mathlib.Data.List.Basic
import Mathlib.Tactic

/-!
# Declaration before use

Lines that declare names and complete them, as the type declarations of a C file do: a name
may be mentioned behind its declaration, and its layout may be used behind its completion.
-/

namespace DeclarationOrder

variable {N : Type}

/-- What a line mentions, whose layout it uses, and what it declares and completes. -/
structure Line (N : Type) where
  mentions : List N
  layouts : List N
  declares : List N
  completes : List N

/-- The names that are declared and those that are complete. -/
structure Scope (N : Type) where
  declared : List N
  complete : List N

/-- The scope behind a line. -/
def Scope.behind (s : Scope N) (line : Line N) : Scope N where
  declared := s.declared ++ line.declares
  complete := s.complete ++ line.completes

/-- The scope behind some lines. -/
def Scope.behindAll (s : Scope N) (ls : List (Line N)) : Scope N := ls.foldl Scope.behind s

/-- A line mentions declared names only, and uses the layout of complete ones only. -/
structure InScope (s : Scope N) (line : Line N) : Prop where
  mentions : ∀ n ∈ line.mentions, n ∈ s.declared
  layouts : ∀ n ∈ line.layouts, n ∈ s.complete

theorem inScope_iff {s : Scope N} {line : Line N} : InScope s line ↔
    (∀ n ∈ line.mentions, n ∈ s.declared) ∧ ∀ n ∈ line.layouts, n ∈ s.complete
  := ⟨fun h => ⟨h.mentions, h.layouts⟩, fun h => ⟨h.1, h.2⟩⟩

/-- Every line fits the scope behind the lines before it. -/
def WellOrdered : Scope N → List (Line N) → Prop
  | _, [] => True
  | s, line :: ls => InScope s line ∧ WellOrdered (s.behind line) ls

instance [DecidableEq N] (s : Scope N) (line : Line N) : Decidable (InScope s line) := decidable_of_iff _ inScope_iff.symm

instance decidableWellOrdered [DecidableEq N] : (s : Scope N) → (ls : List (Line N)) →
    Decidable (WellOrdered s ls)
  | _, [] => inferInstanceAs (Decidable True)
  | s, line :: ls =>
    have := decidableWellOrdered (s.behind line) ls
    inferInstanceAs (Decidable (InScope s line ∧ WellOrdered (s.behind line) ls))

variable {s : Scope N} {ls ls' : List (Line N)}

@[simp] theorem behindAll_nil : s.behindAll [] = s := rfl

theorem behindAll_append (s : Scope N) (ls ls' : List (Line N)) :
  s.behindAll (ls ++ ls') = (s.behindAll ls).behindAll ls'
  := List.foldl_append

/-- The names behind some lines are those before them and those the lines declare or complete. -/
theorem behindAll_eq (s : Scope N) (ls : List (Line N)) :
  s.behindAll ls = ⟨s.declared ++ ls.flatMap Line.declares, s.complete ++ ls.flatMap Line.completes⟩
  := by
  induction ls generalizing s with
  | nil => simp [Scope.behindAll]
  | cons line ls ih =>
    change (s.behind line).behindAll ls = _
    rw [ih]
    simp [Scope.behind]

theorem wellOrdered_append : WellOrdered s (ls ++ ls') ↔
    WellOrdered s ls ∧ WellOrdered (s.behindAll ls) ls'
  := by
  induction ls generalizing s with
  | nil => simp [WellOrdered]
  | cons line ls ih =>
    simp only [List.cons_append, WellOrdered, ih, and_assoc]
    rfl

/-- Lines are well ordered when each fits the scope behind those before it. -/
theorem wellOrdered_iff : WellOrdered s ls ↔
    ∀ before line behind, ls = before ++ line :: behind → InScope (s.behindAll before) line
  := by
  constructor
  · rintro h before line behind rfl
    exact (wellOrdered_append.mp h).2.1
  · intro h
    induction ls generalizing s with
    | nil => exact trivial
    | cons line ls ih =>
      refine ⟨h [] line ls rfl, ih fun before other behind heq => ?_⟩
      exact h (line :: before) other behind (by rw [heq, List.cons_append])

/-- Lines that are made of items are well ordered when the line of each item fits the scope
behind the items before it. -/
theorem wellOrdered_map_iff {α : Type} {f : α → Line N} {items : List α} : WellOrdered s (items.map f) ↔
    ∀ before item behind, items = before ++ item :: behind → InScope (s.behindAll (before.map f)) (f item)
  := by
  rw [wellOrdered_iff]
  constructor
  · rintro h before item behind rfl
    exact h (before.map f) (f item) (behind.map f) (by simp)
  · intro h before line behind heq
    obtain ⟨items₁, items₂, rfl, rfl, hline⟩ := List.map_eq_append_iff.mp heq
    obtain ⟨item, items₃, rfl, rfl, rfl⟩ := List.map_eq_cons_iff.mp hline
    exact h items₁ item items₃ rfl

/-- Lines that declare nothing are well ordered when each fits the scope before them. -/
theorem wellOrdered_iff_of_declares_nil (h : ∀ line ∈ ls, line.declares = [] ∧ line.completes = []) :
  WellOrdered s ls ↔ ∀ line ∈ ls, InScope s line
  := by
  have hscope : ∀ ls' : List (Line N), (∀ line ∈ ls', line ∈ ls) → s.behindAll ls' = s := by
    intro ls' hsub
    rw [behindAll_eq]
    have hdeclares : ls'.flatMap Line.declares = [] :=
      List.flatMap_eq_nil_iff.mpr fun line hline => (h line (hsub line hline)).1
    have hcompletes : ls'.flatMap Line.completes = [] :=
      List.flatMap_eq_nil_iff.mpr fun line hline => (h line (hsub line hline)).2
    rw [hdeclares, hcompletes, List.append_nil, List.append_nil]
  rw [wellOrdered_iff]
  constructor
  · intro hinScope line hline
    obtain ⟨before, behind, rfl⟩ := List.append_of_mem hline
    rw [← hscope before fun l hl => List.mem_append_left _ hl]
    exact hinScope before line behind rfl
  · rintro hinScope before line behind rfl
    rw [hscope before fun l hl => List.mem_append_left _ hl]
    exact hinScope line (List.mem_append_right _ List.mem_cons_self)

end DeclarationOrder
