import Mathlib.Data.List.TakeWhile
import Mathlib.Tactic

/-!
# Sequences cut at a mark

The part of a sequence before the first occurrence of a value, and the part from there on.
-/

namespace Marks

variable {α : Type} [DecidableEq α] {mark : α} {before : List α}

theorem decide_ne_of_not_mem (h : mark ∉ before) : ∀ c ∈ before, decide (c ≠ mark) = true := by
  intro c hc
  rw [decide_eq_true_eq]
  exact ne_of_mem_of_not_mem hc h

/-- A part without the mark is before the first mark. -/
theorem takeWhile_append (h : mark ∉ before) (rest : List α) :
    (before ++ rest).takeWhile (· ≠ mark) = before ++ rest.takeWhile (· ≠ mark) :=
  List.takeWhile_append_of_pos (decide_ne_of_not_mem h)

theorem dropWhile_append (h : mark ∉ before) (rest : List α) :
    (before ++ rest).dropWhile (· ≠ mark) = rest.dropWhile (· ≠ mark) :=
  List.dropWhile_append_of_pos (decide_ne_of_not_mem h)

/-- A sequence is cut at the mark behind a part without it. -/
theorem takeWhile_append_mark (h : mark ∉ before) (rest : List α) :
    (before ++ mark :: rest).takeWhile (· ≠ mark) = before := by
  rw [takeWhile_append h, List.takeWhile_cons_of_neg (by simp), List.append_nil]

theorem dropWhile_append_mark (h : mark ∉ before) (rest : List α) :
    (before ++ mark :: rest).dropWhile (· ≠ mark) = mark :: rest := by
  rw [dropWhile_append h, List.dropWhile_cons_of_neg (by simp)]

/-- A sequence without the mark is not cut. -/
theorem takeWhile_of_not_mem (h : mark ∉ before) : before.takeWhile (· ≠ mark) = before :=
  List.takeWhile_eq_self_iff.mpr (decide_ne_of_not_mem h)

theorem dropWhile_of_not_mem (h : mark ∉ before) : before.dropWhile (· ≠ mark) = [] :=
  List.dropWhile_eq_nil_iff.mpr (decide_ne_of_not_mem h)

/-- A sequence is cut at its last mark in one way. -/
theorem append_mark_inj {before' behind behind' : List α} (hbehind : mark ∉ behind)
    (hbehind' : mark ∉ behind') (h : before ++ mark :: behind = before' ++ mark :: behind') :
    before = before' ∧ behind = behind' := by
  have hreverse := congrArg List.reverse h
  simp only [List.reverse_append, List.reverse_cons, List.append_assoc, List.singleton_append] at hreverse
  have hlast : behind.reverse = behind'.reverse := by
    have hcut := takeWhile_append_mark (List.mem_reverse.not.mpr hbehind) before.reverse
    rw [hreverse, takeWhile_append_mark (List.mem_reverse.not.mpr hbehind')] at hcut
    exact hcut.symm
  rw [hlast] at hreverse
  have hfirst := (List.cons_inj_right _).mp (List.append_cancel_left hreverse)
  exact ⟨List.reverse_injective hfirst, List.reverse_injective hlast⟩

end Marks
