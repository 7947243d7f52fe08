import Mathlib.Data.List.Infix
import Mathlib.Tactic

/-!
# Splitting at a separator

The parts of a list between the occurrences of a separator that are found from left to right and do not
overlap.
-/

namespace Splitting

variable {α : Type}

/-- A separator that is not empty is found at the start of a list. -/
def Starts (sep xs : List α) : Prop := sep ≠ [] ∧ sep <+: xs

instance [DecidableEq α] (sep xs : List α) : Decidable (Starts sep xs) := inferInstanceAs (Decidable (_ ∧ _))

theorem Starts.length_drop_lt {sep : List α} {x : α} {xs : List α} (h : Starts sep (x :: xs)) :
    ((x :: xs).drop sep.length).length < (x :: xs).length := by
  have hpos := List.length_pos_iff.mpr h.1
  simp only [List.length_drop, List.length_cons]
  omega

variable [DecidableEq α]

/-- The parts of a list. -/
def parts (sep : List α) : List α → List (List α)
  | [] => [[]]
  | x :: xs =>
    if h : Starts sep (x :: xs) then [] :: parts sep ((x :: xs).drop sep.length)
    else (parts sep xs).modifyHead (x :: ·)
termination_by xs => xs.length
decreasing_by
  · exact h.length_drop_lt
  · simp

/-- The number of occurrences of a separator. -/
def occurrences (sep : List α) : List α → ℕ
  | [] => 0
  | x :: xs =>
    if h : Starts sep (x :: xs) then occurrences sep ((x :: xs).drop sep.length) + 1
    else occurrences sep xs
termination_by xs => xs.length
decreasing_by
  · exact h.length_drop_lt
  · simp

theorem parts_of_starts {sep : List α} {x : α} {xs : List α} (h : Starts sep (x :: xs)) :
    parts sep (x :: xs) = [] :: parts sep ((x :: xs).drop sep.length) := by
  rw [parts, dif_pos h]

theorem parts_of_not_starts {sep : List α} {x : α} {xs : List α} (h : ¬ Starts sep (x :: xs)) :
    parts sep (x :: xs) = (parts sep xs).modifyHead (x :: ·) := by
  rw [parts, dif_neg h]

theorem exists_parts (sep xs : List α) : ∃ first rest, parts sep xs = first :: rest := by
  fun_induction parts sep xs with
  | case1 => exact ⟨[], [], rfl⟩
  | case2 x xs hstarts ih => exact ⟨[], _, rfl⟩
  | case3 x xs hstarts ih =>
    obtain ⟨first, rest, hparts⟩ := ih
    exact ⟨x :: first, rest, by rw [hparts]; rfl⟩

theorem length_parts (sep xs : List α) : (parts sep xs).length = occurrences sep xs + 1 := by
  fun_induction parts sep xs with
  | case1 => rw [occurrences]; rfl
  | case2 x xs hstarts ih => rw [occurrences, dif_pos hstarts, List.length_cons, ih]
  | case3 x xs hstarts ih => rw [occurrences, dif_neg hstarts, List.length_modifyHead, ih]

/-- The parts are the list again when the separator is put between them. -/
theorem intercalate_parts (sep xs : List α) : sep.intercalate (parts sep xs) = xs := by
  fun_induction parts sep xs with
  | case1 => rfl
  | case2 x xs hstarts ih =>
    obtain ⟨first, rest, hparts⟩ := exists_parts sep ((x :: xs).drop sep.length)
    obtain ⟨-, behind, hbehind⟩ := hstarts
    rw [hparts] at ih ⊢
    rw [List.intercalate_cons_cons, ih, List.nil_append]
    nth_rewrite 2 [← hbehind]
    rw [← hbehind, List.drop_left]
  | case3 x xs hstarts ih =>
    obtain ⟨first, rest, hparts⟩ := exists_parts sep xs
    rw [hparts] at ih ⊢
    cases rest with
    | nil => simpa using ih
    | cons second rest =>
      rw [List.intercalate_cons_cons] at ih
      rw [List.modifyHead_cons, List.intercalate_cons_cons, List.cons_append,
        List.cons_append, ih]

/-- The first part is found at the start of the list. -/
theorem prefix_of_parts {sep xs first : List α} {rest : List (List α)}
    (h : parts sep xs = first :: rest) : first <+: xs := by
  have hjoin := intercalate_parts sep xs
  rw [h] at hjoin
  cases rest with
  | nil =>
    rw [List.intercalate_singleton] at hjoin
    rw [hjoin]
  | cons second rest =>
    rw [List.intercalate_cons_cons] at hjoin
    rw [List.append_assoc] at hjoin
    exact ⟨_, hjoin⟩

/-- No part contains the separator. -/
theorem not_infix_of_mem_parts {sep xs : List α} (hsep : sep ≠ []) :
    ∀ part ∈ parts sep xs, ¬ sep <:+: part := by
  fun_induction parts sep xs with
  | case1 =>
    intro part hpart hinside
    rw [List.mem_singleton.mp hpart, List.infix_nil] at hinside
    exact hsep hinside
  | case2 x xs hstarts ih =>
    intro part hpart hinside
    rcases List.mem_cons.mp hpart with rfl | hpart
    · exact hsep (List.infix_nil.mp hinside)
    · exact ih part hpart hinside
  | case3 x xs hstarts ih =>
    obtain ⟨first, rest, hparts⟩ := exists_parts sep xs
    intro part hpart hinside
    rw [hparts, List.modifyHead_cons] at hpart
    rw [hparts] at ih
    rcases List.mem_cons.mp hpart with rfl | hpart
    · rcases List.infix_cons_iff.mp hinside with hfound | hinside
      · have hfirst := List.prefix_cons_inj x |>.mpr (prefix_of_parts hparts)
        exact hstarts ⟨hsep, hfound.trans hfirst⟩
      · exact ih first List.mem_cons_self hinside
    · exact ih part (List.mem_cons_of_mem _ hpart) hinside

/-! ### Another separator -/

/-- Each occurrence of a separator that is found from left to right is replaced. -/
inductive Replaces (sep next : List α) : List α → List α → Prop
  | nil : Replaces sep next [] []
  | found {xs ys} (h : Replaces sep next xs ys) : Replaces sep next (sep ++ xs) (next ++ ys)
  | kept {x xs ys} (hstarts : ¬ Starts sep (x :: xs)) (h : Replaces sep next xs ys) :
    Replaces sep next (x :: xs) (x :: ys)

/-- The parts with another separator between them. -/
def replace (sep next xs : List α) : List α := next.intercalate (parts sep xs)

@[simp]
theorem replace_nil (sep next : List α) : replace sep next [] = [] := by
  simp [replace, parts]

theorem replace_of_starts {sep : List α} (next : List α) {x : α} {xs : List α}
    (h : Starts sep (x :: xs)) :
    replace sep next (x :: xs) = next ++ replace sep next ((x :: xs).drop sep.length) := by
  obtain ⟨first, rest, hparts⟩ := exists_parts sep ((x :: xs).drop sep.length)
  rw [replace, parts_of_starts h, replace, hparts, List.intercalate_cons_cons, List.nil_append]

theorem replace_of_not_starts {sep : List α} (next : List α) {x : α} {xs : List α}
    (h : ¬ Starts sep (x :: xs)) :
    replace sep next (x :: xs) = x :: replace sep next xs := by
  obtain ⟨first, rest, hparts⟩ := exists_parts sep xs
  rw [replace, parts_of_not_starts h, replace, hparts, List.modifyHead_cons]
  cases rest with
  | nil => simp
  | cons second rest => simp [List.intercalate_cons_cons]

omit [DecidableEq α] in
theorem starts_append {sep : List α} (hsep : sep ≠ []) (xs : List α) : Starts sep (sep ++ xs) :=
  ⟨hsep, List.prefix_append sep xs⟩

theorem replace_append {sep : List α} (hsep : sep ≠ []) (next xs : List α) :
    replace sep next (sep ++ xs) = next ++ replace sep next xs := by
  have hstarts := starts_append hsep xs
  cases hwhole : sep ++ xs with
  | nil =>
    rw [hwhole] at hstarts
    exact absurd (List.prefix_nil.mp hstarts.2) hsep
  | cons x rest =>
    rw [hwhole] at hstarts
    rw [replace_of_starts next hstarts, ← hwhole, List.drop_left]

theorem replaces_replace {sep : List α} (next xs : List α) :
    Replaces sep next xs (replace sep next xs) := by
  fun_induction parts sep xs with
  | case1 =>
    rw [replace_nil]
    apply Replaces.nil
  | case2 x xs hstarts ih =>
    rw [replace_of_starts next hstarts]
    obtain ⟨-, rest, hrest⟩ := hstarts
    rw [← hrest, List.drop_left] at ih ⊢
    apply Replaces.found ih
  | case3 x xs hstarts ih =>
    rw [replace_of_not_starts next hstarts]
    apply Replaces.kept hstarts ih

theorem replaces_iff {sep : List α} (hsep : sep ≠ []) (next xs ys : List α) :
    Replaces sep next xs ys ↔ replace sep next xs = ys := by
  constructor
  · intro h
    induction h with
    | nil => apply replace_nil
    | found _ ih => rw [replace_append hsep, ih]
    | kept hstarts _ ih => rw [replace_of_not_starts next hstarts, ih]
  · intro h
    rw [← h]
    apply replaces_replace

/-- Each occurrence changes the length by the difference of the two separators. -/
theorem length_replace {sep : List α} (next xs : List α) :
    ((replace sep next xs).length : ℤ) =
      xs.length + occurrences sep xs * (next.length - sep.length) := by
  fun_induction occurrences sep xs with
  | case1 => simp
  | case2 x xs hstarts ih =>
    have hlen := hstarts.2.length_le
    rw [replace_of_starts next hstarts, List.length_append, Nat.cast_add, ih, List.length_drop,
      Nat.cast_sub hlen]
    push_cast
    ring
  | case3 x xs hstarts ih =>
    rw [replace_of_not_starts next hstarts, List.length_cons, List.length_cons]
    push_cast
    rw [ih]
    ring

theorem occurrences_of_length_lt {sep xs : List α} (h : xs.length < sep.length) :
    occurrences sep xs = 0 := by
  induction xs with
  | nil => rw [occurrences]
  | cons x xs ih =>
    have hstarts : ¬ Starts sep (x :: xs) := by
      intro hstarts
      have hlen := hstarts.2.length_le
      omega
    rw [occurrences, dif_neg hstarts, ih]
    rw [List.length_cons] at h
    omega

end Splitting
