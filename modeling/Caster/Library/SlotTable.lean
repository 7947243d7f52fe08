import Mathlib.Data.List.Basic
import Mathlib.Tactic

/-!
# Tables of slots

A table hands out handles, which count its slots from one.  A slot that is not in use is handed
out again before the table grows.
-/

namespace SlotTable

variable {α : Type*} (alive : α → Bool)

/-- The slot in use behind a handle. -/
def slot (slots : List α) (handle : ℤ) : Option α :=
  if 0 < handle then slots[(handle - 1).toNat]?.filter alive else none

variable {alive} {slots : List α} {handle : ℤ}

theorem slot_eq_some_iff {s : α} :
  slot alive slots handle = some s ↔
    ∃ i : ℕ, handle = i + 1 ∧ slots[i]? = some s ∧ alive s = true
  := by
  unfold slot
  split_ifs with hpos
  · rw [Option.filter_eq_some_iff]
    constructor
    · rintro ⟨hs, halive⟩
      exact ⟨(handle - 1).toNat, by omega, hs, halive⟩
    · rintro ⟨i, rfl, hs, halive⟩
      simpa using ⟨hs, halive⟩
  · constructor
    · intro h
      cases h
    · rintro ⟨i, rfl, -⟩
      omega

/-- A slot in use is replaced by another one. -/
theorem slot_set {i : ℕ} (hi : i < slots.length) {s : α} :
  slot alive (slots.set i s) handle =
    if handle = i + 1 then (some s).filter alive else slot alive slots handle
  := by
  unfold slot
  by_cases hpos : 0 < handle
  · rw [if_pos hpos, if_pos hpos, List.getElem?_set]
    by_cases heq : handle = i + 1
    · have hindex : i = (handle - 1).toNat := by omega
      rw [if_pos hindex, if_pos heq, if_pos (hindex ▸ hi)]
    · rw [if_neg (by omega), if_neg heq]
  · rw [if_neg hpos, if_neg hpos, if_neg (by omega)]

/-- A slot is added behind the others. -/
theorem slot_append {s : α} :
  slot alive (slots ++ [s]) handle =
    if handle = slots.length + 1 then (some s).filter alive else slot alive slots handle
  := by
  unfold slot
  by_cases hpos : 0 < handle
  · rw [if_pos hpos, if_pos hpos]
    by_cases heq : handle = slots.length + 1
    · have hindex : (handle - 1).toNat = slots.length := by omega
      rw [if_pos heq, hindex, List.getElem?_concat_length]
    · rw [if_neg heq]
      rcases Nat.lt_or_ge (handle - 1).toNat slots.length with hlt | hge
      · rw [List.getElem?_append_left hlt]
      · rw [List.getElem?_eq_none hge, List.getElem?_eq_none]
        rw [List.length_append, List.length_singleton]
        omega
  · rw [if_neg hpos, if_neg hpos, if_neg (by omega)]

/-- No slot behind a table is in use. -/
theorem slot_behind : slot alive slots (slots.length + 1) = none := by
  rw [← Option.not_isSome_iff_eq_none]
  intro h
  obtain ⟨s, hs⟩ := Option.isSome_iff_exists.mp h
  obtain ⟨i, heq, hi, -⟩ := slot_eq_some_iff.mp hs
  obtain ⟨hlt, -⟩ := List.getElem?_eq_some_iff.mp hi
  omega

/-- The first slot that is not in use. -/
theorem slot_findIdx {i : ℕ} (h : slots.findIdx? (fun s => !alive s) = some i) :
  i < slots.length ∧ slot alive slots (i + 1) = none
  := by
  obtain ⟨hi, hdead, -⟩ := List.findIdx?_eq_some_iff_getElem.mp h
  refine ⟨hi, ?_⟩
  rw [← Option.not_isSome_iff_eq_none]
  intro hsome
  obtain ⟨s, hs⟩ := Option.isSome_iff_exists.mp hsome
  obtain ⟨j, heq, hj, halive⟩ := slot_eq_some_iff.mp hs
  obtain rfl : i = j := by omega
  rw [List.getElem?_eq_getElem hi, Option.some.injEq] at hj
  simp [hj, halive] at hdead

/-- The slot in use behind a handle is replaced by another one. -/
theorem slot_set_of_some {s s' : α} (h : slot alive slots handle = some s) (other : ℤ) :
  slot alive (slots.set (handle - 1).toNat s') other =
    if other = handle then (some s').filter alive else slot alive slots other
  := by
  obtain ⟨i, rfl, hi, -⟩ := slot_eq_some_iff.mp h
  obtain ⟨hlt, -⟩ := List.getElem?_eq_some_iff.mp hi
  have hindex : ((i : ℤ) + 1 - 1).toNat = i := by omega
  rw [hindex]
  exact slot_set hlt

/-! ### Handing out -/

section

variable (alive) (slots)

/-- The handle that is handed out next. -/
def next : ℤ :=
  match slots.findIdx? fun s => !alive s with
  | some i => i + 1
  | none => slots.length + 1

/-- The slots with one more in use. -/
def taken (s : α) : List α :=
  match slots.findIdx? fun s => !alive s with
  | some i => slots.set i s
  | none => slots ++ [s]

theorem next_pos : 0 < next alive slots := by
  unfold next
  split <;> omega

variable {alive} {slots} {usable : α → Bool}

theorem slot_mono (h : ∀ s, usable s = true → alive s = true) {s : α}
    (hslot : slot usable slots handle = some s) :
  slot alive slots handle = some s
  := by
  obtain ⟨i, hi, hs, husable⟩ := slot_eq_some_iff.mp hslot
  exact slot_eq_some_iff.mpr ⟨i, hi, hs, h s husable⟩

/-- No slot that can be used is handed out. -/
theorem slot_next (h : ∀ s, usable s = true → alive s = true) :
  slot usable slots (next alive slots) = none
  := by
  have hnone : slot alive slots (next alive slots) = none := by
    unfold next
    split
    · rename_i i hfind
      exact (slot_findIdx hfind).2
    · exact slot_behind
  rw [← Option.not_isSome_iff_eq_none]
  intro hsome
  obtain ⟨s, hs⟩ := Option.isSome_iff_exists.mp hsome
  rw [slot_mono h hs] at hnone
  cases hnone

theorem slot_taken {s : α} :
  slot usable (taken alive slots s) handle =
    if handle = next alive slots then (some s).filter usable else slot usable slots handle
  := by
  unfold taken next
  cases hfind : slots.findIdx? fun s => !alive s with
  | some i => exact slot_set (slot_findIdx hfind).1
  | none => exact slot_append

end

end SlotTable
