import Mathlib.Tactic

/-!
# Handles

A program makes objects in a table, which hands out a handle for each.  The program copies handles
as it likes, and frees objects.  The table may hand out the handle of a freed object again: then a
copy that is left of the handle leads to the new object.
-/

/-- Why a program ends at a call. -/
inductive HandleTable.Failure where
  | invalidHandle
  | other
deriving DecidableEq

/-- A table of objects behind handles. -/
structure HandleTable (Make Use Result : Type) where
  Table : Type
  empty : Table
  /-- A handle leads to an object. -/
  inUse : Table → ℤ → Prop
  /-- The handle that is handed out next. -/
  next : Table → ℤ
  make : Table → Make → Option (ℤ × Table)
  use : Table → ℤ → Use → Except HandleTable.Failure (Result × Table)
  free : Table → ℤ → Except HandleTable.Failure Table
  not_inUse_empty : ∀ handle, ¬ inUse empty handle
  not_inUse_next : ∀ table, ¬ inUse table (next table)
  next_ne_zero : ∀ table, next table ≠ 0
  make_handle : ∀ table made handle table', make table made = some (handle, table') →
    handle = next table ∧ ∀ other, inUse table' other ↔ other = next table ∨ inUse table other
  use_invalid : ∀ table handle access,
    use table handle access = .error .invalidHandle ↔ ¬ inUse table handle
  use_inUse : ∀ table handle access result table', use table handle access = .ok (result, table') →
    ∀ other, inUse table' other ↔ inUse table other
  free_zero : ∀ table table', free table 0 = .ok table' → table' = table
  free_invalid : ∀ table handle, handle ≠ 0 →
    (free table handle = .error .invalidHandle ↔ ¬ inUse table handle)
  free_inUse : ∀ table handle table', handle ≠ 0 → free table handle = .ok table' →
    ∀ other, inUse table' other ↔ other ≠ handle ∧ inUse table other

namespace HandleTable

variable {Make Use Result : Type} (H : HandleTable Make Use Result) (V : Type)

/-- A handle in a variable, with the number of the object it was handed out for. -/
structure Copy where
  handle : ℤ
  object : ℕ

/-- A state of a program: the table, what its variables hold, and where the objects are that were
made and not freed. -/
structure State where
  table : H.Table
  copies : V → Option Copy
  place : ℕ → Option ℤ
  made : ℕ

/-- What a program does with handles. -/
inductive Action (V Make Use : Type) where
  | make (target : V) (made : Make)
  | copy (source target : V)
  | use (source : V) (access : Use)
  | free (source : V)

/-- The program starts without objects. -/
def start : State H V :=
  { table := H.empty, copies := fun _ => none, place := fun _ => none, made := 0 }

/-- No object is at a handle any more. -/
def vacate (place : ℕ → Option ℤ) (handle : ℤ) (object : ℕ) : Option ℤ :=
  if place object = some handle then none else place object

variable {H V}

/-- Every call with a copy of a handle whose object was freed ends the program. -/
def Rejects (s : State H V) : Prop :=
  ∀ source c, s.copies source = some c → s.place c.object = none →
    (∀ access, H.use s.table c.handle access = .error .invalidHandle) ∧
      H.free s.table c.handle = .error .invalidHandle

/-- No variable but the one that is assigned holds the handle that is handed out. -/
def Unheld (s : State H V) : Action V Make Use → Prop
  | .make target _ => ∀ source c, source ≠ target → s.copies source = some c →
      c.handle ≠ H.next s.table
  | _ => True

section

variable [DecidableEq V]

/-- A step that does not end the program.  A variable whose object was freed through it holds the
handle zero, which may be freed again. -/
inductive Step : State H V → Action V Make Use → State H V → Prop
  | make {s : State H V} (target : V) (made : Make) {handle : ℤ} {table : H.Table}
      (h : H.make s.table made = some (handle, table)) :
    Step s (.make target made)
      { table := table, copies := Function.update s.copies target (some ⟨handle, s.made⟩),
        place := Function.update s.place s.made (some handle), made := s.made + 1 }
  | copy {s : State H V} (source target : V) :
    Step s (.copy source target)
      { s with copies := Function.update s.copies target (s.copies source) }
  | use {s : State H V} (source : V) {access : Use} {c : Copy} {result : Result} {table : H.Table}
      (hcopy : s.copies source = some c)
      (h : H.use s.table c.handle access = .ok (result, table)) :
    Step s (.use source access) { s with table := table }
  | free {s : State H V} (source : V) {c : Copy} {table : H.Table}
      (hcopy : s.copies source = some c) (h : H.free s.table c.handle = .ok table) :
    Step s (.free source)
      { s with table := table, copies := Function.update s.copies source none,
               place := vacate s.place c.handle }
  | again {s : State H V} (source : V) {table : H.Table} (hcopy : s.copies source = none)
      (h : H.free s.table 0 = .ok table) :
    Step s (.free source) { s with table := table }

/-- A program gets to a state. -/
inductive Reached : State H V → Prop
  | start : Reached (start H V)
  | step {s s' : State H V} {action : Action V Make Use} (h : Reached s)
      (hstep : Step s action s') : Reached s'

/-- A program gets to a state, and no handle is handed out that is held. -/
inductive Runs : State H V → Prop
  | start : Runs (start H V)
  | step {s s' : State H V} {action : Action V Make Use} (h : Runs s) (hunheld : Unheld s action)
      (hstep : Step s action s') : Runs s'

end

/-! ### Runs that hand out no held handle -/

/-- A copy leads to its object, or to nothing if that was freed. -/
structure Separate (s : State H V) : Prop where
  here : ∀ object handle, s.place object = some handle → H.inUse s.table handle ∧ object < s.made
  apart : ∀ object other handle, s.place object = some handle → s.place other = some handle →
    object = other
  copies : ∀ source c, s.copies source = some c → c.handle ≠ 0 ∧ c.object < s.made ∧
    (s.place c.object = some c.handle ∨
      s.place c.object = none ∧ ¬ H.inUse s.table c.handle)

theorem separate_start : Separate (start H V) := by
  constructor
  · intro object handle h
    cases h
  · intro object other handle h
    cases h
  · intro source c h
    cases h

variable {s s' : State H V}

theorem Separate.use (h : Separate s) {handle : ℤ} {access : Use} {result : Result}
    {table : H.Table} (huse : H.use s.table handle access = .ok (result, table)) :
  Separate { s with table := table }
  := by
  have hinUse := H.use_inUse _ _ _ _ _ huse
  constructor
  · intro object other hplace
    dsimp only
    rw [hinUse]
    exact h.here object other hplace
  · exact h.apart
  · intro source c hcopy
    dsimp only
    rw [hinUse]
    exact h.copies source c hcopy

theorem Separate.rejects (h : Separate s) : Rejects s := by
  intro source c hcopy hstale
  obtain ⟨hzero, -, hleads⟩ := h.copies source c hcopy
  have hunused : ¬ H.inUse s.table c.handle := by
    rcases hleads with hlive | ⟨-, hunused⟩
    · rw [hstale] at hlive
      cases hlive
    · exact hunused
  constructor
  · exact fun access => (H.use_invalid _ _ access).mpr hunused
  · exact (H.free_invalid _ _ hzero).mpr hunused

theorem vacate_eq_some_iff {place : ℕ → Option ℤ} {handle other : ℤ} {object : ℕ} :
  vacate place handle object = some other ↔ place object = some other ∧ other ≠ handle
  := by
  unfold vacate
  split_ifs with hplace
  · rw [hplace]
    constructor
    · intro h
      cases h
    · rintro ⟨heq, hne⟩
      exact absurd (Option.some.inj heq).symm hne
  · constructor
    · intro h
      refine ⟨h, ?_⟩
      rintro rfl
      exact hplace h
    · exact fun h => h.1

section

variable [DecidableEq V]

theorem Separate.make (h : Separate s) {target : V} {made : Make} {handle : ℤ} {table : H.Table}
    (hunheld : Unheld s (.make target made : Action V Make Use))
    (hmake : H.make s.table made = some (handle, table)) :
  Separate
    { table := table, copies := Function.update s.copies target (some ⟨handle, s.made⟩),
      place := Function.update s.place s.made (some handle), made := s.made + 1 : State H V }
  := by
  obtain ⟨rfl, hinUse⟩ := H.make_handle _ _ _ _ hmake
  have hfresh := H.not_inUse_next s.table
  constructor
  · intro object other hplace
    dsimp only at hplace ⊢
    by_cases heq : object = s.made
    · rw [heq, Function.update_self] at hplace
      rw [hinUse]
      exact ⟨Or.inl (Option.some.inj hplace).symm, by omega⟩
    · rw [Function.update_of_ne heq] at hplace
      obtain ⟨hused, hlt⟩ := h.here object other hplace
      exact ⟨(hinUse other).mpr (Or.inr hused), by omega⟩
  · intro object other at_ hplace hother
    dsimp only at hplace hother
    by_cases heq : object = s.made
    · by_cases heq' : other = s.made
      · rw [heq, heq']
      · -- the new handle was not in use
        rw [heq, Function.update_self] at hplace
        rw [Function.update_of_ne heq', ← hplace] at hother
        exact absurd (h.here _ _ hother).1 hfresh
    · rw [Function.update_of_ne heq] at hplace
      by_cases heq' : other = s.made
      · rw [heq', Function.update_self] at hother
        rw [← hother] at hplace
        exact absurd (h.here _ _ hplace).1 hfresh
      · rw [Function.update_of_ne heq'] at hother
        exact h.apart object other at_ hplace hother
  · intro source c hcopy
    dsimp only at hcopy ⊢
    by_cases heq : source = target
    · rw [heq, Function.update_self] at hcopy
      obtain rfl := Option.some.inj hcopy
      refine ⟨H.next_ne_zero s.table, by dsimp only; omega, Or.inl ?_⟩
      exact Function.update_self _ _ _
    · rw [Function.update_of_ne heq] at hcopy
      obtain ⟨hzero, hlt, hleads⟩ := h.copies source c hcopy
      refine ⟨hzero, by omega, ?_⟩
      rw [Function.update_of_ne (by omega), hinUse]
      rcases hleads with hlive | ⟨hstale, hunused⟩
      · exact Or.inl hlive
      · exact Or.inr ⟨hstale, not_or.mpr ⟨hunheld source c heq hcopy, hunused⟩⟩

theorem Separate.copy (h : Separate s) (source target : V) :
  Separate { s with copies := Function.update s.copies target (s.copies source) }
  := by
  constructor
  · exact h.here
  · exact h.apart
  · intro other c hcopy
    dsimp only at hcopy
    by_cases heq : other = target
    · rw [heq, Function.update_self] at hcopy
      exact h.copies source c hcopy
    · rw [Function.update_of_ne heq] at hcopy
      exact h.copies other c hcopy

theorem Separate.free (h : Separate s) {source : V} {c : Copy} {table : H.Table}
    (hcopy : s.copies source = some c) (hfree : H.free s.table c.handle = .ok table) :
  Separate
    { s with table := table, copies := Function.update s.copies source none,
             place := vacate s.place c.handle }
  := by
  have hinUse := H.free_inUse _ _ _ (h.copies source c hcopy).1 hfree
  constructor
  · intro object handle hplace
    dsimp only at hplace ⊢
    rw [vacate_eq_some_iff] at hplace
    obtain ⟨hused, hlt⟩ := h.here object handle hplace.1
    exact ⟨(hinUse handle).mpr ⟨hplace.2, hused⟩, hlt⟩
  · intro object other handle hplace hother
    rw [vacate_eq_some_iff] at hplace hother
    exact h.apart object other handle hplace.1 hother.1
  · intro other c' hcopy'
    dsimp only at hcopy' ⊢
    by_cases heq : other = source
    · rw [heq, Function.update_self] at hcopy'
      cases hcopy'
    · rw [Function.update_of_ne heq] at hcopy'
      obtain ⟨hzero, hlt, hleads⟩ := h.copies other c' hcopy'
      refine ⟨hzero, hlt, ?_⟩
      rw [vacate_eq_some_iff, hinUse]
      by_cases hsame : c'.handle = c.handle
      · -- the object of this copy is the one that is freed
        right
        refine ⟨?_, fun hused => hused.1 hsame⟩
        unfold vacate
        rcases hleads with hlive | ⟨hstale, -⟩
        · rw [hlive, hsame, if_pos rfl]
        · rw [hstale, if_neg (by simp)]
      · rcases hleads with hlive | ⟨hstale, hunused⟩
        · exact Or.inl ⟨hlive, hsame⟩
        · right
          refine ⟨?_, fun hused => hunused hused.2⟩
          rw [vacate, hstale, if_neg (by simp)]

/-- A step that hands out no held handle keeps the copies apart. -/
theorem Separate.step (h : Separate s) {action : Action V Make Use} (hunheld : Unheld s action)
    (hstep : Step s action s') :
  Separate s'
  := by
  cases hstep with
  | make _ _ hmake => exact h.make hunheld hmake
  | copy source target => exact h.copy source target
  | use _ _ huse => exact h.use huse
  | free _ hcopy hfree => exact h.free hcopy hfree
  | again _ _ hfree =>
    rw [H.free_zero _ _ hfree]
    exact h

/-- The induction is on the run. -/
theorem Runs.separate (h : Runs s) : Separate s := by
  induction h with
  | start => exact separate_start
  | step _ hunheld hstep ih => exact ih.step hunheld hstep

/-- Behind a step that makes an object, copies of freed ones are rejected if and only if none of
them holds its handle. -/
theorem Separate.rejects_make_iff (h : Separate s) {target : V} {made : Make}
    (hstep : Step s (.make target made) s') :
  Rejects s' ↔ Unheld s (.make target made : Action V Make Use)
  := by
  constructor
  · cases hstep with
    | make _ _ hmake =>
      obtain ⟨rfl, hinUse⟩ := H.make_handle _ _ _ _ hmake
      intro hrejects source c hne hcopy hheld
      obtain ⟨hzero, hlt, hleads⟩ := h.copies source c hcopy
      -- its object is not the one at the handle that is handed out
      have hstale : s.place c.object = none := by
        rcases hleads with hlive | ⟨hstale, -⟩
        · rw [hheld] at hlive
          exact absurd (h.here _ _ hlive).1 (H.not_inUse_next s.table)
        · exact hstale
      have hcopy' : Function.update s.copies target (some ⟨H.next s.table, s.made⟩) source =
          some c := by
        rwa [Function.update_of_ne hne]
      have hstale' : Function.update s.place s.made (some (H.next s.table)) c.object = none := by
        rwa [Function.update_of_ne (by omega)]
      have hfree := (hrejects source c hcopy' hstale').2
      rw [H.free_invalid _ _ hzero, hinUse] at hfree
      exact hfree (Or.inl hheld)
  · exact fun hunheld => (h.step hunheld hstep).rejects

end

end HandleTable
