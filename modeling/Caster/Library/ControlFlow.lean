import Mathlib.Data.List.Basic
import Mathlib.Tactic

/-!
# Structured control flow

Statements that are left, branch or are repeated, and the ends of their paths: a path leaves,
or it completes.  The outcomes of conditions are arbitrary.
-/

namespace ControlFlow

/-- A statement, as far as control is concerned. -/
inductive Flow (E : Type) where
  | leave (exit : E)
  | branch (blocks : List (List (Flow E)))
  | loop (body : List (Flow E))

variable {E : Type}

/-- The end of a path through some statements: where it leaves, or `none` where it completes. -/
inductive Ends : List (Flow E) → Option E → Prop
  | nil : Ends [] none
  | leave {exit : E} {rest : List (Flow E)} : Ends (.leave exit :: rest) (some exit)
  | branchLeft {blocks : List (List (Flow E))} {block rest : List (Flow E)} {exit : E}
      (hmem : block ∈ blocks) (hblock : Ends block (some exit)) : Ends (.branch blocks :: rest) (some exit)
  | branchDone {blocks : List (List (Flow E))} {block rest : List (Flow E)} {o : Option E}
      (hmem : block ∈ blocks) (hblock : Ends block none) (hrest : Ends rest o) :
      Ends (.branch blocks :: rest) o
  | loopLeft {body rest : List (Flow E)} {exit : E} (hbody : Ends body (some exit)) :
      Ends (.loop body :: rest) (some exit)
  | loopAgain {body rest : List (Flow E)} {o : Option E} (hbody : Ends body none)
      (hloop : Ends (.loop body :: rest) o) : Ends (.loop body :: rest) o
  | loopDone {body rest : List (Flow E)} {o : Option E} (hrest : Ends rest o) :
      Ends (.loop body :: rest) o

mutual

/-- Some path through a statement completes. -/
def completes : Flow E → Bool
  | .leave _ => false
  | .branch blocks => someCompletes blocks
  | .loop _ => true

/-- Some path through some statements completes. -/
def allComplete : List (Flow E) → Bool
  | [] => true
  | s :: rest => completes s && allComplete rest

/-- Some path through one of some blocks completes. -/
def someCompletes : List (List (Flow E)) → Bool
  | [] => false
  | block :: blocks => allComplete block || someCompletes blocks

end

mutual

/-- Some path through a statement leaves in a way. -/
def leaves (bad : E → Bool) : Flow E → Bool
  | .leave exit => bad exit
  | .branch blocks => someLeaves bad blocks
  | .loop body => pathLeaves bad body

/-- Some path through some statements leaves in a way. -/
def pathLeaves (bad : E → Bool) : List (Flow E) → Bool
  | [] => false
  | s :: rest => leaves bad s || completes s && pathLeaves bad rest

/-- Some path through one of some blocks leaves in a way. -/
def someLeaves (bad : E → Bool) : List (List (Flow E)) → Bool
  | [] => false
  | block :: blocks => pathLeaves bad block || someLeaves bad blocks

end

theorem someCompletes_iff {blocks : List (List (Flow E))} :
  someCompletes blocks ↔ ∃ block ∈ blocks, allComplete block
  := by
  induction blocks with
  | nil => simp [someCompletes]
  | cons block blocks ih => simp [someCompletes, ih]

theorem someLeaves_iff {bad : E → Bool} {blocks : List (List (Flow E))} :
  someLeaves bad blocks ↔ ∃ block ∈ blocks, pathLeaves bad block
  := by
  induction blocks with
  | nil => simp [someLeaves]
  | cons block blocks ih => simp [someLeaves, ih]

@[simp] theorem allComplete_append (flow rest : List (Flow E)) :
  allComplete (flow ++ rest) = (allComplete flow && allComplete rest)
  := by
  induction flow with
  | nil => simp [allComplete]
  | cons s flow ih => simp [allComplete, ih, Bool.and_assoc]

@[simp] theorem pathLeaves_append (bad : E → Bool) (flow rest : List (Flow E)) :
  pathLeaves bad (flow ++ rest) = (pathLeaves bad flow || allComplete flow && pathLeaves bad rest)
  := by
  induction flow with
  | nil => simp [allComplete, pathLeaves]
  | cons s flow ih =>
    rw [List.cons_append, pathLeaves, pathLeaves, allComplete, ih, Bool.and_or_distrib_left,
      Bool.or_assoc, Bool.and_assoc]

@[simp] theorem someLeaves_append (bad : E → Bool) (blocks others : List (List (Flow E))) :
  someLeaves bad (blocks ++ others) = (someLeaves bad blocks || someLeaves bad others)
  := by
  induction blocks with
  | nil => simp [someLeaves]
  | cons block blocks ih => simp [someLeaves, ih, Bool.or_assoc]

/-- A path that completes runs through statements that can be completed. -/
theorem allComplete_of_ends {flow : List (Flow E)} {o : Option E} (h : Ends flow o) (ho : o = none) :
  allComplete flow
  := by
  induction h with
  | nil => rfl
  | leave => cases ho
  | branchLeft => cases ho
  | branchDone hmem _ _ ihblock ihrest =>
    rw [allComplete, Bool.and_eq_true, completes, someCompletes_iff]
    exact ⟨⟨_, hmem, ihblock rfl⟩, ihrest ho⟩
  | loopLeft => cases ho
  | loopAgain _ _ _ ihloop => exact ihloop ho
  | loopDone _ ihrest => exact ihrest ho

/-- A path that leaves runs through statements that can be completed, up to one that can be
left. -/
theorem pathLeaves_of_ends {bad : E → Bool} {flow : List (Flow E)} {o : Option E} (h : Ends flow o) {exit : E}
    (ho : o = some exit) (hbad : bad exit) :
  pathLeaves bad flow
  := by
  induction h with
  | nil => cases ho
  | leave =>
    cases ho
    simp [pathLeaves, leaves, hbad]
  | branchLeft hmem _ ihblock =>
    rw [pathLeaves, Bool.or_eq_true, leaves, someLeaves_iff]
    exact Or.inl ⟨_, hmem, ihblock ho⟩
  | branchDone hmem hblock _ _ ihrest =>
    rw [pathLeaves, Bool.or_eq_true, Bool.and_eq_true, completes, someCompletes_iff]
    exact Or.inr ⟨⟨_, hmem, allComplete_of_ends hblock rfl⟩, ihrest ho⟩
  | loopLeft _ ihbody =>
    rw [pathLeaves, Bool.or_eq_true, leaves]
    exact Or.inl (ihbody ho)
  | loopAgain _ _ _ ihloop => exact ihloop ho
  | loopDone _ ihrest =>
    rw [pathLeaves, Bool.or_eq_true, Bool.and_eq_true, completes]
    exact Or.inr ⟨rfl, ihrest ho⟩

mutual

theorem ends_of_completes (s : Flow E) (h : completes s) {rest : List (Flow E)} {o : Option E}
    (hrest : Ends rest o) :
  Ends (s :: rest) o
  := by
  cases s with
  | leave exit => cases h
  | branch blocks =>
    obtain ⟨block, hmem, hblock⟩ := ends_of_someCompletes blocks h
    exact Ends.branchDone hmem hblock hrest
  | loop body => exact Ends.loopDone hrest

/-- Statements that can be completed have a path that completes. -/
theorem ends_of_allComplete (flow : List (Flow E)) (h : allComplete flow) : Ends flow none := by
  cases flow with
  | nil => exact Ends.nil
  | cons s rest =>
    rw [allComplete, Bool.and_eq_true] at h
    exact ends_of_completes s h.1 (ends_of_allComplete rest h.2)

theorem ends_of_someCompletes (blocks : List (List (Flow E))) (h : someCompletes blocks) :
  ∃ block ∈ blocks, Ends block none
  := by
  cases blocks with
  | nil => cases h
  | cons block blocks =>
    rw [someCompletes, Bool.or_eq_true] at h
    rcases h with h | h
    · exact ⟨block, List.mem_cons_self, ends_of_allComplete block h⟩
    · obtain ⟨other, hmem, hother⟩ := ends_of_someCompletes blocks h
      exact ⟨other, List.mem_cons_of_mem _ hmem, hother⟩

end

mutual

theorem ends_of_leaves {bad : E → Bool} (s : Flow E) (h : leaves bad s) (rest : List (Flow E)) :
  ∃ exit, bad exit ∧ Ends (s :: rest) (some exit)
  := by
  cases s with
  | leave exit => exact ⟨exit, h, Ends.leave⟩
  | branch blocks =>
    obtain ⟨block, hmem, exit, hbad, hblock⟩ := ends_of_someLeaves blocks h
    exact ⟨exit, hbad, Ends.branchLeft hmem hblock⟩
  | loop body =>
    obtain ⟨exit, hbad, hbody⟩ := ends_of_pathLeaves body h
    exact ⟨exit, hbad, Ends.loopLeft hbody⟩

/-- Statements that can be left in a way have a path that leaves in that way. -/
theorem ends_of_pathLeaves {bad : E → Bool} (flow : List (Flow E)) (h : pathLeaves bad flow) :
  ∃ exit, bad exit ∧ Ends flow (some exit)
  := by
  cases flow with
  | nil => cases h
  | cons s rest =>
    rw [pathLeaves, Bool.or_eq_true, Bool.and_eq_true] at h
    rcases h with h | ⟨hs, h⟩
    · exact ends_of_leaves s h rest
    · obtain ⟨exit, hbad, hrest⟩ := ends_of_pathLeaves rest h
      exact ⟨exit, hbad, ends_of_completes s hs hrest⟩

theorem ends_of_someLeaves {bad : E → Bool} (blocks : List (List (Flow E))) (h : someLeaves bad blocks) :
  ∃ block ∈ blocks, ∃ exit, bad exit ∧ Ends block (some exit)
  := by
  cases blocks with
  | nil => cases h
  | cons block blocks =>
    rw [someLeaves, Bool.or_eq_true] at h
    rcases h with h | h
    · obtain ⟨exit, hbad, hblock⟩ := ends_of_pathLeaves block h
      exact ⟨block, List.mem_cons_self, exit, hbad, hblock⟩
    · obtain ⟨other, hmem, hother⟩ := ends_of_someLeaves blocks h
      exact ⟨other, List.mem_cons_of_mem _ hmem, hother⟩

end

/-- Every path leaves in a good way when none completes and none leaves in a bad way. -/
theorem ends_good_iff {good : E → Bool} {flow : List (Flow E)} :
  (∀ o, Ends flow o → ∃ exit, o = some exit ∧ good exit) ↔
    ¬ allComplete flow ∧ ¬ pathLeaves (fun exit => !good exit) flow
  := by
  constructor
  · intro h
    constructor
    · intro hcomplete
      obtain ⟨exit, hnone, _⟩ := h none (ends_of_allComplete flow hcomplete)
      cases hnone
    · intro hleaves
      obtain ⟨exit, hbad, hends⟩ := ends_of_pathLeaves flow hleaves
      obtain ⟨exit', heq, hgood⟩ := h _ hends
      cases heq
      simp [hgood] at hbad
  · rintro ⟨hcomplete, hleaves⟩ o hends
    cases o with
    | none => exact absurd (allComplete_of_ends hends rfl) hcomplete
    | some exit =>
      refine ⟨exit, rfl, ?_⟩
      by_contra hbad
      exact hleaves (pathLeaves_of_ends hends rfl (by simpa using hbad))

end ControlFlow
