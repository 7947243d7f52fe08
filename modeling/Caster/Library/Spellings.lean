import Mathlib.Logic.Relation
import Caster.Library.NormalPaths

/-!
# Spellings of a path

Two paths that differ by parts that do not move and by names that are undone.  They are those with
one normal form.
-/

namespace UnixPath

/-- A part that does not move is left out, or a name and the step back from it. -/
inductive LeftOut : List Part → List Part → Prop
  | stay (before after : List Part) {part : Part} (h : part = [] ∨ part = dot) :
    LeftOut (before ++ part :: after) (before ++ after)
  | back (before after : List Part) {name : Part} (h : IsName name) :
    LeftOut (before ++ name :: dotDot :: after) (before ++ after)

/-- Two paths differ by such parts. -/
def Respelled (path path' : List Char) : Prop :=
  isAbsolute path = isAbsolute path' ∧ Relation.EqvGen LeftOut (split path) (split path')

theorem push_stay {part : Part} (h : part = [] ∨ part = dot) (parts : List Part) :
  push parts part = parts
  := if_pos h

theorem push_back {name : Part} (h : IsName name) (parts : List Part) :
  push (push parts name) dotDot = parts
  := by
  have hup : ¬ (dotDot = [] ∨ dotDot = dot) := by decide
  have hlast : parts ++ [name] ≠ [] ∧ (parts ++ [name]).getLast? ≠ some dotDot := by
    rw [List.getLast?_concat]
    exact ⟨by simp, fun heq => h.2.2.1 (Option.some.inj heq)⟩
  rw [push_name h, push, if_neg hup, if_pos rfl, if_pos hlast, List.dropLast_concat]

theorem LeftOut.normal_eq {parts parts' : List Part} (h : LeftOut parts parts') :
  normal parts = normal parts'
  := by
  cases h with
  | stay before after h => rw [normal_append, normal_append, List.foldl_cons, push_stay h]
  | back before after h =>
    rw [normal_append, normal_append, List.foldl_cons, List.foldl_cons, push_back h]

theorem normal_eq_of_eqvGen {parts parts' : List Part} (h : Relation.EqvGen LeftOut parts parts') :
  normal parts = normal parts'
  := by
  induction h with
  | rel _ _ hstep => exact hstep.normal_eq
  | refl _ => rfl
  | symm _ _ _ ih => exact ih.symm
  | trans _ _ _ _ _ ih ih' => exact ih.trans ih'

theorem LeftOut.append {parts parts' : List Part} (h : LeftOut parts parts') (rest : List Part) :
  LeftOut (parts ++ rest) (parts' ++ rest)
  := by
  cases h with
  | stay before after h =>
    rw [List.append_assoc, List.append_assoc]
    exact LeftOut.stay before (after ++ rest) h
  | back before after h =>
    rw [List.append_assoc, List.append_assoc]
    exact LeftOut.back before (after ++ rest) h

theorem eqvGen_append {parts parts' : List Part} (h : Relation.EqvGen LeftOut parts parts')
    (rest : List Part) :
  Relation.EqvGen LeftOut (parts ++ rest) (parts' ++ rest)
  := by
  induction h with
  | rel _ _ hstep => exact Relation.EqvGen.rel _ _ (hstep.append rest)
  | refl _ => exact Relation.EqvGen.refl _
  | symm _ _ _ ih => exact ih.symm
  | trans _ _ _ _ _ ih ih' => exact ih.trans _ _ _ ih'

/-- Parts differ from what is left of them by parts that are left out. -/
theorem eqvGen_normal {parts : List Part} (h : ∀ part ∈ parts, '/' ∉ part) :
  Relation.EqvGen LeftOut parts (normal parts)
  := by
  induction parts using List.reverseRecOn with
  | nil => exact Relation.EqvGen.refl _
  | append_singleton parts part ih =>
    obtain ⟨hparts, hpart⟩ := List.forall_mem_append.mp h
    have hfront := eqvGen_append (ih hparts) [part]
    rw [normal_concat]
    apply Relation.EqvGen.trans _ _ _ hfront
    unfold push
    split_ifs with hstay hup hback
    · have hstep := LeftOut.stay (normal parts) [] hstay
      rw [List.append_nil] at hstep
      exact Relation.EqvGen.rel _ _ hstep
    · -- the last part is a name that is undone
      obtain ⟨front, last, hnormal⟩ := (List.eq_nil_or_concat (normal parts)).resolve_left hback.1
      rw [List.concat_eq_append] at hnormal
      have hlast : last ∈ normal parts := by
        rw [hnormal]
        exact List.mem_append_right _ (List.mem_singleton_self _)
      obtain ⟨hmem, hnil, hdot⟩ := mem_normal hlast
      have hne : last ≠ dotDot := by
        rintro rfl
        apply hback.2
        rw [hnormal, List.getLast?_concat]
      have hstep := LeftOut.back front [] ⟨hnil, hdot, hne, hparts last hmem⟩
      rw [hnormal, hup, List.dropLast_concat, List.append_assoc]
      rw [List.append_nil] at hstep
      exact Relation.EqvGen.rel _ _ hstep
    · exact Relation.EqvGen.refl _
    · exact Relation.EqvGen.refl _

/-- Two paths have one normal form exactly when they differ by parts that are left out. -/
theorem simplify_eq_simplify_iff (path path' : List Char) :
  simplify path = simplify path' ↔ Respelled path path'
  := by
  have hslash (path : List Char) : ∀ part ∈ normal (split path), '/' ∉ part :=
    fun part hpart => (normal_split_ne hpart).2
  constructor
  · intro heq
    have habsolute : isAbsolute path = isAbsolute path' := by
      rw [← isAbsolute_render (fun part hpart => @normal_split_ne path part hpart) (isAbsolute path),
        ← isAbsolute_render (fun part hpart => @normal_split_ne path' part hpart) (isAbsolute path')]
      exact congrArg isAbsolute heq
    have hnormal : normal (split path) = normal (split path') := by
      have hread (path : List Char) : normal (split (simplify path)) = normal (split path) :=
        normal_split_render _ (tidy_normal _) (hslash path)
      rw [← hread path, heq, hread]
    have hleft := eqvGen_normal fun part => @slash_not_mem_split path part
    have hright := eqvGen_normal fun part => @slash_not_mem_split path' part
    rw [← hnormal] at hright
    exact ⟨habsolute, hleft.trans _ _ _ hright.symm⟩
  · rintro ⟨habsolute, hparts⟩
    rw [simplify, simplify, habsolute, normal_eq_of_eqvGen hparts]

theorem simplify_simplify (path : List Char) : simplify (simplify path) = simplify path := by
  have hslash : ∀ part ∈ normal (split path), '/' ∉ part := fun part hpart => (normal_split_ne hpart).2
  have hnormal : normal (split (simplify path)) = normal (split path) :=
    normal_split_render _ (tidy_normal _) hslash
  have habsolute : isAbsolute (simplify path) = isAbsolute path :=
    isAbsolute_render (fun part hpart => normal_split_ne hpart) _
  rw [simplify, hnormal, habsolute]
  rfl

end UnixPath
