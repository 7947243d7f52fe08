import Caster.Emit.Sort

/-!
# Grouping

The loops that `xs.group(k)` is emitted as.
-/

namespace Caster

/-- The comparison `flx_str_eq` of lengths and then of bytes. -/
def flxStrEq (left right : Bytes) : Bool :=
  if left.length ≠ right.length then false else (left.zip right).all fun pair => pair.1 = pair.2

/-- The equality of keys of `emit_key_eq_expr`. -/
def emitKeyEqExpr : (type : KeyType) → (left right : type.Value) → Bool
  | .STR, left, right => flxStrEq left right
  | .INT, left, right => left == right
  | .BOL, left, right => left == right

/-- An entry of the array of groups. -/
structure KeyGroup (κ α : Type) where
  key : κ
  val : List α

instance (type : KeyType) : DecidableEq type.Value :=
  match type with
  | .INT => inferInstanceAs (DecidableEq ℤ)
  | .STR => inferInstanceAs (DecidableEq Bytes)
  | .BOL => inferInstanceAs (DecidableEq Bool)

section

variable {α : Type}

/-- The inner loop: the element is added to the first group of its key.  There is no result when
`found` stays false. -/
def addToGroup (type : KeyType) (key : type.Value) (elem : α) :
    List (KeyGroup type.Value α) → Option (List (KeyGroup type.Value α))
  | [] => none
  | group :: out =>
    if emitKeyEqExpr type group.key key then
      some ({ group with val := group.val ++ [elem] } :: out)
    else (addToGroup type key elem out).map (group :: ·)

/-- One round of the outer loop. -/
def groupElement (type : KeyType) (out : List (KeyGroup type.Value α)) (key : type.Value) (elem : α) :
    List (KeyGroup type.Value α) :=
  match addToGroup type key elem out with
  | some out => out
  | none => out ++ [⟨key, [elem]⟩]

/-- The value of `xs.group(k)`, for a key that is given an element and its index. -/
def groupMethod (type : KeyType) (key : α → ℕ → type.Value) (xs : List α) :
    List (KeyGroup type.Value α) :=
  xs.zipIdx.foldl (fun out (elem, i) => groupElement type out (key elem i) elem) []

end

/-! ### Equal keys -/

theorem flxStrEq_eq (left right : Bytes) : flxStrEq left right = decide (left = right) := by
  unfold flxStrEq
  by_cases hlen : left.length = right.length
  · rw [if_neg (not_not.mpr hlen)]
    induction left generalizing right with
    | nil => simp [List.length_eq_zero_iff.mp hlen.symm]
    | cons a left ih =>
      obtain ⟨b, right, rfl⟩ := List.exists_cons_of_length_eq_add_one hlen.symm
      rw [List.zip_cons_cons, List.all_cons, ih right (by simpa using hlen)]
      simp
  · have hne : left ≠ right := fun h => hlen (congrArg List.length h)
    simp [hlen, hne]

@[simp] theorem emitKeyEqExpr_iff (type : KeyType) (left right : type.Value) :
  emitKeyEqExpr type left right = true ↔ left = right
  := by
  cases type with
  | INT => exact beq_iff_eq
  | STR => simp [emitKeyEqExpr, flxStrEq_eq]
  | BOL => exact beq_iff_eq

section

variable {α : Type} {type : KeyType}

/-! ### One element -/

theorem addToGroup_eq_none_iff (key : type.Value) (elem : α) (out : List (KeyGroup type.Value α)) :
  addToGroup type key elem out = none ↔ key ∉ out.map KeyGroup.key
  := by
  induction out with
  | nil => simp [addToGroup]
  | cons group out ih =>
    by_cases hkey : group.key = key
    · simp [addToGroup, hkey]
    · have hne : ¬ key = group.key := fun h => hkey h.symm
      simp [addToGroup, hkey, hne, ih]

/-- A group of a key with one more element, and any other group as it is. -/
def KeyGroup.given (key : type.Value) (elem : α) (group : KeyGroup type.Value α) :
    KeyGroup type.Value α :=
  if group.key = key then { group with val := group.val ++ [elem] } else group

@[simp] theorem key_given (key : type.Value) (elem : α) (group : KeyGroup type.Value α) :
  (group.given key elem).key = group.key
  := by
  unfold KeyGroup.given
  split <;> rfl

/-- Groups behind one of the key are of other keys. -/
theorem map_given_of_not_mem {key : type.Value} (elem : α) {out : List (KeyGroup type.Value α)}
    (h : key ∉ out.map KeyGroup.key) :
  out.map (KeyGroup.given key elem) = out
  := by
  have hsame : ∀ group ∈ out, group.given key elem = id group := by
    rintro group hgroup
    apply if_neg
    rintro rfl
    exact h (List.mem_map_of_mem hgroup)
  rw [List.map_congr_left hsame, List.map_id]

/-- An element that is added is given to the group of its key. -/
theorem addToGroup_eq_some {key : type.Value} {elem : α} {out out' : List (KeyGroup type.Value α)}
    (hnodup : (out.map KeyGroup.key).Nodup) (h : addToGroup type key elem out = some out') :
  out' = out.map (KeyGroup.given key elem)
  := by
  induction out generalizing out' with
  | nil => cases h
  | cons group out ih =>
    rw [List.map_cons, List.nodup_cons] at hnodup
    by_cases hkey : group.key = key
    · subst hkey
      simp only [addToGroup, emitKeyEqExpr_iff, if_true, Option.some.injEq] at h
      rw [← h, List.map_cons, map_given_of_not_mem elem hnodup.1]
      simp [KeyGroup.given]
    · simp only [addToGroup, emitKeyEqExpr_iff, hkey, if_false, Option.map_eq_some_iff] at h
      obtain ⟨rest, hrest, rfl⟩ := h
      rw [List.map_cons, ih hnodup.2 hrest]
      simp [KeyGroup.given, hkey]

/-! ### A part of the array -/

/-- The groups of a part of an array, given with the indices of its elements. -/
structure Grouped (key : α → ℕ → type.Value) (xs : List (α × ℕ)) (out : List (KeyGroup type.Value α)) :
    Prop where
  nodup : (out.map KeyGroup.key).Nodup
  keys : out.map KeyGroup.key = (xs.map fun e => key e.1 e.2).eraseDups
  vals : ∀ group ∈ out,
    group.val = (xs.filter fun e => key e.1 e.2 = group.key).map Prod.fst
  perm : (out.flatMap KeyGroup.val).Perm (xs.map Prod.fst)

theorem grouped_nil (key : α → ℕ → type.Value) : Grouped key [] [] where
  nodup := List.nodup_nil
  keys := rfl
  vals := by simp
  perm := List.Perm.refl _

theorem flatMap_val_perm {key : type.Value} {out : List (KeyGroup type.Value α)} (elem : α)
    (hnodup : (out.map KeyGroup.key).Nodup) (hmem : key ∈ out.map KeyGroup.key) :
  ((out.map (KeyGroup.given key elem)).flatMap KeyGroup.val).Perm
    (out.flatMap KeyGroup.val ++ [elem])
  := by
  induction out with
  | nil => simp at hmem
  | cons group out ih =>
    rw [List.map_cons, List.nodup_cons] at hnodup
    rw [List.map_cons, List.flatMap_cons, List.flatMap_cons, List.append_assoc]
    by_cases hkey : group.key = key
    · subst hkey
      rw [map_given_of_not_mem elem hnodup.1, KeyGroup.given, if_pos rfl, List.append_assoc]
      exact List.perm_append_comm.append_left group.val
    · have hmem' : key ∈ out.map KeyGroup.key := by
        rcases List.mem_cons.mp hmem with h | h
        · exact absurd h.symm hkey
        · exact h
      rw [KeyGroup.given, if_neg hkey]
      exact (ih hnodup.2 hmem').append_left group.val

theorem eraseDups_snoc (keys : List type.Value) (key : type.Value) :
  (keys ++ [key]).eraseDups = if key ∈ keys then keys.eraseDups else keys.eraseDups ++ [key]
  := by
  rw [List.eraseDups_append]
  by_cases hmem : key ∈ keys
  · simp [List.removeAll, hmem]
  · simp [List.removeAll, List.eraseDups_cons, hmem]

/-- One more element. -/
theorem Grouped.snoc {key : α → ℕ → type.Value} {xs : List (α × ℕ)}
    {out : List (KeyGroup type.Value α)} (h : Grouped key xs out) (elem : α) (i : ℕ) :
  Grouped key (xs ++ [(elem, i)]) (groupElement type out (key elem i) elem)
  := by
  have hkeys : (out.map KeyGroup.key ++ [key elem i]).Nodup ↔ key elem i ∉ out.map KeyGroup.key := by
    rw [List.nodup_append_comm]
    simp [h.nodup]
  have hseen : key elem i ∈ (xs.map fun e => key e.1 e.2) ↔ key elem i ∈ out.map KeyGroup.key := by
    rw [h.keys, List.mem_eraseDups]
  cases hadd : addToGroup type (key elem i) elem out with
  | none =>
    -- the key is new: a group of this element alone is put behind the others
    have hnew := (addToGroup_eq_none_iff _ _ _).mp hadd
    rw [groupElement, hadd]
    refine ⟨?_, ?_, ?_, ?_⟩
    · rw [List.map_append]
      exact hkeys.mpr hnew
    · rw [List.map_append, List.map_append, h.keys, List.map_singleton, List.map_singleton,
        eraseDups_snoc, if_neg (mt hseen.mp hnew)]
    · intro group hgroup
      rw [List.filter_append, List.map_append]
      rcases List.mem_append.mp hgroup with hold | hlast
      · have hne : key elem i ≠ group.key := by
          intro heq
          exact hnew (heq ▸ List.mem_map_of_mem hold)
        rw [h.vals group hold]
        simp [hne]
      · obtain rfl := List.mem_singleton.mp hlast
        have hnone : (xs.filter fun e => key e.1 e.2 = key elem i) = [] := by
          apply List.filter_eq_nil_iff.mpr
          intro e he
          simp only [decide_eq_true_eq]
          intro heq
          exact hnew (hseen.mp (heq ▸ List.mem_map_of_mem he))
        simp [hnone]
    · rw [List.flatMap_append, List.map_append]
      simpa using h.perm.append_right [elem]
  | some out' =>
    -- the key is that of a group, which gets the element
    have hmem : key elem i ∈ out.map KeyGroup.key := by
      by_contra hnot
      rw [(addToGroup_eq_none_iff _ _ _).mpr hnot] at hadd
      cases hadd
    have hout := addToGroup_eq_some h.nodup hadd
    have hsame : out'.map KeyGroup.key = out.map KeyGroup.key := by
      rw [hout, List.map_map]
      apply List.map_congr_left
      intro group _
      exact key_given _ _ group
    rw [groupElement, hadd]
    refine ⟨?_, ?_, ?_, ?_⟩
    · rw [hsame]
      exact h.nodup
    · rw [hsame, List.map_append, List.map_singleton, eraseDups_snoc, if_pos (hseen.mpr hmem),
        h.keys]
    · intro group hgroup
      rw [hout, List.mem_map] at hgroup
      obtain ⟨old, hold, rfl⟩ := hgroup
      rw [List.filter_append, List.map_append]
      by_cases hkey : old.key = key elem i
      · have hval := h.vals old hold
        rw [hkey] at hval
        simp [KeyGroup.given, hkey, hval]
      · have hne : ¬ key elem i = old.key := fun heq => hkey heq.symm
        simp [KeyGroup.given, hkey, hne, h.vals old hold]
    · rw [hout, List.map_append]
      exact (flatMap_val_perm elem h.nodup hmem).trans (by simpa using h.perm.append_right [elem])

theorem grouped_foldl (key : α → ℕ → type.Value) (xs : List (α × ℕ)) :
  Grouped key xs (xs.foldl (fun out (elem, i) => groupElement type out (key elem i) elem) [])
  := by
  induction xs using List.reverseRecOn with
  | nil => exact grouped_nil key
  | append_singleton xs e ih =>
    rw [List.foldl_append]
    exact ih.snoc e.1 e.2

end

/-- The groups of an array have different keys, in the order in which they appear first in it, each
holds the elements of its key in their order, and together they hold every element once. -/
theorem group_partitions {α : Type} (type : KeyType) (key : α → ℕ → type.Value) (xs : List α) :
  ((groupMethod type key xs).map KeyGroup.key).Nodup ∧
    (groupMethod type key xs).map KeyGroup.key =
      (xs.zipIdx.map fun e => key e.1 e.2).eraseDups ∧
    (∀ group ∈ groupMethod type key xs,
      group.val = (xs.zipIdx.filter fun e => key e.1 e.2 = group.key).map Prod.fst) ∧
    ((groupMethod type key xs).flatMap KeyGroup.val).Perm xs
  := by
  have h := grouped_foldl key xs.zipIdx
  have hperm := h.perm
  rw [List.zipIdx_map_fst] at hperm
  exact ⟨h.nodup, h.keys, h.vals, hperm⟩

end Caster
