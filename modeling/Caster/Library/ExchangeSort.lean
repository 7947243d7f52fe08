import Mathlib.Data.List.Basic
import Mathlib.Tactic

/-!
# The exchange sort

The sort that compares the element at every index with each one after it, and exchanges the two
when the later one is to come first.
-/

namespace ExchangeSort

variable {α : Type}

/-- The inner loop, from index `j` on, for the element at index `i`. -/
def innerLoop (swaps : α → α → Bool) (i j : ℕ) (xs : List α) : List α :=
  if j < xs.length then
    match xs[i]?, xs[j]? with
    | some left, some right =>
      if swaps left right then innerLoop swaps i (j + 1) ((xs.set i right).set j left)
      else innerLoop swaps i (j + 1) xs
    | _, _ => xs
  else xs
termination_by xs.length - j
decreasing_by
  · simp only [List.length_set]
    omega
  · omega

@[simp] theorem length_innerLoop (swaps : α → α → Bool) (i j : ℕ) (xs : List α) :
    (innerLoop swaps i j xs).length = xs.length := by
  fun_induction innerLoop swaps i j xs with
  | case1 j xs hj left right hleft hright hswaps ih => simpa using ih
  | case2 j xs hj left right hleft hright hswaps ih => exact ih
  | case3 => rfl
  | case4 => rfl

/-- The outer loop, from index `i` on. -/
def outerLoop (swaps : α → α → Bool) (i : ℕ) (xs : List α) : List α :=
  if i < xs.length then outerLoop swaps (i + 1) (innerLoop swaps i (i + 1) xs) else xs
termination_by xs.length - i
decreasing_by
  rw [length_innerLoop]
  omega

/-- One pass of the inner loop over the elements after a given one: the one that comes to its place
and the elements after it. -/
def pass (swaps : α → α → Bool) : α → List α → α × List α
  | left, [] => (left, [])
  | left, right :: xs =>
    if swaps left right then ((pass swaps right xs).1, left :: (pass swaps right xs).2)
    else ((pass swaps left xs).1, right :: (pass swaps left xs).2)

/-- The inner loop makes one pass over the elements that it has not reached. -/
theorem innerLoop_eq_pass (swaps : α → α → Bool) (done seen xs : List α) (left : α) :
    innerLoop swaps done.length (done.length + 1 + seen.length) (done ++ left :: (seen ++ xs)) =
      done ++ (pass swaps left xs).1 :: (seen ++ (pass swaps left xs).2) := by
  induction xs generalizing left seen with
  | nil =>
    rw [innerLoop, if_neg (by simp; omega)]
    simp [pass]
  | cons right xs ih =>
    have hlt : done.length + 1 + seen.length < (done ++ left :: (seen ++ right :: xs)).length := by
      simp
      omega
    have hleft : (done ++ left :: (seen ++ right :: xs))[done.length]? = some left := by simp
    have hright :
        (done ++ left :: (seen ++ right :: xs))[done.length + 1 + seen.length]? = some right := by
      rw [List.getElem?_append_right (by omega)]
      have hindex : done.length + 1 + seen.length - done.length = seen.length + 1 := by omega
      simp [hindex]
    rw [innerLoop, if_pos hlt, hleft, hright]
    dsimp only
    by_cases hswaps : swaps left right
    · have hset :
          ((done ++ left :: (seen ++ right :: xs)).set done.length right).set
              (done.length + 1 + seen.length) left =
            done ++ right :: ((seen ++ [left]) ++ xs) := by
        have hindex : done.length + 1 + seen.length - done.length = seen.length + 1 := by omega
        have hbehind : ¬ done.length + 1 + seen.length < done.length := by omega
        simp [List.set_append, hindex, hbehind]
      have hnext := ih (seen ++ [left]) right
      simp only [List.length_append, List.length_singleton, ← Nat.add_assoc] at hnext
      simp only [hswaps, if_true, hset, hnext, pass]
      simp
    · have hnext := ih (seen ++ [right]) left
      simp only [List.length_append, List.length_singleton, ← Nat.add_assoc] at hnext
      simp only [List.append_assoc, List.singleton_append] at hnext
      simp only [hswaps, if_false, Bool.false_eq_true, hnext, pass]

theorem perm_pass (swaps : α → α → Bool) (left : α) (xs : List α) :
    ((pass swaps left xs).1 :: (pass swaps left xs).2).Perm (left :: xs) := by
  induction xs generalizing left with
  | nil => exact List.Perm.refl _
  | cons right xs ih =>
    by_cases hswaps : swaps left right
    · simp only [pass, hswaps, if_true]
      exact (List.Perm.swap left _ _).trans ((ih right).cons left)
    · simp only [pass, hswaps, if_false, Bool.false_eq_true]
      calc ((pass swaps left xs).1 :: right :: (pass swaps left xs).2).Perm
            (right :: (pass swaps left xs).1 :: (pass swaps left xs).2) := List.Perm.swap _ _ _
        _ |>.Perm (right :: left :: xs) := (ih left).cons right
        _ |>.Perm (left :: right :: xs) := List.Perm.swap _ _ _

section Order

variable {swaps : α → α → Bool}
  (hasymm : ∀ a b, swaps a b = true → swaps b a = false)
  (htrans : ∀ a b c, swaps a b = false → swaps b c = false → swaps a c = false)

include hasymm htrans

/-- What a pass brings to its place may stand before every element that the pass has seen. -/
theorem pass_first (left : α) (xs : List α) :
    swaps (pass swaps left xs).1 left = false ∧
      ∀ x ∈ xs, swaps (pass swaps left xs).1 x = false := by
  have hrefl : ∀ a, swaps a a = false := by
    intro a
    by_contra h
    exact h (hasymm a a (by simpa using h))
  induction xs generalizing left with
  | nil => simp [pass, hrefl]
  | cons right xs ih =>
    by_cases hswaps : swaps left right
    · obtain ⟨hfirst, hrest⟩ := ih right
      have hleft := htrans _ _ _ hfirst (hasymm left right hswaps)
      simp only [pass, hswaps, if_true, List.forall_mem_cons]
      exact ⟨hleft, hfirst, hrest⟩
    · obtain ⟨hfirst, hrest⟩ := ih left
      have hright := htrans _ _ _ hfirst (by simpa using hswaps)
      simp only [pass, hswaps, if_false, Bool.false_eq_true, List.forall_mem_cons]
      exact ⟨hfirst, hright, hrest⟩

/-- The outer loop leaves the elements before its index alone and puts the others in order. -/
theorem outerLoop_sorts (done xs : List α) :
    ∃ sorted, outerLoop swaps done.length (done ++ xs) = done ++ sorted ∧ sorted.Perm xs ∧
      sorted.Pairwise fun a b => swaps a b = false := by
  induction hn : xs.length generalizing done xs with
  | zero =>
    obtain rfl : xs = [] := List.length_eq_zero_iff.mp hn
    rw [outerLoop, if_neg (by simp)]
    exact ⟨[], rfl, List.Perm.refl _, List.Pairwise.nil⟩
  | succ n ih =>
    obtain ⟨left, xs, rfl⟩ := List.exists_cons_of_length_eq_add_one hn
    have hpass := innerLoop_eq_pass swaps done [] xs left
    simp only [List.length_nil, Nat.add_zero, List.nil_append] at hpass
    have hperm := perm_pass swaps left xs
    have hlen : (pass swaps left xs).2.length = n := by
      have h := hperm.length_eq
      simp only [List.length_cons] at h hn
      omega
    obtain ⟨sorted, hout, hsorted, hpair⟩ :=
      ih (done ++ [(pass swaps left xs).1]) (pass swaps left xs).2 hlen
    refine ⟨(pass swaps left xs).1 :: sorted, ?_, (hsorted.cons _).trans hperm, ?_⟩
    · rw [outerLoop, if_pos (by simp), hpass]
      simpa using hout
    · apply List.Pairwise.cons _ hpair
      intro x hx
      obtain ⟨hfirst, hrest⟩ := pass_first hasymm htrans left xs
      have hmem : x ∈ left :: xs := by
        apply hperm.mem_iff.mp
        exact List.mem_cons_of_mem _ (hsorted.mem_iff.mp hx)
      rcases List.mem_cons.mp hmem with rfl | hmem
      · exact hfirst
      · exact hrest x hmem

theorem sorted_outerLoop (xs : List α) :
    (outerLoop swaps 0 xs).Pairwise fun a b => swaps a b = false := by
  obtain ⟨sorted, hout, -, hpair⟩ := outerLoop_sorts hasymm htrans [] xs
  simp only [List.length_nil, List.nil_append] at hout
  rwa [hout]

theorem perm_outerLoop (xs : List α) : (outerLoop swaps 0 xs).Perm xs := by
  obtain ⟨sorted, hout, hperm, -⟩ := outerLoop_sorts hasymm htrans [] xs
  simp only [List.length_nil, List.nil_append] at hout
  rwa [hout]

end Order

end ExchangeSort
