import Caster.Library.Splitting
import Caster.Web.Text

/-!
# Splitting and joining

The expressions `t.ARR(sep)` and `xs.STR(sep)`: the loop that splits a string, and the function that
joins an array of strings.
-/

namespace Caster

/-- The length that `flx_arr_str_join_sep` allocates. -/
def joinedLength (arr : List Bytes) (delimiter : Bytes) : ℕ :=
  (arr.map List.length).sum + if arr.length > 1 then delimiter.length * (arr.length - 1) else 0

/-- The bytes that the loop of `flx_arr_str_join_sep` writes from index `i` on. -/
def joinFrom (delimiter : Bytes) (i : ℕ) : List Bytes → Bytes
  | [] => []
  | part :: arr => (if i > 0 then delimiter else []) ++ part ++ joinFrom delimiter (i + 1) arr

/-- The elements of an array of strings with a delimiter between them. -/
def flxArrStrJoinSep (arr : List Bytes) (delimiter : Bytes) : Bytes := joinFrom delimiter 0 arr

/-! ### Joining -/

theorem joinFrom_succ (delimiter : Bytes) (i : ℕ) (arr : List Bytes) :
  joinFrom delimiter (i + 1) arr = arr.flatMap (delimiter ++ ·)
  := by
  induction arr generalizing i with
  | nil => rfl
  | cons part arr ih => rw [joinFrom, if_pos (Nat.succ_pos i), ih, List.flatMap_cons]

theorem flxArrStrJoinSep_eq (arr : List Bytes) (delimiter : Bytes) :
  flxArrStrJoinSep arr delimiter = delimiter.intercalate arr
  := by
  cases arr with
  | nil => rfl
  | cons part arr =>
    rw [flxArrStrJoinSep, joinFrom, joinFrom_succ]
    induction arr generalizing part with
    | nil => simp
    | cons next arr ih =>
      rw [List.intercalate_cons_cons, ← ih, List.flatMap_cons]
      simp

/-- The bytes that are written are as many as are allocated. -/
theorem length_flxArrStrJoinSep (arr : List Bytes) (delimiter : Bytes) :
  (flxArrStrJoinSep arr delimiter).length = joinedLength arr delimiter
  := by
  cases arr with
  | nil => rfl
  | cons part arr =>
    rw [flxArrStrJoinSep, joinFrom, joinFrom_succ, joinedLength]
    have hrest : (arr.flatMap (delimiter ++ ·)).length =
        (arr.map List.length).sum + delimiter.length * arr.length := by
      induction arr with
      | nil => rfl
      | cons next arr ih =>
        simp only [List.flatMap_cons, List.length_append, ih, List.map_cons, List.sum_cons,
          List.length_cons]
        ring
    cases arr with
    | nil => simp
    | cons next arr =>
      have hmany : (part :: next :: arr).length > 1 := by simp
      rw [if_pos hmany, if_neg (lt_irrefl 0), List.nil_append, List.length_append, hrest]
      simp only [List.map_cons, List.sum_cons, List.length_cons, Nat.add_sub_cancel]
      ring

/-! ### Splitting -/

/-- The test of the loop at a byte is that the separator starts there. -/
theorem starts_iff (sep text : Bytes) :
  0 < sep.length ∧ sep.isPrefixOf text ↔ Splitting.Starts sep text
  := by
  rw [Splitting.Starts, List.length_pos_iff, List.isPrefixOf_iff_prefix]

/-- The loop goes on as if the rest of the string were split, and the part that has been started were
put before the first one. -/
theorem splitFrom_eq (src sep : Bytes) (start i : ℕ) (hstart : start ≤ i) (hi : i ≤ src.length) :
  splitFrom src sep start i =
    (Splitting.parts sep (src.drop i)).modifyHead ((src.take i).drop start ++ ·)
  := by
  induction hn : src.length - i using Nat.strong_induction_on generalizing start i with
  | _ n ih =>
  rw [splitFrom, dif_pos hi]
  rcases Nat.lt_or_eq_of_le hi with hlt | rfl
  · have hdrop : src.drop i = src[i] :: src.drop (i + 1) := List.drop_eq_getElem_cons hlt
    by_cases hmatch : Splitting.Starts sep (src.drop i)
    · have hlen : sep.length ≤ (src.drop i).length := hmatch.2.length_le
      have hpos := List.length_pos_iff.mpr hmatch.1
      rw [List.length_drop] at hlen
      rw [dif_pos ((starts_iff _ _).mpr hmatch),
        ih (src.length - (i + sep.length)) (by omega) _ _ (le_refl _) (by omega) rfl, hdrop,
        Splitting.parts_of_starts (hdrop ▸ hmatch), ← hdrop, List.drop_drop]
      simp [modifyHead_self]
    · have htake : src.take (i + 1) = src.take i ++ [src[i]] := (List.take_append_getElem hlt).symm
      rw [dif_neg (mt (starts_iff _ _).mp hmatch), if_neg (by omega),
        ih (src.length - (i + 1)) (by omega) _ _ (by omega) hlt rfl, htake,
        List.drop_append_of_le_length (by simp; omega), hdrop,
        Splitting.parts_of_not_starts (hdrop ▸ hmatch)]
      simp [List.modifyHead_modifyHead, Function.comp_def]
  · have hmatch : ¬ Splitting.Starts sep (src.drop src.length) := by
      rintro ⟨hne, hfound⟩
      rw [List.drop_length, List.prefix_nil] at hfound
      exact hne hfound
    rw [dif_neg (mt (starts_iff _ _).mp hmatch), if_pos rfl, splitFrom, dif_neg (by omega)]
    simp [Splitting.parts]

theorem strSplit_eq (text sep : Bytes) : strSplit text sep = Splitting.parts sep text := by
  rw [strSplit, splitFrom_eq text sep 0 0 (le_refl 0) (Nat.zero_le _)]
  simp [modifyHead_self]

/-! ### Both -/

/-- The parts of a string joined again are the string.  A separator that is not empty is in none of
them, and they are one more than its occurrences.  The parts of a joined array, none of which contains
the separator of one byte, are the array. -/
theorem split_join_inverse (text sep : Bytes) (arr : List Bytes) (b : UInt8) :
  flxArrStrJoinSep (strSplit text sep) sep = text ∧
    (sep ≠ [] →
      (strSplit text sep).length = Splitting.occurrences sep text + 1 ∧
        ∀ part ∈ strSplit text sep, ¬ sep <:+: part) ∧
    (arr ≠ [] → (∀ part ∈ arr, ¬ [b] <:+: part) →
      strSplit (flxArrStrJoinSep arr [b]) [b] = arr)
  := by
  refine ⟨?_, ?_, ?_⟩
  · rw [strSplit_eq, flxArrStrJoinSep_eq]
    exact Splitting.intercalate_parts sep text
  · intro hsep
    rw [strSplit_eq]
    exact ⟨Splitting.length_parts sep text, Splitting.not_infix_of_mem_parts hsep⟩
  · intro harr hpart
    rw [flxArrStrJoinSep_eq, strSplit_byte]
    apply List.splitOn_intercalate
    · intro part hmem hb
      apply hpart part hmem
      rwa [List.singleton_infix_iff]
    · exact harr

/-- No part of `x--y` split at `--` contains it, and the parts `x` and the empty string are those of
`x,`. -/
theorem split_join_inverse_dashes :
  (∀ part ∈ strSplit [120, 45, 45, 121] [45, 45], ¬ [45, 45] <:+: part) ∧
    strSplit (flxArrStrJoinSep [[120], []] [44]) [44] = [[120], []]
  := by
  obtain ⟨-, hsplit, hjoin⟩ := split_join_inverse [120, 45, 45, 121] [45, 45] [[120], []] 44
  refine ⟨(hsplit (by simp)).2, hjoin (by simp) ?_⟩
  intro part hpart
  fin_cases hpart <;> simp

end Caster
