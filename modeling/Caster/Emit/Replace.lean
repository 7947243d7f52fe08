import Caster.Library.Splitting
import Caster.Web.Text

/-!
# Replacement

The expression `t.replace(old, next)`: `flx_str_replace` counts the occurrences of a string in one
scan, to know how many bytes to allocate, and writes the result in another one.
-/

namespace Caster

/-! ### The two scans -/

/-- The loop that compares a string with another one from byte `i` on, where `j` bytes are the
same. -/
def sameFrom (text old : Bytes) (i j : ℕ) : Bool :=
  if j < old.length then
    if text[i + j]? = old[j]? then sameFrom text old i (j + 1)
    else false
  else true
termination_by old.length - j

/-- The number of occurrences that the first scan of `flx_str_replace` counts from byte `i` on. -/
def countFrom (text old : Bytes) (hold : 0 < old.length) (i : ℕ) : ℤ :=
  if (i : ℤ) ≤ text.length - old.length then
    if sameFrom text old i 0 then countFrom text old hold (i + old.length) + 1
    else countFrom text old hold (i + 1)
  else 0
termination_by text.length + 1 - i

/-- The bytes that the second scan of `flx_str_replace` writes from byte `i` on. -/
def writeFrom (text old next : Bytes) (hold : 0 < old.length) (i : ℕ) : Bytes :=
  if hi : i < text.length then
    if (i : ℤ) ≤ text.length - old.length ∧ sameFrom text old i 0 then
      next ++ writeFrom text old next hold (i + old.length)
    else text[i] :: writeFrom text old next hold (i + 1)
  else []
termination_by text.length - i

/-- A string that has been allocated, with the bytes that have been written into it. -/
structure Written where
  len : ℤ
  data : Bytes
deriving DecidableEq

/-- The string that `flx_str_replace` makes. -/
def flxStrReplace (text old next : Bytes) : Written :=
  if hold : old.length = 0 then { len := text.length, data := text }
  else
    let count := countFrom text old (Nat.pos_of_ne_zero hold) 0
    { len := text.length + count * (next.length - old.length)
      data := writeFrom text old next (Nat.pos_of_ne_zero hold) 0 }

/-! ### One occurrence -/

theorem sameFrom_iff (text old : Bytes) (i j : ℕ) (hj : j ≤ old.length) :
  sameFrom text old i j ↔ old.drop j <+: text.drop (i + j)
  := by
  fun_induction sameFrom text old i j with
  | case1 j hlt hsame ih =>
    rw [List.getElem?_eq_getElem hlt, List.getElem?_eq_some_iff] at hsame
    obtain ⟨hbound, hsame⟩ := hsame
    rw [ih hlt, List.drop_eq_getElem_cons hlt, List.drop_eq_getElem_cons hbound, hsame,
      List.cons_prefix_cons, Nat.add_assoc]
    simp
  | case2 j hlt hsame =>
    rw [List.drop_eq_getElem_cons hlt]
    simp only [Bool.false_eq_true, false_iff]
    intro hfound
    apply hsame
    have hfirst := hfound.getElem (i := 0) (Nat.succ_pos _)
    have hlen := hfound.length_le
    simp only [List.length_cons, List.length_drop] at hlen
    rw [List.getElem?_eq_getElem hlt, List.getElem?_eq_getElem (by omega)]
    simpa using hfirst.symm
  | case3 j hlt => simp [List.drop_eq_nil_of_le (by omega : old.length ≤ j)]

/-- Both tests of a scan say that the string is found at a byte. -/
theorem found_iff (text old : Bytes) (hold : 0 < old.length) (i : ℕ) :
  (i : ℤ) ≤ text.length - old.length ∧ sameFrom text old i 0 ↔
    Splitting.Starts old (text.drop i)
  := by
  rw [sameFrom_iff text old i 0 (Nat.zero_le _), List.drop_zero, Nat.add_zero, Splitting.Starts,
    ← List.length_pos_iff]
  constructor
  · rintro ⟨-, hfound⟩
    exact ⟨hold, hfound⟩
  · rintro ⟨-, hfound⟩
    have hlen := hfound.length_le
    rw [List.length_drop] at hlen
    exact ⟨by omega, hfound⟩

theorem countFrom_eq (text old : Bytes) (hold : 0 < old.length) (i : ℕ) (hi : i ≤ text.length) :
  countFrom text old hold i = Splitting.occurrences old (text.drop i)
  := by
  fun_induction countFrom text old hold i with
  | case1 i hguard hsame ih =>
    have hfound := (found_iff text old hold i).mp ⟨hguard, hsame⟩
    have hlt : i < text.length := by omega
    rw [List.drop_eq_getElem_cons hlt] at hfound ⊢
    rw [Splitting.occurrences, dif_pos hfound, ← List.drop_eq_getElem_cons hlt, List.drop_drop,
      ih (by omega)]
    rfl
  | case2 i hguard hsame ih =>
    have hfound := mt (found_iff text old hold i).mpr (fun h => hsame h.2)
    have hlt : i < text.length := by omega
    rw [List.drop_eq_getElem_cons hlt] at hfound ⊢
    rw [Splitting.occurrences, dif_neg hfound, ih hlt]
  | case3 i hguard =>
    rw [Splitting.occurrences_of_length_lt, Nat.cast_zero]
    rw [List.length_drop]
    omega

theorem writeFrom_eq (text old next : Bytes) (hold : 0 < old.length) (i : ℕ) :
  writeFrom text old next hold i = Splitting.replace old next (text.drop i)
  := by
  fun_induction writeFrom text old next hold i with
  | case1 i hlt hfound ih =>
    rw [found_iff text old hold] at hfound
    rw [List.drop_eq_getElem_cons hlt] at hfound ⊢
    rw [Splitting.replace_of_starts next hfound, ← List.drop_eq_getElem_cons hlt, List.drop_drop,
      ih]
  | case2 i hlt hfound ih =>
    rw [found_iff text old hold] at hfound
    rw [List.drop_eq_getElem_cons hlt] at hfound ⊢
    rw [Splitting.replace_of_not_starts next hfound, ih]
  | case3 i hlt => rw [List.drop_eq_nil_of_le (by omega), Splitting.replace_nil]

/-- The occurrences that are found from left to right are replaced, and as many bytes are written as
have been allocated. -/
theorem flxStrReplace_replaces (text old next : Bytes) (hold : old ≠ []) :
  (∀ out, Splitting.Replaces old next text out ↔ (flxStrReplace text old next).data = out) ∧
    (flxStrReplace text old next).len = (flxStrReplace text old next).data.length
  := by
  have hpos := List.length_pos_iff.mpr hold
  rw [flxStrReplace, dif_neg (by omega)]
  dsimp only
  rw [writeFrom_eq, countFrom_eq text old hpos 0 (Nat.zero_le _), List.drop_zero,
    Splitting.length_replace]
  exact ⟨Splitting.replaces_iff hold next text, rfl⟩

/-- In `aaaaa`, `aa` is replaced twice. -/
theorem flxStrReplace_overlapping :
  (flxStrReplace (strLit "aaaaa") (strLit "aa") (strLit "b")).data = strLit "bba"
  := by
  apply ((flxStrReplace_replaces (strLit "aaaaa") (strLit "aa") (strLit "b") (by decide)).1 _).mp
  apply Splitting.Replaces.found
  apply Splitting.Replaces.found
  apply Splitting.Replaces.kept (by decide)
  apply Splitting.Replaces.nil

end Caster
