import Mathlib.Data.List.Basic
import Mathlib.Tactic
import Caster.Json.Stringify

/-!
# Strings of the language

The functions on strings that the libraries call: `find`, `ARR(text, separator)`, `filt` with a
condition on the index, and `urlDecode`.
-/

namespace Caster

/-- The bytes of a string literal of ASCII characters. -/
def strLit (text : String) : Bytes := text.toList.map fun c => c.toNat.toUInt8

/-- The search of `flx_str_find` from a byte on, whose index is given. -/
def strFindFrom (needle : Bytes) : Bytes → ℕ → ℤ
  | [], _ => -1
  | ch :: text, i => if needle.isPrefixOf (ch :: text) then i else strFindFrom needle text (i + 1)

/-- The index where a string is found in another one, or `-1`. -/
def strFind (text needle : Bytes) : ℤ :=
  if needle.length = 0 then 0
  else strFindFrom needle text 0

/-- The loop of `emit_split_expr` at byte `i`, where the next part starts at byte `start`. -/
def splitFrom (src needle : Bytes) (start i : ℕ) : List Bytes :=
  if hi : i ≤ src.length then
    if hmatch : 0 < needle.length ∧ needle.isPrefixOf (src.drop i) then
      (src.take i).drop start :: splitFrom src needle (i + needle.length) (i + needle.length)
    else if i = src.length then
      (src.take i).drop start :: splitFrom src needle (i + 1) (i + 1)
    else
      splitFrom src needle start (i + 1)
  else []
termination_by src.length + 1 - i

/-- The parts of a string between the places where a separator occurs. -/
def strSplit (text sep : Bytes) : List Bytes := splitFrom text sep 0 0

/-- The bytes of a string whose index meets a condition. -/
def strFilt (text : Bytes) (condition : ℕ → Bool) : Bytes :=
  (text.zipIdx.filter fun e => condition e.2).map Prod.fst

/-- The value of a hexadecimal digit. -/
def hexValue (ch : UInt8) : Option UInt8 :=
  if 48 ≤ ch ∧ ch ≤ 57 then some (ch - 48)
  else if 97 ≤ ch ∧ ch ≤ 102 then some (10 + ch - 97)
  else if 65 ≤ ch ∧ ch ≤ 70 then some (10 + ch - 65)
  else none

/-- The string that `flx_str_url_decode` makes. -/
def urlDecode : Bytes → Bytes
  | [] => []
  | ch :: text =>
    if ch = 43 then 32 :: urlDecode text
    else
      match ch, text with
      | 37, high :: low :: rest =>
        match hexValue high, hexValue low with
        | some hi, some lo => (hi <<< 4 ||| lo) :: urlDecode rest
        | _, _ => 37 :: urlDecode (high :: low :: rest)
      | ch, text => ch :: urlDecode text

namespace Web

/-- The loop of `flx_str_url_decode` from byte `i` on. -/
def urlDecodeFrom (text : Bytes) (i : ℕ) : Bytes :=
  if hi : i < text.length then
    if text[i] = 43 then 32 :: urlDecodeFrom text (i + 1)
    else if hguard : text[i] = 37 ∧ i + 2 < text.length then
      match hexValue text[i + 1], hexValue text[i + 2] with
      | some high, some low => (high <<< 4 ||| low) :: urlDecodeFrom text (i + 3)
      | _, _ => text[i] :: urlDecodeFrom text (i + 1)
    else text[i] :: urlDecodeFrom text (i + 1)
  else []
termination_by text.length - i

/-- The bytes that `flx_str_url_decode` writes. -/
def flxStrUrlDecode (text : Bytes) : Bytes := urlDecodeFrom text 0

end Web

/-! ### Single bytes -/

/-- A byte is found where it occurs first. -/
theorem strFindFrom_byte (b : UInt8) (text : Bytes) (i : ℕ) :
  strFindFrom [b] text i = if b ∈ text then ((i + (text.takeWhile (· ≠ b)).length : ℕ) : ℤ) else -1
  := by
  induction text generalizing i with
  | nil => simp [strFindFrom]
  | cons ch text ih =>
    by_cases hch : ch = b
    · simp [strFindFrom, hch, List.isPrefixOf]
    · have hne : ¬ b = ch := fun h => hch h.symm
      rw [strFindFrom, ih]
      simp [List.isPrefixOf, hne, hch]
      by_cases hmem : b ∈ text
      · simp [hmem]
        ring
      · simp [hmem]

theorem filter_zipIdx_lt (text : Bytes) (n k : ℕ) :
  ((text.zipIdx k).filter fun e => decide (e.2 < n)).map Prod.fst = text.take (n - k)
  := by
  induction text generalizing k with
  | nil => simp
  | cons ch text ih =>
    by_cases hk : k < n
    · have hsub : n - k = n - (k + 1) + 1 := by omega
      simp [List.zipIdx_cons, hk, ih, hsub]
    · have hsub : n - k = 0 := by omega
      have hsub' : n - (k + 1) = 0 := by omega
      simp [List.zipIdx_cons, hk, ih, hsub, hsub']

theorem strFilt_lt (text : Bytes) (n : ℕ) :
  strFilt text (fun i => decide (i < n)) = text.take n
  := filter_zipIdx_lt text n 0

theorem strFilt_pos (text : Bytes) : strFilt text (fun i => decide (0 < i)) = text.tail := by
  cases text with
  | nil => rfl
  | cons ch text =>
    have hall : ∀ e ∈ text.zipIdx 1, decide (0 < e.2) = true := by
      intro e he
      have hle := List.le_snd_of_mem_zipIdx he
      simp only [decide_eq_true_eq]
      omega
    rw [strFilt, List.zipIdx_cons, List.filter_cons_of_neg (by simp), List.filter_eq_self.mpr hall]
    simp

theorem modifyHead_self (parts : List Bytes) : parts.modifyHead (fun part => part) = parts := by
  cases parts <;> rfl

/-- The loop that splits a string goes on as if the rest of it were split, and the part that has
been started were put before the first one. -/
theorem splitFrom_byte (src : Bytes) (b : UInt8) (start i : ℕ) (hstart : start ≤ i)
    (hi : i ≤ src.length) :
  splitFrom src [b] start i = ((src.drop i).splitOn b).modifyHead ((src.take i).drop start ++ ·)
  := by
  induction hn : src.length - i generalizing start i with
  | zero =>
    have heq : i = src.length := by omega
    rw [splitFrom, dif_pos hi, dif_neg (by simp [heq]), if_pos heq, splitFrom, dif_neg (by omega)]
    simp [heq]
  | succ n ih =>
    have hlt : i < src.length := by omega
    have hdrop : src.drop i = src[i] :: src.drop (i + 1) := List.drop_eq_getElem_cons hlt
    have htake : src.take (i + 1) = src.take i ++ [src[i]] := (List.take_append_getElem hlt).symm
    rw [splitFrom, dif_pos hi, hdrop, List.splitOn_cons_eq_if_modifyHead]
    by_cases hb : src[i] = b
    · have hmatch : 0 < [b].length ∧ [b].isPrefixOf (src[i] :: src.drop (i + 1)) := by
        simp [List.isPrefixOf, hb]
      rw [dif_pos hmatch, List.length_singleton, ih (i + 1) (i + 1) (le_refl _) hlt (by omega)]
      simp [hb, modifyHead_self]
    · have hmatch : ¬ (0 < [b].length ∧ [b].isPrefixOf (src[i] :: src.drop (i + 1))) := by
        have hne : ¬ b = src[i] := fun h => hb h.symm
        simp [List.isPrefixOf, hne]
      rw [dif_neg hmatch, if_neg (by omega), ih start (i + 1) (by omega) hlt (by omega), htake,
        List.drop_append_of_le_length (by simp; omega)]
      simp [hb, List.modifyHead_modifyHead, Function.comp_def]

/-- A string is split at every occurrence of a byte. -/
theorem strSplit_byte (text : Bytes) (b : UInt8) : strSplit text [b] = text.splitOn b := by
  rw [strSplit, splitFrom_byte text b 0 0 (le_refl 0) (Nat.zero_le _)]
  simp [modifyHead_self]

end Caster
