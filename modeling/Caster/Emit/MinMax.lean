import Caster.Emit.Sort

/-!
# Least and greatest elements

The loops that `min(t)` and `max(t)` are emitted as, for a string and for an array of strings.
-/

namespace Caster

/-- A byte as a C value of type `char`, which is signed on some targets. -/
def charValue (signed : Bool) (b : UInt8) : ℤ := if signed then b.toInt8.toInt else b.toNat

/-- The comparison `<` or `>` of `emit_minmax_expr` for two bytes of a string. -/
def charCmp (signed isMax : Bool) (left right : UInt8) : Bool :=
  if isMax then decide (charValue signed left > charValue signed right)
  else decide (charValue signed left < charValue signed right)

/-- The comparison of `emit_minmax_expr` for two elements of an array of strings. -/
def strCmp (isMax : Bool) (left right : Bytes) : Bool :=
  if isMax then flxStrCompareGt left right else flxStrCompareLt left right

/-- The index of the best byte. -/
def bestIndex (signed isMax : Bool) (src : Bytes) : ℕ :=
  (List.range' 1 (src.length - 1)).foldl
    (fun best i => if charCmp signed isMax (src.getD i 0) (src.getD best 0) then i else best) 0

/-- The value of `min(t)` or `max(t)` for a string. -/
def minmaxStr (signed isMax : Bool) (src : Bytes) : Bytes :=
  if src.length ≠ 0 then [src.getD (bestIndex signed isMax src) 0] else []

/-- The value of `min(xs)` or `max(xs)` for an array of strings. -/
def minmaxArr (isMax : Bool) (src : List Bytes) : Bytes :=
  (List.range' 1 (src.length - 1)).foldl
    (fun best i => if strCmp isMax (src.getD i []) best then src.getD i [] else best)
    (if src.length ≠ 0 then src.getD 0 [] else [])

/-- The strings of one byte of `flx_str_chars`. -/
def flxStrChars (text : Bytes) : List Bytes := text.map fun b => [b]

/-- `min` and `max` of a string are those of the array of its bytes. -/
def MinMaxAgree (signed : Bool) (text : Bytes) : Prop :=
  ∀ isMax, minmaxStr signed isMax text = minmaxArr isMax (flxStrChars text)

/-- The bytes of a string are in one half of the byte values. -/
def OneHalf (text : Bytes) : Prop := (∀ b ∈ text, b < 128) ∨ ∀ b ∈ text, 128 ≤ b

/-- The comparisons order all bytes alike, in the order that strings are sorted in. -/
def ByteOrdersAgree (signed : Bool) : Prop :=
  ∀ isMax a b, charCmp signed isMax a b = strCmp isMax [a] [b]

/-- The element that a loop with a comparison selects. -/
def bestOf {α : Type} (better : α → α → Bool) (first : α) (rest : List α) : α :=
  rest.foldl (fun best x => if better x best then x else best) first

section Selection

variable {α β : Type} {better : α → α → Bool}

theorem bestOf_map (f : α → β) (better : β → β → Bool) (first : α) (rest : List α) :
  bestOf better (f first) (rest.map f) = f (bestOf (fun x y => better (f x) (f y)) first rest)
  := by
  induction rest generalizing first with
  | nil => rfl
  | cons x rest ih =>
    simp only [bestOf, List.map_cons, List.foldl_cons] at ih ⊢
    rw [← apply_ite f, ih]

theorem bestOf_cons (first x : α) (rest : List α) :
  bestOf better first (x :: rest) = bestOf better (if better x first then x else first) rest
  := rfl

theorem bestOf_congr {better' : α → α → Bool} (first : α) (rest : List α)
    (h : ∀ x ∈ first :: rest, ∀ y ∈ first :: rest, better x y = better' x y) :
  bestOf better first rest = bestOf better' first rest
  := by
  induction rest generalizing first with
  | nil => rfl
  | cons x rest ih =>
    rw [bestOf_cons, bestOf_cons, h x (by simp) first (by simp)]
    apply ih
    intro y hy z hz
    apply h <;> split at * <;> grind

/-- No element is better than the one that is selected. -/
theorem bestOf_best
    (hasymm : ∀ a b, better a b = true → better b a = false)
    (htrans : ∀ a b c, better a b = false → better b c = false → better a c = false) (first : α)
    (rest : List α) :
  ∀ x ∈ first :: rest, better x (bestOf better first rest) = false
  := by
  induction rest generalizing first with
  | nil =>
    have hirrefl : better first first = false := by
      by_contra h
      exact h (hasymm first first (by simpa using h))
    simpa [bestOf] using hirrefl
  | cons x rest ih =>
    rw [bestOf_cons]
    by_cases hbetter : better x first
    · rw [if_pos hbetter]
      have hx := ih x
      have hfirst := htrans _ _ _ (hasymm x first hbetter) (hx x (by simp))
      grind
    · rw [if_neg hbetter]
      have hfirst := ih first
      have hx := htrans _ _ _ (by simpa using hbetter) (hfirst first (by simp))
      grind

/-- A loop over the indices behind some elements is a loop over the elements. -/
theorem foldl_range'_getD (step : β → α → β) (init : β) (default : α) (seen rest : List α) :
  (List.range' seen.length rest.length).foldl
      (fun acc i => step acc ((seen ++ rest).getD i default)) init = rest.foldl step init
  := by
  induction rest generalizing seen init with
  | nil => rfl
  | cons x rest ih =>
    have hnext := ih (step init x) (seen ++ [x])
    simp only [List.length_append, List.length_singleton, List.append_assoc,
      List.singleton_append] at hnext
    rw [List.length_cons, List.range'_succ, List.foldl_cons, List.foldl_cons, ← hnext]
    simp

/-- The element at the index that a loop selects is the one that the loop over elements selects. -/
theorem getD_bestIndex (default : α) (seen rest : List α) (best : ℕ) (hbest : best < seen.length) :
  (seen ++ rest).getD ((List.range' seen.length rest.length).foldl
      (fun best i =>
        if better ((seen ++ rest).getD i default) ((seen ++ rest).getD best default) then i
        else best) best) default =
    bestOf better (seen.getD best default) rest
  := by
  induction rest generalizing seen best with
  | nil => simp [bestOf]
  | cons x rest ih =>
    have hx : (seen ++ x :: rest).getD seen.length default = x := by simp
    have hold : (seen ++ x :: rest).getD best default = seen.getD best default := by
      simp [List.getElem?_append_left hbest]
    rw [List.length_cons, List.range'_succ, List.foldl_cons, hx, hold, bestOf_cons]
    have happend : seen ++ x :: rest = (seen ++ [x]) ++ rest := by simp
    have hlen : seen.length + 1 = (seen ++ [x]).length := by simp
    rw [happend, hlen]
    by_cases hbetter : better x (seen.getD best default)
    · rw [if_pos hbetter, if_pos hbetter, ih (seen ++ [x]) seen.length (by simp)]
      simp
    · rw [if_neg hbetter, if_neg hbetter, ih (seen ++ [x]) best (by simp; omega)]
      simp [List.getElem?_append_left hbest]

end Selection

/-! ### The two loops -/

theorem minmaxStr_cons (signed isMax : Bool) (first : UInt8) (rest : Bytes) :
  minmaxStr signed isMax (first :: rest) = [bestOf (charCmp signed isMax) first rest]
  := by
  have h := @getD_bestIndex _ (charCmp signed isMax) 0 [first] rest 0 (by simp)
  simpa [minmaxStr, bestIndex] using h

theorem strCmp_singleton (isMax : Bool) (a b : UInt8) :
  strCmp isMax [a] [b] = charCmp false isMax a b
  := by
  have hlt : flxStrCompare [a] [b] < 0 ↔ a.toNat < b.toNat := by
    simp [flxStrCompare_neg_iff, codes, List.cons_lt_cons_iff]
  have hgt : flxStrCompare [a] [b] > 0 ↔ b.toNat < a.toNat := by
    have hswap := flxStrCompare_swap [a] [b]
    have hneg : flxStrCompare [b] [a] < 0 ↔ b.toNat < a.toNat := by
      simp [flxStrCompare_neg_iff, codes, List.cons_lt_cons_iff]
    rw [← hneg, hswap]
    omega
  cases isMax with
  | true => simp [strCmp, charCmp, flxStrCompareGt, charValue, hgt]
  | false => simp [strCmp, charCmp, flxStrCompareLt, charValue, hlt]

theorem minmaxArr_chars (isMax : Bool) (first : UInt8) (rest : Bytes) :
  minmaxArr isMax (flxStrChars (first :: rest)) = [bestOf (charCmp false isMax) first rest]
  := by
  have h := foldl_range'_getD (fun best x => if strCmp isMax x best then x else best) [first] []
    [[first]] (flxStrChars rest)
  have hmap := bestOf_map (fun b : UInt8 => [b]) (strCmp isMax) first rest
  simp only [strCmp_singleton] at hmap
  rw [← hmap]
  simpa [minmaxArr, flxStrChars, bestOf] using h

/-! ### Signed bytes -/

theorem charValue_true (b : UInt8) :
  charValue true b = if b < 128 then (b.toNat : ℤ) else b.toNat - 256
  := by
  rw [charValue, if_pos rfl, UInt8.toInt8, Int8.toInt, BitVec.toInt_eq_toNat_cond]
  simp only [UInt8.lt_iff_toNat_lt, UInt8.toNat_ofNat]
  show (if 2 * b.toNat < 2 ^ 8 then (b.toNat : ℤ) else b.toNat - (2 ^ 8 : ℕ)) = _
  split <;> split <;> omega

theorem charCmp_asymm (signed isMax : Bool) (a b : UInt8) (h : charCmp signed isMax a b = true) :
  charCmp signed isMax b a = false
  := by
  cases isMax <;> simp [charCmp] at h ⊢ <;> omega

theorem charCmp_trans (signed isMax : Bool) (a b c : UInt8)
    (hab : charCmp signed isMax a b = false) (hbc : charCmp signed isMax b c = false) :
  charCmp signed isMax a c = false
  := by
  cases isMax <;> simp [charCmp] at hab hbc ⊢ <;> omega

/-- Bytes of one half are in the same order, signed or not. -/
theorem charCmp_of_oneHalf {text : Bytes} (h : OneHalf text) (signed isMax : Bool) {a b : UInt8}
    (ha : a ∈ text) (hb : b ∈ text) :
  charCmp signed isMax a b = charCmp false isMax a b
  := by
  cases signed with
  | false => rfl
  | true =>
    have hvalues : charValue true a - charValue true b = (a.toNat : ℤ) - b.toNat := by
      rw [charValue_true, charValue_true]
      rcases h with h | h
      · rw [if_pos (h a ha), if_pos (h b hb)]
      · rw [if_neg (UInt8.not_lt.mpr (h a ha)), if_neg (UInt8.not_lt.mpr (h b hb))]
        ring
    have hvalue : ∀ b, charValue false b = b.toNat := fun b => rfl
    cases isMax <;> simp only [charCmp, hvalue, decide_eq_decide, Bool.false_eq_true, if_true,
      if_false] <;> omega

/-- A text with bytes of both halves has its least byte in the upper half when bytes are signed, and in
the lower one when they are not. -/
theorem not_minMaxAgree_of_halves {text : Bytes} {low high : UInt8} (hlow : low ∈ text)
    (hlow' : low < 128) (hhigh : high ∈ text) (hhigh' : ¬ high < 128) :
  ¬ MinMaxAgree true text
  := by
  intro h
  cases text with
  | nil => cases hlow
  | cons first rest =>
    have hmin := h false
    rw [minmaxStr_cons, minmaxArr_chars, List.singleton_inj] at hmin
    have hsigned := bestOf_best (charCmp_asymm true false) (charCmp_trans true false) first rest
      high hhigh
    have hunsigned := bestOf_best (charCmp_asymm false false) (charCmp_trans false false) first rest
      low hlow
    rw [hmin] at hsigned
    generalize bestOf (charCmp false false) first rest = least at hsigned hunsigned
    simp only [charCmp, Bool.false_eq_true, if_false, decide_eq_false_iff_not, not_lt,
      charValue_true, if_neg hhigh'] at hsigned hunsigned
    simp only [charValue, Bool.false_eq_true, if_false] at hunsigned
    rw [UInt8.lt_iff_toNat_lt] at hlow' hhigh'
    have hleast : least < 128 := by
      rw [UInt8.lt_iff_toNat_lt]
      simp at *
      omega
    have hbyte := high.toNat_lt
    rw [if_pos hleast] at hsigned
    omega

theorem minMaxAgree_iff (signed : Bool) (text : Bytes) :
  MinMaxAgree signed text ↔ signed = false ∨ OneHalf text
  := by
  constructor
  · intro h
    by_contra hnot
    simp only [OneHalf, not_or, not_forall, Bool.not_eq_false] at hnot
    obtain ⟨rfl, ⟨high, hhigh, hhigh'⟩, low, hlow, hlow'⟩ := hnot
    exact not_minMaxAgree_of_halves hlow (UInt8.not_le.mp hlow') hhigh hhigh' h
  · intro h isMax
    cases text with
    | nil => rfl
    | cons first rest =>
      rw [minmaxStr_cons, minmaxArr_chars]
      rcases h with rfl | h
      · rfl
      · rw [bestOf_congr first rest fun x hx y hy => charCmp_of_oneHalf h signed isMax hx hy]

/-! ### The orders -/

theorem byteOrdersAgree_iff (signed : Bool) : ByteOrdersAgree signed ↔ signed = false := by
  constructor
  · intro h
    cases signed with
    | false => rfl
    | true => exact absurd (h false 128 0) (by decide)
  · rintro rfl isMax a b
    rw [strCmp_singleton]

/-- `min` and `max` of a string are those of the array of its bytes exactly when the bytes are not
signed or are in one half of the byte values, and the comparisons of the two order all bytes alike
exactly when bytes are not signed. -/
theorem stringOrders_agree_iff (signed : Bool) (text : Bytes) :
  (MinMaxAgree signed text ↔ signed = false ∨ OneHalf text) ∧
    (ByteOrdersAgree signed ↔ signed = false)
  := ⟨minMaxAgree_iff signed text, byteOrdersAgree_iff signed⟩

/-- Where `char` is signed, the least byte of the string of the bytes 65 and 195 is 195, and the least
element of the array is the string of the byte 65. -/
theorem not_stringOrders_agree : ¬ ((∀ text, MinMaxAgree true text) ∧ ByteOrdersAgree true) := by
  rintro ⟨h, -⟩
  exact absurd (h [65, 195] false) (by decide)

end Caster
