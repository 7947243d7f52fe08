import Caster.Json.Canonical
import Caster.Library.ExchangeSort

/-!
# Sorting

The order on strings of generated programs, and the loops that `xs.sort(k)` is emitted as.
-/

namespace Caster

/-! ### The order on strings -/

/-- The loop of `flx_str_compare` over the indices that both strings have, and the comparison of the
lengths behind it. -/
def compareFrom (left right : Bytes) : List (UInt8 × UInt8) → ℤ
  | [] =>
    if left.length = right.length then 0
    else if left.length < right.length then -1 else 1
  | (a, b) :: rest => if a ≠ b then if a < b then -1 else 1 else compareFrom left right rest

/-- Less than zero when the left string comes first, more than zero when the right one does. -/
def flxStrCompare (left right : Bytes) : ℤ := compareFrom left right (left.zip right)

def flxStrCompareLt (left right : Bytes) : Bool := decide (flxStrCompare left right < 0)

def flxStrCompareGt (left right : Bytes) : Bool := decide (flxStrCompare left right > 0)

/-! ### Keys -/

/-- The types of keys. -/
inductive KeyType where
  | INT | STR | BOL
deriving DecidableEq, Repr

/-- The keys of a type. -/
abbrev KeyType.Value : KeyType → Type
  | INT => ℤ
  | STR => Bytes
  | BOL => Bool

/-- The condition of `emit_sort_swap_condition`, for a direction that is `ASC` unless it is
`DESC`. -/
def emitSortSwapCondition : (type : KeyType) → (left right : type.Value) → Option String → Bool
  | .STR, left, right, direction =>
    if direction = some "DESC" then flxStrCompareGt right left else flxStrCompareLt right left
  | .INT, left, right, direction =>
    if direction = some "DESC" then decide (right > left) else decide (right < left)
  | .BOL, left, right, direction =>
    if direction = some "DESC" then decide (right > left) else decide (right < left)

/-- The value of `xs.sort(k ASC)` or `xs.sort(k DESC)`: a copy of the array on which the two loops
have run. -/
def sortMethod {α : Type} (type : KeyType) (key : α → type.Value) (direction : Option String)
    (xs : List α) : List α :=
  ExchangeSort.outerLoop
    (fun left right => emitSortSwapCondition type (key left) (key right) direction) 0 xs

/-- The order of keys: that of integers, or that of strings at runtime. -/
def KeyLe : (type : KeyType) → type.Value → type.Value → Prop
  | .INT, a, b => a ≤ b
  | .STR, a, b => flxStrCompare a b ≤ 0
  | .BOL, a, b => a ≤ b

/-! ### Strings in order -/

theorem compareFrom_cons (a b : UInt8) (left right : Bytes) (rest : List (UInt8 × UInt8)) :
  compareFrom (a :: left) (b :: right) rest = compareFrom left right rest
  := by
  induction rest with
  | nil => simp [compareFrom]
  | cons pair rest ih => rw [compareFrom, compareFrom, ih]

theorem flxStrCompare_cons (a b : UInt8) (left right : Bytes) :
  flxStrCompare (a :: left) (b :: right) =
    if a ≠ b then if a < b then -1 else 1 else flxStrCompare left right
  := by
  rw [flxStrCompare, List.zip_cons_cons, compareFrom, compareFrom_cons]
  rfl

/-- The left string comes first when its bytes do, compared word by word. -/
theorem flxStrCompare_neg_iff (left right : Bytes) :
  flxStrCompare left right < 0 ↔ codes left < codes right
  := by
  induction left generalizing right with
  | nil => cases right <;> simp [flxStrCompare, compareFrom, codes]
  | cons a left ih =>
    cases right with
    | nil => simp [flxStrCompare, compareFrom, codes]
    | cons b right =>
      have hcodes : codes (a :: left) < codes (b :: right) ↔
          a.toNat < b.toNat ∨ a.toNat = b.toNat ∧ codes left < codes right :=
        List.cons_lt_cons_iff
      rw [flxStrCompare_cons, hcodes, ← ih, UInt8.toNat_inj, ← UInt8.lt_iff_toNat_lt]
      by_cases hab : a = b
      · simp [hab]
      · by_cases hlt : a < b <;> simp [hab, hlt]

theorem flxStrCompare_swap (left right : Bytes) :
  flxStrCompare right left = - flxStrCompare left right
  := by
  induction left generalizing right with
  | nil => cases right <;> simp [flxStrCompare, compareFrom]
  | cons a left ih =>
    cases right with
    | nil => simp [flxStrCompare, compareFrom]
    | cons b right =>
      rw [flxStrCompare_cons, flxStrCompare_cons, ih]
      by_cases hab : a = b
      · simp [hab]
      · have hba : ¬ b = a := fun h => hab h.symm
        by_cases hlt : a < b
        · have hge : ¬ b < a := UInt8.lt_asymm hlt
          simp [hab, hba, hlt, hge]
        · have hgt : b < a := UInt8.lt_of_le_of_ne (UInt8.not_lt.mp hlt) hba
          simp [hab, hba, hlt, hgt]

theorem flxStrCompare_le_iff (left right : Bytes) :
  flxStrCompare left right ≤ 0 ↔ codes left ≤ codes right
  := by
  have hneg := flxStrCompare_neg_iff right left
  rw [flxStrCompare_swap] at hneg
  rw [← not_iff_not, not_le, not_le, ← hneg]
  omega

/-! ### Sorted arrays -/

/-- The order of strings is total. -/
theorem linear_flxStrCompare : IsLinearOrder Bytes fun left right => flxStrCompare left right ≤ 0 where
  refl text := by
    rw [flxStrCompare_le_iff]
  trans a b c hab hbc := by
    rw [flxStrCompare_le_iff] at *
    exact le_trans hab hbc
  antisymm a b hab hba := by
    rw [flxStrCompare_le_iff] at *
    exact codes_injective (le_antisymm hab hba)
  total a b := by
    rw [flxStrCompare_le_iff, flxStrCompare_le_iff]
    exact le_total _ _

theorem linear_keyLe (type : KeyType) : IsLinearOrder type.Value (KeyLe type) := by
  cases type with
  | INT => exact inferInstanceAs (IsLinearOrder ℤ (· ≤ ·))
  | STR => exact linear_flxStrCompare
  | BOL => exact inferInstanceAs (IsLinearOrder Bool (· ≤ ·))

/-- Two keys stay where they are for `ASC` when they are in order. -/
theorem emitSortSwapCondition_asc (type : KeyType) (left right : type.Value) :
  emitSortSwapCondition type left right (some "ASC") = false ↔ KeyLe type left right
  := by
  cases type with
  | INT => simp [emitSortSwapCondition, KeyLe]
  | STR =>
    have hswap := flxStrCompare_swap left right
    simp only [emitSortSwapCondition, flxStrCompareLt, KeyLe]
    simp
    omega
  | BOL => simp [emitSortSwapCondition, KeyLe]

theorem emitSortSwapCondition_desc (type : KeyType) (left right : type.Value) :
  emitSortSwapCondition type left right (some "DESC") = false ↔ KeyLe type right left
  := by
  cases type with
  | INT => simp [emitSortSwapCondition, KeyLe]
  | STR => simp [emitSortSwapCondition, flxStrCompareGt, KeyLe]
  | BOL => simp [emitSortSwapCondition, KeyLe]

section

variable {α : Type} {type : KeyType} (key : α → type.Value) {direction : Option String}
  {le : type.Value → type.Value → Prop}

/-- The loops sort by an order when their condition is that two keys are not in it. -/
theorem sortMethod_sorts (hle : IsLinearOrder type.Value le)
    (hswap : ∀ left right,
      emitSortSwapCondition type left right direction = false ↔ le left right) (xs : List α) :
  (sortMethod type key direction xs).Perm xs ∧
    (sortMethod type key direction xs).Pairwise fun a b => le (key a) (key b)
  := by
  have hasymm : ∀ a b, emitSortSwapCondition type (key a) (key b) direction = true →
      emitSortSwapCondition type (key b) (key a) direction = false := by
    intro a b h
    rw [hswap]
    have hnot : ¬ le (key a) (key b) := by
      rw [← hswap, h]
      simp
    exact (hle.total (key a) (key b)).resolve_left hnot
  have htrans : ∀ a b c, emitSortSwapCondition type (key a) (key b) direction = false →
      emitSortSwapCondition type (key b) (key c) direction = false →
      emitSortSwapCondition type (key a) (key c) direction = false := by
    intro a b c hab hbc
    rw [hswap] at *
    exact hle.trans _ _ _ hab hbc
  constructor
  · exact ExchangeSort.perm_outerLoop hasymm htrans xs
  · apply List.Pairwise.imp _ (ExchangeSort.sorted_outerLoop hasymm htrans xs)
    intro a b h
    exact (hswap _ _).mp h

end

/-- An array that is sorted by a key holds the elements it held before, with their keys in order,
and the order of strings is total. -/
theorem sort_sorts {α : Type} (type : KeyType) (key : α → type.Value) (xs : List α) :
  ((sortMethod type key (some "ASC") xs).Perm xs ∧
      (sortMethod type key (some "ASC") xs).Pairwise fun a b => KeyLe type (key a) (key b)) ∧
    ((sortMethod type key (some "DESC") xs).Perm xs ∧
      (sortMethod type key (some "DESC") xs).Pairwise fun a b => KeyLe type (key b) (key a)) ∧
    IsLinearOrder Bytes fun left right => flxStrCompare left right ≤ 0
  := by
  have hlinear := linear_keyLe type
  have hflipped : IsLinearOrder type.Value fun a b => KeyLe type b a :=
    { refl a := hlinear.refl a
      trans a b c hab hbc := hlinear.trans _ _ _ hbc hab
      antisymm a b hab hba := hlinear.antisymm _ _ hba hab
      total a b := hlinear.total b a }
  have hasc := sortMethod_sorts key hlinear (emitSortSwapCondition_asc type) xs
  have hdesc := sortMethod_sorts key hflipped (emitSortSwapCondition_desc type) xs
  exact ⟨hasc, hdesc, linear_flxStrCompare⟩

end Caster
