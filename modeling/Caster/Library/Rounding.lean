import Mathlib.Data.Int.Log
import Mathlib.Data.Rat.Floor
import Mathlib.Tactic

/-!
# Rounding to a number of digits

Rounding a nonnegative rational to the nearest natural number, ties to even, and from it
rounding to a fixed number of digits in a base.  Printing a number with a precision rounds
in base ten, reading one into a binary format rounds in base two.
-/

namespace Rounding

/-! ### Rounding to a natural number -/

/-- The nearest natural number, the even one of two. -/
def halfEven (q : ℚ) : ℕ :=
  if q - ⌊q⌋₊ < 1 / 2 then ⌊q⌋₊
  else if q - ⌊q⌋₊ = 1 / 2 ∧ ⌊q⌋₊ % 2 = 0 then ⌊q⌋₊
  else ⌊q⌋₊ + 1

theorem halfEven_error {q : ℚ} (hq : 0 ≤ q) :
  |(halfEven q : ℚ) - q| ≤ 1 / 2
  := by
  have hle : (⌊q⌋₊ : ℚ) ≤ q := Nat.floor_le hq
  have hlt : q < ⌊q⌋₊ + 1 := Nat.lt_floor_add_one q
  rw [abs_le]
  unfold halfEven
  split
  · constructor <;> linarith
  · split
    · constructor <;> linarith
    · push_cast
      constructor <;> linarith

/-- Only one natural number is less than one half away. -/
theorem halfEven_eq {q : ℚ} {n : ℕ} (hq : 0 ≤ q) (h : |q - n| < 1 / 2) :
  halfEven q = n
  := by
  have herror := halfEven_error hq
  rw [abs_le] at herror
  rw [abs_lt] at h
  have hlt : (halfEven q : ℚ) < n + 1 := by linarith
  have hgt : (n : ℚ) < halfEven q + 1 := by linarith
  norm_cast at hlt hgt
  apply le_antisymm
  · exact Nat.lt_succ_iff.mp hlt
  · exact Nat.lt_succ_iff.mp hgt

theorem halfEven_natCast (n : ℕ) :
  halfEven n = n
  := halfEven_eq (Nat.cast_nonneg n) (by simp)

theorem le_halfEven {q : ℚ} {n : ℕ} (h : (n : ℚ) ≤ q) :
  n ≤ halfEven q
  := by
  have hfloor : n ≤ ⌊q⌋₊ := Nat.le_floor h
  unfold halfEven
  split
  · exact hfloor
  · split
    · exact hfloor
    · exact Nat.le_succ_of_le hfloor

theorem halfEven_le {q : ℚ} {n : ℕ} (hq : 0 ≤ q) (h : q ≤ n) :
  halfEven q ≤ n
  := by
  have herror := halfEven_error hq
  rw [abs_le] at herror
  have hlt : (halfEven q : ℚ) < n + 1 := by linarith
  norm_cast at hlt
  exact Nat.lt_succ_iff.mp hlt

/-! ### Rounding to a number of digits -/

/-- The exponent of the last of the `p` leading digits of a positive rational. -/
def lastDigit (b p : ℕ) (q : ℚ) : ℤ := Int.log b q - (p - 1)

/-- The rational as a whole number of `p` digits times a power of the base, rounded at the
digit of a given exponent.  A carry out of the leading digit moves the exponent. -/
def digitsAt (b p : ℕ) (e : ℤ) (q : ℚ) : ℕ × ℤ :=
  if halfEven (q / b ^ e) = b ^ p then (b ^ (p - 1), e + 1)
  else (halfEven (q / b ^ e), e)

variable {b p : ℕ}

theorem pow_le_lastDigit (hb : 1 < b) (hp : 0 < p) {q : ℚ} (hq : 0 < q) :
  ((b ^ (p - 1) : ℕ) : ℚ) ≤ q / b ^ lastDigit b p q
  := by
  have hpos : (0 : ℚ) < b := by exact_mod_cast hb.pos
  rw [le_div_iff₀ (zpow_pos hpos _)]
  push_cast
  rw [← zpow_natCast, ← zpow_add₀ hpos.ne']
  have hlog := Int.zpow_log_le_self hb hq
  have hexp : ((p - 1 : ℕ) : ℤ) + lastDigit b p q = Int.log b q := by
    unfold lastDigit
    omega
  rw [hexp]
  exact hlog

theorem lt_zpow_lastDigit (hb : 1 < b) (q : ℚ) :
  q / b ^ lastDigit b p q < (b : ℚ) ^ p
  := by
  have hpos : (0 : ℚ) < b := by exact_mod_cast hb.pos
  rw [div_lt_iff₀ (zpow_pos hpos _), ← zpow_natCast, ← zpow_add₀ hpos.ne']
  have hlog := Int.lt_zpow_succ_log_self hb q
  have hexp : (p : ℤ) + lastDigit b p q = Int.log b q + 1 := by
    unfold lastDigit
    ring
  rw [hexp]
  exact hlog

theorem lastDigit_le (hb : 1 < b) {q : ℚ} (hq : 0 < q) {e : ℤ} (h : q < (b : ℚ) ^ (e + p)) :
  lastDigit b p q ≤ e
  := by
  have hlog := (Int.lt_zpow_iff_log_lt hb hq).mp h
  unfold lastDigit
  omega

theorem le_lastDigit (hb : 1 < b) {q : ℚ} (hq : 0 < q) {e : ℤ} (h : (b : ℚ) ^ (e + p - 1) ≤ q) :
  e ≤ lastDigit b p q
  := by
  have hlog := (Int.zpow_le_iff_le_log hb hq).mp h
  unfold lastDigit
  omega

/-- The carry changes the digits and not the value. -/
theorem digitsAt_value (hb : 1 < b) (hp : 0 < p) (e : ℤ) (q : ℚ) :
  ((digitsAt b p e q).1 : ℚ) * b ^ (digitsAt b p e q).2 = halfEven (q / b ^ e) * b ^ e
  := by
  have hpos : (0 : ℚ) < b := by exact_mod_cast hb.pos
  unfold digitsAt
  split
  · rename_i hcarry
    obtain ⟨k, rfl⟩ : ∃ k, p = k + 1 := ⟨p - 1, by omega⟩
    rw [hcarry, Nat.add_sub_cancel, zpow_add_one₀ hpos.ne']
    push_cast
    ring
  · rfl

/-- Rounding at the digit of exponent `e` errs by at most half of its unit. -/
theorem digitsAt_error (hb : 1 < b) (hp : 0 < p) (e : ℤ) {q : ℚ} (hq : 0 ≤ q) :
  |((digitsAt b p e q).1 : ℚ) * b ^ (digitsAt b p e q).2 - q| ≤ b ^ e / 2
  := by
  have hpos : (0 : ℚ) < b := by exact_mod_cast hb.pos
  have hunit : (0 : ℚ) < (b : ℚ) ^ e := zpow_pos hpos e
  have herror := halfEven_error (div_nonneg hq hunit.le)
  rw [digitsAt_value hb hp]
  calc |(halfEven (q / b ^ e) : ℚ) * b ^ e - q|
      = |((halfEven (q / b ^ e) : ℚ) - q / b ^ e) * b ^ e| := by
        congr 1
        field_simp
    _ = |(halfEven (q / b ^ e) : ℚ) - q / b ^ e| * b ^ e := by
        rw [abs_mul, abs_of_pos hunit]
    _ ≤ 1 / 2 * b ^ e := mul_le_mul_of_nonneg_right herror hunit.le
    _ = b ^ e / 2 := by ring

/-- Rounding at the last of `p` digits leaves `p` digits. -/
theorem digitsAt_lt (hb : 1 < b) (hp : 0 < p) {e : ℤ} {q : ℚ} (hq : 0 ≤ q)
    (h : q / b ^ e < (b : ℚ) ^ p) :
  (digitsAt b p e q).1 < b ^ p
  := by
  have hpos : (0 : ℚ) < b := by exact_mod_cast hb.pos
  unfold digitsAt
  split
  · exact Nat.pow_lt_pow_right hb (by omega)
  · rename_i hcarry
    apply lt_of_le_of_ne _ hcarry
    apply halfEven_le
    · exact div_nonneg hq (zpow_pos hpos e).le
    · push_cast
      exact h.le

theorem le_digitsAt {e : ℤ} {q : ℚ} (h : ((b ^ (p - 1) : ℕ) : ℚ) ≤ q / b ^ e) :
  b ^ (p - 1) ≤ (digitsAt b p e q).1
  := by
  unfold digitsAt
  split
  · exact le_rfl
  · exact le_halfEven h

/-! ### Rounding to the leading digits -/

/-- A positive rational rounded to its `p` leading digits. -/
def leading (b p : ℕ) (q : ℚ) : ℕ × ℤ := digitsAt b p (lastDigit b p q) q

/-- The value of digits and the exponent of the last of them. -/
def value (b : ℕ) (d : ℕ × ℤ) : ℚ := d.1 * b ^ d.2

theorem leading_lt (hb : 1 < b) (hp : 0 < p) {q : ℚ} (hq : 0 < q) :
  (leading b p q).1 < b ^ p
  := digitsAt_lt hb hp hq.le (lt_zpow_lastDigit hb q)

theorem le_leading (hb : 1 < b) (hp : 0 < p) {q : ℚ} (hq : 0 < q) :
  b ^ (p - 1) ≤ (leading b p q).1
  := le_digitsAt (pow_le_lastDigit hb hp hq)

/-- The relative error of `p` leading digits. -/
theorem leading_error (hb : 1 < b) (hp : 0 < p) {q : ℚ} (hq : 0 < q) :
  |value b (leading b p q) - q| ≤ q / ((b ^ (p - 1) : ℕ) : ℚ) / 2
  := by
  have hpos : (0 : ℚ) < b := by exact_mod_cast hb.pos
  have hpow : (0 : ℚ) < ((b ^ (p - 1) : ℕ) : ℚ) := by exact_mod_cast Nat.pow_pos hb.pos
  have hunit : (b : ℚ) ^ lastDigit b p q ≤ q / ((b ^ (p - 1) : ℕ) : ℚ) := by
    have hlead := pow_le_lastDigit hb hp hq
    rw [le_div_iff₀ (zpow_pos hpos _)] at hlead
    rw [le_div_iff₀ hpow]
    linarith
  calc |value b (leading b p q) - q|
      ≤ b ^ lastDigit b p q / 2 := digitsAt_error hb hp _ hq.le
    _ ≤ q / ((b ^ (p - 1) : ℕ) : ℚ) / 2 := by linarith

/-- A natural number of at most `p` digits is not changed. -/
theorem leading_natCast (hb : 1 < b) (hp : 0 < p) {n : ℕ} (hn : 0 < n) (h : n < b ^ p) :
  value b (leading b p n) = n
  := by
  have hpos : (0 : ℚ) < b := by exact_mod_cast hb.pos
  have hnpos : (0 : ℚ) < n := by exact_mod_cast hn
  have hlast : lastDigit b p n ≤ 0 := by
    apply lastDigit_le hb hnpos
    rw [zero_add, zpow_natCast]
    exact_mod_cast h
  obtain ⟨k, hk⟩ : ∃ k : ℕ, lastDigit b p n = -k := ⟨(-lastDigit b p n).toNat, by omega⟩
  unfold value leading
  rw [digitsAt_value hb hp, hk, zpow_neg, zpow_natCast, div_inv_eq_mul]
  have hcast : (n : ℚ) * b ^ k = ((n * b ^ k : ℕ) : ℚ) := by push_cast; rfl
  rw [hcast, halfEven_natCast]
  push_cast
  field_simp

/-- A number of more than `p` digits keeps more than `p` digits. -/
theorem pow_le_leading (hb : 1 < b) (hp : 0 < p) {q : ℚ} (h : (b : ℚ) ^ p ≤ q) :
  (b : ℚ) ^ p ≤ value b (leading b p q)
  := by
  have hpos : (0 : ℚ) < b := by exact_mod_cast hb.pos
  have hq : 0 < q := lt_of_lt_of_le (pow_pos hpos p) h
  have hlast : 1 ≤ lastDigit b p q := by
    apply le_lastDigit hb hq
    rw [add_sub_cancel_left, zpow_natCast]
    exact h
  have hdigits : ((b ^ (p - 1) : ℕ) : ℚ) ≤ halfEven (q / b ^ lastDigit b p q) := by
    exact_mod_cast le_halfEven (pow_le_lastDigit hb hp hq)
  unfold value leading
  rw [digitsAt_value hb hp]
  calc (b : ℚ) ^ p
      = ((b ^ (p - 1) : ℕ) : ℚ) * b ^ (1 : ℤ) := by
        rw [zpow_one]
        exact_mod_cast (Nat.pow_pred_mul hp).symm
    _ ≤ halfEven (q / b ^ lastDigit b p q) * b ^ lastDigit b p q := by
        apply mul_le_mul hdigits _ (zpow_pos hpos _).le (Nat.cast_nonneg _)
        exact zpow_le_zpow_right₀ (by exact_mod_cast hb.le) hlast

end Rounding
