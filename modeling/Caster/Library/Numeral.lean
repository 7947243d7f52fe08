import Caster.Library.Rounding

/-!
# Decimal constants

The text of an unsigned decimal constant, and the one the format `%.<p>g` of C's `printf`
prints: `p` significant digits, in fixed notation where the exponent allows it and in
exponent notation elsewhere, without the trailing zeros of the fraction and without a
point when nothing is left behind it.
-/

/-- The parts of the text of an unsigned decimal constant.  No point is written when the
fraction has no digits. -/
structure Numeral where
  whole : ℕ
  fraction : List (Fin 10)
  exponent : Option ℤ
deriving DecidableEq, Repr

namespace Numeral

/-! ### Value and text -/

/-- The value of the digits behind the point. -/
def fractionValue : List (Fin 10) → ℚ
  | [] => 0
  | d :: ds => (d.val + fractionValue ds) / 10

/-- The number a constant denotes before its type rounds it. -/
def toRat (n : Numeral) : ℚ := (n.whole + fractionValue n.fraction) * 10 ^ n.exponent.getD 0

/-- C's rule for a constant: one with neither a point nor an exponent is an integer. -/
def isInteger (n : Numeral) : Bool := n.fraction.isEmpty && n.exponent.isNone

/-- The sign and at least two digits of a printed exponent. -/
def exponentText (e : ℤ) : List Char :=
  ['e', if e < 0 then '-' else '+'] ++ (if e.natAbs < 10 then ['0'] else []) ++
    Nat.toDigits 10 e.natAbs

/-- The text of a constant. -/
def text (n : Numeral) : List Char :=
  Nat.toDigits 10 n.whole ++
    (if n.fraction.isEmpty then [] else '.' :: n.fraction.map fun d => Nat.digitChar d.val) ++
    (match n.exponent with
      | none => []
      | some e => exponentText e)

theorem ne_of_mem_toDigits {n : ℕ} {c : Char} (h : c ∈ Nat.toDigits 10 n) :
  c ≠ '.' ∧ c ≠ 'e'
  := by
  have hdigit : c.isDigit = true := Nat.isDigit_of_mem_toDigits (by decide) (by decide) h
  constructor
  · rintro rfl
    exact absurd hdigit (by decide)
  · rintro rfl
    exact absurd hdigit (by decide)

/-- The parts that make a constant an integer are read off its text. -/
theorem isInteger_iff_text (n : Numeral) :
  n.isInteger ↔ '.' ∉ n.text ∧ 'e' ∉ n.text
  := by
  obtain ⟨whole, fraction, exponent⟩ := n
  constructor
  · intro h
    simp only [isInteger, Bool.and_eq_true, List.isEmpty_iff, Option.isNone_iff_eq_none] at h
    obtain ⟨rfl, rfl⟩ := h
    constructor
    · intro hmem
      exact (ne_of_mem_toDigits (by simpa [text] using hmem)).1 rfl
    · intro hmem
      exact (ne_of_mem_toDigits (by simpa [text] using hmem)).2 rfl
  · rintro ⟨hpoint, hexp⟩
    cases fraction with
    | cons d ds =>
      apply absurd _ hpoint
      simp [text]
    | nil =>
      cases exponent with
      | none => rfl
      | some e =>
        apply absurd _ hexp
        simp [text, exponentText]

/-! ### The digits of a fraction -/

/-- The last `k` digits of a number. -/
def digits : ℕ → ℕ → List (Fin 10)
  | 0, _ => []
  | k + 1, c => Fin.ofNat 10 (c / 10 ^ k) :: digits k c

/-- A fraction without its trailing zeros. -/
def stripZeros : List (Fin 10) → List (Fin 10)
  | [] => []
  | d :: ds => if stripZeros ds = [] ∧ d = 0 then [] else d :: stripZeros ds

theorem fractionValue_digits (k c : ℕ) :
  fractionValue (digits k c) = ((c % 10 ^ k : ℕ) : ℚ) / 10 ^ k
  := by
  induction k with
  | zero => simp [digits, fractionValue, Nat.mod_one]
  | succ k ih =>
    have hsplit : c % 10 ^ (k + 1) = c % 10 ^ k + 10 ^ k * (c / 10 ^ k % 10) := Nat.mod_pow_succ
    rw [digits, fractionValue, ih, hsplit, Fin.val_ofNat]
    push_cast
    field_simp
    ring

theorem fractionValue_stripZeros (ds : List (Fin 10)) :
  fractionValue (stripZeros ds) = fractionValue ds
  := by
  induction ds with
  | nil => rfl
  | cons d ds ih =>
    unfold stripZeros
    split
    · rename_i h
      have hds : fractionValue ds = 0 := by rw [← ih, h.1, fractionValue]
      simp [fractionValue, hds, h.2]
    · rw [fractionValue, ih, fractionValue]

theorem fractionValue_nonneg (ds : List (Fin 10)) :
  0 ≤ fractionValue ds
  := by
  induction ds with
  | nil => exact le_rfl
  | cons d ds ih =>
    unfold fractionValue
    positivity

/-- Nothing is left of a fraction exactly when its value is zero. -/
theorem stripZeros_eq_nil_iff (ds : List (Fin 10)) :
  stripZeros ds = [] ↔ fractionValue ds = 0
  := by
  induction ds with
  | nil => simp [stripZeros, fractionValue]
  | cons d ds ih =>
    have htail := fractionValue_nonneg ds
    have hhead : (0 : ℚ) ≤ (d.val : ℚ) := Nat.cast_nonneg _
    constructor
    · intro h
      unfold stripZeros at h
      split at h
      · rename_i hzero
        simp [fractionValue, ih.mp hzero.1, hzero.2]
      · cases h
    · intro h
      unfold fractionValue at h
      have hd : (d.val : ℚ) = 0 := by linarith
      have hds : fractionValue ds = 0 := by linarith
      have hdigit : d = 0 := Fin.val_eq_zero_iff.mp (by exact_mod_cast hd)
      rw [stripZeros, if_pos ⟨ih.mpr hds, hdigit⟩]

/-! ### The format `%.<p>g` -/

/-- The digits of a number with a point before the last `k` of them. -/
def ofDigits (c k : ℕ) (exponent : Option ℤ) : Numeral :=
  ⟨c / 10 ^ k, stripZeros (digits k c), exponent⟩

theorem ofDigits_toRat (c k : ℕ) (exponent : Option ℤ) :
  (ofDigits c k exponent).toRat = c * 10 ^ (exponent.getD 0 - k)
  := by
  have hsplit : (10 ^ k * (c / 10 ^ k) + c % 10 ^ k : ℕ) = c := Nat.div_add_mod c (10 ^ k)
  have hvalue : ((c / 10 ^ k : ℕ) : ℚ) + ((c % 10 ^ k : ℕ) : ℚ) / 10 ^ k = c / 10 ^ k := by
    rw [eq_div_iff (by positivity), add_mul, div_mul_cancel₀ _ (by positivity)]
    rw [mul_comm]
    exact_mod_cast hsplit
  unfold toRat ofDigits
  rw [fractionValue_stripZeros, fractionValue_digits, hvalue, zpow_sub₀ (by norm_num), zpow_natCast]
  ring

/-- A point is left out when the digits behind it are zeros. -/
theorem ofDigits_isInteger (c k : ℕ) :
  (ofDigits c k none).isInteger ↔ 10 ^ k ∣ c
  := by
  have hpos : (0 : ℚ) < 10 ^ k := by positivity
  rw [Nat.dvd_iff_mod_eq_zero]
  simp only [isInteger, ofDigits, Option.isNone_none, Bool.and_true, List.isEmpty_iff]
  rw [stripZeros_eq_nil_iff, fractionValue_digits, div_eq_zero_iff, or_iff_left hpos.ne']
  exact Nat.cast_eq_zero

/-- What the format `%.<p>g` prints for a nonnegative number. -/
def printG (p : ℕ) (q : ℚ) : Numeral :=
  if q = 0 then ⟨0, [], none⟩
  else if -4 ≤ (Rounding.leading 10 p q).2 + (p - 1) ∧ (Rounding.leading 10 p q).2 + (p - 1) < p then
    ofDigits (Rounding.leading 10 p q).1 (-(Rounding.leading 10 p q).2).toNat none
  else
    ofDigits (Rounding.leading 10 p q).1 (p - 1) (some ((Rounding.leading 10 p q).2 + (p - 1)))

/-- The printed constant denotes the rounded number, in either notation. -/
theorem printG_toRat {p : ℕ} (hp : 0 < p) {q : ℚ} (hq : 0 < q) :
  (printG p q).toRat = Rounding.value 10 (Rounding.leading 10 p q)
  := by
  unfold printG
  rw [if_neg hq.ne']
  split
  · rename_i hfixed
    rw [ofDigits_toRat, Rounding.value, Option.getD_none, Int.toNat_of_nonneg (by omega)]
    simp
  · rw [ofDigits_toRat, Rounding.value, Option.getD_some]
    congr 2
    omega

/-- The relative error of printing `p` digits. -/
theorem printG_error {p : ℕ} (hp : 0 < p) {q : ℚ} (hq : 0 < q) :
  |(printG p q).toRat - q| ≤ q / ((10 ^ (p - 1) : ℕ) : ℚ) / 2
  := by
  rw [printG_toRat hp hq]
  exact Rounding.leading_error (by decide) hp hq

/-- The printed constant is an integer constant exactly when it denotes a natural number of
at most `p` digits. -/
theorem printG_isInteger_iff {p : ℕ} (hp : 0 < p) {q : ℚ} (hq : 0 < q) :
  (printG p q).isInteger ↔ ∃ n : ℕ, n < 10 ^ p ∧ (printG p q).toRat = n
  := by
  have hupper := Rounding.leading_lt (by decide : 1 < 10) hp hq
  have hlower := Rounding.le_leading (by decide : 1 < 10) hp hq
  rw [printG_toRat hp hq]
  unfold printG
  rw [if_neg hq.ne']
  generalize Rounding.leading 10 p q = d at hupper hlower
  obtain ⟨c, e⟩ := d
  simp only [Rounding.value] at hupper hlower ⊢
  have hcpos : 0 < c := lt_of_lt_of_le (Nat.pow_pos (by decide)) hlower
  have hpow : 10 ^ (p - 1) * 10 = 10 ^ p := by rw [← pow_succ, Nat.sub_add_cancel hp]
  constructor
  · intro h
    split at h
    · rename_i hfixed
      obtain ⟨n, rfl⟩ := (ofDigits_isInteger _ _).mp h
      have hle : n ≤ 10 ^ (-e).toNat * n := Nat.le_mul_of_pos_left n (Nat.pow_pos (by decide))
      refine ⟨n, lt_of_le_of_lt hle hupper, ?_⟩
      obtain ⟨k, rfl⟩ : ∃ k : ℕ, e = -k := ⟨(-e).toNat, by omega⟩
      push_cast
      rw [neg_neg, Int.toNat_natCast, zpow_neg, zpow_natCast]
      field_simp
    · simp [isInteger, ofDigits] at h
  · rintro ⟨n, hn, hvalue⟩
    -- a natural number of at most `p` digits has its last digit at or before the point
    have he : e ≤ 0 := by
      by_contra hpos
      obtain ⟨k, rfl⟩ : ∃ k : ℕ, e = k + 1 := ⟨(e - 1).toNat, by omega⟩
      have hnat : c * 10 ^ (k + 1) = n := by exact_mod_cast hvalue
      have hge : 10 ^ (p - 1) * 10 ≤ c * 10 ^ (k + 1) := by
        apply Nat.mul_le_mul hlower
        rw [pow_succ]
        exact Nat.le_mul_of_pos_left 10 (Nat.pow_pos (by decide))
      omega
    obtain ⟨k, rfl⟩ : ∃ k : ℕ, e = -k := ⟨(-e).toNat, by omega⟩
    have hnat : c = n * 10 ^ k := by
      rw [zpow_neg, zpow_natCast, ← div_eq_mul_inv, div_eq_iff (by positivity)] at hvalue
      exact_mod_cast hvalue
    -- and it is not zero, so its digits do not all stand behind the point
    have hk : k < p := by
      by_contra hk
      have hn1 : 1 ≤ n := by
        by_contra hzero
        have hn0 : n = 0 := by omega
        rw [hnat, hn0, zero_mul] at hcpos
        exact lt_irrefl 0 hcpos
      have hge : 10 ^ p ≤ 1 * 10 ^ k := by
        rw [one_mul]
        exact Nat.pow_le_pow_right (by decide) (by omega)
      have hmul : 1 * 10 ^ k ≤ n * 10 ^ k := Nat.mul_le_mul_right _ hn1
      omega
    rw [if_pos ⟨by omega, by omega⟩, ofDigits_isInteger, neg_neg, Int.toNat_natCast, hnat]
    exact Nat.dvd_mul_left _ _

/-- A natural number of at most `p` digits is printed as its digits. -/
theorem printG_natCast {p n : ℕ} (hp : 0 < p) (hn : n < 10 ^ p) :
  printG p n = ⟨n, [], none⟩
  := by
  rcases Nat.eq_zero_or_pos n with rfl | hpos
  · simp [printG]
  · have hpos' : (0 : ℚ) < n := by exact_mod_cast hpos
    have hvalue : (printG p n).toRat = n := by
      rw [printG_toRat hp hpos']
      exact Rounding.leading_natCast (by decide) hp hpos hn
    have hinteger := (printG_isInteger_iff hp hpos').mpr ⟨n, hn, hvalue⟩
    generalize printG p n = text at hvalue hinteger
    obtain ⟨whole, fraction, exponent⟩ := text
    simp only [isInteger, Bool.and_eq_true, List.isEmpty_iff, Option.isNone_iff_eq_none] at hinteger
    obtain ⟨rfl, rfl⟩ := hinteger
    have hwhole : whole = n := by
      simp only [toRat, fractionValue, add_zero, Option.getD_none, zpow_zero, mul_one] at hvalue
      exact_mod_cast hvalue
    rw [hwhole]

end Numeral
