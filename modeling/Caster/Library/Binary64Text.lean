import Caster.Library.Binary64
import Caster.Library.Numeral

/-!
# Printing and reading binary64 numbers

Reading a decimal constant rounds it to the nearest binary64 number.  Seventeen digits name
a binary64 number uniquely: what `%.17g` prints is read back as the number printed.  The
type C gives the printed constant is another matter: a whole number of at most seventeen
digits is printed as an integer constant.
-/

namespace Binary64

/-! ### Reading -/

/-- The exponent a positive rational is rounded at. -/
def lastBit (q : ℚ) : ℤ := max (-1074) (Rounding.lastDigit 2 53 q)

/-- A positive rational rounded to the precision of the format, its range aside. -/
def bits (q : ℚ) : ℕ × ℤ := Rounding.digitsAt 2 53 (lastBit q) q

theorem lt_zpow_lastBit {q : ℚ} (hq : 0 < q) :
  q / 2 ^ lastBit q < (2 : ℚ) ^ 53
  := by
  have hlead := @Rounding.lt_zpow_lastDigit 2 53 (by decide) q
  have hle : (2 : ℚ) ^ Rounding.lastDigit 2 53 q ≤ 2 ^ lastBit q :=
    zpow_le_zpow_right₀ (by norm_num) (le_max_right _ _)
  apply lt_of_le_of_lt _ hlead
  exact div_le_div_of_nonneg_left hq.le (by positivity) hle

/-- The rounded number is canonical unless it is too large. -/
theorem bits_canonical {q : ℚ} (hq : 0 < q) (h : (bits q).2 ≤ 971) :
  Canonical (bits q).1 (bits q).2
  := by
  have hlt : (bits q).1 < 2 ^ 53 := Rounding.digitsAt_lt (by decide) (by decide) hq.le (lt_zpow_lastBit hq)
  have hge : -1074 ≤ lastBit q := le_max_left _ _
  have hexp : lastBit q ≤ (bits q).2 := by
    unfold bits Rounding.digitsAt
    split
    · exact (Int.lt_add_one_iff.mpr le_rfl).le
    · exact le_rfl
  refine ⟨hlt, hge.trans hexp, h, ?_⟩
  by_cases hsub : Rounding.lastDigit 2 53 q ≤ -1074
  · -- a subnormal number, unless the carry makes it normal
    have hlast : lastBit q = -1074 := max_eq_left hsub
    unfold bits Rounding.digitsAt
    split
    · right
      exact le_rfl
    · left
      exact hlast
  · right
    have hlast : lastBit q = Rounding.lastDigit 2 53 q := max_eq_right (by omega)
    unfold bits
    rw [hlast]
    exact @Rounding.le_leading 2 53 (by decide) (by decide) q hq

/-- The zero of the format. -/
def zero : Binary64 := ⟨0, -1074, by decide⟩

/-- The binary64 number nearest to a nonnegative rational. -/
def ofRat (q : ℚ) : Magnitude :=
  if hq : 0 < q then
    if h : (bits q).2 ≤ 971 then .finite ⟨(bits q).1, (bits q).2, bits_canonical hq h⟩
    else .infinite
  else .finite zero

/-! ### Seventeen digits -/

theorem toRat_nonneg (x : Binary64) :
  0 ≤ x.toRat
  := by
  unfold toRat
  positivity

/-- The distance of a printed number from the number, in units of its last bit. -/
theorem units_error {m : ℕ} {e : ℤ} {q : ℚ}
    (h : |q - m * 2 ^ e| ≤ m * 2 ^ e / ((10 ^ 16 : ℕ) : ℚ) / 2) :
  |q / 2 ^ e - m| ≤ m / 10 ^ 16 / 2
  := by
  have hunit : (0 : ℚ) < 2 ^ e := by positivity
  have hdist : q / 2 ^ e - m = (q - m * 2 ^ e) / 2 ^ e := by field_simp
  rw [hdist, abs_div, abs_of_pos hunit, div_le_iff₀ hunit]
  calc |q - m * 2 ^ e|
      ≤ m * 2 ^ e / ((10 ^ 16 : ℕ) : ℚ) / 2 := h
    _ = m / 10 ^ 16 / 2 * 2 ^ e := by push_cast; ring

/-- A rational that is within one half of `10 ^ -16` of a number is read as that number. -/
theorem ofRat_of_near {x : Binary64} {q : ℚ} (hq : 0 < q)
    (h : |q - x.toRat| ≤ x.toRat / ((10 ^ 16 : ℕ) : ℚ) / 2) :
  ofRat q = .finite x
  := by
  obtain ⟨m, e, hm, hmin, hmax, hnormal⟩ := x
  have hunit : (0 : ℚ) < 2 ^ e := by positivity
  obtain ⟨hbelow, habove⟩ : (m : ℚ) - m / 10 ^ 16 / 2 ≤ q / 2 ^ e ∧ q / 2 ^ e ≤ m + m / 10 ^ 16 / 2 := by
    have hunits := units_error h
    rw [abs_le] at hunits
    constructor <;> linarith
  have hmle : (m : ℚ) ≤ 2 ^ 53 - 1 := by
    have hcast : ((m + 1 : ℕ) : ℚ) ≤ ((2 ^ 53 : ℕ) : ℚ) := by exact_mod_cast hm
    push_cast at hcast
    linarith
  have hupper : q < 2 ^ (e + 53) := by
    rw [zpow_add₀ (by norm_num), mul_comm, ← div_lt_iff₀ hunit]
    apply lt_of_le_of_lt habove
    norm_cast
    push_cast
    linarith
  by_cases hlow : e = -1074 ∨ (2 : ℚ) ^ (e + 52) ≤ q
  · -- the last bits of the two numbers have the same exponent
    have hlast : lastBit q = e := by
      have hle : Rounding.lastDigit 2 53 q ≤ e := Rounding.lastDigit_le (by decide) hq hupper
      unfold lastBit
      rcases hlow with heq | hge
      · rw [heq] at hle ⊢
        exact max_eq_left hle
      · have hge : e ≤ Rounding.lastDigit 2 53 q := by
          apply Rounding.le_lastDigit (by decide) hq
          rw [add_sub_assoc]
          exact hge
        rw [le_antisymm hle hge]
        exact max_eq_right hmin
    have hround : Rounding.halfEven (q / 2 ^ e) = m := by
      apply Rounding.halfEven_eq (by positivity)
      rw [abs_lt]
      constructor <;> linarith
    have hbits : bits q = (m, e) := by
      unfold bits Rounding.digitsAt
      rw [hlast, Nat.cast_ofNat, hround, if_neg hm.ne]
    unfold ofRat
    rw [dif_pos hq, dif_pos (by rw [hbits]; exact hmax)]
    congr 1
    simp [hbits]
  · -- the number is the least of its binade and the rational lies below it
    rw [not_or, not_le] at hlow
    obtain ⟨hnotmin, hlow⟩ := hlow
    have hge : 2 ^ 52 ≤ m := hnormal.resolve_left hnotmin
    have hlow' : q / 2 ^ e < 2 ^ 52 := by
      rw [div_lt_iff₀ hunit, mul_comm]
      rw [zpow_add₀ (by norm_num)] at hlow
      exact_mod_cast hlow
    have hm52 : m = 2 ^ 52 := by
      by_contra hne
      have hcast : ((2 ^ 52 + 1 : ℕ) : ℚ) ≤ m := by exact_mod_cast lt_of_le_of_ne hge (Ne.symm hne)
      push_cast at hcast
      linarith
    subst hm52
    push_cast at hbelow habove
    have hlast : lastBit q = e - 1 := by
      have hle : Rounding.lastDigit 2 53 q ≤ e - 1 := by
        apply Rounding.lastDigit_le (by decide) hq
        have hexp : e - 1 + (53 : ℕ) = e + 52 := by ring
        rw [hexp]
        exact hlow
      have hge : e - 1 ≤ Rounding.lastDigit 2 53 q := by
        apply Rounding.le_lastDigit (by decide) hq
        have hexp : e - 1 + (53 : ℕ) - 1 = e + 51 := by push_cast; ring
        rw [hexp, Nat.cast_ofNat, zpow_add₀ (by norm_num), mul_comm, ← le_div_iff₀ hunit]
        apply le_trans _ hbelow
        norm_num
      unfold lastBit
      rw [le_antisymm hle hge]
      exact max_eq_right (by omega)
    have hround : Rounding.halfEven (q / 2 ^ (e - 1)) = 2 ^ 53 := by
      apply Rounding.halfEven_eq (by positivity)
      have hdouble : q / 2 ^ (e - 1) = 2 * (q / 2 ^ e) := by
        rw [zpow_sub_one₀ (by norm_num)]
        field_simp
      rw [hdouble, abs_lt]
      push_cast
      constructor <;> linarith
    have hbits : bits q = (2 ^ 52, e) := by
      unfold bits Rounding.digitsAt
      rw [hlast, Nat.cast_ofNat, hround, if_pos rfl, sub_add_cancel]
    unfold ofRat
    rw [dif_pos hq, dif_pos (by rw [hbits]; exact hmax)]
    congr 1
    simp [hbits]

theorem toRat_eq_zero_iff (x : Binary64) :
  x.toRat = 0 ↔ x = zero
  := by
  obtain ⟨m, e, hm, hmin, hmax, hnormal⟩ := x
  constructor
  · intro h
    have hm0 : m = 0 := by
      have hunit : (0 : ℚ) < 2 ^ e := by positivity
      have hprod : (m : ℚ) * 2 ^ e = 0 := h
      rcases mul_eq_zero.mp hprod with h0 | h0
      · exact_mod_cast h0
      · exact absurd h0 hunit.ne'
    subst hm0
    have he : e = -1074 := hnormal.resolve_right (by decide)
    subst he
    rfl
  · rintro h
    rw [h]
    simp [toRat, zero]

/-- What `%.17g` prints is read back as the number printed. -/
theorem ofRat_printG (x : Binary64) :
  ofRat (Numeral.printG 17 x.toRat).toRat = .finite x
  := by
  rcases (toRat_nonneg x).eq_or_lt with h0 | hpos
  · have hx := (toRat_eq_zero_iff x).mp h0.symm
    have hzero : (Numeral.printG 17 0).toRat = 0 := by
      simp [Numeral.printG, Numeral.toRat, Numeral.fractionValue]
    rw [← h0, hx, hzero]
    rfl
  · apply ofRat_of_near
    · rw [Numeral.printG_toRat (by decide) hpos]
      have hdigits := Rounding.le_leading (by decide : 1 < 10) (by decide : 0 < 17) hpos
      have hcast : (0 : ℚ) < (Rounding.leading 10 17 x.toRat).1 := by
        exact_mod_cast lt_of_lt_of_le (by decide) hdigits
      unfold Rounding.value
      positivity
    · exact Numeral.printG_error (by decide) hpos

/-! ### Integer constants -/

/-- The distance from a number that is not whole to a whole one is at least its last bit. -/
theorem zpow_le_dist {x : Binary64} (h : ¬ ∃ n : ℕ, x.toRat = n) (n : ℕ) :
  (2 : ℚ) ^ x.exponent ≤ |n - x.toRat|
  := by
  obtain ⟨m, e, hm, hmin, hmax, hnormal⟩ := x
  have hneg : e < 0 := by
    by_contra hge
    obtain ⟨k, rfl⟩ : ∃ k : ℕ, e = k := ⟨e.toNat, by omega⟩
    apply h
    use m * 2 ^ k
    unfold toRat
    push_cast
    rw [zpow_natCast]
  obtain ⟨k, rfl⟩ : ∃ k : ℕ, e = -k := ⟨(-e).toNat, by omega⟩
  have hunit : (0 : ℚ) < 2 ^ (-k : ℤ) := by positivity
  have hscale : (n : ℚ) - m * 2 ^ (-k : ℤ) = ((n * 2 ^ k - m : ℤ) : ℚ) * 2 ^ (-k : ℤ) := by
    push_cast
    rw [zpow_neg, zpow_natCast]
    field_simp
  have hne : (n * 2 ^ k - m : ℤ) ≠ 0 := by
    intro hzero
    apply h
    use n
    have hdist : (n : ℚ) - m * 2 ^ (-k : ℤ) = 0 := by rw [hscale, hzero]; simp
    exact (sub_eq_zero.mp hdist).symm
  have hone : (1 : ℚ) ≤ |((n * 2 ^ k - m : ℤ) : ℚ)| := by
    exact_mod_cast Int.one_le_abs hne
  change (2 : ℚ) ^ (-k : ℤ) ≤ |(n : ℚ) - m * 2 ^ (-k : ℤ)|
  rw [hscale, abs_mul, abs_of_pos hunit]
  exact le_mul_of_one_le_left hunit.le hone

/-- `%.17g` prints an integer constant exactly for the whole numbers of at most seventeen
digits. -/
theorem printG_isInteger_iff (x : Binary64) :
  (Numeral.printG 17 x.toRat).isInteger ↔ ∃ n : ℕ, n < 10 ^ 17 ∧ x.toRat = n
  := by
  rcases (toRat_nonneg x).eq_or_lt with h0 | hpos
  · rw [← h0]
    constructor
    · intro _
      use 0
      simp
    · intro _
      rfl
  rw [Numeral.printG_isInteger_iff (by decide) hpos]
  rw [Numeral.printG_toRat (by decide) hpos]
  constructor
  · rintro ⟨n, hn, hvalue⟩
    by_cases hwhole : ∃ n : ℕ, x.toRat = n
    · obtain ⟨N, hN⟩ := hwhole
      refine ⟨N, ?_, hN⟩
      by_contra hbig
      rw [not_lt] at hbig
      have hpow : ((10 : ℕ) : ℚ) ^ 17 ≤ x.toRat := by rw [hN]; exact_mod_cast hbig
      have hlead := Rounding.pow_le_leading (by decide : 1 < 10) (by decide : 0 < 17) hpow
      rw [hvalue] at hlead
      exact absurd (by exact_mod_cast hlead) (not_le.mpr hn)
    · -- the printed number is too near to be another whole number
      have hfar := zpow_le_dist hwhole n
      have herror := Rounding.leading_error (by decide : 1 < 10) (by decide : 0 < 17) hpos
      rw [hvalue] at herror
      have hnear : x.toRat / ((10 ^ (17 - 1) : ℕ) : ℚ) / 2 < 2 ^ x.exponent := by
        have hunit : (0 : ℚ) < 2 ^ x.exponent := by positivity
        have hm : (x.significand : ℚ) < ((2 ^ 53 : ℕ) : ℚ) := by exact_mod_cast x.canonical.1
        push_cast at hm
        have hle : x.significand * (2 : ℚ) ^ x.exponent < 2 ^ 53 * 2 ^ x.exponent :=
          mul_lt_mul_of_pos_right hm hunit
        unfold toRat
        push_cast
        linarith
      exact absurd (hfar.trans herror) (not_le.mpr hnear)
  · rintro ⟨n, hn, hvalue⟩
    refine ⟨n, hn, ?_⟩
    have hn0 : 0 < n := by
      rw [hvalue] at hpos
      exact_mod_cast hpos
    rw [hvalue]
    exact Rounding.leading_natCast (by decide) (by decide) hn0 hn

end Binary64
