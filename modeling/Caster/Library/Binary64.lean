import Mathlib.Data.Rat.Floor
import Mathlib.Tactic

/-!
# Unsigned binary64 numbers

A `Binary64` is a finite unsigned number of the binary64 format, the canonical pair of a
significand `m` and an exponent `e` of the rational `m * 2 ^ e`.  A `Magnitude` is such a
number or infinity: what reading an unsigned decimal text as a binary64 number returns.
-/

/-- The pairs of significand and exponent that present a binary64 number uniquely: normal
numbers have 53 significant bits, subnormal ones the least exponent. -/
def Binary64.Canonical (m : ℕ) (e : ℤ) : Prop :=
  m < 2 ^ 53 ∧ -1074 ≤ e ∧ e ≤ 971 ∧ (e = -1074 ∨ 2 ^ 52 ≤ m)

instance (m : ℕ) (e : ℤ) : Decidable (Binary64.Canonical m e) :=
  inferInstanceAs (Decidable (_ ∧ _))

/-- A finite unsigned binary64 number. -/
structure Binary64 where
  significand : ℕ
  exponent : ℤ
  canonical : Binary64.Canonical significand exponent
deriving DecidableEq, Repr

/-- An unsigned binary64 number, possibly infinite. -/
inductive Magnitude where
  | finite (x : Binary64)
  | infinite
deriving DecidableEq, Repr

namespace Binary64

/-- The rational a binary64 number presents. -/
def toRat (x : Binary64) : ℚ := x.significand * 2 ^ x.exponent

end Binary64
