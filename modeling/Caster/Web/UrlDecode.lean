import Caster.Web.Text

/-!
# Percent encodings

The encodings of a string of bytes, and what the loop of `flx_str_url_decode` makes of them and of
any other string.
-/

namespace Caster

namespace Web

/-! ### Encodings -/

/-- A byte is a hexadecimal digit of either case. -/
def IsHexOf (n x : UInt8) : Prop :=
  n < 10 ∧ x = 48 + n ∨ 10 ≤ n ∧ n < 16 ∧ (x = 55 + n ∨ x = 87 + n)

/-- A string is an encoding of another one: each byte is itself, a percent sequence, or a plus for a
space. -/
inductive Encodes : Bytes → Bytes → Prop
  | nil : Encodes [] []
  | itself {t s b} (hpercent : b ≠ 37) (hplus : b ≠ 43) (h : Encodes t s) :
    Encodes (b :: t) (b :: s)
  | percent {t s n m x y} (hx : IsHexOf n x) (hy : IsHexOf m y) (h : Encodes t s) :
    Encodes ((16 * n + m) :: t) (37 :: x :: y :: s)
  | plus {t s} (h : Encodes t s) : Encodes (32 :: t) (43 :: s)

/-- Two hexadecimal digits are at the start of a string. -/
def StartsWithHex (s : Bytes) : Prop :=
  ∃ n m x y rest, s = x :: y :: rest ∧ IsHexOf n x ∧ IsHexOf m y

/-- A string of any bytes is decoded: a percent sign without two digits behind it stays as it is,
and so do the bytes behind it that stand for themselves. -/
inductive Decodes : Bytes → Bytes → Prop
  | nil : Decodes [] []
  | itself {s t b} (hpercent : b ≠ 37) (hplus : b ≠ 43) (h : Decodes s t) :
    Decodes (b :: s) (b :: t)
  | percent {s t n m x y} (hx : IsHexOf n x) (hy : IsHexOf m y) (h : Decodes s t) :
    Decodes (37 :: x :: y :: s) ((16 * n + m) :: t)
  | plus {s t} (h : Decodes s t) : Decodes (43 :: s) (32 :: t)
  | malformed {s t} (hstart : ¬ StartsWithHex s) (h : Decodes s t) : Decodes (37 :: s) (37 :: t)

/-- An encoding has no malformed sequence. -/
theorem Encodes.decodes {t s : Bytes} (h : Encodes t s) : Decodes s t := by
  induction h with
  | nil => apply Decodes.nil
  | itself hpercent hplus _ ih => apply Decodes.itself hpercent hplus ih
  | percent hx hy _ ih => apply Decodes.percent hx hy ih
  | plus _ ih => apply Decodes.plus ih

/-! ### Digits -/

theorem hexValue_eq_some_iff (n x : UInt8) :
  hexValue x = some n ↔ IsHexOf n x
  := by
  unfold hexValue IsHexOf
  grind

theorem IsHexOf.lt {n x : UInt8} (h : IsHexOf n x) : n < 16 := by
  unfold IsHexOf at h
  grind

/-- A byte is put together from its two halves. -/
theorem nibbles (b : UInt8) : (b / 16) <<< 4 ||| b % 16 = b := by
  apply UInt8.eq_of_toBitVec_eq
  simp only [UInt8.toBitVec_or, UInt8.toBitVec_shiftLeft, UInt8.toBitVec_div, UInt8.toBitVec_mod]
  generalize b.toBitVec = v
  revert v
  decide +kernel

theorem shiftLeft_or {n m : UInt8} (hn : n < 16) (hm : m < 16) : n <<< 4 ||| m = 16 * n + m := by
  have hhigh : (16 * n + m) / 16 = n := by grind
  have hlow : (16 * n + m) % 16 = m := by grind
  have hbyte := nibbles (16 * n + m)
  rwa [hhigh, hlow] at hbyte

/-! ### One step -/

theorem urlDecode_plus (text : Bytes) : urlDecode (43 :: text) = 32 :: urlDecode text := by
  simp [urlDecode]

theorem urlDecode_itself {b : UInt8} (hpercent : b ≠ 37) (hplus : b ≠ 43) (text : Bytes) :
  urlDecode (b :: text) = b :: urlDecode text
  := by
  rw [urlDecode, if_neg hplus]
  intro high low rest h
  exact absurd h hpercent

theorem urlDecode_percent {n m x y : UInt8} (hx : IsHexOf n x) (hy : IsHexOf m y) (text : Bytes) :
  urlDecode (37 :: x :: y :: text) = (16 * n + m) :: urlDecode text
  := by
  rw [urlDecode, if_neg (by decide)]
  simp only [(hexValue_eq_some_iff n x).mpr hx, (hexValue_eq_some_iff m y).mpr hy,
    shiftLeft_or hx.lt hy.lt]

theorem urlDecode_malformed {text : Bytes} (h : ¬ StartsWithHex text) :
  urlDecode (37 :: text) = 37 :: urlDecode text
  := by
  rcases text with - | ⟨x, - | ⟨y, rest⟩⟩
  · rfl
  · rw [urlDecode, if_neg (by decide)]
    simp
  · rw [urlDecode, if_neg (by decide)]
    split
    · rename_i n m hx hy
      rw [hexValue_eq_some_iff] at hx hy
      exact absurd ⟨n, m, x, y, rest, rfl, hx, hy⟩ h
    · rfl

/-- The loop that counts the bytes decodes the rest of the string. -/
theorem urlDecodeFrom_eq (text : Bytes) (i : ℕ) :
  urlDecodeFrom text i = urlDecode (text.drop i)
  := by
  fun_induction urlDecodeFrom text i with
  | case1 i hi hplus ih =>
    rw [List.drop_eq_getElem_cons hi, hplus, urlDecode_plus, ih]
  | case2 i hi hplus hguard high low hlow hhigh ih =>
    have hx := (hexValue_eq_some_iff high _).mp hhigh
    have hy := (hexValue_eq_some_iff low _).mp hlow
    rw [List.drop_eq_getElem_cons hi, List.drop_eq_getElem_cons (by omega : i + 1 < text.length),
      List.drop_eq_getElem_cons (by omega : i + 1 + 1 < text.length), hguard.1,
      urlDecode_percent hx hy, shiftLeft_or hx.lt hy.lt, ih]
  | case3 i hi hplus hguard hvalues ih =>
    have hstart : ¬ StartsWithHex (text.drop (i + 1)) := by
      rintro ⟨n, m, x, y, rest, hdrop, hx, hy⟩
      rw [List.drop_eq_getElem_cons (by omega : i + 1 < text.length),
        List.drop_eq_getElem_cons (by omega : i + 1 + 1 < text.length)] at hdrop
      obtain ⟨hfirst, hdrop⟩ := List.cons.inj hdrop
      obtain ⟨hsecond, -⟩ := List.cons.inj hdrop
      apply hvalues n m
      · rw [hfirst, (hexValue_eq_some_iff n x).mpr hx]
      · rw [hsecond, (hexValue_eq_some_iff m y).mpr hy]
    rw [List.drop_eq_getElem_cons hi, hguard.1, urlDecode_malformed hstart, ih]
  | case4 i hi hplus hguard ih =>
    rw [List.drop_eq_getElem_cons hi]
    by_cases hpercent : text[i] = 37
    · have hstart : ¬ StartsWithHex (text.drop (i + 1)) := by
        rintro ⟨n, m, x, y, rest, hdrop, -⟩
        have hlength := congrArg List.length hdrop
        simp only [List.length_drop, List.length_cons] at hlength
        apply hguard
        exact ⟨hpercent, by omega⟩
      rw [hpercent, urlDecode_malformed hstart, ih]
    · rw [urlDecode_itself hpercent hplus, ih]
  | case5 i hi => rw [List.drop_eq_nil_of_le (by omega), urlDecode]

theorem flxStrUrlDecode_eq (text : Bytes) : flxStrUrlDecode text = urlDecode text := by
  rw [flxStrUrlDecode, urlDecodeFrom_eq, List.drop_zero]

/-! ### The whole string -/

theorem Decodes.urlDecode_eq {s t : Bytes} (h : Decodes s t) : urlDecode s = t := by
  induction h with
  | nil => rfl
  | itself hpercent hplus _ ih => rw [urlDecode_itself hpercent hplus, ih]
  | percent hx hy _ ih => rw [urlDecode_percent hx hy, ih]
  | plus _ ih => rw [urlDecode_plus, ih]
  | malformed hstart _ ih => rw [urlDecode_malformed hstart, ih]

/-- Every string is decoded. -/
theorem exists_decodes (s : Bytes) : ∃ t, Decodes s t := by
  induction hn : s.length using Nat.strong_induction_on generalizing s with
  | _ n ih =>
    cases s with
    | nil => exact ⟨[], Decodes.nil⟩
    | cons b s =>
      have hrest := ih s.length (by rw [← hn, List.length_cons]; omega) s rfl
      obtain ⟨t, ht⟩ := hrest
      by_cases hplus : b = 43
      · rw [hplus]
        exact ⟨32 :: t, Decodes.plus ht⟩
      · by_cases hpercent : b = 37
        · rw [hpercent]
          by_cases hstart : StartsWithHex s
          · obtain ⟨k, m, x, y, rest, rfl, hx, hy⟩ := hstart
            obtain ⟨t, ht⟩ := ih rest.length (by simp at hn; omega) rest rfl
            exact ⟨(16 * k + m) :: t, Decodes.percent hx hy ht⟩
          · exact ⟨37 :: t, Decodes.malformed hstart ht⟩
        · exact ⟨b :: t, Decodes.itself hpercent hplus ht⟩

theorem decodes_iff (s t : Bytes) :
  Decodes s t ↔ urlDecode s = t
  := by
  constructor
  · intro h
    apply h.urlDecode_eq
  · intro h
    obtain ⟨t', ht⟩ := exists_decodes s
    rw [← h, ht.urlDecode_eq]
    apply ht

theorem Decodes.length_le {s t : Bytes} (h : Decodes s t) : t.length ≤ s.length := by
  induction h with
  | nil => apply le_refl
  | itself _ _ _ ih | percent _ _ _ ih | plus _ ih | malformed _ _ ih =>
    simp only [List.length_cons]
    omega

/-- Every encoding of a string is decoded to it.  What is decoded is never longer, and of any string
the percent sequences that are not malformed and the plus signs are all that changes. -/
theorem flxStrUrlDecode_decodes :
  (∀ t s, Encodes t s → flxStrUrlDecode s = t) ∧
  (∀ s, (flxStrUrlDecode s).length ≤ s.length) ∧
  (∀ s t, Decodes s t ↔ flxStrUrlDecode s = t)
  := by
  simp only [flxStrUrlDecode_eq]
  refine ⟨?_, ?_, decodes_iff⟩
  · intro t s h
    apply h.decodes.urlDecode_eq
  · intro s
    have h := (decodes_iff s (urlDecode s)).mpr rfl
    apply h.length_le

end Web

end Caster
