import Caster.Emit.Loops
import Caster.Meaning.IntMeaning

/-!
# Loops over a range

The C loops that `loop` statements over a range of numbers are emitted as.  The index is an
`int64_t` that is compared to the bound and then increased by the step; both are evaluated again
for every iteration.
-/

namespace Caster

open ForLoop

/-- The arguments of a loop over a range. -/
structure RangeArgs where
  first : Expr
  last : Expr
  step : Option Expr

section

variable {σ α β : Type} (M : Meaning σ α β)

/-- The code of the step, which is `1` if it is omitted. -/
def evalStep (args : RangeArgs) (s : σ) : Option (ℤ × σ) :=
  match args.step with
  | some step => M.evalInt step s
  | none => some (1, s)

/-- The index is on the side of the bound it starts from. -/
def beforeBound (step index last : ℤ) : Bool :=
  if 0 ≤ step then index < last else index > last

/-- The header of the loop that `emit_stmt` prints.  An index whose increment has overflowed has
no value. -/
def rangeHeader (args : RangeArgs) : Option ℤ → σ → Option (Option (ℤ × ℤ × Option ℤ) × σ)
  | none, _ => none
  | some index, s => do
    let (step, s) ← evalStep M args s
    let (last, s) ← M.evalInt args.last s
    if beforeBound step index last then some (some (index, index, some index), s)
    else some (none, s)

/-- The increment of the index behind the body. -/
def rangeIncrement (args : RangeArgs) (index : ℤ) (s : σ) : Option ℤ × σ :=
  match evalStep M args s with
  | some (step, s) => (in64 (index + step), s)
  | none => (none, s)

/-- The loop that `emit_stmt` prints.  Its elements are the values of `e`. -/
def emitRangeLoop (args : RangeArgs) (body : List Stmt) : Loop (Option ℤ) ℤ ℤ σ where
  header := rangeHeader M args
  body index _ s :=
    match M.block body .count index s with
    | .goesOn (index, s) => .goesOn (rangeIncrement M args index s)
    | .left => .left
  advance index := index

/-- The loop with its first line: the index starts with the first bound. -/
def RangeRuns (args : RangeArgs) (body : List Stmt) (s : σ) (values : List ℤ) : Prop :=
  ∃ first s₀ index s', M.evalInt args.first s = some (first, s₀) ∧
    Runs (emitRangeLoop M args body) (in64 first) s₀ values (.done index s')

/-- The bounds and the step of a loop have given values, its body goes on and changes neither them
nor the index.  The states in which this is so are given. -/
structure KeepsHeader (args : RangeArgs) (body : List Stmt) (first last step : ℤ) (Kept : σ → Prop)
    (s : σ) : Prop where
  evalFirst : ∃ s', M.evalInt args.first s = some (first, s') ∧ Kept s'
  evalLast : ∀ s, Kept s → ∃ s', M.evalInt args.last s = some (last, s') ∧ Kept s'
  evalStep : ∀ s, Kept s → ∃ s', evalStep M args s = some (step, s') ∧ Kept s'
  block : ∀ s, Kept s → ∀ index, ∃ s', M.block body .count index s = .goesOn (index, s') ∧ Kept s'

end

/-- The number of iterations that bounds and a step determine. -/
def rangeCount (first last step : ℤ) : ℕ := ⌈((last - first : ℤ) : ℚ) / step⌉.toNat

/-- The values of the element that bounds and a step determine. -/
def rangeValues (first last step : ℤ) : List ℤ :=
  (List.range (rangeCount first last step)).map fun k : ℕ => first + k * step

/-- The bound is not reached in the iterations, and in no other ones. -/
theorem beforeBound_iff {first last step : ℤ} (hstep : step ≠ 0) (k : ℕ) :
  beforeBound step (first + k * step) last = true ↔ k < rangeCount first last step
  := by
  have hcount : k < rangeCount first last step ↔ (k : ℚ) < ((last - first : ℤ) : ℚ) / step := by
    rw [rangeCount, Int.lt_toNat, Int.lt_ceil]
    simp
  rw [hcount, beforeBound]
  rcases lt_or_gt_of_ne hstep with hneg | hpos
  · have hneg' : (step : ℚ) < 0 := by exact_mod_cast hneg
    rw [if_neg (not_le.mpr hneg), lt_div_iff_of_neg hneg', decide_eq_true_iff]
    norm_cast
    constructor <;> intro h <;> linarith
  · have hpos' : (0 : ℚ) < step := by exact_mod_cast hpos
    rw [if_pos hpos.le, lt_div_iff₀ hpos', decide_eq_true_iff]
    norm_cast
    constructor <;> intro h <;> linarith

/-- The values of the element fit in 64 bits if the bounds do. -/
theorem fits_value {first last step : ℤ} (hfirst : CInt.int64.Fits first)
    (hlast : CInt.int64.Fits last) (hstep : step ≠ 0) {k : ℕ} (hk : k < rangeCount first last step) :
  CInt.int64.Fits (first + k * step)
  := by
  have hbefore := (beforeBound_iff hstep k).mpr hk
  unfold beforeBound at hbefore
  obtain ⟨hlow, hhigh⟩ := hfirst
  obtain ⟨hlow', hhigh'⟩ := hlast
  split_ifs at hbefore with hsign
  · have hlt := of_decide_eq_true hbefore
    have hnonneg : 0 ≤ (k : ℤ) * step := mul_nonneg (Int.natCast_nonneg k) hsign
    constructor <;> omega
  · have hgt := of_decide_eq_true hbefore
    have hnonpos : (k : ℤ) * step ≤ 0 :=
      mul_nonpos_of_nonneg_of_nonpos (Int.natCast_nonneg k) (not_le.mp hsign).le
    constructor <;> omega

section

variable {σ α β : Type} {M : Meaning σ α β} {args : RangeArgs} {body : List Stmt}
  {first last step : ℤ} {Kept : σ → Prop} {s₀ : σ}

theorem KeepsHeader.header (h : KeepsHeader M args body first last step Kept s₀) {s : σ} (hs : Kept s)
    (index : ℤ) :
  ∃ s', Kept s' ∧ (emitRangeLoop M args body).header (some index) s =
    if beforeBound step index last then some (some (index, index, some index), s')
    else some (none, s')
  := by
  obtain ⟨s₁, hstep, hs₁⟩ := h.evalStep s hs
  obtain ⟨s₂, hlast, hs₂⟩ := h.evalLast s₁ hs₁
  refine ⟨s₂, hs₂, ?_⟩
  simp [emitRangeLoop, rangeHeader, hstep, hlast]

theorem KeepsHeader.goesOn (h : KeepsHeader M args body first last step Kept s₀) {s : σ} (hs : Kept s)
    (index : ℤ) (c : Option ℤ) :
  ∃ s', Kept s' ∧ (emitRangeLoop M args body).body index c s = .goesOn (in64 (index + step), s')
  := by
  obtain ⟨s₁, hblock, hs₁⟩ := h.block s hs index
  obtain ⟨s₂, hstep, hs₂⟩ := h.evalStep s₁ hs₁
  refine ⟨s₂, hs₂, ?_⟩
  simp [emitRangeLoop, rangeIncrement, hblock, hstep]

/-- The iterations from one of them on end exactly when the value at which the bound is reached
fits in 64 bits. -/
theorem KeepsHeader.runs_iff (h : KeepsHeader M args body first last step Kept s₀)
    (hfirst : CInt.int64.Fits first) (hlast : CInt.int64.Fits last) (hstep : step ≠ 0) {m n : ℕ}
    (hcount : m + n = rangeCount first last step) (hm : CInt.int64.Fits (first + m * step)) {s : σ}
    (hs : Kept s) :
  (∃ index s', Runs (emitRangeLoop M args body) (some (first + m * step)) s
    ((List.range' m n).map fun k : ℕ => first + k * step) (.done index s')) ↔
    CInt.int64.Fits (first + rangeCount first last step * step)
  := by
  induction n generalizing m s with
  | zero =>
    obtain ⟨s', -, hheader⟩ := h.header hs (first + m * step)
    have hend : ¬ beforeBound step (first + m * step) last = true := by
      rw [beforeBound_iff hstep, ← hcount]
      exact lt_irrefl m
    rw [if_neg hend] at hheader
    rw [← hcount, Nat.add_zero]
    constructor
    · intro _
      exact hm
    · intro _
      exact ⟨_, _, Runs.done hheader⟩
  | succ n ih =>
    have hlt : m < rangeCount first last step := by omega
    obtain ⟨s₁, hs₁, hheader⟩ := h.header hs (first + m * step)
    rw [if_pos ((beforeBound_iff hstep m).mpr hlt)] at hheader
    obtain ⟨s₂, hs₂, hbody⟩ := h.goesOn hs₁ (first + m * step) (some (first + m * step))
    have hnext : first + m * step + step = first + (m + 1 : ℕ) * step := by
      push_cast
      ring
    rw [hnext] at hbody
    simp only [runs_again_iff hheader hbody, List.range'_succ, List.map_cons, List.cons.injEq,
      true_and, exists_eq_left']
    by_cases hfits : CInt.int64.Fits (first + (m + 1 : ℕ) * step)
    · rw [in64, if_pos hfits]
      exact ih (by omega) hfits hs₂
    · -- the increment overflows, which only the last one does
      have hlast' : n = 0 := by
        by_contra hn
        exact hfits (fits_value hfirst hlast hstep (by omega))
      have hstopped : (emitRangeLoop M args body).header none s₂ = none := rfl
      have hnone : (emitRangeLoop M args body).advance (in64 (first + (m + 1 : ℕ) * step)) = none :=
        if_neg hfits
      rw [← hcount, hlast', Nat.zero_add, hnone]
      constructor
      · rintro ⟨index, s', hruns⟩
        cases ((runs_stopped_iff hstopped).mp hruns).2
      · exact fun h => absurd h hfits

/-- A loop over a range executes its body once for every value its bounds and its step determine,
and ends, exactly when the value at which the bound is reached fits in 64 bits. -/
theorem rangeRuns_iff (h : KeepsHeader M args body first last step Kept s₀)
    (hfirst : CInt.int64.Fits first) (hlast : CInt.int64.Fits last) (hstep : step ≠ 0) :
  RangeRuns M args body s₀ (rangeValues first last step) ↔
    CInt.int64.Fits (first + rangeCount first last step * step)
  := by
  obtain ⟨s, heval, hs⟩ := h.evalFirst
  have hstart : in64 first = some (first + (0 : ℕ) * step) := by simp [in64, hfirst]
  have hzero : CInt.int64.Fits (first + (0 : ℕ) * step) := by simpa using hfirst
  rw [← h.runs_iff hfirst hlast hstep (Nat.zero_add _) hzero hs, ← List.range_eq_range', ← hstart]
  constructor
  · rintro ⟨first', s', index, s'', heval', hruns⟩
    rw [heval] at heval'
    cases heval'
    exact ⟨index, s'', hruns⟩
  · rintro ⟨index, s', hruns⟩
    exact ⟨first, s, index, s', heval, hruns⟩

end

/-- The meaning of loops whose bounds are literals and whose body does nothing. -/
def literalMeaning : Meaning Unit Unit Unit where
  evalInt e s :=
    match e with
    | .int _ value => some (value, s)
    | _ => none
  evalStr _ _ := none
  evalArr _ _ := none
  evalMap _ _ := none
  element _ _ _ := none
  buckets _ _ := none
  block _ _ index s := .goesOn (index, s)

/-- The arguments of `loop(first, last, step)`. -/
def literalArgs (first last step : ℤ) : RangeArgs :=
  ⟨.int (Info.ofType .INT) first, .int (Info.ofType .INT) last, some (.int (Info.ofType .INT) step)⟩

theorem keepsHeader_literals (first last step : ℤ) :
  KeepsHeader literalMeaning (literalArgs first last step) [] first last step (fun _ => True) ()
  := by
  constructor
  · exact ⟨(), rfl, trivial⟩
  · exact fun _ _ => ⟨(), rfl, trivial⟩
  · exact fun _ _ => ⟨(), rfl, trivial⟩
  · exact fun _ _ _ => ⟨(), rfl, trivial⟩

/-- The loop `loop(0, 5, 2)` runs for `0`, `2` and `4`. -/
theorem rangeRuns_evens :
  RangeRuns literalMeaning (literalArgs 0 5 2) [] () [0, 2, 4]
  := by
  have hvalues : rangeValues 0 5 2 = [0, 2, 4] := by decide +kernel
  have hfits : CInt.int64.Fits (0 + rangeCount 0 5 2 * 2) := by decide +kernel
  rw [← hvalues]
  exact (rangeRuns_iff (keepsHeader_literals 0 5 2) (by decide) (by decide) (by decide)).mpr hfits

/-- The loop `loop(9223372036854775806, 9223372036854775807, 2)` increases its index past the
largest number. -/
theorem not_rangeRuns :
  ¬ ∀ (σ α β : Type) (M : Meaning σ α β) (args : RangeArgs) (body : List Stmt)
      (first last step : ℤ) (Kept : σ → Prop) (s : σ),
      CInt.int64.Fits first → CInt.int64.Fits last → CInt.int64.Fits step → step ≠ 0 →
      KeepsHeader M args body first last step Kept s →
      RangeRuns M args body s (rangeValues first last step)
  := by
  intro h
  have hruns := h Unit Unit Unit literalMeaning (literalArgs (2 ^ 63 - 2) (2 ^ 63 - 1) 2) []
    (2 ^ 63 - 2) (2 ^ 63 - 1) 2 (fun _ => True) () (by decide) (by decide) (by decide) (by decide)
    (keepsHeader_literals _ _ _)
  have hvalues : rangeValues (2 ^ 63 - 2) (2 ^ 63 - 1) 2 = [2 ^ 63 - 2] := by decide +kernel
  rw [hvalues] at hruns
  obtain ⟨first, s₀, index, s', heval, hruns⟩ := hruns
  cases heval
  have hheader : (emitRangeLoop literalMeaning (literalArgs (2 ^ 63 - 2) (2 ^ 63 - 1) 2) []).header
      (in64 (2 ^ 63 - 2)) () = some (some (2 ^ 63 - 2, 2 ^ 63 - 2, some (2 ^ 63 - 2)), ()) := rfl
  have hbody : (emitRangeLoop literalMeaning (literalArgs (2 ^ 63 - 2) (2 ^ 63 - 1) 2) []).body
      (2 ^ 63 - 2) (some (2 ^ 63 - 2)) () = .goesOn (none, ()) := rfl
  obtain ⟨rest, -, hrest⟩ := (runs_again_iff hheader hbody).mp hruns
  obtain ⟨-, hend⟩ := (runs_stopped_iff rfl).mp hrest
  cases hend

end Caster
