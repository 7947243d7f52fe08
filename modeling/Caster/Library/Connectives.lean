import Mathlib.Data.List.Basic
import Mathlib.Tactic

/-!
# Sequences of clauses

Clauses that are joined by two connectives, of which one binds tighter than the other.  Joined from
left to right they mean the same as joined by precedence exactly when the tighter connective never
stands behind the other one.
-/

namespace Connectives

/-- The two connectives. -/
inductive Connective where
  | and | or
deriving DecidableEq, Repr

/-- The meaning of a connective. -/
def Connective.apply : Connective → Bool → Bool → Bool
  | and, b, b' => b && b'
  | or, b, b' => b || b'

/-- A tree of connectives over clauses. -/
inductive ClauseTree (α : Type*) where
  | leaf (a : α)
  | join (op : Connective) (left right : ClauseTree α)

variable {α β : Type*}

/-- The clauses of a tree, from left to right. -/
def ClauseTree.leaves : ClauseTree α → List α
  | leaf a => [a]
  | join _ left right => left.leaves ++ right.leaves

/-- The truth of a tree, where the truth of a clause depends on a value and there is one value for each
clause. -/
def ClauseTree.truth (holds : α → β → Bool) : ClauseTree α → List β → Bool
  | leaf a, values => values.head?.any (holds a)
  | join op left right, values =>
    op.apply (left.truth holds (values.take left.leaves.length))
      (right.truth holds (values.drop left.leaves.length))

/-- A function is applied to the clauses of a tree. -/
def ClauseTree.map (f : α → β) : ClauseTree α → ClauseTree β
  | leaf a => leaf (f a)
  | join op left right => join op (left.map f) (right.map f)

/-- The clauses are joined from left to right. -/
def fold (first : ClauseTree α) (rest : List (Connective × α)) : ClauseTree α :=
  rest.foldl (fun t (op, a) => .join op t (.leaf a)) first

/-- Clauses behind a first one that are joined by the tighter connective. -/
def andRun (run : List α) : List (Connective × α) := run.map fun a => (.and, a)

/-- Runs behind a first one that are joined by the looser connective. -/
def orRuns (runs : List (α × List α)) : List (Connective × α) :=
  runs.flatMap fun (a, run) => (.or, a) :: andRun run

/-- The runs are trees of their own, which are joined from left to right. -/
def climb (first : ClauseTree α) (runs : List (α × List α)) : ClauseTree α :=
  runs.foldl (fun t (a, run) => .join .or t (fold (.leaf a) (andRun run))) first

/-- The tighter connective does not stand behind the looser one. -/
def AndsFirst (ops : List Connective) : Prop := ops.Pairwise fun op op' => op = .or → op' = .or

instance : DecidablePred AndsFirst := fun ops =>
  inferInstanceAs (Decidable (ops.Pairwise fun op op' => op = .or → op' = .or))

theorem orRuns_cons (a : α) (run : List α) (runs : List (α × List α)) :
  orRuns ((a, run) :: runs) = (.or, a) :: (andRun run ++ orRuns runs)
  := rfl

/-! ### Runs -/

/-- Every sequence of clauses is made of runs. -/
theorem exists_runs (rest : List (Connective × α)) :
  ∃ run runs, rest = andRun run ++ orRuns runs
  := by
  induction rest with
  | nil => exact ⟨[], [], rfl⟩
  | cons first rest ih =>
    obtain ⟨run, runs, rfl⟩ := ih
    obtain ⟨op, a⟩ := first
    cases op with
    | and => exact ⟨a :: run, runs, rfl⟩
    | or => exact ⟨[], (a, run) :: runs, rfl⟩

theorem mem_map_fst_andRun {op : Connective} {run : List α} :
  op ∈ (andRun run).map Prod.fst ↔ op = .and ∧ run ≠ []
  := by
  cases run with
  | nil => simp [andRun]
  | cons a run => simp [andRun]

theorem mem_map_fst_orRuns {runs : List (α × List α)} :
  .and ∈ (orRuns runs).map Prod.fst ↔ ∃ r ∈ runs, r.2 ≠ []
  := by
  induction runs with
  | nil => simp [orRuns]
  | cons r runs ih =>
    obtain ⟨a, run⟩ := r
    rw [orRuns_cons, List.map_cons, List.map_append, List.mem_cons, List.mem_append, ih,
      mem_map_fst_andRun]
    simp

/-- The tighter connective comes first exactly when only the first run has more than one clause. -/
theorem andsFirst_runs_iff (run : List α) (runs : List (α × List α)) :
  AndsFirst ((andRun run ++ orRuns runs).map Prod.fst) ↔ ∀ r ∈ runs, r.2 = []
  := by
  rw [AndsFirst, List.map_append, List.pairwise_append]
  constructor
  · rintro ⟨-, hruns, -⟩ r hr
    cases runs with
    | nil => cases hr
    | cons r' runs =>
      obtain ⟨a, run'⟩ := r'
      rw [orRuns_cons, List.map_cons, List.pairwise_cons] at hruns
      obtain ⟨hall, -⟩ := hruns
      by_contra hne
      have hand : Connective.and ∈ (orRuns ((a, run') :: runs)).map Prod.fst :=
        mem_map_fst_orRuns.mpr ⟨r, hr, hne⟩
      rw [orRuns_cons, List.map_cons, List.mem_cons] at hand
      rcases hand with hand | hand
      · cases hand
      · cases hall _ hand rfl
  · intro hruns
    have hor : ∀ op ∈ (orRuns runs).map Prod.fst, op = .or := by
      intro op hop
      cases op with
      | or => rfl
      | and =>
        obtain ⟨r, hr, hne⟩ := mem_map_fst_orRuns.mp hop
        exact absurd (hruns r hr) hne
    refine ⟨?_, ?_, ?_⟩
    · exact List.pairwise_of_forall_mem_list fun op hop op' _ h => by
        rw [(mem_map_fst_andRun.mp hop).1] at h
        cases h
    · exact List.pairwise_of_forall_mem_list fun _ _ op' hop' _ => hor op' hop'
    · exact fun _ _ op' hop' _ => hor op' hop'

/-- Runs of one clause are joined from left to right by precedence as well. -/
theorem climb_of_singles {first : ClauseTree α} {runs : List (α × List α)} (h : ∀ r ∈ runs, r.2 = []) :
  climb first runs = fold first (orRuns runs)
  := by
  induction runs generalizing first with
  | nil => rfl
  | cons r runs ih =>
    obtain ⟨a, run⟩ := r
    obtain rfl : run = [] := h (a, run) List.mem_cons_self
    exact ih fun r hr => h r (List.mem_cons_of_mem _ hr)

theorem fold_append (first : ClauseTree α) (rest rest' : List (Connective × α)) :
  fold first (rest ++ rest') = fold (fold first rest) rest'
  := List.foldl_append

theorem leaves_fold (first : ClauseTree α) (rest : List (Connective × α)) :
  (fold first rest).leaves = first.leaves ++ rest.map Prod.snd
  := by
  induction rest generalizing first with
  | nil => simp [fold]
  | cons clause rest ih =>
    obtain ⟨op, a⟩ := clause
    have hfold : fold first ((op, a) :: rest) = fold (.join op first (.leaf a)) rest := rfl
    rw [hfold, ih]
    simp [ClauseTree.leaves]

theorem leaves_climb (first : ClauseTree α) (runs : List (α × List α)) :
  (climb first runs).leaves = first.leaves ++ (orRuns runs).map Prod.snd
  := by
  induction runs generalizing first with
  | nil => simp [climb, orRuns]
  | cons r runs ih =>
    obtain ⟨a, run⟩ := r
    have hclimb : climb first ((a, run) :: runs) =
        climb (.join .or first (fold (.leaf a) (andRun run))) runs := rfl
    rw [hclimb, ih, orRuns_cons]
    simp [ClauseTree.leaves, leaves_fold]

theorem map_snd_andRun (run : List α) : (andRun run).map Prod.snd = run := by
  simp [andRun]

/-- A relation of the clauses of runs is one of all their clauses. -/
theorem forall₂_runs {R : α → β → Prop} {run : List α} {run' : List β} {runs : List (α × List α)}
    {runs' : List (β × List β)} (hrun : List.Forall₂ R run run')
    (hruns : List.Forall₂ (fun r r' => R r.1 r'.1 ∧ List.Forall₂ R r.2 r'.2) runs runs') :
  List.Forall₂ R ((andRun run ++ orRuns runs).map Prod.snd) ((andRun run' ++ orRuns runs').map Prod.snd)
  := by
  rw [List.map_append, List.map_append, map_snd_andRun, map_snd_andRun]
  apply List.rel_append hrun
  induction hruns with
  | nil => exact List.Forall₂.nil
  | cons hr _ ih =>
    rw [orRuns_cons, orRuns_cons, List.map_cons, List.map_cons, List.map_append, List.map_append,
      map_snd_andRun, map_snd_andRun]
    exact List.Forall₂.cons hr.1 (List.rel_append hr.2 ih)

/-! ### Truth -/

section

variable {holds : α → β → Bool}

theorem leaves_map (f : α → β) (t : ClauseTree α) : (t.map f).leaves = t.leaves.map f := by
  induction t with
  | leaf a => rfl
  | join op left right ihl ihr => rw [ClauseTree.map, ClauseTree.leaves, ihl, ihr, ClauseTree.leaves, List.map_append]

/-- The truth of a tree depends on what a function makes of its clauses. -/
theorem truth_map {γ : Type*} {holds : β → γ → Bool} (f : α → β) (t : ClauseTree α) (values : List γ) :
  (t.map f).truth holds values = t.truth (fun a => holds (f a)) values
  := by
  induction t generalizing values with
  | leaf a => rfl
  | join op left right ihl ihr =>
    rw [ClauseTree.map, ClauseTree.truth, ihl, ihr, leaves_map, List.length_map, ClauseTree.truth]

theorem map_fold (f : α → β) (first : ClauseTree α) (rest : List (Connective × α)) :
  (fold first rest).map f = fold (first.map f) (rest.map (Prod.map id f))
  := by
  induction rest generalizing first with
  | nil => rfl
  | cons r rest ih => exact ih _

theorem map_andRun (f : α → β) (run : List α) :
  (andRun run).map (Prod.map id f) = andRun (run.map f)
  := by
  simp [andRun, Function.comp_def]

theorem map_orRuns (f : α → β) (runs : List (α × List α)) :
  (orRuns runs).map (Prod.map id f) = orRuns (runs.map (Prod.map f (List.map f)))
  := by
  induction runs with
  | nil => rfl
  | cons r runs ih =>
    obtain ⟨a, run⟩ := r
    rw [orRuns_cons, List.map_cons, List.map_append, map_andRun, ih]
    rfl

theorem map_climb (f : α → β) (first : ClauseTree α) (runs : List (α × List α)) :
  (climb first runs).map f = climb (first.map f) (runs.map (Prod.map f (List.map f)))
  := by
  induction runs generalizing first with
  | nil => rfl
  | cons r runs ih =>
    obtain ⟨a, run⟩ := r
    have hclimb : climb first ((a, run) :: runs) =
        climb (.join .or first (fold (.leaf a) (andRun run))) runs := rfl
    rw [hclimb, ih, ClauseTree.map, map_fold, map_andRun]
    rfl

/-- What clauses of one truth make of the truth before them. -/
theorem truth_fold {value : α → β} {b : Bool} {first : ClauseTree α} {rest : List (Connective × α)}
    {values : List β} (hvalue : ∀ r ∈ rest, holds r.2 (value r.2) = b)
    (hlength : values.length = first.leaves.length) :
  (fold first rest).truth holds (values ++ rest.map fun r => value r.2) =
    rest.foldl (fun b' r => r.1.apply b' b) (first.truth holds values)
  := by
  induction rest generalizing first values with
  | nil => simp [fold]
  | cons r rest ih =>
    obtain ⟨op, a⟩ := r
    have hhere : holds a (value a) = b := hvalue (op, a) List.mem_cons_self
    have hfold : fold first ((op, a) :: rest) = fold (.join op first (.leaf a)) rest := rfl
    have hvalues : values ++ ((op, a) :: rest).map (fun r => value r.2) =
        (values ++ [value a]) ++ rest.map fun r => value r.2 := by simp
    have hjoin : (ClauseTree.join op first (.leaf a)).truth holds (values ++ [value a]) =
        op.apply (first.truth holds values) b := by
      rw [ClauseTree.truth, ← hlength, List.take_left, List.drop_left, ClauseTree.truth, List.head?_cons,
        Option.any_some, hhere]
    rw [hfold, hvalues, ih (fun r hr => hvalue r (List.mem_cons_of_mem _ hr)), hjoin,
      List.foldl_cons]
    simp [ClauseTree.leaves, hlength]

/-- A tree by precedence is true where its first run is. -/
theorem truth_climb {first : ClauseTree α} {values : List β} (runs : List (α × List α))
    (h : first.truth holds (values.take first.leaves.length) = true) :
  (climb first runs).truth holds (values.take (climb first runs).leaves.length) = true
  := by
  induction runs generalizing first with
  | nil => exact h
  | cons r runs ih =>
    obtain ⟨a, run⟩ := r
    apply ih
    rw [ClauseTree.truth, List.take_take, ClauseTree.leaves, List.length_append, min_eq_left (by omega), h]
    rfl

theorem foldl_and_true (run : List α) (b : Bool) :
  (andRun run).foldl (fun b' r => r.1.apply b' true) b = b
  := by
  induction run with
  | nil => rfl
  | cons a run ih =>
    rw [andRun, List.map_cons, List.foldl_cons, Connective.apply, Bool.and_true]
    exact ih

/-- Behind a clause that is false and joined by the tighter connective, false clauses stay false. -/
theorem foldl_false {rest : List (Connective × α)} (h : .and ∈ rest.map Prod.fst) (b : Bool) :
  rest.foldl (fun b' r => r.1.apply b' false) b = false
  := by
  have hfalse (rest : List (Connective × α)) : rest.foldl (fun b' r => r.1.apply b' false) false = false := by
    induction rest with
    | nil => rfl
    | cons r rest ih =>
      obtain ⟨op, a⟩ := r
      cases op <;> exact ih
  induction rest generalizing b with
  | nil => cases h
  | cons r rest ih =>
    obtain ⟨op, a⟩ := r
    rw [List.foldl_cons]
    cases op with
    | and =>
      rw [Connective.apply, Bool.and_false]
      exact hfalse rest
    | or => exact ih (by simpa using h) _

/-- ClauseTree from left to right and joined by precedence, clauses that may be true and false mean the
same exactly when the tighter connective comes first. -/
theorem truth_eq_iff {value : Bool → α → β} {a : α} {run : List α} {runs : List (α × List α)}
    (hvalue : ∀ b, ∀ a' ∈ a :: (andRun run ++ orRuns runs).map Prod.snd, holds a' (value b a') = b) :
  (∀ values, values.length = (andRun run ++ orRuns runs).length + 1 →
    (fold (.leaf a) (andRun run ++ orRuns runs)).truth holds values =
      (climb (fold (.leaf a) (andRun run)) runs).truth holds values) ↔
    AndsFirst ((andRun run ++ orRuns runs).map Prod.fst)
  := by
  rw [andsFirst_runs_iff]
  constructor
  · intro h
    by_contra hruns
    have hand : Connective.and ∈ (orRuns runs).map Prod.fst := by
      rw [mem_map_fst_orRuns]
      simpa using hruns
    -- The first run is true and everything behind it is false.
    let first := fold (.leaf a) (andRun run)
    let start := value true a :: run.map (value true)
    let values := start ++ (orRuns runs).map fun r => value false r.2
    have hleaves : first.leaves = a :: run := by
      rw [leaves_fold]
      simp [ClauseTree.leaves, andRun]
    have hstart : start.length = first.leaves.length := by simp [start, hleaves]
    have hlength : values.length = (andRun run ++ orRuns runs).length + 1 := by
      simp [values, start, andRun]
    have hfirst : first.truth holds start = true := by
      have hrun : ∀ r ∈ andRun run, holds r.2 (value true r.2) = true := by
        intro r hr
        apply hvalue true
        simp only [List.map_append, List.mem_cons, List.mem_append]
        exact Or.inr (Or.inl (List.mem_map_of_mem hr))
      have htruth := @truth_fold α β holds (value true) true (.leaf a) (andRun run) [value true a] hrun rfl
      rw [foldl_and_true, ClauseTree.truth, List.head?_cons, Option.any_some,
        hvalue true a List.mem_cons_self, andRun, List.map_map] at htruth
      exact htruth
    have hfold : (fold (.leaf a) (andRun run ++ orRuns runs)).truth holds values = false := by
      have hrest : ∀ r ∈ orRuns runs, holds r.2 (value false r.2) = false := by
        intro r hr
        apply hvalue false
        simp only [List.map_append, List.mem_cons, List.mem_append]
        exact Or.inr (Or.inr (List.mem_map_of_mem hr))
      rw [fold_append, truth_fold hrest hstart]
      exact foldl_false hand _
    have hclimb : (climb first runs).truth holds values = true := by
      have htake : values.take first.leaves.length = start := by
        rw [← hstart]
        exact List.take_left
      have hall : values.take (climb first runs).leaves.length = values := by
        apply List.take_of_length_le
        rw [leaves_climb, hleaves, hlength]
        simp [andRun]
      have htruth := @truth_climb α β holds first values runs (by rw [htake, hfirst])
      rwa [hall] at htruth
    have heq := h values hlength
    rw [hfold] at heq
    exact absurd (heq.trans hclimb) Bool.false_ne_true
  · intro hruns values _
    rw [fold_append, climb_of_singles hruns]

end

end Connectives
