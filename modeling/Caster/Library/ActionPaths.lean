import Mathlib.Data.List.Basic

/-!
# Paths through structured code

Code that acts, leaves, branches and loops, and the actions on its paths.  What holds at the ends of all
paths is proved with one rule for each kind of code.
-/

namespace ActionPaths

/-- A statement: an action, a way to leave, a choice of blocks or a loop. -/
inductive Code (A E : Type) where
  | act (action : A)
  | leave (exit : E)
  | branch (blocks : List (List (Code A E)))
  | loop (body : List (Code A E))

variable {A E σ : Type}

/-- The actions on a path through code, and where it leaves, or `none` where it completes. -/
inductive Path : List (Code A E) → List A → Option E → Prop
  | nil : Path [] [] none
  | act {a : A} {rest : List (Code A E)} {actions : List A} {o : Option E} (hrest : Path rest actions o) :
    Path (.act a :: rest) (a :: actions) o
  | leave {exit : E} {rest : List (Code A E)} : Path (.leave exit :: rest) [] (some exit)
  | branchLeft {blocks : List (List (Code A E))} {block rest : List (Code A E)} {actions : List A}
      {exit : E} (hmem : block ∈ blocks) (hblock : Path block actions (some exit)) :
    Path (.branch blocks :: rest) actions (some exit)
  | branchDone {blocks : List (List (Code A E))} {block rest : List (Code A E)}
      {before after : List A} {o : Option E} (hmem : block ∈ blocks) (hblock : Path block before none)
      (hrest : Path rest after o) : Path (.branch blocks :: rest) (before ++ after) o
  | loopLeft {body rest : List (Code A E)} {actions : List A} {exit : E}
      (hbody : Path body actions (some exit)) : Path (.loop body :: rest) actions (some exit)
  | loopAgain {body rest : List (Code A E)} {before after : List A} {o : Option E}
      (hbody : Path body before none) (hloop : Path (.loop body :: rest) after o) :
    Path (.loop body :: rest) (before ++ after) o
  | loopDone {body rest : List (Code A E)} {actions : List A} {o : Option E}
      (hrest : Path rest actions o) : Path (.loop body :: rest) actions o

/-- A path through code and what is behind it leaves the code, or completes it and goes on. -/
def Splits (code rest : List (Code A E)) (actions : List A) (o : Option E) : Prop :=
  (∃ exit, o = some exit ∧ Path code actions (some exit)) ∨
    ∃ before after, actions = before ++ after ∧ Path code before none ∧ Path rest after o

theorem Path.splits {code rest : List (Code A E)} {actions : List A} {o : Option E}
    (h : Path (code ++ rest) actions o) : Splits code rest actions o := by
  generalize hwhole : code ++ rest = whole at h
  induction h generalizing code with
  | nil =>
    obtain ⟨rfl, rfl⟩ := List.append_eq_nil_iff.mp hwhole
    exact .inr ⟨[], [], rfl, .nil, .nil⟩
  | @act a whole actions o hrest ih =>
    cases code with
    | nil =>
      rw [List.nil_append] at hwhole
      subst hwhole
      exact .inr ⟨[], _, rfl, .nil, .act hrest⟩
    | cons x code =>
      obtain ⟨rfl, htail⟩ := List.cons.inj hwhole
      obtain ⟨exit, rfl, hleft⟩ | ⟨before, after, rfl, hdone, hgoes⟩ := ih htail
      · exact .inl ⟨exit, rfl, .act hleft⟩
      · exact .inr ⟨a :: before, after, rfl, .act hdone, hgoes⟩
  | @leave exit whole =>
    cases code with
    | nil =>
      rw [List.nil_append] at hwhole
      subst hwhole
      exact .inr ⟨[], _, rfl, .nil, .leave⟩
    | cons x code =>
      obtain ⟨rfl, -⟩ := List.cons.inj hwhole
      exact .inl ⟨exit, rfl, .leave⟩
  | @branchLeft blocks block whole actions exit hmem hblock ih =>
    cases code with
    | nil =>
      rw [List.nil_append] at hwhole
      subst hwhole
      exact .inr ⟨[], _, rfl, .nil, .branchLeft hmem hblock⟩
    | cons x code =>
      obtain ⟨rfl, -⟩ := List.cons.inj hwhole
      exact .inl ⟨exit, rfl, .branchLeft hmem hblock⟩
  | @branchDone blocks block whole front back o hmem hblock hrest ihblock ih =>
    cases code with
    | nil =>
      rw [List.nil_append] at hwhole
      subst hwhole
      exact .inr ⟨[], _, rfl, .nil, .branchDone hmem hblock hrest⟩
    | cons x code =>
      obtain ⟨rfl, htail⟩ := List.cons.inj hwhole
      obtain ⟨exit, rfl, hleft⟩ | ⟨before, after, rfl, hdone, hgoes⟩ := ih htail
      · exact .inl ⟨exit, rfl, .branchDone hmem hblock hleft⟩
      · exact .inr ⟨front ++ before, after, (List.append_assoc _ _ _).symm,
          .branchDone hmem hblock hdone, hgoes⟩
  | @loopLeft body whole actions exit hbody ih =>
    cases code with
    | nil =>
      rw [List.nil_append] at hwhole
      subst hwhole
      exact .inr ⟨[], _, rfl, .nil, .loopLeft hbody⟩
    | cons x code =>
      obtain ⟨rfl, -⟩ := List.cons.inj hwhole
      exact .inl ⟨exit, rfl, .loopLeft hbody⟩
  | @loopAgain body whole front back o hbody hloop ihbody ih =>
    cases code with
    | nil =>
      rw [List.nil_append] at hwhole
      subst hwhole
      exact .inr ⟨[], _, rfl, .nil, .loopAgain hbody hloop⟩
    | cons x code =>
      obtain ⟨rfl, htail⟩ := List.cons.inj hwhole
      subst htail
      obtain ⟨exit, rfl, hleft⟩ | ⟨before, after, rfl, hdone, hgoes⟩ := @ih (_ :: code) rfl
      · exact .inl ⟨exit, rfl, .loopAgain hbody hleft⟩
      · exact .inr ⟨front ++ before, after, (List.append_assoc _ _ _).symm, .loopAgain hbody hdone,
          hgoes⟩
  | @loopDone body whole actions o hrest ih =>
    cases code with
    | nil =>
      rw [List.nil_append] at hwhole
      subst hwhole
      exact .inr ⟨[], _, rfl, .nil, .loopDone hrest⟩
    | cons x code =>
      obtain ⟨rfl, htail⟩ := List.cons.inj hwhole
      obtain ⟨exit, rfl, hleft⟩ | ⟨before, after, rfl, hdone, hgoes⟩ := ih htail
      · exact .inl ⟨exit, rfl, .loopDone hleft⟩
      · exact .inr ⟨before, after, rfl, .loopDone hdone, hgoes⟩

/-- What holds where a path ends: one property where it completes, another one where it leaves. -/
def Ended (post : σ → Prop) (left : E → σ → Prop) (s : σ) : Option E → Prop
  | none => post s
  | some exit => left exit s

/-- Every path from a state with a property ends in one, the actions being steps of a state. -/
def Triple (step : σ → A → σ) (pre : σ → Prop) (code : List (Code A E)) (post : σ → Prop)
    (left : E → σ → Prop) : Prop :=
  ∀ s actions o, pre s → Path code actions o → Ended post left (actions.foldl step s) o

namespace Triple

variable {step : σ → A → σ} {pre mid post : σ → Prop} {left : E → σ → Prop} {rest : List (Code A E)}

theorem nil (h : ∀ s, pre s → post s) : Triple step pre [] post left := by
  intro s actions o hs hpath
  cases hpath
  exact h s hs

theorem weaken {pre' post' : σ → Prop} {code : List (Code A E)} (h : Triple step pre code post left)
    (hpre : ∀ s, pre' s → pre s) (hpost : ∀ s, post s → post' s) : Triple step pre' code post' left := by
  intro s actions o hs hpath
  have hended := h s actions o (hpre s hs) hpath
  cases o with
  | none => exact hpost _ hended
  | some exit => exact hended

theorem act {a : A} (h : ∀ s, pre s → mid (step s a)) (hrest : Triple step mid rest post left) :
    Triple step pre (.act a :: rest) post left := by
  intro s actions o hs hpath
  cases hpath with
  | act hpath => exact hrest (step s a) _ _ (h s hs) hpath

theorem append {code : List (Code A E)} (hcode : Triple step pre code mid left)
    (hrest : Triple step mid rest post left) : Triple step pre (code ++ rest) post left := by
  intro s actions o hs hpath
  obtain ⟨exit, rfl, hleft⟩ | ⟨before, after, rfl, hdone, hgoes⟩ := hpath.splits
  · exact hcode s actions (some exit) hs hleft
  · rw [List.foldl_append]
    exact hrest _ after o (hcode s before none hs hdone) hgoes

end Triple

/-! ### All actions and all exits -/

mutual

/-- All actions of a statement have a property, and all its exits have one. -/
def All (acts : A → Prop) (exits : E → Prop) : Code A E → Prop
  | .act a => acts a
  | .leave exit => exits exit
  | .branch blocks => AllOfBlocks acts exits blocks
  | .loop body => AllOf acts exits body

def AllOf (acts : A → Prop) (exits : E → Prop) : List (Code A E) → Prop
  | [] => True
  | s :: rest => All acts exits s ∧ AllOf acts exits rest

def AllOfBlocks (acts : A → Prop) (exits : E → Prop) : List (List (Code A E)) → Prop
  | [] => True
  | block :: blocks => AllOf acts exits block ∧ AllOfBlocks acts exits blocks

end

section

variable {acts : A → Prop} {exits : E → Prop}

@[simp] theorem all_act {a : A} : All acts exits (.act a : Code A E) ↔ acts a := Iff.rfl

@[simp] theorem all_leave {exit : E} : All acts exits (.leave exit : Code A E) ↔ exits exit := Iff.rfl

@[simp] theorem all_branch {blocks : List (List (Code A E))} :
    All acts exits (.branch blocks) ↔ AllOfBlocks acts exits blocks := Iff.rfl

@[simp] theorem all_loop {body : List (Code A E)} :
    All acts exits (.loop body) ↔ AllOf acts exits body := Iff.rfl

@[simp] theorem allOf_nil : AllOf acts exits ([] : List (Code A E)) := trivial

@[simp] theorem allOf_cons {s : Code A E} {rest : List (Code A E)} :
    AllOf acts exits (s :: rest) ↔ All acts exits s ∧ AllOf acts exits rest := Iff.rfl

theorem allOf_singleton {s : Code A E} : AllOf acts exits [s] ↔ All acts exits s := by simp

@[simp] theorem allOf_append {code rest : List (Code A E)} :
    AllOf acts exits (code ++ rest) ↔ AllOf acts exits code ∧ AllOf acts exits rest := by
  induction code with
  | nil => simp
  | cons s code ih => simp [ih, and_assoc]

@[simp] theorem allOfBlocks_nil : AllOfBlocks acts exits ([] : List (List (Code A E))) := trivial

@[simp] theorem allOfBlocks_cons {block : List (Code A E)} {blocks : List (List (Code A E))} :
    AllOfBlocks acts exits (block :: blocks) ↔
      AllOf acts exits block ∧ AllOfBlocks acts exits blocks := Iff.rfl

theorem AllOfBlocks.of_mem {blocks : List (List (Code A E))} (h : AllOfBlocks acts exits blocks)
    {block : List (Code A E)} (hmem : block ∈ blocks) : AllOf acts exits block := by
  induction blocks with
  | nil => cases hmem
  | cons first blocks ih =>
    obtain ⟨hfirst, hblocks⟩ := allOfBlocks_cons.mp h
    obtain rfl | hmem := List.mem_cons.mp hmem
    · exact hfirst
    · exact ih hblocks hmem

section

variable {acts' : A → Prop} {exits' : E → Prop}

mutual

theorem All.mono (hacts : ∀ a, acts a → acts' a) (hexits : ∀ exit, exits exit → exits' exit) {s : Code A E}
    (h : All acts exits s) : All acts' exits' s := by
  cases s with
  | act a => exact all_act.mpr (hacts a (all_act.mp h))
  | leave exit => exact all_leave.mpr (hexits exit (all_leave.mp h))
  | branch blocks => exact all_branch.mpr (AllOfBlocks.mono hacts hexits (all_branch.mp h))
  | loop body => exact all_loop.mpr (AllOf.mono hacts hexits (all_loop.mp h))

theorem AllOf.mono (hacts : ∀ a, acts a → acts' a) (hexits : ∀ exit, exits exit → exits' exit)
    {code : List (Code A E)} (h : AllOf acts exits code) : AllOf acts' exits' code := by
  cases code with
  | nil => exact allOf_nil
  | cons s rest =>
    obtain ⟨hs, hrest⟩ := allOf_cons.mp h
    exact allOf_cons.mpr ⟨All.mono hacts hexits hs, AllOf.mono hacts hexits hrest⟩

theorem AllOfBlocks.mono (hacts : ∀ a, acts a → acts' a) (hexits : ∀ exit, exits exit → exits' exit)
    {blocks : List (List (Code A E))} (h : AllOfBlocks acts exits blocks) :
    AllOfBlocks acts' exits' blocks := by
  cases blocks with
  | nil => exact allOfBlocks_nil
  | cons block blocks =>
    obtain ⟨hblock, hblocks⟩ := allOfBlocks_cons.mp h
    exact allOfBlocks_cons.mpr ⟨AllOf.mono hacts hexits hblock, AllOfBlocks.mono hacts hexits hblocks⟩

end

end

/-- What all actions keep, and all exits are fine with, holds on every path. -/
theorem Triple.of_allOf {step : σ → A → σ} {inv : σ → Prop} {left : E → σ → Prop}
    {code : List (Code A E)} (hall : AllOf acts exits code)
    (hacts : ∀ s a, acts a → inv s → inv (step s a)) (hexits : ∀ s exit, exits exit → inv s → left exit s) :
    Triple step inv code inv left := by
  intro s actions o hs hpath
  induction hpath generalizing s with
  | nil => exact hs
  | act _ ih =>
    obtain ⟨ha, hrest⟩ := allOf_cons.mp hall
    exact ih hrest _ (hacts s _ (all_act.mp ha) hs)
  | leave => exact hexits s _ (all_leave.mp (allOf_cons.mp hall).1) hs
  | branchLeft hmem _ ih => exact ih ((all_branch.mp (allOf_cons.mp hall).1).of_mem hmem) s hs
  | branchDone hmem _ _ ihblock ih =>
    obtain ⟨hbranch, hrest⟩ := allOf_cons.mp hall
    rw [List.foldl_append]
    exact ih hrest _ (ihblock ((all_branch.mp hbranch).of_mem hmem) s hs)
  | loopLeft _ ih => exact ih (all_loop.mp (allOf_cons.mp hall).1) s hs
  | loopAgain _ _ ihbody ih =>
    rw [List.foldl_append]
    exact ih hall _ (ihbody (all_loop.mp (allOf_cons.mp hall).1) s hs)
  | loopDone _ ih => exact ih (allOf_cons.mp hall).2 s hs

end

end ActionPaths
