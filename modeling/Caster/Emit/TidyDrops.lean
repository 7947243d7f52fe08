import Caster.Emit.OwnedLocals

/-!
# Exact drops

The list of owned locals follows the text of a function, and what its variables own follows the path.  In
a function whose blocks neither free a listed variable, nor give a value of its own to another one, the two
agree on every path: each return drops what is owned, but for what it hands over.
-/

namespace Caster.OwnedLocals

open ActionPaths

def Var.isElement : Var → Bool
  | .element _ => true
  | _ => false

/-! ### Tidy functions -/

/-- No `ret` in a body in an expression leaves the function. -/
def Stays (e : Expr) : Prop := All (fun _ => False) (fun exit => exit = .stop) (evaluate e)

def StaysAll (es : List Expr) : Prop := All (fun _ => False) (fun exit => exit = .stop) (evaluateAll es)

/-- A variable that is assigned in a block gets a value of its own if it is listed, and only then. -/
def FitsListed (types : TypeTable) (listed : List Var) (x : Var) (type : Ty) (owns : Bool) : Prop :=
  typeNeedsDrop types type = true → (owns = true ↔ x ∈ listed)

/-- A variable that is declared in a block is not listed and gets no value of its own. -/
def FitsBlock (types : TypeTable) (listed : List Var) (x : Var) (type : Ty) (owns : Bool) : Prop :=
  x ∉ listed ∧ (typeNeedsDrop types type = true → owns = false)

/-- A variable that gets a value of its own at the top is declared, and values of its type are dropped.
One that gets another value is not listed. -/
def FitsTop (types : TypeTable) (s : Emitter) (declared : List Var) (x : Var) (type : Ty) (owns : Bool) :
    Prop :=
  typeNeedsDrop types type = true →
    if owns then x ∈ declared ∧ isDropped types type = true else x ∉ vars s.owned

/-- Whether an assignment that declares nothing gives its target a value of its own. -/
def assignOwns (types : TypeTable) (op : AssignOp) (target : Expr) (value : Option Expr) : Bool :=
  match op with
  | .set => assignmentInitializerMayOwn types target.checkedType value
  | _ => true

mutual

/-- A statement in a block keeps what the listed variables own, and gives nothing to others. -/
def TidyStmt (types : TypeTable) (listed : List Var) : Stmt → Prop
  | .var name type value =>
    (∀ v ∈ value, Stays v) ∧
      FitsBlock types listed (.named name) type (assignmentInitializerMayOwn types type value)
  | .assign op target value inferred =>
    match inferred with
    | some type =>
      (∀ v ∈ value, Stays v) ∧ ∀ x ∈ targetName target,
        FitsBlock types listed x type (assignmentInitializerMayOwn types type value)
    | none =>
      Stays target ∧ (∀ v ∈ value, Stays v) ∧ (op ≠ .incr → ∀ x ∈ targetName target,
        FitsListed types listed x target.checkedType (assignOwns types op target value))
  | .destructure fields value =>
    Stays value ∧
      (typeNeedsDrop types value.checkedType = true →
        assignmentInitializerMayOwn types value.checkedType (some value) = false) ∧
      ∀ binding ∈ fields, FitsBlock types listed (.named binding.name) binding.declaredType true
  | .exprStmt expr | .throw expr => Stays expr
  | .free expr => Stays expr ∧ ∀ x ∈ targetName expr, x ∉ listed
  | .ret value => ∀ v ∈ value, Stays v
  | .ifElse condition thenBlock elxBranches elseBlock =>
    Stays condition ∧ TidyBlock types listed thenBlock ∧ TidyBranches types listed elxBranches ∧
      TidyElse types listed elseBlock
  | .loop _ args _ body => StaysAll args ∧ TidyBlock types listed body
  | .pass | .fn _ _ _ _ | .aggStep _ => True

def TidyBlock (types : TypeTable) (listed : List Var) : List Stmt → Prop
  | [] => True
  | st :: sts => TidyStmt types listed st ∧ TidyBlock types listed sts

def TidyElse (types : TypeTable) (listed : List Var) : Option (List Stmt) → Prop
  | none => True
  | some block => TidyBlock types listed block

def TidyBranches (types : TypeTable) (listed : List Var) : List (Expr × List Stmt) → Prop
  | [] => True
  | (condition, body) :: branches =>
    Stays condition ∧ TidyBlock types listed body ∧ TidyBranches types listed branches

end

/-- The variables that a statement declares at the top of a function. -/
def declaredBy (s : Emitter) : Stmt → List Var
  | .var name _ _ => [.named name]
  | .assign _ target _ (some _) => (targetName target).toList
  | .destructure fields _ =>
    .destructured s.nextId :: fields.map fun binding => .named binding.name
  | _ => []

/-- A statement at the top of a function only lists variables that are declared and dropped, and lends no
value to a listed one. -/
def TidyTop (types : TypeTable) (s : Emitter) (declared : List Var) : Stmt → Prop
  | .var name type value =>
    (∀ v ∈ value, Stays v) ∧
      FitsTop types s declared (.named name) type (assignmentInitializerMayOwn types type value)
  | .assign op target value inferred =>
    match inferred with
    | some type =>
      (∀ v ∈ value, Stays v) ∧ ∀ x ∈ targetName target,
        FitsTop types s declared x type (assignmentInitializerMayOwn types type value)
    | none =>
      Stays target ∧ (∀ v ∈ value, Stays v) ∧ (op ≠ .incr → ∀ x ∈ targetName target,
        FitsTop types s declared x target.checkedType (assignOwns types op target value))
  | .destructure fields value =>
    Stays value ∧
      FitsTop types s declared (.destructured s.nextId) value.checkedType
        (assignmentInitializerMayOwn types value.checkedType (some value)) ∧
      ∀ binding ∈ fields, typeNeedsDrop types binding.declaredType = true →
        isDropped types binding.declaredType = true
  | .free expr => Stays expr
  | st => TidyStmt types (vars s.owned) st

def TidyFrom (types : TypeTable) (s : Emitter) (declared : List Var) : List Stmt → Prop
  | [] => True
  | st :: sts =>
    TidyTop types s (declared ++ declaredBy s st) st ∧
      TidyFrom types (emitStmt types true s st).1 (declared ++ declaredBy s st) sts

/-- A function whose list of owned locals is right wherever it returns. -/
def Tidy (types : TypeTable) (params : List Param) (body : List Stmt) : Prop :=
  TidyFrom types {} (params.map fun p => .named p.name) body

/-! ### The code in blocks -/

/-- An event in a block keeps what the listed variables own, and gives nothing to others. -/
def QuietEvent (listed : List Var) : Event → Prop
  | .declare _ => True
  | .give x => x ∈ listed ∨ x.isElement = true
  | .lend x => x ∉ listed
  | .free x => x ∉ listed ∨ x.isElement = true

/-- A return drops a list, but for the variable of it that it hands over. -/
def DropsAll (types : TypeTable) (K : List OwnedLocal) : Leaving → Prop
  | .returns drops kept => drops = emitOwnedLocalDrops types K kept ∧ ∀ x ∈ kept, x ∈ vars K
  | .stop => True

def Quiet (types : TypeTable) (K : List OwnedLocal) (code : List Emitted) : Prop :=
  AllOf (QuietEvent (vars K)) (DropsAll types K) code

/-- The emitter keeps the list, numbers variables from some number on, and the code is quiet. -/
def QuietFrom (types : TypeTable) (K : List OwnedLocal) (n : ℕ) (out : Emitter × List Emitted) : Prop :=
  (out.1.owned = K ∧ n ≤ out.1.nextId) ∧ Quiet types K out.2

section

variable {types : TypeTable} {K : List OwnedLocal}

/-- Code that does nothing but end the program is quiet. -/
theorem quiet_of_stops {code : Emitted} (h : All (fun _ => False) (fun exit => exit = .stop) code) :
  All (QuietEvent (vars K)) (DropsAll types K) code
  := by
  refine All.mono ?_ ?_ h
  · intro e he
    exact he.elim
  · rintro exit rfl
    exact trivial

theorem Stays.quiet {e : Expr} (he : Stays e) :
  All (QuietEvent (vars K)) (DropsAll types K) (evaluate e)
  := quiet_of_stops he

theorem StaysAll.quiet {es : List Expr} (hes : StaysAll es) :
  All (QuietEvent (vars K)) (DropsAll types K) (evaluateAll es)
  := quiet_of_stops hes

theorem quiet_value {value : Option Expr} (hvalue : ∀ v ∈ value, Stays v) :
  Quiet types K (value.toList.map evaluate)
  := by
  cases value with
  | none => exact allOf_nil
  | some value => exact allOf_singleton.mpr ((hvalue value rfl).quiet)

theorem FitsListed.quiet {x : Var} {type : Ty} {owns : Bool} (h : FitsListed types (vars K) x type owns) :
  Quiet types K (giveCode types x type owns)
  := by
  unfold giveCode
  split_ifs with hdrop howns
  · exact allOf_nil
  · have hlisted := (h (by simpa using hdrop)).mp howns
    exact allOf_singleton.mpr (all_act.mpr (.inl hlisted))
  · have hnot : x ∉ vars K := fun hmem => howns ((h (by simpa using hdrop)).mpr hmem)
    exact allOf_singleton.mpr (all_act.mpr hnot)

theorem FitsBlock.quiet {x : Var} {type : Ty} {owns : Bool} (h : FitsBlock types (vars K) x type owns) :
  Quiet types K (giveCode types x type owns)
  := by
  apply FitsListed.quiet
  intro hdrop
  simp [h.1, h.2 hdrop]

/-- What a `ret` hands over is listed. -/
theorem mem_vars_returned {e : Expr} {x : Var} (hx : returnedOwnedLocalName types K e = some x) :
  x ∈ vars K
  := by
  fun_induction returnedOwnedLocalName types K e with
  | case1 info callee arg hconstructor ih => exact ih hx
  | case2 => cases hx
  | case3 info object name arg body hconstructor ih => exact ih hx
  | case4 => cases hx
  | case5 info name hlisted =>
    obtain rfl := Option.some.inj hx
    exact ownedLocalContains_iff.mp hlisted
  | case6 => cases hx
  | case7 => cases hx

theorem emitBindings_quiet (s : Emitter) {bindings : List Binding}
    (hbindings : ∀ binding ∈ bindings,
      FitsBlock types (vars K) (.named binding.name) binding.declaredType true) :
  (emitBindings types false s bindings).1 = s ∧ Quiet types K (emitBindings types false s bindings).2
  := by
  induction bindings with
  | nil => exact ⟨rfl, allOf_nil⟩
  | cons binding bindings ih =>
    obtain ⟨hfirst, hrest⟩ := List.forall_mem_cons.mp hbindings
    obtain ⟨hs, hcode⟩ := ih hrest
    exact ⟨hs, allOf_append.mpr ⟨allOf_append.mpr ⟨allOf_nil, hfirst.quiet⟩, hcode⟩⟩

theorem emitTarget_quiet (s : Emitter) {target : Expr} {owns : Bool}
    (htarget : ∀ x ∈ targetName target, FitsListed types (vars K) x target.checkedType owns) :
  (emitTarget types false s target owns).1 = s ∧ Quiet types K (emitTarget types false s target owns).2
  := by
  unfold emitTarget
  cases hname : targetName target with
  | some x => exact ⟨rfl, (htarget x hname).quiet⟩
  | none => exact ⟨rfl, allOf_nil⟩

/-- What an assignment that declares nothing does to its target. -/
def writeTarget (types : TypeTable) (atTop : Bool) (s : Emitter) (op : AssignOp) (target : Expr)
    (value : Option Expr) : Emitter × List Emitted :=
  match op with
  | .incr => (s, [])
  | _ => emitTarget types atTop s target (assignOwns types op target value)

theorem emitStmt_assign (atTop : Bool) (s : Emitter) (op : AssignOp) (target : Expr) (value : Option Expr) :
  emitStmt types atTop s (.assign op target value none) =
    ((writeTarget types atTop s op target value).1,
      evaluate target :: (value.toList.map evaluate) ++ (writeTarget types atTop s op target value).2)
  := by
  cases op <;> rfl

mutual

/-- In a block, a tidy statement leaves the list as it is, and its code is quiet. -/
theorem emitStmt_quiet {n : ℕ} (hfresh : ∀ id, .destructured id ∈ vars K → id < n) {s : Emitter}
    (hs : s.owned = K ∧ n ≤ s.nextId) {st : Stmt} (htidy : TidyStmt types (vars K) st) :
  QuietFrom types K n (emitStmt types false s st)
  := by
  cases st with
  | var name type value =>
    obtain ⟨hvalue, hfits⟩ := htidy
    exact ⟨hs, allOf_append.mpr ⟨allOf_append.mpr ⟨quiet_value hvalue, allOf_nil⟩, hfits.quiet⟩⟩
  | assign op target value inferred =>
    cases inferred with
    | some type =>
      obtain ⟨hvalue, hfits⟩ := htidy
      rw [emitStmt]
      cases hname : targetName target with
      | some x =>
        exact ⟨hs, allOf_append.mpr ⟨allOf_append.mpr ⟨quiet_value hvalue, allOf_nil⟩,
          (hfits x hname).quiet⟩⟩
      | none => exact ⟨hs, quiet_value hvalue⟩
    | none =>
      obtain ⟨htarget, hvalue, hfits⟩ := htidy
      have hwritten : (writeTarget types false s op target value).1 = s ∧
          Quiet types K (writeTarget types false s op target value).2 := by
        cases op with
        | incr => exact ⟨rfl, allOf_nil⟩
        | set => exact emitTarget_quiet s (hfits (by simp))
        | addSet => exact emitTarget_quiet s (hfits (by simp))
        | subSet => exact emitTarget_quiet s (hfits (by simp))
      rw [emitStmt_assign]
      refine ⟨?_, allOf_append.mpr ⟨allOf_cons.mpr ⟨htarget.quiet, quiet_value hvalue⟩, hwritten.2⟩⟩
      rw [hwritten.1]
      exact hs
  | destructure fields value =>
    obtain ⟨hvalue, howns, hfields⟩ := htidy
    have hwhole : FitsBlock types (vars K) (.destructured s.nextId) value.checkedType
        (assignmentInitializerMayOwn types value.checkedType (some value)) :=
      ⟨fun hmem => absurd (hfresh _ hmem) (Nat.not_lt.mpr hs.2), howns⟩
    obtain ⟨hsame, hcode⟩ := emitBindings_quiet { s with nextId := s.nextId + 1 } hfields
    refine ⟨?_, allOf_cons.mpr ⟨hvalue.quiet, allOf_append.mpr ⟨allOf_append.mpr ⟨allOf_nil, hwhole.quiet⟩,
      hcode⟩⟩⟩
    rw [emitStmt, record_inBlock, hsame]
    exact ⟨hs.1, Nat.le_succ_of_le hs.2⟩
  | exprStmt expr => exact ⟨hs, allOf_singleton.mpr (Stays.quiet htidy)⟩
  | free expr =>
    obtain ⟨hexpr, hnotListed⟩ := htidy
    rw [emitStmt]
    cases hname : targetName expr with
    | some x =>
      have hnot : x ∉ vars K := hnotListed x hname
      have hkept : ownedLocalRemove s.owned x = s.owned := by
        apply List.eraseP_of_forall_not
        intro l hl hx
        rw [hs.1] at hl
        exact hnot (mem_vars_iff.mpr ⟨l, hl, by simpa using hx⟩)
      exact ⟨⟨hkept.trans hs.1, hs.2⟩, allOf_cons.mpr ⟨hexpr.quiet,
        allOf_singleton.mpr (all_act.mpr (.inl hnot))⟩⟩
    | none => exact ⟨hs, allOf_singleton.mpr hexpr.quiet⟩
  | ret value =>
    refine ⟨hs, allOf_append.mpr ⟨quiet_value htidy, allOf_singleton.mpr (all_leave.mpr ⟨?_, ?_⟩)⟩⟩
    · rw [hs.1]
    · rw [hs.1]
      intro x hx
      obtain ⟨v, -, hv⟩ := Option.bind_eq_some_iff.mp hx
      exact mem_vars_returned hv
  | throw value =>
    exact ⟨hs, allOf_cons.mpr ⟨Stays.quiet htidy, allOf_singleton.mpr (all_leave.mpr trivial)⟩⟩
  | ifElse condition thenBlock elxBranches elseBlock =>
    obtain ⟨hcondition, hthen, hbranches, helse⟩ := htidy
    have hyes := emitBlock_quiet hfresh hs hthen
    rw [emitStmt]
    have hno : QuietFrom types K n (emitBranches types (emitBlock types false s thenBlock).1 elxBranches
        fun s => emitElse types s elseBlock) := by
      apply emitBranches_quiet hfresh hyes.1 hbranches
      intro s hs
      exact emitElse_quiet hfresh hs helse
    exact ⟨hno.1, allOf_chosen hcondition.quiet hyes.2 hno.2⟩
  | loop kind args elementName body =>
    obtain ⟨hargs, hbody⟩ := htidy
    rw [emitStmt]
    split_ifs with hstr
    · obtain ⟨hinner, hcode⟩ := emitBlock_quiet (s := { s with nextId := s.nextId + 1 }) hfresh
        ⟨hs.1, Nat.le_succ_of_le hs.2⟩ hbody
      exact ⟨hinner, allOf_looped hargs.quiet (allOf_around (.inr rfl) (.inr rfl) hcode)⟩
    · obtain ⟨hinner, hcode⟩ := emitBlock_quiet hfresh hs hbody
      exact ⟨hinner, allOf_looped hargs.quiet hcode⟩
  | pass => exact ⟨hs, allOf_nil⟩
  | fn name params returnType body => exact ⟨hs, allOf_nil⟩
  | aggStep value => exact ⟨hs, allOf_nil⟩

theorem emitBlock_quiet {n : ℕ} (hfresh : ∀ id, .destructured id ∈ vars K → id < n) {s : Emitter}
    (hs : s.owned = K ∧ n ≤ s.nextId) {sts : List Stmt} (htidy : TidyBlock types (vars K) sts) :
  QuietFrom types K n (emitBlock types false s sts)
  := by
  cases sts with
  | nil => exact ⟨hs, allOf_nil⟩
  | cons st sts =>
    obtain ⟨hst, hsts⟩ := htidy
    obtain ⟨hfirst, hcode⟩ := emitStmt_quiet hfresh hs hst
    obtain ⟨hrest, hcodeRest⟩ := emitBlock_quiet hfresh hfirst hsts
    exact ⟨hrest, allOf_append.mpr ⟨hcode, hcodeRest⟩⟩

theorem emitElse_quiet {n : ℕ} (hfresh : ∀ id, .destructured id ∈ vars K → id < n) {s : Emitter}
    (hs : s.owned = K ∧ n ≤ s.nextId) {elseBlock : Option (List Stmt)}
    (htidy : TidyElse types (vars K) elseBlock) : QuietFrom types K n (emitElse types s elseBlock) := by
  cases elseBlock with
  | none => exact ⟨hs, allOf_nil⟩
  | some block => exact emitBlock_quiet hfresh hs htidy

theorem emitBranches_quiet {n : ℕ} (hfresh : ∀ id, .destructured id ∈ vars K → id < n) {s : Emitter}
    (hs : s.owned = K ∧ n ≤ s.nextId) {branches : List (Expr × List Stmt)}
    (htidy : TidyBranches types (vars K) branches) {elseCode : Emitter → Emitter × List Emitted}
    (helse : ∀ s : Emitter, s.owned = K ∧ n ≤ s.nextId → QuietFrom types K n (elseCode s)) :
  QuietFrom types K n (emitBranches types s branches elseCode)
  := by
  cases branches with
  | nil => exact helse s hs
  | cons branch branches =>
    obtain ⟨condition, body⟩ := branch
    obtain ⟨hcondition, hbody, hbranches⟩ := htidy
    have hyes := emitBlock_quiet hfresh hs hbody
    obtain ⟨hno, hnoCode⟩ := emitBranches_quiet hfresh hyes.1 hbranches helse
    exact ⟨hno, allOf_chosen hcondition.quiet hyes.2 hnoCode⟩

end

end

/-! ### The code of a function -/

/-- What is listed is listed once, dropped and declared, and no element of a loop. -/
structure Listed (types : TypeTable) (s : Emitter) (declared : List Var) : Prop where
  nodup : (vars s.owned).Nodup
  dropped : ∀ l ∈ s.owned, isDropped types l.type = true
  declared : ∀ x ∈ vars s.owned, x ∈ declared
  named : ∀ x ∈ vars s.owned, x.isElement = false
  fresh : ∀ id, .destructured id ∈ vars s.owned → id < s.nextId

/-- The variables that own a value are the listed ones. -/
structure Matches (K : List OwnedLocal) (declared : List Var) (h : Held) : Prop where
  owned : ∀ x, x.isElement = false → (x ∈ h.owned ↔ x ∈ vars K)
  declared : ∀ x ∈ declared, x ∈ h.declared

/-- A return hands over a variable that owns its value, and drops the other ones that do, each once and
under a declared name. -/
def Exact : Leaving → Held → Prop
  | .returns drops kept, h =>
    drops.Nodup ∧ (∀ x ∈ drops, x ∈ h.declared) ∧ (∀ x ∈ kept, x ∈ h.owned) ∧
      ∀ x, x.isElement = false → (x ∈ drops ↔ x ∈ h.owned ∧ some x ≠ kept)
  | .stop, _ => True

/-- From what is listed, the code of some statements leads to what is listed behind it. -/
def Follows (types : TypeTable) (s : Emitter) (declared : List Var) (out : Emitter × List Emitted)
    (declared' : List Var) : Prop :=
  Listed types out.1 declared' ∧
    Triple Held.step (Matches s.owned declared) out.2 (Matches out.1.owned declared') Exact

section

variable {types : TypeTable} {s : Emitter} {K : List OwnedLocal} {declared declared' : List Var} {h : Held}

theorem Matches.step_quiet (hmatches : Matches K declared h) {e : Event} (he : QuietEvent (vars K) e) :
  Matches K declared (h.step e)
  := by
  obtain ⟨howned, hdeclared⟩ := hmatches
  cases e with
  | declare x => exact ⟨howned, fun y hy => .inr (hdeclared y hy)⟩
  | give x =>
    refine ⟨fun y hy => ?_, hdeclared⟩
    rw [← howned y hy]
    refine ⟨fun hmem => ?_, .inr⟩
    obtain rfl | hmem := hmem
    · obtain hlisted | helement := he
      · exact (howned _ hy).mpr hlisted
      · rw [hy] at helement
        cases helement
    · exact hmem
  | lend x =>
    refine ⟨fun y hy => ?_, hdeclared⟩
    rw [← howned y hy]
    refine ⟨And.left, fun hmem => ⟨hmem, ?_⟩⟩
    rintro rfl
    exact he ((howned _ hy).mp hmem)
  | free x =>
    refine ⟨fun y hy => ?_, hdeclared⟩
    rw [← howned y hy]
    refine ⟨And.left, fun hmem => ⟨hmem, ?_⟩⟩
    rintro rfl
    obtain hlisted | helement := he
    · exact hlisted ((howned _ hy).mp hmem)
    · rw [hy] at helement
      cases helement

theorem Matches.exact (hmatches : Matches s.owned declared h) (hlisted : Listed types s declared)
    {exit : Leaving} (hexit : DropsAll types s.owned exit) : Exact exit h := by
  cases exit with
  | stop => trivial
  | returns drops kept =>
    obtain ⟨rfl, hkept⟩ := hexit
    have hmem : ∀ x, x ∈ emitOwnedLocalDrops types s.owned kept ↔ x ∈ vars s.owned ∧ some x ≠ kept := by
      intro x
      rw [mem_emitOwnedLocalDrops_iff, mem_vars_iff]
      constructor
      · rintro ⟨l, hl, rfl, hskip, -⟩
        exact ⟨⟨l, hl, rfl⟩, hskip⟩
      · rintro ⟨⟨l, hl, rfl⟩, hskip⟩
        exact ⟨l, hl, rfl, hskip, hlisted.dropped l hl⟩
    refine ⟨nodup_emitOwnedLocalDrops hlisted.nodup kept, ?_, ?_, ?_⟩
    · intro x hx
      exact hmatches.declared x (hlisted.declared x ((hmem x).mp hx).1)
    · intro x hx
      exact (hmatches.owned x (hlisted.named x (hkept x hx))).mpr (hkept x hx)
    · intro x hx
      rw [hmem, hmatches.owned x hx]

theorem triple_quiet (hlisted : Listed types s declared) {code : List Emitted}
    (hcode : Quiet types s.owned code) :
  Triple Held.step (Matches s.owned declared) code (Matches s.owned declared) Exact
  := by
  apply Triple.of_allOf hcode
  · intro h e he hmatches
    exact hmatches.step_quiet he
  · intro h exit hexit hmatches
    exact hmatches.exact hlisted hexit

theorem Follows.then {first rest : Emitter × List Emitted} {declared'' : List Var}
    (hfirst : Follows types s declared first declared')
    (hrest : Follows types first.1 declared' rest declared'') :
  Follows types s declared (rest.1, first.2 ++ rest.2) declared'' :=
  ⟨hrest.1, hfirst.2.append hrest.2⟩

theorem Follows.after {code : List Emitted} {out : Emitter × List Emitted}
    (hlisted : Listed types s declared) (hcode : Quiet types s.owned code)
    (hout : Follows types s declared out declared') :
  Follows types s declared (out.1, code ++ out.2) declared' :=
  ⟨hout.1, (triple_quiet hlisted hcode).append hout.2⟩

theorem follows_quiet (hlisted : Listed types s declared) {out : Emitter × List Emitted}
    (hout : QuietFrom types s.owned s.nextId out) : Follows types s declared out declared := by
  obtain ⟨⟨howned, hnext⟩, hcode⟩ := hout
  rw [Follows, howned]
  refine ⟨⟨?_, ?_, ?_, ?_, ?_⟩, triple_quiet hlisted hcode⟩ <;> rw [howned]
  · exact hlisted.nodup
  · exact hlisted.dropped
  · exact hlisted.declared
  · exact hlisted.named
  · intro id hid
    exact Nat.lt_of_lt_of_le (hlisted.fresh id hid) hnext

theorem FitsTop.of_mem {x : Var} {type : Ty} {owns : Bool} (hfits : FitsTop types s declared x type owns)
    (hmem : x ∈ declared') : FitsTop types s declared' x type owns := by
  intro hdrop
  have hfits := hfits hdrop
  split_ifs at hfits ⊢ with howns
  · exact ⟨hmem, hfits.2⟩
  · exact hfits

/-- A new variable of the list. -/
theorem Listed.add (hlisted : Listed types s declared) {x : Var} {type : Ty} (hx : x ∈ declared)
    (hdropped : isDropped types type = true) (hnamed : x.isElement = false)
    (hfresh : ∀ id, x = .destructured id → id < s.nextId) :
  Listed types { s with owned := ownedLocalAdd types s.owned x type } declared
  := by
  have hvar : ∀ y ∈ vars (ownedLocalAdd types s.owned x type), y ∈ vars s.owned ∨ y = x := by
    intro y hy
    obtain hy | ⟨rfl, -, -⟩ := @mem_vars_record _ s _ _ _ true hy
    · exact .inl hy
    · exact .inr rfl
  refine ⟨nodup_ownedLocalAdd hlisted.nodup, ?_, ?_, ?_, ?_⟩
  · intro l hl
    dsimp only [ownedLocalAdd] at hl
    split_ifs at hl
    · exact hlisted.dropped l hl
    · obtain hl | hl := List.mem_append.mp hl
      · exact hlisted.dropped l hl
      · obtain rfl := List.mem_singleton.mp hl
        exact hdropped
  · intro y hy
    obtain hy | rfl := hvar y hy
    · exact hlisted.declared y hy
    · exact hx
  · intro y hy
    obtain hy | rfl := hvar y hy
    · exact hlisted.named y hy
    · exact hnamed
  · intro id hid
    obtain hid | rfl := hvar _ hid
    · exact hlisted.fresh id hid
    · exact hfresh id rfl

theorem mem_vars_ownedLocalAdd {x y : Var} {type : Ty} (hdrop : typeNeedsDrop types type = true) :
  y ∈ vars (ownedLocalAdd types K x type) ↔ y = x ∨ y ∈ vars K
  := by
  unfold ownedLocalAdd
  split_ifs with hold
  · simp only [hdrop, Bool.not_true, Bool.false_or] at hold
    constructor
    · exact .inr
    · rintro (rfl | hy)
      · exact ownedLocalContains_iff.mp hold
      · exact hy
  · simp [vars, or_comm]

/-- A variable gets a value at the top of a function. -/
theorem follows_give (hlisted : Listed types s declared) {x : Var} {type : Ty} {owns : Bool}
    (hfits : FitsTop types s declared x type owns) (hnamed : x.isElement = false)
    (hfresh : ∀ id, x = .destructured id → id < s.nextId) :
  Follows types s declared (s.record types true x type owns, giveCode types x type owns) declared
  := by
  cases hdrop : typeNeedsDrop types type with
  | false =>
    have hsame : s.record types true x type owns = s := by
      simp [Emitter.record, ownedLocalAdd, hdrop]
    rw [hsame, giveCode, hdrop]
    exact ⟨hlisted, triple_quiet hlisted allOf_nil⟩
  | true =>
    have hfits := hfits hdrop
    cases owns with
    | true =>
      refine ⟨hlisted.add hfits.1 hfits.2 hnamed hfresh, ?_⟩
      rw [giveCode, hdrop]
      refine Triple.act ?_ (Triple.nil fun _ h => h)
      intro h hmatches
      refine ⟨fun y hy => ?_, hmatches.declared⟩
      exact (or_congr_right (hmatches.owned y hy)).trans (mem_vars_ownedLocalAdd hdrop).symm
    | false =>
      have hquiet : Quiet types s.owned (giveCode types x type false) := by
        rw [giveCode, hdrop]
        exact allOf_singleton.mpr (all_act.mpr hfits)
      exact ⟨hlisted, triple_quiet hlisted hquiet⟩

theorem follows_declare (hlisted : Listed types s declared) {x : Var} {type : Ty} {owns : Bool}
    (hfits : FitsTop types s declared' x type owns) (hnamed : x.isElement = false)
    (hfresh : ∀ id, x = .destructured id → id < s.nextId) :
  Follows types s declared
    (s.record types true x type owns, declareCode true x ++ giveCode types x type owns) (declared ++ [x])
  := by
  have hmore : Listed types s (declared ++ [x]) :=
    { hlisted with declared := fun y hy => List.mem_append_left _ (hlisted.declared y hy) }
  have hgiven := follows_give hmore (hfits.of_mem (List.mem_append_right _ (List.mem_singleton_self x)))
    hnamed hfresh
  refine ⟨hgiven.1, Triple.act ?_ hgiven.2⟩
  intro h hmatches
  refine ⟨hmatches.owned, fun y hy => ?_⟩
  obtain hy | hy := List.mem_append.mp hy
  · exact .inr (hmatches.declared y hy)
  · exact .inl (List.mem_singleton.mp hy)

theorem emitBindings_follows (hlisted : Listed types s declared) {bindings : List Binding}
    (hbindings : ∀ binding ∈ bindings, typeNeedsDrop types binding.declaredType = true →
      isDropped types binding.declaredType = true) :
  Follows types s declared (emitBindings types true s bindings)
    (declared ++ bindings.map fun binding => .named binding.name)
  := by
  induction bindings generalizing s declared with
  | nil =>
    rw [List.map_nil, List.append_nil]
    exact ⟨hlisted, triple_quiet hlisted allOf_nil⟩
  | cons binding bindings ih =>
    obtain ⟨hbinding, hrest⟩ := List.forall_mem_cons.mp hbindings
    have hfits : FitsTop types s [.named binding.name] (.named binding.name) binding.declaredType true :=
      fun hdrop => ⟨List.mem_singleton_self _, hbinding hdrop⟩
    have hfirst := follows_declare hlisted hfits rfl (fun _ h => by cases h)
    rw [List.map_cons, List.append_cons]
    exact hfirst.then (ih hfirst.1 hrest)

/-- The name of a program's variable is that of no variable of the emitter. -/
theorem named_of_targetName {target : Expr} {x : Var} (hname : targetName target = some x) :
  x.isElement = false ∧ ∀ id, x = .destructured id → id < s.nextId
  := by
  obtain ⟨name, rfl⟩ : ∃ name, x = .named name := by
    cases target <;> simp only [targetName, Option.some.injEq, reduceCtorEq] at hname
    exact ⟨_, hname.symm⟩
  exact ⟨rfl, fun _ h => by cases h⟩

theorem emitTarget_follows (hlisted : Listed types s declared) {target : Expr} {owns : Bool}
    (htarget : ∀ x ∈ targetName target, FitsTop types s declared x target.checkedType owns) :
  Follows types s declared (emitTarget types true s target owns) declared
  := by
  unfold emitTarget
  cases hname : targetName target with
  | some x =>
    obtain ⟨hnamed, hfresh⟩ := named_of_targetName (s := s) hname
    exact follows_give hlisted (htarget x hname) hnamed hfresh
  | none => exact ⟨hlisted, triple_quiet hlisted allOf_nil⟩

theorem vars_ownedLocalRemove (x : Var) : vars (ownedLocalRemove K x) = (vars K).erase x := by
  rw [vars, ownedLocalRemove, vars, List.erase_eq_eraseP', List.eraseP_map]
  rfl

/-- A freed variable is taken from the list. -/
theorem follows_free (hlisted : Listed types s declared) (x : Var) :
  Follows types s declared ({ s with owned := ownedLocalRemove s.owned x }, [.act (.free x)]) declared
  := by
  have hsub : (vars (ownedLocalRemove s.owned x)).Sublist (vars s.owned) :=
    sublist_ownedLocalRemove.map _
  refine ⟨⟨hlisted.nodup.sublist hsub, ?_, ?_, ?_, ?_⟩, Triple.act ?_ (Triple.nil fun _ h => h)⟩
  · intro l hl
    exact hlisted.dropped l (sublist_ownedLocalRemove.subset hl)
  · intro y hy
    exact hlisted.declared y (hsub.subset hy)
  · intro y hy
    exact hlisted.named y (hsub.subset hy)
  · intro id hid
    exact hlisted.fresh id (hsub.subset hid)
  · intro h hmatches
    refine ⟨fun y hy => ?_, hmatches.declared⟩
    rw [vars_ownedLocalRemove, hlisted.nodup.mem_erase_iff, ← hmatches.owned y hy]
    exact and_comm

theorem emitStmt_follows (hlisted : Listed types s declared) {st : Stmt}
    (htidy : TidyTop types s (declared ++ declaredBy s st) st) :
  Follows types s declared (emitStmt types true s st) (declared ++ declaredBy s st)
  := by
  -- a statement that is emitted as in a block declares nothing
  have hsame : ∀ out, out = emitStmt types false s st → declaredBy s st = [] →
      TidyStmt types (vars s.owned) st → Follows types s declared out (declared ++ declaredBy s st) := by
    rintro out rfl hnone htidy
    rw [hnone, List.append_nil]
    exact follows_quiet hlisted (emitStmt_quiet hlisted.fresh ⟨rfl, Nat.le_refl _⟩ htidy)
  cases st with
  | var name type value =>
    obtain ⟨hvalue, hfits⟩ := htidy
    rw [emitStmt, List.append_assoc]
    exact Follows.after hlisted (quiet_value hvalue) (follows_declare hlisted hfits rfl fun _ h => by cases h)
  | assign op target value inferred =>
    cases inferred with
    | some type =>
      obtain ⟨hvalue, hfits⟩ := htidy
      rw [emitStmt, declaredBy]
      cases hname : targetName target with
      | some x =>
        obtain ⟨hnamed, hfresh⟩ := named_of_targetName (s := s) hname
        dsimp only
        rw [List.append_assoc]
        exact Follows.after hlisted (quiet_value hvalue)
          (follows_declare hlisted (hfits x hname) hnamed hfresh)
      | none =>
        rw [Option.toList_none, List.append_nil]
        exact ⟨hlisted, triple_quiet hlisted (quiet_value hvalue)⟩
    | none =>
      obtain ⟨htarget, hvalue, hfits⟩ := htidy
      have hnone : declared ++ declaredBy s (.assign op target value none) = declared := List.append_nil _
      rw [emitStmt_assign]
      rw [hnone] at hfits ⊢
      have hevaluated : Quiet types s.owned (evaluate target :: value.toList.map evaluate) :=
        allOf_cons.mpr ⟨htarget.quiet, quiet_value hvalue⟩
      apply Follows.after hlisted hevaluated
      cases op with
      | incr => exact ⟨hlisted, triple_quiet hlisted allOf_nil⟩
      | set => exact emitTarget_follows hlisted (hfits (by simp))
      | addSet => exact emitTarget_follows hlisted (hfits (by simp))
      | subSet => exact emitTarget_follows hlisted (hfits (by simp))
  | destructure fields value =>
    obtain ⟨hvalue, hfits, hfields⟩ := htidy
    have hlater : Listed types { s with nextId := s.nextId + 1 } declared :=
      { hlisted with fresh := fun id hid => Nat.lt_succ_of_lt (hlisted.fresh id hid) }
    have hwhole : Follows types { s with nextId := s.nextId + 1 } declared _ _ :=
      follows_declare hlater (s := { s with nextId := s.nextId + 1 }) hfits rfl
        (by rintro id ⟨⟩; exact Nat.lt_succ_self _)
    have hevaluated : Quiet types s.owned [evaluate value] :=
      allOf_singleton.mpr hvalue.quiet
    have hall := Follows.after hlisted hevaluated
      (hwhole.then (emitBindings_follows hwhole.1 hfields))
    rw [declaredBy, List.append_cons]
    exact hall
  | free expr =>
    have hnone : declared ++ declaredBy s (.free expr) = declared := List.append_nil _
    rw [emitStmt, hnone]
    have hevaluated : Quiet types s.owned [evaluate expr] :=
      allOf_singleton.mpr (Stays.quiet htidy)
    cases targetName expr with
    | some x => exact Follows.after hlisted hevaluated (follows_free hlisted x)
    | none => exact ⟨hlisted, triple_quiet hlisted hevaluated⟩
  | exprStmt expr => exact hsame _ rfl rfl htidy
  | ret value => exact hsame _ rfl rfl htidy
  | throw value => exact hsame _ rfl rfl htidy
  | ifElse condition thenBlock elxBranches elseBlock => exact hsame _ rfl rfl htidy
  | loop kind args elementName body => exact hsame _ rfl rfl htidy
  | pass => exact hsame _ rfl rfl htidy
  | fn name params returnType body => exact hsame _ rfl rfl htidy
  | aggStep value => exact hsame _ rfl rfl htidy

theorem emitBlock_follows (hlisted : Listed types s declared) {sts : List Stmt}
    (htidy : TidyFrom types s declared sts) :
  ∃ declared', Follows types s declared (emitBlock types true s sts) declared'
  := by
  induction sts generalizing s declared with
  | nil => exact ⟨declared, hlisted, triple_quiet hlisted allOf_nil⟩
  | cons st sts ih =>
    obtain ⟨hst, hsts⟩ := htidy
    have hfirst := emitStmt_follows hlisted hst
    obtain ⟨declared', hrest⟩ := ih hfirst.1 hsts
    exact ⟨declared', hfirst.then hrest⟩

end

section

theorem evaluate_of_flowExpr {e : Expr} (h : flowExpr e = []) : evaluate e = .branch [[]] := by
  rw [evaluate, h]
  rfl

theorem stays_of_flowExpr {e : Expr} (h : flowExpr e = []) : Stays e := by
  rw [Stays, evaluate_of_flowExpr h]
  simp

theorem tidy_joined : Tidy [] [] joined := by
  refine ⟨⟨?_, ?_⟩, ⟨?_, ⟨?_, trivial⟩, trivial, trivial⟩, trivial⟩
  · rintro v ⟨⟩
    exact stays_of_flowExpr rfl
  · intro _
    exact ⟨by simp [declaredBy], rfl⟩
  · exact stays_of_flowExpr rfl
  · rintro v ⟨⟩
    exact stays_of_flowExpr rfl

end

end Caster.OwnedLocals
