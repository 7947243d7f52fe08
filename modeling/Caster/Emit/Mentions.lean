import Caster.Emit.TypeOrder

/-!
# The types a program mentions

What the collector keeps, in terms of the types that occur in the types it meets.
-/

namespace Caster

/-- The types the collector reaches in a type, outermost first. -/
def typeMentions : Ty → List Ty
  | .unknown | .ARR .unknown | .SHAPE => []
  | .REF target => typeMentions target
  | .TSK target => .TSK target :: typeMentions target
  | .FN input output => .FN input output :: (typeMentions input ++ typeMentions output)
  | .ARR elem => .ARR elem :: typeMentions elem
  | .MAP key value => .MAP key value :: (typeMentions key ++ typeMentions value)
  | type => [type]

/-- The types of a use. -/
def TypeUse.mentions : TypeUse → List Ty
  | .expr type | .storage type | .result type => typeMentions type
  | .openData | .request => []

/-- The types a program mentions, in the order of the collector. -/
def Program.mentions (p : Program) (types : TypeTable) : List Ty := (p.uses types).flatMap TypeUse.mentions

/-! ### What a type mentions -/

/-- What is mentioned in a type mentions nothing that the type does not. -/
theorem typeMentions_subset {t u : Ty} (h : t ∈ typeMentions u) : typeMentions t ⊆ typeMentions u := by
  fun_induction typeMentions u with
  | case1 => cases h
  | case2 => cases h
  | case3 => cases h
  | case4 target ih => exact ih h
  | case5 target ih =>
    rcases List.mem_cons.mp h with rfl | h
    · simp [typeMentions]
    · exact List.Subset.trans (ih h) (List.subset_cons_self _ _)
  | case6 input output ih₁ ih₂ =>
    rcases List.mem_cons.mp h with rfl | h
    · simp [typeMentions]
    · rcases List.mem_append.mp h with h | h
      · exact List.Subset.trans (ih₁ h) (by simp)
      · exact List.Subset.trans (ih₂ h) (by simp)
  | case7 elem helem ih =>
    rcases List.mem_cons.mp h with rfl | h
    · simp [typeMentions]
    · exact List.Subset.trans (ih h) (List.subset_cons_self _ _)
  | case8 key value ih₁ ih₂ =>
    rcases List.mem_cons.mp h with rfl | h
    · simp [typeMentions]
    · rcases List.mem_append.mp h with h | h
      · exact List.Subset.trans (ih₁ h) (by simp)
      · exact List.Subset.trans (ih₂ h) (by simp)
  | case9 type hunknown harr hshape href htask hfn harr' hmap =>
    rw [List.mem_singleton.mp h]
    cases type <;> simp_all [typeMentions]

/-! ### The collector -/

/-- What the collector notes for a type that it reaches. -/
def addMention (types : TypeTable) (ctx : EmitCtx) : Ty → EmitCtx
  | .STR => { ctx with usesStr := true }
  | .OBJ | .OPEN => { ctx with usesOpen := true, usesStr := true }
  | .named name =>
    if isOpenStructType types (.named name) then
      { ctx with usesOpen := true, usesMap := true, usesStr := true }
    else ctx
  | .TSK _ => { ctx with usesReq := true, usesStr := true }
  | .FN input output => { ctx with fnTypes := vecPushNew ctx.fnTypes (.FN input output) }
  | .ARR elem => { ctx with arrayTypes := vecPushNew ctx.arrayTypes (.ARR elem) }
  | .MAP key value => { ctx with usesMap := true, mapTypes := vecPushNew ctx.mapTypes (.MAP key value) }
  | _ => ctx

/-- The use of a type notes all the types it reaches. -/
theorem addTypeUse_eq_foldl (types : TypeTable) (ctx : EmitCtx) (type : Ty) :
  addTypeUse types ctx type = (typeMentions type).foldl (addMention types) ctx
  := by
  fun_induction addTypeUse types ctx type with
  | case1 => rfl
  | case2 => rfl
  | case3 => rfl
  | case4 => rfl
  | case5 => rfl
  | case6 => rfl
  | case7 ctx name hopen => simp [typeMentions, addMention, hopen]
  | case8 ctx name hopen => simp [typeMentions, addMention, hopen]
  | case9 ctx target ih => rw [ih, typeMentions]
  | case10 ctx target ih => rw [ih, typeMentions, List.foldl_cons, addMention]
  | case11 ctx input output ctx' ih₁ ih₂ =>
    rw [ih₂, ih₁, typeMentions, List.foldl_cons, List.foldl_append, addMention]
  | case12 ctx elem helem ih => rw [ih, typeMentions, List.foldl_cons, addMention]; exact helem
  | case13 ctx key value ctx' ih₁ ih₂ =>
    rw [ih₂, ih₁, typeMentions, List.foldl_cons, List.foldl_append, addMention]
  | case14 ctx type =>
    cases type
    all_goals simp_all [typeMentions, addMention]

/-- The types that are kept once each. -/
theorem foldl_addMention_types (types : TypeTable) (ctx : EmitCtx) (l : List Ty) :
  (l.foldl (addMention types) ctx).fnTypes = (l.filter isFnType).foldl vecPushNew ctx.fnTypes ∧
    (l.foldl (addMention types) ctx).arrayTypes = (l.filter isArrayType).foldl vecPushNew ctx.arrayTypes ∧
    (l.foldl (addMention types) ctx).mapTypes = (l.filter isMapType).foldl vecPushNew ctx.mapTypes
  := by
  induction l generalizing ctx with
  | nil => exact ⟨rfl, rfl, rfl⟩
  | cons t l ih =>
    obtain ⟨hfn, harr, hmap⟩ := ih (addMention types ctx t)
    rw [List.foldl_cons, hfn, harr, hmap]
    cases t with
    | named name =>
      simp only [addMention]
      split_ifs
      · simp [isFnType, isArrayType, isMapType]
      · simp [isFnType, isArrayType, isMapType]
    | _ => simp [addMention, isFnType, isArrayType, isMapType, List.filter_cons]

/-- The types a list of uses mentions are kept once each. -/
theorem foldl_addUse_types (types : TypeTable) (ctx : EmitCtx) (uses : List TypeUse) :
  (uses.foldl (addUse types) ctx).fnTypes =
      ((uses.flatMap TypeUse.mentions).filter isFnType).foldl vecPushNew ctx.fnTypes ∧
    (uses.foldl (addUse types) ctx).arrayTypes =
      ((uses.flatMap TypeUse.mentions).filter isArrayType).foldl vecPushNew ctx.arrayTypes ∧
    (uses.foldl (addUse types) ctx).mapTypes =
      ((uses.flatMap TypeUse.mentions).filter isMapType).foldl vecPushNew ctx.mapTypes
  := by
  induction uses generalizing ctx with
  | nil => exact ⟨rfl, rfl, rfl⟩
  | cons use uses ih =>
    obtain ⟨hfn, harr, hmap⟩ := ih (addUse types ctx use)
    obtain ⟨hfn', harr', hmap'⟩ := foldl_addMention_types types ctx use.mentions
    rw [List.foldl_cons, hfn, harr, hmap]
    simp only [List.flatMap_cons, List.filter_append, List.foldl_append, ← hfn', ← harr', ← hmap']
    cases use with
    | openData => exact ⟨rfl, rfl, rfl⟩
    | request => exact ⟨rfl, rfl, rfl⟩
    | _ => simp [addUse, addTypeUse_eq_foldl, TypeUse.mentions]

/-- The runtimes that are printed stay so, and that of open data comes with that of texts. -/
structure Extends (ctx ctx' : EmitCtx) : Prop where
  str : ctx.usesStr → ctx'.usesStr
  openData : ctx.usesOpen → ctx'.usesOpen
  req : ctx.usesReq → ctx'.usesReq
  openStr : (ctx.usesOpen → ctx.usesStr) → ctx'.usesOpen → ctx'.usesStr

theorem Extends.refl (ctx : EmitCtx) : Extends ctx ctx := ⟨id, id, id, id⟩

theorem Extends.trans {ctx₁ ctx₂ ctx₃ : EmitCtx} (h : Extends ctx₁ ctx₂) (h' : Extends ctx₂ ctx₃) :
  Extends ctx₁ ctx₃
  := ⟨h'.str ∘ h.str, h'.openData ∘ h.openData, h'.req ∘ h.req, h'.openStr ∘ h.openStr⟩

theorem extends_foldl {α : Type} {f : EmitCtx → α → EmitCtx} (h : ∀ ctx a, Extends ctx (f ctx a))
    (ctx : EmitCtx) (l : List α) :
  Extends ctx (l.foldl f ctx)
  := by
  induction l generalizing ctx with
  | nil => exact Extends.refl ctx
  | cons a l ih => exact (h ctx a).trans (ih _)

theorem extends_addMention (types : TypeTable) (ctx : EmitCtx) (t : Ty) :
  Extends ctx (addMention types ctx t)
  := by
  fun_cases addMention types ctx t
  all_goals constructor <;> simp_all

theorem extends_addUse (types : TypeTable) (ctx : EmitCtx) (use : TypeUse) : Extends ctx (addUse types ctx use) := by
  cases use with
  | openData => constructor <;> simp [addUse]
  | request => constructor <;> simp [addUse]
  | _ =>
    simp only [addUse, addTypeUse_eq_foldl]
    exact extends_foldl (extends_addMention types) ctx _

/-- The runtime of a type is printed. -/
def RuntimeOf (types : TypeTable) (ctx : EmitCtx) : Ty → Prop
  | .STR => ctx.usesStr
  | .OBJ | .OPEN => ctx.usesOpen
  | .named name => isOpenStructType types (.named name) → ctx.usesOpen
  | .TSK _ => ctx.usesReq
  | _ => True

theorem RuntimeOf.extends {types : TypeTable} {ctx ctx' : EmitCtx} {t : Ty} (h : RuntimeOf types ctx t)
    (hctx : Extends ctx ctx') :
  RuntimeOf types ctx' t
  := by
  cases t with
  | STR => exact hctx.str h
  | OBJ => exact hctx.openData h
  | OPEN => exact hctx.openData h
  | named name => exact fun hopen => hctx.openData (h hopen)
  | TSK target => exact hctx.req h
  | _ => trivial

theorem runtimeOf_addMention (types : TypeTable) (ctx : EmitCtx) (t : Ty) :
  RuntimeOf types (addMention types ctx t) t
  := by
  cases t with
  | named name =>
    intro hopen
    simp [addMention, hopen]
  | _ => simp [RuntimeOf, addMention]

/-- A fold over a list has what each of its steps brings about and the others keep. -/
theorem runtimeOf_foldl {α : Type} {types : TypeTable} {f : EmitCtx → α → EmitCtx} (mentions : α → List Ty)
    (hext : ∀ ctx a, Extends ctx (f ctx a)) (hf : ∀ ctx a, ∀ t ∈ mentions a, RuntimeOf types (f ctx a) t)
    (ctx : EmitCtx) (l : List α) :
  ∀ t ∈ l.flatMap mentions, RuntimeOf types (l.foldl f ctx) t
  := by
  induction l generalizing ctx with
  | nil => simp
  | cons a l ih =>
    intro t ht
    rw [List.flatMap_cons, List.mem_append] at ht
    rw [List.foldl_cons]
    rcases ht with ht | ht
    · exact (hf ctx a t ht).extends (extends_foldl hext _ l)
    · exact ih (f ctx a) t ht

theorem runtimeOf_addUse (types : TypeTable) (ctx : EmitCtx) (use : TypeUse) :
  ∀ t ∈ use.mentions, RuntimeOf types (addUse types ctx use) t
  := by
  have hfold : ∀ l : List Ty, ∀ t ∈ l, RuntimeOf types (l.foldl (addMention types) ctx) t := by
    intro l t ht
    apply runtimeOf_foldl (fun t => [t]) (extends_addMention types) _ ctx l t
    · simpa using ht
    · intro ctx' t' u hu
      rw [List.mem_singleton.mp hu]
      exact runtimeOf_addMention types ctx' t'
  intro t ht
  cases use with
  | openData => cases ht
  | request => cases ht
  | _ =>
    simp only [addUse, addTypeUse_eq_foldl]
    exact hfold _ t ht

/-! ### The collection of a program -/

/-- The types of a kind that a program mentions, once each and in their order. -/
theorem collect_types (types : TypeTable) (p : Program) :
  (collect types p).fnTypes = ((p.mentions types).filter isFnType).foldl vecPushNew [] ∧
    (collect types p).arrayTypes = ((p.mentions types).filter isArrayType).foldl vecPushNew [] ∧
    (collect types p).mapTypes = ((p.mentions types).filter isMapType).foldl vecPushNew []
  := foldl_addUse_types types _ (p.uses types)

/-- The runtimes of the types that a program mentions are printed. -/
theorem runtimeOf_collect (types : TypeTable) (p : Program) :
  ∀ t ∈ p.mentions types, RuntimeOf types (collect types p) t
  := runtimeOf_foldl TypeUse.mentions (extends_addUse types) (runtimeOf_addUse types) _ (p.uses types)

/-- The runtime of open data comes with that of texts. -/
theorem collect_usesStr (types : TypeTable) (p : Program) :
  (collect types p).usesOpen → (collect types p).usesStr
  := by
  apply (extends_foldl (extends_addUse types) _ (p.uses types)).openStr
  simp

/-! ### Types that are kept once -/

theorem mem_foldl_vecPushNew {v l : List Ty} {t : Ty} : t ∈ l.foldl vecPushNew v ↔ t ∈ v ∨ t ∈ l := by
  induction l generalizing v with
  | nil => simp
  | cons u l ih =>
    rw [List.foldl_cons, ih, vecPushNew]
    split_ifs with hu
    · simp only [List.mem_cons]
      constructor
      · rintro (h | h)
        · exact Or.inl h
        · exact Or.inr (Or.inr h)
      · rintro (h | rfl | h)
        · exact Or.inl h
        · exact Or.inl hu
        · exact Or.inr h
    · simp [or_assoc]

theorem nodup_foldl_vecPushNew {v l : List Ty} (hv : v.Nodup) : (l.foldl vecPushNew v).Nodup := by
  induction l generalizing v with
  | nil => exact hv
  | cons u l ih =>
    apply ih
    rw [vecPushNew]
    split_ifs with hu
    · exact hv
    · exact List.nodup_append.mpr ⟨hv, List.nodup_singleton u, by
        rintro a ha b hb rfl
        exact hu (List.mem_singleton.mp hb ▸ ha)⟩

theorem foldl_vecPushNew_append (v l : List Ty) : ∃ added, l.foldl vecPushNew v = v ++ added := by
  induction l generalizing v with
  | nil => exact ⟨[], (List.append_nil v).symm⟩
  | cons u l ih =>
    obtain ⟨added, hadded⟩ := ih (vecPushNew v u)
    rw [List.foldl_cons, hadded, vecPushNew]
    split_ifs
    · exact ⟨added, rfl⟩
    · exact ⟨u :: added, List.append_assoc _ _ _⟩

/-- A type is mentioned before another one is. -/
def MentionedBefore (l : List Ty) (t u : Ty) : Prop := ∃ l₁ l₂, l = l₁ ++ l₂ ∧ t ∈ l₁ ∧ u ∉ l₁

/-- The types that are kept before one are those that are mentioned before it is. -/
theorem mem_before_iff {l before behind : List Ty} {u : Ty}
    (h : l.foldl vecPushNew [] = before ++ u :: behind) (t : Ty) :
  t ∈ before ↔ MentionedBefore l t u
  := by
  have hnodup : (before ++ u :: behind).Nodup := h ▸ nodup_foldl_vecPushNew List.nodup_nil
  have hu : u ∉ before := fun hmem => (List.nodup_append.mp hnodup).2.2 u hmem u List.mem_cons_self rfl
  have hsplit : ∀ l₁ l₂, l = l₁ ++ l₂ → ∃ added, l₁.foldl vecPushNew [] ++ added = before ++ u :: behind := by
    rintro l₁ l₂ rfl
    obtain ⟨added, hadded⟩ := foldl_vecPushNew_append (l₁.foldl vecPushNew []) l₂
    exact ⟨added, by rw [← hadded, ← List.foldl_append, h]⟩
  have hkept : ∀ (l₁ : List Ty) (t : Ty), t ∈ l₁.foldl vecPushNew [] ↔ t ∈ l₁ := by
    simp [mem_foldl_vecPushNew]
  constructor
  · intro ht
    have hmem : u ∈ l := by
      rw [← hkept l u, h]
      simp
    obtain ⟨l₁, l₂, rfl, hl₁⟩ := List.eq_append_cons_of_mem hmem
    refine ⟨l₁, u :: l₂, rfl, ?_, hl₁⟩
    obtain ⟨added, hadded⟩ := hsplit (l₁ ++ [u]) l₂ (by simp)
    have hpush : (l₁ ++ [u]).foldl vecPushNew [] = l₁.foldl vecPushNew [] ++ [u] := by
      rw [List.foldl_append, List.foldl_cons, List.foldl_nil, vecPushNew, if_neg]
      rwa [hkept]
    rw [hpush, List.append_assoc] at hadded
    have hbehind : u ∉ behind := (List.nodup_cons.mp (List.nodup_append.mp hnodup).2.1).1
    obtain ⟨hbefore, _⟩ := (List.append_cons_inj_of_notMem hu hbehind).mp hadded.symm
    rwa [← hkept, ← hbefore]
  · rintro ⟨l₁, l₂, hl, ht, hu₁⟩
    obtain ⟨added, hadded⟩ := hsplit l₁ l₂ hl
    rcases List.append_eq_append_iff.mp hadded with ⟨rest, hrest, _⟩ | ⟨rest, hrest, hbehind⟩
    · rw [hrest]
      exact List.mem_append_left _ ((hkept l₁ t).mpr ht)
    · cases rest with
      | nil =>
        rw [List.append_nil] at hrest
        rw [← hrest]
        exact (hkept l₁ t).mpr ht
      | cons v rest =>
        rw [List.cons_append, List.cons.injEq] at hbehind
        obtain ⟨rfl, _⟩ := hbehind
        refine absurd ((hkept l₁ u).mp ?_) hu₁
        rw [hrest]
        simp

end Caster
