import Caster.Emit.Mentions

/-!
# The order of type declarations

When each type of an emitted file is declared before it is mentioned, and complete before its
layout is used.
-/

namespace Caster

open DeclarationOrder

/-- The type under some references. -/
def refBase : Ty → Ty
  | .REF target => refBase target
  | type => type

/-- There is a C type for a type: the tasks are those of responses, the keys of maps are
texts, and the elements of arrays are known. -/
def hasTypeDecl (type : Ty) : Bool :=
  match refBase type with
  | .TSK target => .TSK target = httpResTask
  | .MAP key value => isStrMap (.MAP key value)
  | .ARR elem => elem ≠ .unknown
  | _ => true

/-- The values of a type have a layout. -/
def hasLayout (types : TypeTable) (type : Ty) : Bool := isRefType type || ctype types type ≠ .void

/-- A value of a type can be stored behind the declarations of all types. -/
def storable (types : TypeTable) (type : Ty) : Bool := hasTypeDecl type && hasLayout types type

/-- A type is a fixed `MAP` that has fields in C. -/
def isClosedStruct (types : TypeTable) (type : Ty) : Bool :=
  isStructType types type && !isOpenStructType types type

/-- The types of a program suit the order of their declarations: function types mention no
arrays and maps and only function types that are mentioned before, arrays hold no maps and no
references to arrays, and the fixed `MAP`s in a fixed `MAP` are declared before it. -/
structure InOrder (types : TypeTable) (p : Program) : Prop where
  fns : ∀ input output, .FN input output ∈ p.mentions types → ∀ part ∈ [output, input],
    hasTypeDecl part ∧ ¬ isArrayType (refBase part) ∧ ¬ isMapType (refBase part) ∧
      (isFnType (refBase part) → MentionedBefore (p.mentions types) (refBase part) (.FN input output))
  arrays : ∀ elem, .ARR elem ∈ p.mentions types →
    storable types elem ∧ ¬ isMapType (refBase elem) ∧ (isRefType elem → ¬ isArrayType (refBase elem))
  maps : ∀ value, .MAP .STR value ∈ p.mentions types → storable types value
  fields : ∀ before struct behind, closedStructs types = before ++ struct :: behind →
    ∀ field ∈ struct.2, storable types field.declaredType ∧
      (∀ name, field.declaredType = .named name → isClosedStruct types (.named name) →
        name ∈ before.map Prod.fst) ∧
      ∀ target, field.declaredType = .REF target → hasLayout types target
  storages : ∀ type, .storage type ∈ p.uses types → storable types type
  results : ∀ type, .result type ∈ p.uses types → hasTypeDecl type

/-- A fixed `MAP` has a field that holds another one by value. -/
def HoldsByValue (types : TypeTable) (outer inner : String) : Prop :=
  ∃ fields, (outer, fields) ∈ closedStructs types ∧ isClosedStruct types (.named inner) ∧
    ∃ field ∈ fields, field.declaredType = .named inner

/-! ### Scopes -/

variable {types : TypeTable} {ctx : EmitCtx} {s : DeclarationOrder.Scope CType} {ts : List Ty} {structs : List String}

theorem mentionOf_eq (types : TypeTable) (type : Ty) : mentionOf types type = (ctype types (refBase type)).base := by
  induction type with
  | REF target ih => exact ih
  | _ => rfl

/-- The names that are declared and complete behind the runtimes and the forward declarations,
the declarations of some types, and the definitions of some fixed `MAP`s. -/
structure ScopeOf (types : TypeTable) (ctx : EmitCtx) (s : DeclarationOrder.Scope CType) (ts : List Ty)
    (structs : List String) : Prop where
  declared : ∀ n, n ∈ s.declared ↔ n ∈ headerScope.declared ∨ (n = .FLX_STR ∧ ctx.usesStr) ∨
    (n ∈ [CType.FLX_OBJ, .FLX_OBJARR, .FLX_OBJMAP] ∧ ctx.usesOpen) ∨
    (∃ struct ∈ closedStructs types, n = .handle (.named struct.1)) ∨
    (n = .handle httpResTask ∧ ctx.usesReq) ∨ ∃ t ∈ ts, n = .handle t
  complete : ∀ n, n ∈ s.complete ↔ n ∈ headerScope.complete ∨ (n = .FLX_STR ∧ ctx.usesStr) ∨
    (n ∈ [CType.FLX_OBJ, .FLX_OBJARR, .FLX_OBJMAP] ∧ ctx.usesOpen) ∨
    (n = .handle httpResTask ∧ ctx.usesReq) ∨ (∃ t ∈ ts, n = .handle t) ∨
    ∃ name ∈ structs, n = .handle (.named name)

/-- The lines before the function types. -/
def runtimeLines (types : TypeTable) (ctx : EmitCtx) : List CLine :=
  emitStrRuntime ctx ++ emitOpenRuntime ctx ++ emitStructForwards types ++ emitTaskTypes ctx

theorem mem_structForwards {n : CType} : n ∈ (emitStructForwards types).flatMap Line.declares ↔
    ∃ struct ∈ closedStructs types, n = .handle (.named struct.1)
  := by
  simp only [emitStructForwards, closedStructs, List.mem_flatMap, List.mem_filterMap]
  constructor
  · rintro ⟨line, ⟨⟨name, kind⟩, hinfo, hline⟩, hn⟩
    rcases kind with ⟨target, value⟩ | ⟨fields, _ | _⟩
    · cases hline
    · cases List.mem_singleton.mp hline
      exact ⟨(name, fields), ⟨_, hinfo, rfl⟩, List.mem_singleton.mp hn⟩
    · cases List.mem_singleton.mp hline
      cases hn
  · rintro ⟨struct, ⟨⟨name, kind⟩, hinfo, hstruct⟩, rfl⟩
    rcases kind with ⟨target, value⟩ | ⟨fields, _ | _⟩
    · cases hstruct
    · cases hstruct
      exact ⟨_, ⟨_, hinfo, List.mem_singleton_self _⟩, List.mem_singleton_self _⟩
    · cases hstruct

theorem structForwards_completes : (emitStructForwards types).flatMap Line.completes = [] := by
  simp only [emitStructForwards, List.flatMap_eq_nil_iff, List.mem_flatMap]
  rintro line ⟨⟨name, kind⟩, _, hline⟩
  rcases kind with ⟨target, value⟩ | ⟨fields, _ | _⟩
  · cases hline
  · cases List.mem_singleton.mp hline
    rfl
  · cases List.mem_singleton.mp hline
    rfl

theorem scopeOf_runtimeLines (types : TypeTable) (ctx : EmitCtx) :
  ScopeOf types ctx (headerScope.behindAll (runtimeLines types ctx)) [] []
  := by
  constructor
  · intro n
    simp only [behindAll_eq, runtimeLines, List.flatMap_append, List.mem_append, mem_structForwards]
    cases hstr : ctx.usesStr <;> cases hopen : ctx.usesOpen <;> cases hreq : ctx.usesReq <;>
      simp [emitStrRuntime, emitOpenRuntime, emitTaskTypes, hstr, hopen, hreq, or_assoc]
  · intro n
    simp only [behindAll_eq, runtimeLines, List.flatMap_append, List.mem_append, structForwards_completes]
    cases hstr : ctx.usesStr <;> cases hopen : ctx.usesOpen <;> cases hreq : ctx.usesReq <;>
      simp [emitStrRuntime, emitOpenRuntime, emitTaskTypes, hstr, hopen, hreq, or_assoc, or_left_comm]

/-- The scope behind the declarations of some types. -/
theorem ScopeOf.behind_types (h : ScopeOf types ctx s ts structs) (parts : Ty → List Ty) (us : List Ty) :
  ScopeOf types ctx (s.behindAll (us.map (typeLine types parts))) (ts ++ us) structs
  := by
  constructor
  · intro n
    simp only [behindAll_eq, List.mem_append, h.declared, typeLine, List.flatMap_map, or_assoc, or_and_right,
      exists_or]
    simp [List.mem_flatMap]
  · intro n
    simp only [behindAll_eq, List.mem_append, h.complete, typeLine, List.flatMap_map, or_assoc, or_and_right,
      exists_or]
    simp [List.mem_flatMap, or_comm, or_left_comm]

/-- The scope behind the definitions of some fixed `MAP`s. -/
theorem ScopeOf.behind_structs (h : ScopeOf types ctx s ts structs) (defs : List (String × List Field)) :
  ScopeOf types ctx (s.behindAll (defs.map (structDef types))) ts (structs ++ defs.map Prod.fst)
  := by
  constructor
  · intro n
    simp only [behindAll_eq, List.mem_append, h.declared, structDef, List.flatMap_map]
    simp [List.mem_flatMap]
  · intro n
    simp only [behindAll_eq, List.mem_append, h.complete, structDef, List.flatMap_map, or_assoc, or_and_right,
      exists_or]
    simp [List.mem_flatMap]

/-! ### Names in a scope -/

theorem refBase_ne_ref (type target : Ty) : refBase type ≠ .REF target := by
  induction type with
  | REF inner ih => exact ih
  | _ => exact nofun

theorem refBase_of_not_ref {type : Ty} (h : ¬ isRefType type) : refBase type = type := by
  cases type with
  | REF target => exact absurd rfl h
  | _ => rfl

/-- Types that have declarations of their own. -/
def IsDeclared (t : Ty) : Prop := isFnType t ∨ isArrayType t ∨ isMapType t

/-- A type that is no reference has a name behind the declarations of some types. -/
def DeclaredIn (ts : List Ty) : Ty → Prop
  | .TSK target => .TSK target = httpResTask
  | .FN input output => .FN input output ∈ ts
  | .ARR elem => .ARR elem ∈ ts
  | .MAP key value => .MAP key value ∈ ts
  | _ => True

theorem DeclaredIn.mono {ts' : List Ty} {t : Ty} (h : DeclaredIn ts t) (hsub : ∀ u ∈ ts, u ∈ ts') :
  DeclaredIn ts' t
  := by
  cases t with
  | TSK target => exact h
  | FN input output => exact hsub _ h
  | ARR elem => exact hsub _ h
  | MAP key value => exact hsub _ h
  | _ => trivial

theorem mem_closedStructs {name : String} : (∃ struct ∈ closedStructs types, struct.1 = name) ↔
    ∃ info ∈ types, info.name = name ∧ ∃ fields, info.kind = .struct fields false
  := by
  simp only [closedStructs, List.mem_filterMap]
  constructor
  · rintro ⟨struct, ⟨⟨name, kind⟩, hinfo, hstruct⟩, rfl⟩
    rcases kind with ⟨target, value⟩ | ⟨fields, _ | _⟩
    · cases hstruct
    · cases hstruct
      exact ⟨_, hinfo, rfl, fields, rfl⟩
    · cases hstruct
  · rintro ⟨⟨name, kind⟩, hinfo, rfl, fields, rfl⟩
    exact ⟨(name, fields), ⟨_, hinfo, rfl⟩, rfl⟩

/-- A type is a fixed `MAP` with fields when its name is that of one. -/
theorem isClosedStruct_iff (hdistinct : DistinctNames types) {name : String} :
  isClosedStruct types (.named name) ↔ ∃ struct ∈ closedStructs types, struct.1 = name
  := by
  rw [mem_closedStructs]
  simp only [isClosedStruct, isStructType, isOpenStructType, structOf]
  constructor
  · intro h
    cases hfind : typeFind types name with
    | none => simp [hfind] at h
    | some info =>
      have hmem : info ∈ types := List.mem_of_find?_eq_some hfind
      have hname : info.name = name := by simpa using List.find?_some hfind
      obtain ⟨infoName, ⟨target, value⟩ | ⟨fields, _ | _⟩⟩ := info
      · simp [hfind] at h
      · exact ⟨_, hmem, hname, fields, rfl⟩
      · simp [hfind] at h
  · rintro ⟨⟨infoName, kind⟩, hinfo, rfl, fields, rfl⟩
    have hfind := hdistinct.typeFind hinfo
    simp only at hfind
    simp [hfind]

theorem ctype_named (types : TypeTable) (name : String) : ctype types (.named name) =
    if isOpenStructType types (.named name) then .FLX_OBJMAP
    else if isClosedStruct types (.named name) then .handle (.named name) else .void
  := by
  rw [ctype]
  split_ifs with hopen hstruct hclosed hclosed
  · rfl
  · rfl
  · simp [isClosedStruct, hstruct, hopen] at hclosed
  · simp [isClosedStruct, hstruct] at hclosed
  · rfl

/-- The name of a type is in a scope when the type has a declaration there. -/
theorem ScopeOf.mention_iff (h : ScopeOf types ctx s ts structs) (hts : ∀ t ∈ ts, IsDeclared t)
    (hdistinct : DistinctNames types) {type : Ty} (hknown : RuntimeOf types ctx (refBase type)) :
  mentionOf types type ∈ s.declared ↔ DeclaredIn ts (refBase type)
  := by
  rw [mentionOf_eq, h.declared]
  have hnamed : ∀ name, .named name ∉ ts := by
    intro name hmem
    rcases hts _ hmem with hf | hf | hf <;> cases hf
  have htask : ∀ target, .TSK target ∉ ts := by
    intro target hmem
    rcases hts _ hmem with hf | hf | hf <;> cases hf
  cases hbase : refBase type with
  | REF target => exact absurd hbase (refBase_ne_ref type target)
  | named name =>
    rw [hbase] at hknown
    simp only [DeclaredIn, iff_true, ctype_named]
    split_ifs with hopen hclosed
    · simp [CType.base, hknown hopen]
    · obtain ⟨struct, hmem, rfl⟩ := (isClosedStruct_iff hdistinct).mp hclosed
      exact Or.inr (Or.inr (Or.inr (Or.inl ⟨struct, hmem, rfl⟩)))
    · simp [CType.base, headerScope]
  | _ =>
    rw [hbase] at hknown
    simp_all [RuntimeOf, ctype, CType.base, DeclaredIn, headerScope, httpResTask]

/-- The layout of a type can be used when the type is complete. -/
theorem ScopeOf.layout_iff (h : ScopeOf types ctx s ts structs) (hts : ∀ t ∈ ts, IsDeclared t) {type : Ty}
    (hknown : RuntimeOf types ctx (refBase type)) (hdeclared : DeclaredIn ts (refBase type)) :
  (∀ n ∈ layoutOf types type, n ∈ s.complete) ↔ hasLayout types type ∧
    ∀ name, type = .named name → isClosedStruct types (.named name) → name ∈ structs
  := by
  unfold layoutOf hasLayout
  by_cases href : isRefType type
  · rw [if_pos href]
    cases type with
    | REF target => simp [isRefType]
    | _ => cases href
  · rw [if_neg href]
    rw [refBase_of_not_ref href] at hknown hdeclared
    simp only [List.mem_singleton, forall_eq, h.complete]
    have hnamed : ∀ name, .named name ∉ ts := by
      intro name hmem
      rcases hts _ hmem with hf | hf | hf <;> cases hf
    cases type with
    | REF target => exact absurd rfl href
    | named name =>
      simp only [isRefType, Bool.false_or, decide_eq_true_eq, Ty.named.injEq, forall_eq', ctype_named]
      split_ifs with hopen hclosed
      · have hnot : ¬ isClosedStruct types (.named name) := by simp [isClosedStruct, hopen]
        simp [hknown hopen, hnot]
      · simp_all [headerScope, httpResTask]
      · simp [headerScope]
    | _ => simp_all [RuntimeOf, ctype, DeclaredIn, headerScope, httpResTask, isRefType]

/-- A line that stores a value fits a scope when the type has a declaration, a layout, and a
definition if it is a fixed `MAP`. -/
theorem ScopeOf.inScope_storageLine_iff (h : ScopeOf types ctx s ts structs) (hts : ∀ t ∈ ts, IsDeclared t)
    (hdistinct : DistinctNames types) {type : Ty} (hknown : RuntimeOf types ctx (refBase type)) :
  InScope s (storageLine types type) ↔ DeclaredIn ts (refBase type) ∧ hasLayout types type ∧
    ∀ name, type = .named name → isClosedStruct types (.named name) → name ∈ structs
  := by
  constructor
  · intro hinScope
    have hdeclared := (h.mention_iff hts hdistinct hknown).mp
      (hinScope.mentions _ (List.mem_singleton_self _))
    exact ⟨hdeclared, (h.layout_iff hts hknown hdeclared).mp hinScope.layouts⟩
  · rintro ⟨hdeclared, hlayout⟩
    constructor
    · intro n hn
      rw [List.mem_singleton.mp hn]
      exact (h.mention_iff hts hdistinct hknown).mpr hdeclared
    · exact (h.layout_iff hts hknown hdeclared).mpr hlayout

/-- The declarations of some types are well ordered when each mentions types that are declared
before it. -/
theorem ScopeOf.wellOrdered_types_iff (h : ScopeOf types ctx s ts structs) (hdistinct : DistinctNames types)
    (hts : ∀ t ∈ ts, IsDeclared t) (parts : Ty → List Ty) {us : List Ty} (hus : ∀ u ∈ us, IsDeclared u)
    (hknown : ∀ u ∈ us, ∀ part ∈ parts u, RuntimeOf types ctx (refBase part)) :
  WellOrdered s (us.map (typeLine types parts)) ↔ ∀ before u behind, us = before ++ u :: behind →
    ∀ part ∈ parts u, DeclaredIn (ts ++ before) (refBase part)
  := by
  rw [wellOrdered_map_iff]
  have hmention : ∀ before u behind, us = before ++ u :: behind → ∀ part ∈ parts u,
      (mentionOf types part ∈ (s.behindAll (before.map (typeLine types parts))).declared ↔
        DeclaredIn (ts ++ before) (refBase part)) := by
    rintro before u behind rfl part hpart
    apply (h.behind_types parts before).mention_iff _ hdistinct (hknown u (by simp) part hpart)
    intro t ht
    rcases List.mem_append.mp ht with ht | ht
    · exact hts t ht
    · exact hus t (List.mem_append_left _ ht)
  constructor
  · intro hinScope before u behind heq part hpart
    exact (hmention before u behind heq part hpart).mp
      ((hinScope before u behind heq).mentions _ (List.mem_map_of_mem hpart))
  · intro hdeclared before u behind heq
    constructor
    · intro n hn
      obtain ⟨part, hpart, rfl⟩ := List.mem_map.mp hn
      exact (hmention before u behind heq part hpart).mpr (hdeclared before u behind heq part hpart)
    · exact fun n hn => absurd hn List.not_mem_nil

/-- The definitions of the fixed `MAP`s are well ordered when the fields of each can be stored
behind those before it. -/
theorem ScopeOf.wellOrdered_structs_iff (h : ScopeOf types ctx s ts []) (hdistinct : DistinctNames types)
    (hts : ∀ t ∈ ts, IsDeclared t) {defs : List (String × List Field)}
    (hknown : ∀ struct ∈ defs, ∀ field ∈ struct.2, RuntimeOf types ctx (refBase field.declaredType)) :
  WellOrdered s (defs.map (structDef types)) ↔ ∀ before struct behind, defs = before ++ struct :: behind →
    ∀ field ∈ struct.2, DeclaredIn ts (refBase field.declaredType) ∧ hasLayout types field.declaredType ∧
      ∀ name, field.declaredType = .named name → isClosedStruct types (.named name) →
        name ∈ before.map Prod.fst
  := by
  rw [wellOrdered_map_iff]
  have hfield : ∀ before struct behind, defs = before ++ struct :: behind → ∀ field ∈ struct.2,
      (InScope (s.behindAll (before.map (structDef types))) (storageLine types field.declaredType) ↔
        DeclaredIn ts (refBase field.declaredType) ∧ hasLayout types field.declaredType ∧
          ∀ name, field.declaredType = .named name → isClosedStruct types (.named name) →
            name ∈ before.map Prod.fst) := by
    rintro before struct behind rfl field hfield
    have hscope := h.behind_structs before
    rw [List.nil_append] at hscope
    exact hscope.inScope_storageLine_iff hts hdistinct (hknown struct (by simp) field hfield)
  constructor
  · intro hinScope before struct behind heq field hmem
    apply (hfield before struct behind heq field hmem).mp
    constructor
    · intro n hn
      apply (hinScope before struct behind heq).mentions
      rw [List.mem_singleton.mp hn]
      exact List.mem_map_of_mem hmem
    · intro n hn
      apply (hinScope before struct behind heq).layouts
      exact List.mem_flatMap_of_mem hmem hn
  · intro hstorable before struct behind heq
    have hline : ∀ field ∈ struct.2, InScope (s.behindAll (before.map (structDef types)))
        (storageLine types field.declaredType) := fun field hmem =>
      (hfield before struct behind heq field hmem).mpr (hstorable before struct behind heq field hmem)
    constructor
    · intro n hn
      obtain ⟨field, hmem, rfl⟩ := List.mem_map.mp hn
      exact (hline field hmem).mentions _ (List.mem_singleton_self _)
    · intro n hn
      obtain ⟨field, hmem, hn⟩ := List.mem_flatMap.mp hn
      exact (hline field hmem).layouts n hn

/-! ### The types of a program -/

section

variable {p : Program}

/-- What is mentioned in a mentioned type is mentioned. -/
theorem mentions_subset {t : Ty} (h : t ∈ p.mentions types) : typeMentions t ⊆ p.mentions types := by
  obtain ⟨use, huse, ht⟩ := List.mem_flatMap.mp h
  intro u hu
  refine List.mem_flatMap.mpr ⟨use, huse, ?_⟩
  cases use with
  | openData => cases ht
  | request => cases ht
  | _ => exact typeMentions_subset ht hu

/-- The types of a use are mentioned. -/
theorem use_subset {use : TypeUse} (h : use ∈ p.uses types) : use.mentions ⊆ p.mentions types :=
  fun _ hu => List.mem_flatMap.mpr ⟨use, h, hu⟩

/-- The type under the references of a type is mentioned, unless it is no type of values. -/
theorem refBase_mem (type : Ty) : refBase type ∈ typeMentions type ∨
    refBase type ∈ [Ty.unknown, .ARR .unknown, .SHAPE]
  := by
  fun_induction typeMentions type with
  | case4 target ih => exact ih
  | case9 type => exact Or.inl (by cases type <;> simp_all [refBase])
  | _ => simp [refBase]

/-- The runtime of a type whose parts are mentioned is printed. -/
theorem runtimeOf_refBase {type : Ty} (h : typeMentions type ⊆ p.mentions types) :
  RuntimeOf types (collect types p) (refBase type)
  := by
  rcases refBase_mem type with hmem | hmem
  · exact runtimeOf_collect types p _ (h hmem)
  · simp only [List.mem_cons, List.not_mem_nil, or_false] at hmem
    rcases hmem with heq | heq | heq <;> rw [heq] <;> trivial

theorem unknown_not_mem (type : Ty) : .ARR .unknown ∉ typeMentions type := by
  fun_induction typeMentions type with
  | case7 elem helem ih => simp [ih, Ne.symm helem]
  | case9 type => cases type <;> simp_all
  | _ => simp_all

theorem mem_fnTypes {t : Ty} : t ∈ (collect types p).fnTypes ↔ t ∈ p.mentions types ∧ isFnType t := by
  simp [(collect_types types p).1, mem_foldl_vecPushNew]

theorem mem_arrayTypes {t : Ty} : t ∈ (collect types p).arrayTypes ↔ t ∈ p.mentions types ∧ isArrayType t := by
  simp [(collect_types types p).2.1, mem_foldl_vecPushNew]

theorem mem_mapTypes {t : Ty} : t ∈ (collect types p).mapTypes ↔ t ∈ p.mentions types ∧ isMapType t := by
  simp [(collect_types types p).2.2, mem_foldl_vecPushNew]

/-- The types that are declared, with the array types in some order. -/
def declaredTypes (types : TypeTable) (p : Program) (arrays : List Ty) : List Ty :=
  (collect types p).fnTypes ++ arrays ++ (collect types p).mapTypes.filter isStrMap

theorem isDeclared_of_mem {arrays : List Ty} (harrays : arrays.Perm (collect types p).arrayTypes) {t : Ty}
    (ht : t ∈ declaredTypes types p arrays) :
  IsDeclared t
  := by
  rcases List.mem_append.mp ht with ht | ht
  · rcases List.mem_append.mp ht with ht | ht
    · exact Or.inl (mem_fnTypes.mp ht).2
    · exact Or.inr (Or.inl (mem_arrayTypes.mp (harrays.mem_iff.mp ht)).2)
  · exact Or.inr (Or.inr (mem_mapTypes.mp (List.mem_of_mem_filter ht)).2)

/-- A type has a declaration when there is a C type for it. -/
theorem declaredIn_iff {arrays : List Ty} (harrays : arrays.Perm (collect types p).arrayTypes) {type : Ty}
    (h : typeMentions type ⊆ p.mentions types) :
  DeclaredIn (declaredTypes types p arrays) (refBase type) ↔ hasTypeDecl type
  := by
  have hmem : ∀ t, refBase type = t → t ∉ [Ty.unknown, .ARR .unknown, .SHAPE] → t ∈ p.mentions types := by
    rintro t rfl ht
    exact h ((refBase_mem type).resolve_right ht)
  unfold hasTypeDecl
  cases hbase : refBase type with
  | TSK target => simp [DeclaredIn]
  | FN input output =>
    have hfn := hmem _ hbase (by simp)
    simp [DeclaredIn, declaredTypes, mem_fnTypes, hfn, isFnType]
  | ARR elem =>
    simp only [DeclaredIn, declaredTypes, List.mem_append, List.mem_filter, harrays.mem_iff, mem_fnTypes,
      mem_arrayTypes, isFnType, isArrayType, isStrMap]
    by_cases helem : elem = .unknown
    · subst helem
      have hnot : .ARR .unknown ∉ p.mentions types := by
        intro hmem
        obtain ⟨use, _, hmem⟩ := List.mem_flatMap.mp hmem
        cases use with
        | openData => cases hmem
        | request => cases hmem
        | _ => exact unknown_not_mem _ hmem
      simp [hnot]
    · have harr := hmem _ hbase (by simp [helem])
      simp [harr, helem]
  | MAP key value =>
    have hmap := hmem _ hbase (by simp)
    simp [DeclaredIn, declaredTypes, List.mem_filter, harrays.mem_iff, mem_fnTypes, mem_arrayTypes, mem_mapTypes,
      hmap, isFnType, isArrayType, isMapType]
  | _ => simp [DeclaredIn]

/-! ### The sections of a file -/

/-- The open data that a table declares is printed. -/
theorem usesOpen_of_struct (hdistinct : DistinctNames types) {name : String} {fields : List Field}
    (h : ⟨name, .struct fields true⟩ ∈ types) :
  (collect types p).usesOpen
  := by
  have huse : .expr (.named name) ∈ p.uses types := by
    simp only [Program.uses, List.mem_append, List.mem_flatMap]
    exact Or.inl (Or.inl (Or.inl ⟨_, h, by simp [collectTypeDecl]⟩))
  have hopen : isOpenStructType types (.named name) := by
    have hfind := hdistinct.typeFind h
    simp only at hfind
    simp [isOpenStructType, structOf, hfind]
  have hmem : .named name ∈ p.mentions types := use_subset huse (by simp [TypeUse.mentions, typeMentions])
  exact runtimeOf_collect types p _ hmem hopen

/-- The runtimes and the forward declarations are well ordered. -/
theorem wellOrdered_runtimeLines (hdistinct : DistinctNames types) (p : Program) :
  WellOrdered headerScope (runtimeLines types (collect types p))
  := by
  have hstr := collect_usesStr types p
  have hruntimes : WellOrdered headerScope
      (emitStrRuntime (collect types p) ++ emitOpenRuntime (collect types p)) := by
    unfold emitStrRuntime emitOpenRuntime
    split_ifs with huses hopen hopen
    · simp [WellOrdered, inScope_iff, DeclarationOrder.Scope.behind, headerScope]
    · simp [WellOrdered, inScope_iff]
    · exact absurd (hstr hopen) huses
    · trivial
  have hforwards : WellOrdered (headerScope.behindAll (emitStrRuntime (collect types p) ++
      emitOpenRuntime (collect types p))) (emitStructForwards types) := by
    rw [wellOrdered_iff]
    intro before line behind heq
    have hline : line ∈ emitStructForwards types := heq ▸ List.mem_append_right _ List.mem_cons_self
    obtain ⟨⟨name, kind⟩, hinfo, hline⟩ := List.mem_flatMap.mp hline
    rcases kind with ⟨target, value⟩ | ⟨fields, _ | _⟩
    · cases hline
    · cases List.mem_singleton.mp hline
      simp [inScope_iff]
    · cases List.mem_singleton.mp hline
      have hopen := usesOpen_of_struct (p := p) hdistinct hinfo
      simp [inScope_iff, behindAll_eq, emitOpenRuntime, hopen]
  rw [runtimeLines, wellOrdered_append, wellOrdered_append]
  refine ⟨⟨hruntimes, hforwards⟩, ?_⟩
  unfold emitTaskTypes
  split_ifs
  · simp [WellOrdered, inScope_iff]
  · trivial

/-- A line that stores a value fits the scope behind all types when the type is storable. -/
theorem inScope_storageLine_iff_storable (hdistinct : DistinctNames types) {arrays : List Ty}
    (harrays : arrays.Perm (collect types p).arrayTypes) {s : DeclarationOrder.Scope CType}
    (hs : ScopeOf types (collect types p) s (declaredTypes types p arrays)
      ((closedStructs types).map Prod.fst))
    {type : Ty} (h : typeMentions type ⊆ p.mentions types) :
  InScope s (storageLine types type) ↔ storable types type
  := by
  rw [hs.inScope_storageLine_iff (fun t => isDeclared_of_mem harrays) hdistinct (runtimeOf_refBase h),
    declaredIn_iff harrays h]
  simp only [storable, Bool.and_eq_true]
  constructor
  · rintro ⟨hdecl, hlayout, _⟩
    exact ⟨hdecl, hlayout⟩
  · rintro ⟨hdecl, hlayout⟩
    refine ⟨hdecl, hlayout, fun name _ hclosed => ?_⟩
    obtain ⟨struct, hmem, rfl⟩ := (isClosedStruct_iff hdistinct).mp hclosed
    exact List.mem_map_of_mem hmem

/-- The type of a field is mentioned. -/
theorem field_subset {struct : String × List Field} (hstruct : struct ∈ closedStructs types) {field : Field}
    (hfield : field ∈ struct.2) :
  typeMentions field.declaredType ⊆ p.mentions types
  := by
  obtain ⟨⟨name, kind⟩, hinfo, hkind⟩ := List.mem_filterMap.mp hstruct
  rcases kind with ⟨target, value⟩ | ⟨fields, _ | _⟩
  · cases hkind
  · cases hkind
    have huse : .expr field.declaredType ∈ p.uses types := by
      simp only [Program.uses, List.mem_append, List.mem_flatMap]
      refine Or.inl (Or.inl (Or.inl ⟨_, hinfo, ?_⟩))
      simp only [collectTypeDecl, List.mem_append, List.mem_flatMap]
      exact Or.inr ⟨field, hfield, List.mem_cons_self⟩
    exact use_subset huse
  · cases hkind

theorem hasTypeDecl_of_void {type : Ty} (h : ctype types type = .void) : hasTypeDecl type := by
  cases type <;> simp_all [ctype, hasTypeDecl, refBase]

theorem typeUses_declares {arrays : List Ty} {line : CLine}
    (h : line ∈ emitTypeUses types (collect types p) arrays (p.uses types)) :
  line.declares = [] ∧ line.completes = []
  := by
  simp only [emitTypeUses, List.mem_append, List.mem_flatMap] at h
  rcases h with ((⟨t, _, h⟩ | ⟨t, _, h⟩) | ⟨struct, _, h⟩) | ⟨use, _, h⟩
  · unfold mapRuntime at h
    split at h
    · simp only [List.mem_cons, List.not_mem_nil, or_false] at h
      rcases h with rfl | rfl
      · exact ⟨rfl, rfl⟩
      · exact ⟨rfl, rfl⟩
    · cases h
  · unfold arrayHelper at h
    split at h
    · cases List.mem_singleton.mp h
      exact ⟨rfl, rfl⟩
    · cases h
  · obtain ⟨field, _, h⟩ := List.mem_flatMap.mp h
    unfold refFieldCopy at h
    split at h
    · split_ifs at h
      · cases h
      · cases List.mem_singleton.mp h
        exact ⟨rfl, rfl⟩
    · cases h
  · unfold useLine at h
    split at h
    · cases List.mem_singleton.mp h
      exact ⟨rfl, rfl⟩
    · split_ifs at h
      · cases List.mem_singleton.mp h
        exact ⟨rfl, rfl⟩
      · cases List.mem_singleton.mp h
        exact ⟨rfl, rfl⟩
    · cases h

/-- The lines behind the types are well ordered when all they store is storable. -/
theorem wellOrdered_typeUses_iff (hdistinct : DistinctNames types) {arrays : List Ty}
    (harrays : arrays.Perm (collect types p).arrayTypes) {s : DeclarationOrder.Scope CType}
    (hs : ScopeOf types (collect types p) s (declaredTypes types p arrays)
      ((closedStructs types).map Prod.fst)) :
  WellOrdered s (emitTypeUses types (collect types p) arrays (p.uses types)) ↔
    ((∀ value, .MAP .STR value ∈ p.mentions types → storable types value) ∧
      (∀ elem, .ARR elem ∈ p.mentions types → storable types elem)) ∧
    (∀ struct ∈ closedStructs types, ∀ field ∈ struct.2, ∀ target, field.declaredType = .REF target →
      ¬ isStructType types target → storable types target) ∧
    (∀ type, .storage type ∈ p.uses types → storable types type) ∧
    ∀ type, .result type ∈ p.uses types → hasTypeDecl type
  := by
  rw [wellOrdered_iff_of_declares_nil fun line => typeUses_declares]
  have hinScope : ∀ {type : Ty}, typeMentions type ⊆ p.mentions types →
      (InScope s (storageLine types type) ↔ storable types type) :=
    inScope_storageLine_iff_storable hdistinct harrays hs
  have hmaps : (∀ t ∈ (collect types p).mapTypes, ∀ line ∈ mapRuntime types t, InScope s line) ↔
      ∀ value, .MAP .STR value ∈ p.mentions types → storable types value := by
    have hparts : ∀ value, .MAP .STR value ∈ p.mentions types →
        typeMentions .STR ⊆ p.mentions types ∧ typeMentions value ⊆ p.mentions types := by
      intro value hmem
      have hsub := mentions_subset hmem
      rw [typeMentions, List.cons_subset, List.append_subset] at hsub
      exact hsub.2
    constructor
    · intro h value hmem
      exact (hinScope (hparts value hmem).2).mp
        (h _ (mem_mapTypes.mpr ⟨hmem, rfl⟩) _ (by simp [mapRuntime]))
    · intro h t ht line hline
      unfold mapRuntime at hline
      split at hline
      · rename_i value
        have hmem := (mem_mapTypes.mp ht).1
        simp only [List.mem_cons, List.not_mem_nil, or_false] at hline
        rcases hline with rfl | rfl
        · exact (hinScope (hparts value hmem).1).mpr rfl
        · exact (hinScope (hparts value hmem).2).mpr (h value hmem)
      · cases hline
  have helems : (∀ t ∈ arrays, ∀ line ∈ arrayHelper types t, InScope s line) ↔
      ∀ elem, .ARR elem ∈ p.mentions types → storable types elem := by
    have hpart : ∀ elem, .ARR elem ∈ p.mentions types → typeMentions elem ⊆ p.mentions types := by
      intro elem hmem
      by_cases helem : elem = .unknown
      · subst helem
        exact List.nil_subset _
      · have hsub := mentions_subset hmem
        rw [typeMentions, List.cons_subset] at hsub
        · exact hsub.2
        · exact helem
    constructor
    · intro h elem hmem
      exact (hinScope (hpart elem hmem)).mp
        (h _ (harrays.mem_iff.mpr (mem_arrayTypes.mpr ⟨hmem, rfl⟩)) _ (List.mem_singleton_self _))
    · intro h t ht line hline
      unfold arrayHelper at hline
      split at hline
      · rename_i elem
        have hmem := (mem_arrayTypes.mp (harrays.mem_iff.mp ht)).1
        cases List.mem_singleton.mp hline
        exact (hinScope (hpart elem hmem)).mpr (h elem hmem)
      · cases hline
  have hrefs : (∀ struct ∈ closedStructs types, ∀ line ∈ structCopyHelper types struct, InScope s line) ↔
      ∀ struct ∈ closedStructs types, ∀ field ∈ struct.2, ∀ target, field.declaredType = .REF target →
        ¬ isStructType types target → storable types target := by
    have hpart : ∀ struct ∈ closedStructs types, ∀ field ∈ struct.2, ∀ target,
        field.declaredType = .REF target → typeMentions target ⊆ p.mentions types := by
      intro struct hstruct field hfield target htarget
      have hsub := field_subset (p := p) hstruct hfield
      rwa [htarget] at hsub
    constructor
    · intro h struct hstruct field hfield target htarget hnot
      apply (hinScope (hpart struct hstruct field hfield target htarget)).mp
      apply h struct hstruct
      exact List.mem_flatMap.mpr ⟨field, hfield, by simp [refFieldCopy, htarget, hnot]⟩
    · intro h struct hstruct line hline
      obtain ⟨field, hfield, hline⟩ := List.mem_flatMap.mp hline
      unfold refFieldCopy at hline
      split at hline
      · rename_i target htarget
        split_ifs at hline with hnot
        · cases hline
        · cases List.mem_singleton.mp hline
          exact (hinScope (hpart struct hstruct field hfield target htarget)).mpr
            (h struct hstruct field hfield target htarget hnot)
      · cases hline
  have huses : (∀ use ∈ p.uses types, ∀ line ∈ useLine types use, InScope s line) ↔
      (∀ type, .storage type ∈ p.uses types → storable types type) ∧
        ∀ type, .result type ∈ p.uses types → hasTypeDecl type := by
    have hresult : ∀ type, .result type ∈ p.uses types →
        ((∀ line ∈ useLine types (.result type), InScope s line) ↔ hasTypeDecl type) := by
      intro type huse
      simp only [useLine]
      split_ifs with hvoid
      · simp only [List.mem_singleton, forall_eq, inScope_iff, hs.declared, hasTypeDecl_of_void hvoid, iff_true]
        simp [headerScope]
      · simp only [List.mem_singleton, forall_eq, hinScope (use_subset huse), storable, Bool.and_eq_true]
        simp [hasLayout, hvoid]
    constructor
    · intro h
      constructor
      · intro type huse
        exact (hinScope (use_subset huse)).mp (h _ huse _ (List.mem_singleton_self _))
      · intro type huse
        exact (hresult type huse).mp (h _ huse)
    · rintro ⟨hstorages, hresults⟩ use huse line hline
      cases use with
      | storage type =>
        cases List.mem_singleton.mp hline
        exact (hinScope (use_subset huse)).mpr (hstorages type huse)
      | result type => exact (hresult type huse).mpr (hresults type huse) line hline
      | _ => cases hline
  rw [emitTypeUses, List.forall_mem_append, List.forall_mem_append, List.forall_mem_append,
    List.forall_mem_flatMap, List.forall_mem_flatMap, List.forall_mem_flatMap, List.forall_mem_flatMap,
    hmaps, helems, hrefs, huses, and_assoc]

/-- The parts of a declared type are mentioned. -/
theorem parts_subset {t : Ty} (h : t ∈ p.mentions types) :
  (∀ part ∈ fnParts t, typeMentions part ⊆ p.mentions types) ∧
    ∀ part ∈ arrayParts t, typeMentions part ⊆ p.mentions types
  := by
  have hsub := mentions_subset h
  cases t with
  | FN input output =>
    rw [typeMentions, List.cons_subset, List.append_subset] at hsub
    simp only [fnParts, arrayParts, List.mem_cons, List.not_mem_nil, or_false, forall_eq_or_imp, forall_eq]
    exact ⟨⟨hsub.2.2, hsub.2.1⟩, fun _ hpart => hpart.elim⟩
  | ARR elem =>
    simp only [fnParts, arrayParts, List.mem_singleton, forall_eq]
    refine ⟨fun _ hpart => absurd hpart List.not_mem_nil, ?_⟩
    by_cases helem : elem = .unknown
    · subst helem
      exact List.nil_subset _
    · rw [typeMentions, List.cons_subset] at hsub
      · exact hsub.2
      · exact helem
  | _ => exact ⟨fun _ hpart => absurd hpart List.not_mem_nil, fun _ hpart => absurd hpart List.not_mem_nil⟩

/-- A file is well ordered when each of its sections is. -/
theorem wellOrdered_file_iff (hdistinct : DistinctNames types) {arrays : List Ty}
    (harrays : arrays.Perm (collect types p).arrayTypes) :
  WellOrdered headerScope (emitTypes types (collect types p) arrays ++
      emitTypeUses types (collect types p) arrays (p.uses types)) ↔
    (∀ before fn behind, (collect types p).fnTypes = before ++ fn :: behind →
      ∀ part ∈ fnParts fn, DeclaredIn before (refBase part)) ∧
    (∀ before array behind, arrays = before ++ array :: behind →
      ∀ part ∈ arrayParts array, DeclaredIn ((collect types p).fnTypes ++ before) (refBase part)) ∧
    (∀ before struct behind, closedStructs types = before ++ struct :: behind →
      ∀ field ∈ struct.2, storable types field.declaredType ∧
        ∀ name, field.declaredType = .named name → isClosedStruct types (.named name) →
          name ∈ before.map Prod.fst) ∧
    WellOrdered (headerScope.behindAll (emitTypes types (collect types p) arrays))
      (emitTypeUses types (collect types p) arrays (p.uses types))
  := by
  have hfns : ∀ t ∈ (collect types p).fnTypes, IsDeclared t := fun t ht => Or.inl (mem_fnTypes.mp ht).2
  have harrs : ∀ t ∈ arrays, IsDeclared t := fun t ht =>
    Or.inr (Or.inl (mem_arrayTypes.mp (harrays.mem_iff.mp ht)).2)
  have hmaps : ∀ t ∈ (collect types p).mapTypes.filter isStrMap, IsDeclared t := fun t ht =>
    Or.inr (Or.inr (mem_mapTypes.mp (List.mem_of_mem_filter ht)).2)
  have hscope₀ := scopeOf_runtimeLines types (collect types p)
  have hscope₁ := hscope₀.behind_types fnParts (collect types p).fnTypes
  have hscope₂ := hscope₁.behind_types arrayParts arrays
  have hscope₃ := hscope₂.behind_types (fun _ => []) ((collect types p).mapTypes.filter isStrMap)
  rw [List.nil_append] at hscope₁ hscope₂ hscope₃
  have hfnSection := hscope₀.wellOrdered_types_iff hdistinct (fun _ ht => absurd ht List.not_mem_nil)
    fnParts hfns fun t ht part hpart =>
      runtimeOf_refBase ((parts_subset (mem_fnTypes.mp ht).1).1 part hpart)
  have harraySection := hscope₁.wellOrdered_types_iff hdistinct hfns arrayParts harrs
    fun t ht part hpart =>
      runtimeOf_refBase ((parts_subset (mem_arrayTypes.mp (harrays.mem_iff.mp ht)).1).2 part hpart)
  have hmapSection := hscope₂.wellOrdered_types_iff hdistinct
    (fun t ht => (List.mem_append.mp ht).elim (hfns t) (harrs t)) (fun _ => []) hmaps
    fun t ht part hpart => absurd hpart List.not_mem_nil
  have hstructSection := hscope₃.wellOrdered_structs_iff hdistinct (fun t => isDeclared_of_mem harrays)
    (fun struct hstruct field hfield => runtimeOf_refBase (field_subset (p := p) hstruct hfield))
  have heq : emitTypes types (collect types p) arrays = runtimeLines types (collect types p) ++
      (collect types p).fnTypes.map (typeLine types fnParts) ++ arrays.map (typeLine types arrayParts) ++
      ((collect types p).mapTypes.filter isStrMap).map (typeLine types fun _ => []) ++
      (closedStructs types).map (structDef types) := rfl
  have hfield : ∀ struct ∈ closedStructs types, ∀ field ∈ struct.2,
      (DeclaredIn (declaredTypes types p arrays) (refBase field.declaredType) ∧
        hasLayout types field.declaredType ↔ storable types field.declaredType) := by
    intro struct hstruct field hfield
    rw [declaredIn_iff harrays (field_subset hstruct hfield), storable, Bool.and_eq_true]
  rw [wellOrdered_append]
  constructor
  · rintro ⟨htypes, huses⟩
    rw [heq] at htypes
    simp only [wellOrdered_append, behindAll_append] at htypes
    rw [hfnSection, harraySection, hstructSection] at htypes
    obtain ⟨⟨⟨⟨_, hfn⟩, harray⟩, _⟩, hstruct⟩ := htypes
    refine ⟨hfn, harray, ?_, huses⟩
    intro before struct behind hclosed field hmem
    obtain ⟨hdeclared, hlayout, hname⟩ := hstruct before struct behind hclosed field hmem
    exact ⟨(hfield struct (hclosed ▸ by simp) field hmem).mp ⟨hdeclared, hlayout⟩, hname⟩
  · rintro ⟨hfn, harray, hstruct, huses⟩
    refine ⟨?_, huses⟩
    rw [heq]
    simp only [wellOrdered_append, behindAll_append]
    rw [hfnSection, harraySection, hmapSection, hstructSection]
    refine ⟨⟨⟨⟨wellOrdered_runtimeLines hdistinct p, hfn⟩, harray⟩, ?_⟩, ?_⟩
    · exact fun _ _ _ _ part hpart => absurd hpart List.not_mem_nil
    · intro before struct behind hclosed field hmem
      obtain ⟨hstorable, hname⟩ := hstruct before struct behind hclosed field hmem
      obtain ⟨hdeclared, hlayout⟩ := (hfield struct (hclosed ▸ by simp) field hmem).mpr hstorable
      exact ⟨hdeclared, hlayout, hname⟩

/-! ### The order of function types -/

theorem mentionedBefore_filter {l : List Ty} {f : Ty → Bool} {t u : Ty} (ht : f t) (hu : f u) :
  MentionedBefore (l.filter f) t u ↔ MentionedBefore l t u
  := by
  constructor
  · rintro ⟨l₁, l₂, heq, hmem, hnot⟩
    obtain ⟨l₁', l₂', rfl, rfl, rfl⟩ := List.filter_eq_append_iff.mp heq
    refine ⟨l₁', l₂', rfl, List.mem_of_mem_filter hmem, fun hmem' => hnot ?_⟩
    exact List.mem_filter.mpr ⟨hmem', hu⟩
  · rintro ⟨l₁, l₂, rfl, hmem, hnot⟩
    refine ⟨l₁.filter f, l₂.filter f, List.filter_append .., List.mem_filter.mpr ⟨hmem, ht⟩, ?_⟩
    exact fun hmem' => hnot (List.mem_of_mem_filter hmem')

/-- A part of a function type is declared before it when it is no array and no map, and is
mentioned before it if it is a function type. -/
theorem declaredIn_before_fn_iff {before behind : List Ty} {fn part : Ty}
    (h : (collect types p).fnTypes = before ++ fn :: behind) :
  DeclaredIn before (refBase part) ↔ hasTypeDecl part ∧ ¬ isArrayType (refBase part) ∧
    ¬ isMapType (refBase part) ∧
    (isFnType (refBase part) → MentionedBefore (p.mentions types) (refBase part) fn)
  := by
  have hbefore : ∀ t ∈ before, isFnType t := by
    intro t ht
    exact (mem_fnTypes.mp (h ▸ List.mem_append_left _ ht)).2
  have hfn : isFnType fn := (mem_fnTypes.mp (h ▸ (by simp : fn ∈ before ++ fn :: behind))).2
  unfold hasTypeDecl
  cases hbase : refBase part with
  | FN input output =>
    rw [(collect_types types p).1] at h
    have hfilter := mentionedBefore_filter (l := p.mentions types) (t := .FN input output)
      (f := isFnType) rfl hfn
    simp [DeclaredIn, mem_before_iff h, hfilter, isFnType, isArrayType, isMapType]
  | ARR elem =>
    have hnot : .ARR elem ∉ before := fun hmem => absurd (hbefore _ hmem) (by simp [isFnType])
    simp [DeclaredIn, hnot, isArrayType]
  | MAP key value =>
    have hnot : .MAP key value ∉ before := fun hmem => absurd (hbefore _ hmem) (by simp [isFnType])
    simp [DeclaredIn, hnot, isMapType]
  | _ => simp [DeclaredIn, isFnType, isArrayType, isMapType]

/-! ### The order of array types -/

/-- The array types can be sorted with one before all others that are not less deep. -/
theorem exists_sorted_before {l : List Ty} (hnodup : l.Nodup) {a : Ty} (ha : a ∈ l) :
  ∃ before behind, (before ++ a :: behind).Perm l ∧
    (before ++ a :: behind).Pairwise (fun left right => depthType left ≤ depthType right) ∧
    ∀ b ∈ before, depthType b < depthType a
  := by
  have htotal : Std.Total (fun left right : Ty => depthType left ≤ depthType right) :=
    ⟨fun left right => le_total (depthType left) (depthType right)⟩
  have htrans : IsTrans Ty (fun left right : Ty => depthType left ≤ depthType right) :=
    ⟨fun _ _ _ => le_trans⟩
  have hperm := (List.perm_insertionSort (fun left right => depthType left ≤ depthType right)
    (a :: l.erase a)).trans (List.perm_cons_erase ha).symm
  have hsorted := List.pairwise_insertionSort (fun left right : Ty => depthType left ≤ depthType right)
    (a :: l.erase a)
  obtain ⟨before, behind, heq⟩ := List.append_of_mem (hperm.mem_iff.mpr ha)
  refine ⟨before, behind, heq ▸ hperm, heq ▸ hsorted, fun b hb => ?_⟩
  have hdistinct : (before ++ a :: behind).Nodup := (heq ▸ hperm : (before ++ a :: behind).Perm l).nodup_iff.mpr
    hnodup
  obtain ⟨_, hbehind, hdisjoint⟩ := List.nodup_append.mp hdistinct
  have hne : b ≠ a := fun hba => hdisjoint b hb a List.mem_cons_self hba
  by_contra hdepth
  have hmem : b ∈ l.erase a := by
    rw [hnodup.mem_erase_iff]
    exact ⟨hne, hperm.mem_iff.mp (heq ▸ List.mem_append_left _ hb)⟩
  have hsub : [a, b].Sublist (before ++ a :: behind) := by
    rw [← heq]
    apply List.pair_sublist_insertionSort
      (r := fun left right : Ty => depthType left ≤ depthType right) (not_lt.mp hdepth)
    exact List.Sublist.cons_cons a (List.singleton_sublist.mpr hmem)
  obtain ⟨l₁, l₂, hl, hl₁, hl₂⟩ := List.sublist_append_iff.mp hsub
  cases l₁ with
  | nil =>
    rw [List.nil_append] at hl
    exact hdisjoint b hb b (hl₂.subset (hl ▸ by simp)) rfl
  | cons c l₁ =>
    rw [List.cons_append, List.cons.injEq] at hl
    exact hdisjoint a (hl₁.subset (hl.1 ▸ List.mem_cons_self)) a List.mem_cons_self rfl

/-- The element of an array is declared before it, in every order of the array types, when it
is no map and no reference to an array. -/
theorem arraySections_iff :
  (∀ arrays, arrays.Perm (collect types p).arrayTypes →
      arrays.Pairwise (fun left right => depthType left ≤ depthType right) →
      ∀ before array behind, arrays = before ++ array :: behind →
        ∀ part ∈ arrayParts array, DeclaredIn ((collect types p).fnTypes ++ before) (refBase part)) ↔
    ∀ elem, .ARR elem ∈ p.mentions types → hasTypeDecl elem ∧ ¬ isMapType (refBase elem) ∧
      (isRefType elem → ¬ isArrayType (refBase elem))
  := by
  have hnodup : (collect types p).arrayTypes.Nodup := by
    rw [(collect_types types p).2.1]
    exact nodup_foldl_vecPushNew List.nodup_nil
  constructor
  · intro h elem hmem
    have harray := mem_arrayTypes.mpr ⟨hmem, (rfl : isArrayType (.ARR elem) = true)⟩
    obtain ⟨before, behind, hperm, hsorted, hbefore⟩ := exists_sorted_before hnodup harray
    have hdeclared := h _ hperm hsorted before _ behind rfl elem (List.mem_singleton_self _)
    have hmono : ∀ t, t ∈ (collect types p).fnTypes ++ before →
        t ∈ declaredTypes types p (before ++ .ARR elem :: behind) := by
      intro t ht
      simp only [declaredTypes, List.mem_append] at ht ⊢
      exact Or.inl (ht.imp_right Or.inl)
    refine ⟨(declaredIn_iff hperm ((parts_subset hmem).2 elem (List.mem_singleton_self _))).mp
      (hdeclared.mono hmono), fun hmap => ?_, fun href harr => ?_⟩
    · cases hbase : refBase elem with
      | MAP key value =>
        rw [hbase] at hdeclared
        rcases List.mem_append.mp hdeclared with hin | hin
        · exact absurd (mem_fnTypes.mp hin).2 (by simp [isFnType])
        · exact absurd (mem_arrayTypes.mp (hperm.mem_iff.mp (List.mem_append_left _ hin))).2
            (by simp [isArrayType])
      | _ => simp [hbase, isMapType] at hmap
    · cases hbase : refBase elem with
      | ARR inner =>
        rw [hbase] at hdeclared
        rcases List.mem_append.mp hdeclared with hin | hin
        · exact absurd (mem_fnTypes.mp hin).2 (by simp [isFnType])
        · have hdepth := hbefore _ hin
          cases elem with
          | REF target => simp [depthType] at hdepth
          | _ => cases href
      | _ => simp [hbase, isArrayType] at harr
  · intro h arrays hperm hsorted before array behind heq part hpart
    have harray : array ∈ arrays := heq ▸ by simp
    obtain ⟨hmem, hkind⟩ := mem_arrayTypes.mp (hperm.mem_iff.mp harray)
    cases array with
    | ARR elem =>
      cases List.mem_singleton.mp hpart
      obtain ⟨hdecl, hmap, href⟩ := h part hmem
      have hdeclared := (declaredIn_iff hperm ((parts_subset hmem).2 part (List.mem_singleton_self _))).mpr hdecl
      cases hbase : refBase part with
      | FN input output =>
        rw [hbase] at hdeclared
        simp only [DeclaredIn, declaredTypes, List.mem_append, List.mem_filter] at hdeclared ⊢
        rcases hdeclared with (hin | hin) | hin
        · exact Or.inl hin
        · exact absurd (mem_arrayTypes.mp (hperm.mem_iff.mp hin)).2 (by simp [isArrayType])
        · exact absurd hin.2 (by simp [isStrMap])
      | ARR inner =>
        rw [hbase] at hdeclared href hmap
        simp only [DeclaredIn, declaredTypes, List.mem_append, List.mem_filter] at hdeclared ⊢
        rcases hdeclared with (hin | hin) | hin
        · exact absurd (mem_fnTypes.mp hin).2 (by simp [isFnType])
        · have hnotRef : ¬ isRefType part := fun hr => href hr rfl
          rw [refBase_of_not_ref hnotRef] at hbase
          subst hbase heq
          rcases List.mem_append.mp hin with hin | hin
          · exact Or.inr hin
          · exfalso
            have hle : depthType (.ARR (.ARR inner)) ≤ depthType (.ARR inner) := by
              rcases List.mem_cons.mp hin with heq | hin
              · rw [← heq]
              · have hpair := (List.pairwise_append.mp hsorted).2.1
                exact (List.pairwise_cons.mp hpair).1 _ hin
            simp [depthType] at hle
        · exact absurd hin.2 (by simp [isStrMap])
      | MAP key value => simp [hbase, isMapType] at hmap
      | TSK target =>
        rw [hbase] at hdeclared
        exact hdeclared
      | _ => trivial
    | _ => cases hkind

/-! ### The whole file -/

theorem scopeOf_emitTypes (types : TypeTable) (p : Program) (arrays : List Ty) :
  ScopeOf types (collect types p) (headerScope.behindAll (emitTypes types (collect types p) arrays))
    (declaredTypes types p arrays) ((closedStructs types).map Prod.fst)
  := by
  have hscope := ((((scopeOf_runtimeLines types (collect types p)).behind_types fnParts
    (collect types p).fnTypes).behind_types arrayParts arrays).behind_types (fun _ => [])
    ((collect types p).mapTypes.filter isStrMap)).behind_structs (closedStructs types)
  rw [← behindAll_append, ← behindAll_append, ← behindAll_append, ← behindAll_append, List.nil_append,
    List.nil_append] at hscope
  simp only [← List.append_assoc] at hscope
  exact hscope

theorem hasLayout_of_struct {type : Ty} (h : isStructType types type) : hasLayout types type := by
  cases type with
  | named name =>
    rw [hasLayout, ctype]
    split_ifs <;> simp
  | _ => simp [isStructType, structOf] at h

/-- Some order of the array types is one that `qsort` may leave. -/
theorem exists_sorted (l : List Ty) :
  ∃ arrays : List Ty, arrays.Perm l ∧ arrays.Pairwise (fun left right => depthType left ≤ depthType right)
  := by
  have htotal : Std.Total (fun left right : Ty => depthType left ≤ depthType right) :=
    ⟨fun left right => le_total (depthType left) (depthType right)⟩
  have htrans : IsTrans Ty (fun left right : Ty => depthType left ≤ depthType right) :=
    ⟨fun _ _ _ => le_trans⟩
  exact ⟨_, List.perm_insertionSort _ l, List.pairwise_insertionSort _ l⟩

end

theorem distinctNames_typeTable {p : Program} (h : p.typeTable = .ok types) : DistinctNames types := by
  unfold Program.typeTable at h
  cases hbuild : buildTypeTable p.typeDecls with
  | error e =>
    rw [hbuild] at h
    cases h
  | ok built =>
    rw [hbuild] at h
    cases h
    exact (distinctNames_buildTypeTable hbuild).foldl_markStructOpen p.opened

theorem closedStructs_names (types : TypeTable) :
  ((closedStructs types).map Prod.fst).Sublist (types.map TypeInfo.name)
  := by
  induction types with
  | nil => exact List.Sublist.slnil
  | cons info types ih =>
    obtain ⟨name, ⟨target, value⟩ | ⟨fields, _ | _⟩⟩ := info
    · exact ih.cons name
    · exact ih.cons_cons name
    · exact ih.cons name

/-- No fixed `MAP` of an ordered program holds itself by value, directly or through others. -/
theorem InOrder.not_holdsByValue {p : Program} (h : InOrder types p) (hdistinct : DistinctNames types)
    (name : String) :
  ¬ Relation.TransGen (HoldsByValue types) name name
  := by
  have hnodup := (closedStructs_names types).nodup hdistinct
  have hstep : ∀ outer inner, HoldsByValue types outer inner →
      ((closedStructs types).map Prod.fst).idxOf inner < ((closedStructs types).map Prod.fst).idxOf outer := by
    rintro outer inner ⟨fields, hmem, hclosed, field, hfield, htype⟩
    obtain ⟨before, behind, heq⟩ := List.append_of_mem hmem
    have hinner := (h.fields before _ behind heq field hfield).2.1 inner htype hclosed
    rw [heq, List.map_append, List.map_cons] at hnodup ⊢
    have houter : outer ∉ before.map Prod.fst := fun hin =>
      (List.nodup_append.mp hnodup).2.2 outer hin outer List.mem_cons_self rfl
    rw [List.idxOf_append_of_mem hinner, List.idxOf_append_of_notMem houter]
    have hlt := List.idxOf_lt_length_of_mem hinner
    omega
  have hless : ∀ outer inner, Relation.TransGen (HoldsByValue types) outer inner →
      ((closedStructs types).map Prod.fst).idxOf inner < ((closedStructs types).map Prod.fst).idxOf outer := by
    intro outer inner hholds
    induction hholds with
    | single hfirst => exact hstep _ _ hfirst
    | tail _ hlast ih => exact lt_trans (hstep _ _ hlast) ih
  exact fun hcycle => lt_irrefl _ (hless name name hcycle)

/-- Every type name of an emitted file is declared before it is mentioned and complete before
its layout is used, and no fixed `MAP` holds itself, when the types of the program suit the
order of their declarations. -/
theorem declaredInOrder_iff (p : Program) (types : TypeTable) (htable : p.typeTable = .ok types) :
  DeclaredInOrder types p ∧ (∀ name, ¬ Relation.TransGen (HoldsByValue types) name name) ↔ InOrder types p
  := by
  have hdistinct := distinctNames_typeTable htable
  have huses := fun {arrays : List Ty} (hperm : arrays.Perm (collect types p).arrayTypes) =>
    wellOrdered_typeUses_iff hdistinct hperm (scopeOf_emitTypes types p arrays)
  constructor
  · rintro ⟨h, _⟩
    obtain ⟨arrays, hperm, hsorted⟩ := exists_sorted (collect types p).arrayTypes
    have hfile := h arrays hperm hsorted
    rw [wellOrdered_file_iff hdistinct hperm, huses hperm] at hfile
    obtain ⟨hfn, _, hstruct, ⟨hmaps, helems⟩, hrefs, hstorages, hresults⟩ := hfile
    have harrays := arraySections_iff.mp fun arrays hperm hsorted =>
      ((wellOrdered_file_iff hdistinct hperm).mp (h arrays hperm hsorted)).2.1
    constructor
    · intro input output hmem part hpart
      obtain ⟨before, behind, heq⟩ := List.append_of_mem (mem_fnTypes.mpr ⟨hmem, rfl⟩)
      exact (declaredIn_before_fn_iff heq).mp (hfn before _ behind heq part hpart)
    · intro elem hmem
      exact ⟨helems elem hmem, (harrays elem hmem).2⟩
    · exact hmaps
    · intro before struct behind hclosed field hmem
      obtain ⟨hstorable, hname⟩ := hstruct before struct behind hclosed field hmem
      refine ⟨hstorable, hname, fun target htarget => ?_⟩
      by_cases hst : isStructType types target
      · exact hasLayout_of_struct hst
      · have htargets := hrefs struct (hclosed ▸ by simp) field hmem target htarget hst
        rw [storable, Bool.and_eq_true] at htargets
        exact htargets.2
    · exact hstorages
    · exact hresults
  · intro h
    refine ⟨fun arrays hperm hsorted => ?_, h.not_holdsByValue hdistinct⟩
    rw [wellOrdered_file_iff hdistinct hperm, huses hperm]
    have hstorable : ∀ elem, .ARR elem ∈ p.mentions types → hasTypeDecl elem := by
      intro elem hmem
      have helem := (h.arrays elem hmem).1
      rw [storable, Bool.and_eq_true] at helem
      exact helem.1
    have harrays := arraySections_iff.mpr (fun elem hmem => ⟨hstorable elem hmem, (h.arrays elem hmem).2⟩)
      arrays hperm hsorted
    refine ⟨?_, harrays, ?_, ⟨h.maps, fun elem hmem => (h.arrays elem hmem).1⟩, ?_, h.storages, h.results⟩
    · intro before fn behind heq part hpart
      rw [declaredIn_before_fn_iff heq]
      have hmem := mem_fnTypes.mp (heq ▸ (by simp : fn ∈ before ++ fn :: behind))
      cases fn with
      | FN input output => exact h.fns input output hmem.1 part hpart
      | _ => cases hmem.2
    · intro before struct behind hclosed field hmem
      obtain ⟨hstored, hname, _⟩ := h.fields before struct behind hclosed field hmem
      exact ⟨hstored, hname⟩
    · intro struct hstruct field hmem target htarget _
      obtain ⟨before, behind, hclosed⟩ := List.append_of_mem hstruct
      obtain ⟨hstored, _, hlayout⟩ := h.fields before struct behind hclosed field hmem
      rw [storable, Bool.and_eq_true] at hstored ⊢
      rw [htarget] at hstored
      exact ⟨hstored.1, hlayout target htarget⟩

/-- A program with a fixed `MAP` in another one that is declared before it. -/
def backwardField : Program where
  typeDecls := [
    .struct "Inner" [] [{ name := "x", declaredType := .ARR .INT, text := "ARR[INT]", value := none }],
    .struct "Outer" [] [{ name := "inner", declaredType := .named "Inner", text := "Inner", value := none }]]
  opened := []
  globals := []
  functions := []
  statements := []

/-- The file of a program whose fixed `MAP`s are declared in order. -/
theorem declaredInOrder_iff_backwardField :
  ∃ types, backwardField.typeTable = .ok types ∧
    (DeclaredInOrder types backwardField ∧
      (∀ name, ¬ Relation.TransGen (HoldsByValue types) name name) ↔ InOrder types backwardField)
  := ⟨_, rfl, declaredInOrder_iff backwardField _ rfl⟩

/-- A program with a fixed `MAP` in another one that is declared behind it. -/
def forwardField : Program := { backwardField with typeDecls := backwardField.typeDecls.reverse }

/-- A field of a fixed `MAP` that is declared behind is printed before its type is complete. -/
theorem not_declaredInOrder :
  ¬ ∀ (p : Program) (types : TypeTable), p.typeTable = .ok types →
    DeclaredInOrder types p ∧ ∀ name, ¬ Relation.TransGen (HoldsByValue types) name name
  := by
  intro h
  obtain ⟨hordered, _⟩ := h forwardField _ rfl
  have hfile := hordered [.ARR .INT] (by decide) (List.pairwise_singleton _ _)
  revert hfile
  decide

end Caster
