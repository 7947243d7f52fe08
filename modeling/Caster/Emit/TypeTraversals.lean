import Caster.Conform.Decodable
import Caster.Emit.Drop
import Caster.Emit.TypeOrder

/-!
# Traversals of types

The collector of the types that are decoded follows fields, elements and map values without looking
whether it has been at a type before, so that it ends if and only if no type it comes to leads back
to itself.  The collector of the types in use does not follow fields, and the test for a drop counts
its levels.
-/

namespace Caster

variable {types : TypeTable}

/-! ### Parts -/

/-- What the collector of the types that are decoded follows. -/
inductive TypePart (types : TypeTable) : Ty → Ty → Prop where
  | field {type : Ty} {fields : List Field} {openRuntime : Bool} {field : Field} :
      structOf types type = some (fields, openRuntime) → field ∈ fields →
      TypePart types type field.declaredType
  | elem (elem : Ty) : TypePart types (.ARR elem) elem
  | value (key value : Ty) : TypePart types (.MAP key value) value

/-- A type that leads back to itself. -/
def IsRecursive (types : TypeTable) (type : Ty) : Prop :=
  Relation.TransGen (TypePart types) type type

/-- No type leads back to itself that a type leads to. -/
def NoneRecursive (types : TypeTable) (type : Ty) : Prop :=
  ∀ part, Relation.ReflTransGen (TypePart types) type part → ¬ IsRecursive types part

theorem not_part_of_hasNoDecoder {type part : Ty} (h : HasNoDecoder types type) :
  ¬ TypePart types type part
  := by
  obtain ⟨hstruct, hmap, harr⟩ := h
  intro hpart
  cases hpart with
  | field hfields _ =>
    rw [hstruct] at hfields
    cases hfields
  | elem _ => cases harr
  | value _ _ => cases hmap

/-- A fixed `MAP` is declared in the table. -/
theorem info_of_structOf {type : Ty} {fields : List Field} {openRuntime : Bool}
    (h : structOf types type = some (fields, openRuntime)) :
  ∃ info ∈ types, info.kind = .struct fields openRuntime
  := by
  unfold structOf at h
  split at h
  · rename_i name
    split at h
    · rename_i found hfound
      cases h
      exact ⟨_, List.mem_of_find?_eq_some hfound, rfl⟩
    · cases h
  · cases h

/-- A type with the elements and map values in it. -/
def withElements : Ty → List Ty
  | .ARR elem => .ARR elem :: withElements elem
  | .MAP key value => .MAP key value :: withElements value
  | type => [type]

theorem mem_withElements (type : Ty) : type ∈ withElements type := by
  cases type with
  | ARR elem => exact List.mem_cons_self
  | MAP key value => exact List.mem_cons_self
  | _ => exact List.mem_singleton_self _

/-- The elements and map values in a type stay in it. -/
theorem withElements_closed {type inner part : Ty} (hinner : inner ∈ withElements type)
    (hpart : (∃ elem, inner = .ARR elem ∧ part = elem) ∨
      ∃ key value, inner = .MAP key value ∧ part = value) :
  part ∈ withElements type
  := by
  induction type with
  | ARR elem ih =>
    rcases List.mem_cons.mp hinner with rfl | hinner
    · obtain ⟨elem', heq, rfl⟩ | ⟨key, value, heq, -⟩ := hpart
      · cases heq
        exact List.mem_cons_of_mem _ (mem_withElements _)
      · cases heq
    · exact List.mem_cons_of_mem _ (ih hinner)
  | MAP key value _ ih =>
    rcases List.mem_cons.mp hinner with rfl | hinner
    · obtain ⟨elem', heq, -⟩ | ⟨key', value', heq, rfl⟩ := hpart
      · cases heq
      · cases heq
        exact List.mem_cons_of_mem _ (mem_withElements _)
    · exact List.mem_cons_of_mem _ (ih hinner)
  | _ =>
    obtain rfl := List.mem_singleton.mp hinner
    obtain ⟨elem', heq, -⟩ | ⟨key, value, heq, -⟩ := hpart
    · cases heq
    · cases heq

/-- The types of the fields of a declaration. -/
def fieldTypes (info : TypeInfo) : List Ty :=
  match info.kind with
  | .struct fields _ => fields.flatMap fun field => withElements field.declaredType
  | .alias _ _ => []

/-- All types a type can lead to. -/
def typesFrom (types : TypeTable) (type : Ty) : List Ty :=
  withElements type ++ types.flatMap fieldTypes

theorem typesFrom_closed {type inner part : Ty} (hinner : inner ∈ typesFrom types type)
    (hpart : TypePart types inner part) :
  part ∈ typesFrom types type
  := by
  have hstep (h : (∃ elem, inner = .ARR elem ∧ part = elem) ∨
      ∃ key value, inner = .MAP key value ∧ part = value) : part ∈ typesFrom types type := by
    rcases List.mem_append.mp hinner with hinner | hinner
    · exact List.mem_append_left _ (withElements_closed hinner h)
    · apply List.mem_append_right
      obtain ⟨info, hinfo, hinner⟩ := List.mem_flatMap.mp hinner
      apply List.mem_flatMap.mpr ⟨info, hinfo, _⟩
      unfold fieldTypes at hinner ⊢
      split at hinner
      · obtain ⟨field, hfield, hinner⟩ := List.mem_flatMap.mp hinner
        exact List.mem_flatMap.mpr ⟨field, hfield, withElements_closed hinner h⟩
      · cases hinner
  cases hpart with
  | @field _ fields openRuntime field hstruct hfield =>
    apply List.mem_append_right
    obtain ⟨info, hinfo, hkind⟩ := info_of_structOf hstruct
    apply List.mem_flatMap.mpr ⟨info, hinfo, _⟩
    unfold fieldTypes
    rw [hkind]
    exact List.mem_flatMap.mpr ⟨field, hfield, mem_withElements _⟩
  | elem _ => exact hstep (Or.inl ⟨_, rfl, rfl⟩)
  | value _ _ => exact hstep (Or.inr ⟨_, _, rfl, rfl⟩)

/-- A type leads to finitely many types. -/
theorem finite_reachable (types : TypeTable) (type : Ty) :
  {part | Relation.ReflTransGen (TypePart types) type part}.Finite
  := by
  apply (List.finite_toSet (typesFrom types type)).subset
  intro part hpart
  induction hpart with
  | refl => exact List.mem_append_left _ (mem_withElements type)
  | tail _ hstep ih => exact typesFrom_closed ih hstep

/-! ### Relations that end -/

theorem not_rel_of_acc {α : Type} {r : α → α → Prop} {a : α} (h : Acc r a) : ¬ r a a := by
  induction h with
  | intro a _ ih => exact fun hrel => ih a hrel hrel

/-- Where finitely many elements are reached, every path ends if and only if none leads back. -/
theorem acc_iff_not_transGen {α : Type} {r : α → α → Prop} {a : α}
    (hfinite : {b | Relation.ReflTransGen r a b}.Finite) :
  Acc (Function.swap r) a ↔ ∀ b, Relation.ReflTransGen r a b → ¬ Relation.TransGen r b b
  := by
  constructor
  · intro hacc b hb
    have haccb : Acc (Function.swap r) b := by
      induction hb with
      | refl => exact hacc
      | tail _ hstep ih => exact Acc.inv ih hstep
    intro hloop
    exact not_rel_of_acc haccb.transGen (Relation.transGen_swap.mpr hloop)
  · intro hnone
    let R : {b | Relation.ReflTransGen r a b} → {b | Relation.ReflTransGen r a b} → Prop :=
      fun c b => Relation.TransGen r b.1 c.1
    have : Finite {b | Relation.ReflTransGen r a b} := hfinite
    have : IsTrans _ R := ⟨fun _ _ _ hcb hba => hba.trans hcb⟩
    have : Std.Irrefl R := ⟨fun b => hnone b.1 b.2⟩
    have hwell : WellFounded R := Finite.wellFounded_of_trans_of_irrefl R
    have hacc : ∀ b : {b | Relation.ReflTransGen r a b}, Acc (Function.swap r) b.1 := by
      intro b
      induction b using hwell.induction with
      | _ b ih =>
        constructor
        intro c hc
        exact ih ⟨c, b.2.tail hc⟩ (Relation.TransGen.single hc)
    exact hacc ⟨a, Relation.ReflTransGen.refl⟩

/-! ### The types that are decoded -/

/-- The collection ends, whatever was collected before, and however much fuel there is on top. -/
def CollectionEnds (types : TypeTable) (fuel : ℕ) (type : Ty) : Prop :=
  ∀ helpers, ∃ helpers', addJsonDecodeType types fuel helpers type = some helpers'

theorem collectionEnds_fields {fuel : ℕ} {fields : List Field}
    (h : ∀ field ∈ fields, CollectionEnds types fuel field.declaredType) (helpers : List Ty) :
  ∃ helpers', fields.foldlM
      (fun helpers field => addJsonDecodeType types fuel helpers field.declaredType) helpers =
        some helpers'
  := by
  induction fields generalizing helpers with
  | nil => exact ⟨helpers, rfl⟩
  | cons field fields ih =>
    obtain ⟨hfirst, hrest⟩ := List.forall_mem_cons.mp h
    obtain ⟨middle, hmiddle⟩ := hfirst helpers
    obtain ⟨final, hfinal⟩ := ih hrest middle
    rw [List.foldlM_cons, hmiddle]
    exact ⟨final, hfinal⟩

/-- The collection ends where every path through the parts ends. -/
theorem collectionEnds_of_acc {type : Ty} (h : Acc (Function.swap (TypePart types)) type) :
  ∃ fuel, ∀ more, CollectionEnds types (fuel + more) type
  := by
  induction h with
  | intro type _ ih =>
    obtain ⟨fields, openRuntime, hstruct⟩ | ⟨key, value, rfl⟩ | ⟨elem, rfl⟩ | hleaf :=
      decoder_cases types type
    · have hfields : ∀ field ∈ fields,
          ∃ fuel, ∀ more, CollectionEnds types (fuel + more) field.declaredType :=
        fun field hfield => ih field.declaredType (TypePart.field hstruct hfield)
      obtain ⟨fuel, hfuel⟩ :=
        exists_common_fuel (P := fun field fuel => CollectionEnds types fuel field.declaredType)
          hfields
      refine ⟨fuel + 1, fun more helpers => ?_⟩
      rw [Nat.add_right_comm, addJsonDecodeType_struct hstruct]
      exact collectionEnds_fields (fun field hfield => hfuel field hfield more) _
    · obtain ⟨fuel, hfuel⟩ := ih value (TypePart.value key value)
      refine ⟨fuel + 1, fun more helpers => ?_⟩
      rw [Nat.add_right_comm, addJsonDecodeType_map]
      exact hfuel more _
    · obtain ⟨fuel, hfuel⟩ := ih elem (TypePart.elem elem)
      refine ⟨fuel + 1, fun more helpers => ?_⟩
      rw [Nat.add_right_comm, addJsonDecodeType_arr]
      exact hfuel more _
    · refine ⟨1, fun more helpers => ⟨helpers, ?_⟩⟩
      rw [Nat.add_comm, addJsonDecodeType_leaf hleaf]

/-- What a collection has added. -/
structure Collected (types : TypeTable) (helpers helpers' : List Ty) : Prop where
  subset : helpers ⊆ helpers'
  closed : ∀ helper ∈ helpers', helper ∈ helpers ∨
    ∀ part, TypePart types helper part → ¬ HasNoDecoder types part → part ∈ helpers'

theorem Collected.refl (helpers : List Ty) : Collected types helpers helpers :=
  ⟨List.Subset.refl _, fun _ hmem => Or.inl hmem⟩

theorem Collected.trans {helpers middle helpers' : List Ty} (h : Collected types helpers middle)
    (h' : Collected types middle helpers') :
  Collected types helpers helpers'
  := by
  refine ⟨List.Subset.trans h.subset h'.subset, fun helper hmem => ?_⟩
  rcases h'.closed helper hmem with hmiddle | hparts
  · rcases h.closed helper hmiddle with hfirst | hparts
    · exact Or.inl hfirst
    · exact Or.inr fun part hpart hdecoder => h'.subset (hparts part hpart hdecoder)
  · exact Or.inr hparts

/-- A type is put in front of its parts. -/
theorem Collected.push {helpers helpers' : List Ty} {type : Ty}
    (h : Collected types (pushType helpers type) helpers')
    (hparts : ∀ part, TypePart types type part → ¬ HasNoDecoder types part → part ∈ helpers') :
  Collected types helpers helpers'
  := by
  refine ⟨List.Subset.trans (subset_pushType _ _) h.subset, fun helper hmem => ?_⟩
  rcases h.closed helper hmem with hpushed | hclosed
  · rcases mem_pushType_iff hpushed with hfirst | rfl
    · exact Or.inl hfirst
    · exact Or.inr hparts
  · exact Or.inr hclosed

/-- A collection that ends adds a type with all that it leads to, and every path ends. -/
theorem collected_of_eq_some {fuel : ℕ} {helpers helpers' : List Ty} {type : Ty}
    (h : addJsonDecodeType types fuel helpers type = some helpers') :
  Collected types helpers helpers' ∧ (¬ HasNoDecoder types type → type ∈ helpers') ∧
    Acc (Function.swap (TypePart types)) type
  := by
  induction fuel generalizing helpers helpers' type with
  | zero => cases h
  | succ fuel ih =>
    obtain ⟨fields, openRuntime, hstruct⟩ | ⟨key, value, rfl⟩ | ⟨elem, rfl⟩ | hleaf :=
      decoder_cases types type
    · rw [addJsonDecodeType_struct hstruct] at h
      have hfields : ∀ (fields : List Field) (start : List Ty),
          fields.foldlM (fun helpers field =>
            addJsonDecodeType types fuel helpers field.declaredType) start = some helpers' →
          Collected types start helpers' ∧ ∀ field ∈ fields,
            (¬ HasNoDecoder types field.declaredType → field.declaredType ∈ helpers') ∧
              Acc (Function.swap (TypePart types)) field.declaredType := by
        intro fields
        induction fields with
        | nil =>
          intro start hstart
          cases hstart
          exact ⟨Collected.refl _, by simp⟩
        | cons field fields ihf =>
          intro start hstart
          rw [List.foldlM_cons] at hstart
          obtain ⟨middle, hmiddle, hrest⟩ := Option.bind_eq_some_iff.mp hstart
          obtain ⟨hcollected, hmem, hacc⟩ := ih hmiddle
          obtain ⟨hcollected', hothers⟩ := ihf middle hrest
          refine ⟨hcollected.trans hcollected', List.forall_mem_cons.mpr ⟨⟨?_, hacc⟩, hothers⟩⟩
          exact fun hdecoder => hcollected'.subset (hmem hdecoder)
      obtain ⟨hcollected, hparts⟩ := hfields fields _ h
      have hfield : ∀ part, TypePart types type part →
          (¬ HasNoDecoder types part → part ∈ helpers') ∧
            Acc (Function.swap (TypePart types)) part := by
        intro part hpart
        cases hpart with
        | field hstruct' hmem =>
          cases hstruct.symm.trans hstruct'
          exact hparts _ hmem
        | elem _ => cases hstruct
        | value _ _ => cases hstruct
      refine ⟨hcollected.push fun part hpart => (hfield part hpart).1,
        fun _ => hcollected.subset (mem_pushType _ _), ?_⟩
      exact Acc.intro _ fun part hpart => (hfield part hpart).2
    · rw [addJsonDecodeType_map] at h
      obtain ⟨hcollected, hmem, hacc⟩ := ih h
      have hvalue : ∀ part, TypePart types (.MAP key value) part → part = value := by
        intro part hpart
        cases hpart with
        | field hstruct _ => cases hstruct
        | value _ _ => rfl
      refine ⟨hcollected.push ?_, fun _ => hcollected.subset (mem_pushType _ _), ?_⟩
      · rintro part hpart
        rw [hvalue part hpart]
        exact hmem
      · exact Acc.intro _ fun part hpart => hvalue part hpart ▸ hacc
    · rw [addJsonDecodeType_arr] at h
      obtain ⟨hcollected, hmem, hacc⟩ := ih h
      have helem : ∀ part, TypePart types (.ARR elem) part → part = elem := by
        intro part hpart
        cases hpart with
        | field hstruct _ => cases hstruct
        | elem _ => rfl
      refine ⟨hcollected.push ?_, fun _ => hcollected.subset (mem_pushType _ _), ?_⟩
      · rintro part hpart
        rw [helem part hpart]
        exact hmem
      · exact Acc.intro _ fun part hpart => helem part hpart ▸ hacc
    · rw [addJsonDecodeType_leaf hleaf] at h
      cases h
      refine ⟨Collected.refl _, fun hdecoder => absurd hleaf hdecoder, ?_⟩
      exact Acc.intro _ fun part hpart => absurd hpart (not_part_of_hasNoDecoder hleaf)

/-! ### The types in use -/

/-- What the collector of the types in use follows, behind references and tasks. -/
inductive UsePart : Ty → Ty → Prop where
  | elem (elem : Ty) : UsePart (.ARR elem) elem
  | key (key value : Ty) : UsePart (.MAP key value) key
  | value (key value : Ty) : UsePart (.MAP key value) value
  | input (input output : Ty) : UsePart (.FN input output) input
  | output (input output : Ty) : UsePart (.FN input output) output

/-- The list a type is collected in. -/
def EmitCtx.listOf (ctx : EmitCtx) : Ty → List Ty
  | .ARR _ => ctx.arrayTypes
  | .MAP _ _ => ctx.mapTypes
  | .FN _ _ => ctx.fnTypes
  | _ => []

/-- A type is collected, if it is one that is. -/
def EmitCtx.Has (ctx : EmitCtx) : Ty → Prop
  | .ARR .unknown => True
  | .ARR elem => .ARR elem ∈ ctx.arrayTypes
  | .MAP key value => .MAP key value ∈ ctx.mapTypes
  | .FN input output => .FN input output ∈ ctx.fnTypes
  | .REF target => ctx.Has target
  | .TSK target => ctx.Has target
  | _ => True

/-- The parts of the collected types are collected. -/
def EmitCtx.Closed (ctx : EmitCtx) : Prop :=
  ∀ type ∈ ctx.listOf type, ∀ part, UsePart type part → ctx.Has part

/-- What the use of a type has added. -/
structure UsesAdded (ctx ctx' : EmitCtx) : Prop where
  subset : ∀ type ∈ ctx.listOf type, type ∈ ctx'.listOf type
  closed : ∀ type ∈ ctx'.listOf type, type ∈ ctx.listOf type ∨
    ∀ part, UsePart type part → ctx'.Has part

section

variable {ctx middle ctx' : EmitCtx}

theorem EmitCtx.Has.of_subset (h : ∀ type ∈ ctx.listOf type, type ∈ ctx'.listOf type) {type : Ty}
    (hhas : ctx.Has type) :
  ctx'.Has type
  := by
  induction type with
  | ARR elem _ =>
    cases elem with
    | unknown => trivial
    | _ => exact h _ hhas
  | MAP key value _ _ => exact h (.MAP key value) hhas
  | FN input output _ _ => exact h (.FN input output) hhas
  | REF target ih => exact ih hhas
  | TSK target ih => exact ih hhas
  | _ => trivial

theorem UsesAdded.of_listOf_eq (h : ctx'.listOf = ctx.listOf) : UsesAdded ctx ctx' := by
  refine ⟨fun type hmem => ?_, fun type hmem => Or.inl ?_⟩
  · rwa [h]
  · rwa [h] at hmem

theorem UsesAdded.trans (h : UsesAdded ctx middle) (h' : UsesAdded middle ctx') :
  UsesAdded ctx ctx'
  := by
  refine ⟨fun type hmem => h'.subset type (h.subset type hmem), fun type hmem => ?_⟩
  rcases h'.closed type hmem with hmiddle | hparts
  · rcases h.closed type hmiddle with hfirst | hparts
    · exact Or.inl hfirst
    · exact Or.inr fun part hpart => (hparts part hpart).of_subset h'.subset
  · exact Or.inr hparts

theorem UsesAdded.closed' (h : UsesAdded ctx ctx') (hclosed : ctx.Closed) : ctx'.Closed := by
  intro type hmem part hpart
  rcases h.closed type hmem with hfirst | hparts
  · exact (hclosed type hfirst part hpart).of_subset h.subset
  · exact hparts part hpart

/-- A type is put in front of its parts. -/
theorem UsesAdded.push {type : Ty} (h : UsesAdded middle ctx')
    (hlist : ∀ other, other ∈ middle.listOf other ↔ other ∈ ctx.listOf other ∨ other = type)
    (hparts : ∀ part, UsePart type part → ctx'.Has part) :
  UsesAdded ctx ctx' ∧ type ∈ ctx'.listOf type
  := by
  have hpushed : type ∈ ctx'.listOf type := h.subset type ((hlist type).mpr (Or.inr rfl))
  refine ⟨⟨fun other hmem => h.subset other ((hlist other).mpr (Or.inl hmem)),
    fun other hmem => ?_⟩, hpushed⟩
  rcases h.closed other hmem with hmiddle | hclosed
  · rcases (hlist other).mp hmiddle with hfirst | rfl
    · exact Or.inl hfirst
    · exact Or.inr hparts
  · exact Or.inr hclosed

end

theorem mem_vecPushNew_iff {v : List Ty} {type other : Ty} :
  other ∈ vecPushNew v type ↔ other ∈ v ∨ other = type
  := by
  unfold vecPushNew
  split
  · rename_i hmem
    constructor
    · exact Or.inl
    · rintro (hother | rfl)
      · exact hother
      · exact hmem
  · simp

theorem addTypeUse_arr (ctx : EmitCtx) {elem : Ty} (h : elem ≠ .unknown) :
  addTypeUse types ctx (.ARR elem) =
    addTypeUse types { ctx with arrayTypes := vecPushNew ctx.arrayTypes (.ARR elem) } elem
  := by
  cases elem with
  | unknown => exact absurd rfl h
  | _ => rfl

theorem EmitCtx.has_arr {ctx : EmitCtx} {elem : Ty} (h : .ARR elem ∈ ctx.arrayTypes) :
  ctx.Has (.ARR elem)
  := by
  cases elem with
  | unknown => trivial
  | _ => exact h

/-- The use of a type adds the type and its parts. -/
theorem usesAdded_addTypeUse (type : Ty) (ctx : EmitCtx) :
  UsesAdded ctx (addTypeUse types ctx type) ∧ (addTypeUse types ctx type).Has type
  := by
  induction type generalizing ctx with
  | REF target ih => exact ih ctx
  | TSK target ih =>
    rw [addTypeUse]
    have hflags : UsesAdded ctx { ctx with usesReq := true, usesStr := true } :=
      .of_listOf_eq rfl
    obtain ⟨hadded, hhas⟩ := ih { ctx with usesReq := true, usesStr := true }
    exact ⟨hflags.trans hadded, hhas⟩
  | ARR elem ih =>
    by_cases hunknown : elem = .unknown
    · subst hunknown
      exact ⟨UsesAdded.of_listOf_eq rfl, trivial⟩
    · rw [addTypeUse_arr ctx hunknown]
      obtain ⟨hadded, hhas⟩ := ih { ctx with arrayTypes := vecPushNew ctx.arrayTypes (.ARR elem) }
      apply And.imp_right EmitCtx.has_arr
      apply hadded.push
      · intro other
        cases other with
        | ARR _ => exact mem_vecPushNew_iff
        | _ => simp [EmitCtx.listOf]
      · intro part hpart
        cases hpart
        exact hhas
  | MAP key value ihk ihv =>
    rw [addTypeUse]
    obtain ⟨hadded, hhas⟩ := ihk { ctx with
      usesMap := true, mapTypes := vecPushNew ctx.mapTypes (.MAP key value) }
    obtain ⟨hadded', hhas'⟩ := ihv (addTypeUse types { ctx with
      usesMap := true, mapTypes := vecPushNew ctx.mapTypes (.MAP key value) } key)
    apply (hadded.trans hadded').push
    · intro other
      cases other with
      | MAP _ _ => exact mem_vecPushNew_iff
      | _ => simp [EmitCtx.listOf]
    · intro part hpart
      cases hpart with
      | key => exact hhas.of_subset hadded'.subset
      | value => exact hhas'
  | FN input output ihi iho =>
    rw [addTypeUse]
    obtain ⟨hadded, hhas⟩ := ihi { ctx with fnTypes := vecPushNew ctx.fnTypes (.FN input output) }
    obtain ⟨hadded', hhas'⟩ := iho (addTypeUse types { ctx with
      fnTypes := vecPushNew ctx.fnTypes (.FN input output) } input)
    apply (hadded.trans hadded').push
    · intro other
      cases other with
      | FN _ _ => exact mem_vecPushNew_iff
      | _ => simp [EmitCtx.listOf]
    · intro part hpart
      cases hpart with
      | input => exact hhas.of_subset hadded'.subset
      | output => exact hhas'
  | named name =>
    rw [addTypeUse]
    split
    · exact ⟨UsesAdded.of_listOf_eq rfl, trivial⟩
    · exact ⟨UsesAdded.of_listOf_eq rfl, trivial⟩
  | _ => exact ⟨UsesAdded.of_listOf_eq rfl, trivial⟩

/-! ### The test for a drop -/

/-- `type_needs_drop_depth` call by call: no answer without fuel for the calls in it. -/
def typeNeedsDropCalls (types : TypeTable) : ℕ → ℕ → Ty → Option Bool
  | 0, _, _ => none
  | fuel + 1, depth, type =>
    if 16 < depth then some false
    else
      match type with
      | .STR | .OBJ | .OPEN | .ARR _ | .MAP _ _ | .TSK _ | .REF _ => some true
      | type =>
        match structOf types type with
        | some (_, true) => some true
        | some (fields, false) => fields.anyM fun field =>
            if isRefType field.declaredType then some true
            else typeNeedsDropCalls types fuel (depth + 1) field.declaredType
        | none => some false

theorem anyM_eq_some {α : Type} {f : α → Option Bool} {p : α → Bool} {l : List α}
    (h : ∀ a ∈ l, f a = some (p a)) :
  l.anyM f = some (l.any p)
  := by
  induction l with
  | nil => rfl
  | cons a l ih =>
    obtain ⟨hfirst, hrest⟩ := List.forall_mem_cons.mp h
    rw [List.anyM, hfirst, List.any_cons]
    cases p a with
    | true => rfl
    | false => exact ih hrest

/-- Eighteen levels of calls are enough for an answer. -/
theorem typeNeedsDropCalls_eq {fuel depth : ℕ} (hfuel : 18 ≤ fuel + depth) (hdepth : depth ≤ 17)
    (type : Ty) :
  typeNeedsDropCalls types fuel depth type = some (typeNeedsDropDepth types (17 - depth) type)
  := by
  induction fuel generalizing depth type with
  | zero => omega
  | succ fuel ih =>
    by_cases hdeep : 16 < depth
    · obtain rfl : depth = 17 := by omega
      unfold typeNeedsDropCalls
      exact if_pos hdeep
    · obtain ⟨left, hleft⟩ : ∃ left, 17 - depth = left + 1 := ⟨16 - depth, by omega⟩
      have hrest : 17 - (depth + 1) = left := by omega
      have hfields (fields : List Field) :
          (fields.anyM fun field =>
            if isRefType field.declaredType then some true
            else typeNeedsDropCalls types fuel (depth + 1) field.declaredType) =
          some (fields.any fun field =>
            isRefType field.declaredType || typeNeedsDropDepth types left field.declaredType) := by
        apply anyM_eq_some
        intro field _
        have hfield := @ih (depth + 1) (by omega) (by omega) field.declaredType
        rw [hrest] at hfield
        cases isRefType field.declaredType with
        | true => rfl
        | false => exact hfield
      rw [hleft]
      cases type with
      | named name =>
        simp only [typeNeedsDropCalls, typeNeedsDropDepth, if_neg hdeep]
        cases hstruct : structOf types (.named name) with
        | none => rfl
        | some found =>
          obtain ⟨fields, openRuntime⟩ := found
          cases openRuntime with
          | true => rfl
          | false => exact hfields fields
      | _ => simp [typeNeedsDropCalls, typeNeedsDropDepth, hdeep, structOf]

/-! ### All traversals -/

/-- The traversals that start from a type end, with sets that are closed. -/
structure TraversalsEnd (types : TypeTable) (type : Ty) : Prop where
  decoded : ∀ helpers, (∀ helper ∈ helpers, ∀ part, TypePart types helper part →
      ¬ HasNoDecoder types part → part ∈ helpers) →
    ∃ fuel helpers', addJsonDecodeType types fuel helpers type = some helpers' ∧
      (¬ HasNoDecoder types type → type ∈ helpers') ∧
      ∀ helper ∈ helpers', ∀ part, TypePart types helper part →
        ¬ HasNoDecoder types part → part ∈ helpers'
  used : ∀ ctx : EmitCtx, ctx.Closed →
    (addTypeUse types ctx type).Has type ∧ (addTypeUse types ctx type).Closed
  drops : ∃ fuel, typeNeedsDropCalls types fuel 0 type = some (typeNeedsDrop types type)

/-- The traversals from a type end if and only if it leads to no type that leads back to itself. -/
theorem traversalsEnd_iff (types : TypeTable) (type : Ty) :
  TraversalsEnd types type ↔ NoneRecursive types type
  := by
  have hacc : Acc (Function.swap (TypePart types)) type ↔ NoneRecursive types type :=
    acc_iff_not_transGen (finite_reachable types type)
  rw [← hacc]
  constructor
  · intro h
    obtain ⟨fuel, helpers', hcollected, -⟩ :=
      h.decoded [] fun helper hhelper => absurd hhelper List.not_mem_nil
    exact (collected_of_eq_some hcollected).2.2
  · intro h
    refine ⟨fun helpers hclosed => ?_, fun ctx hclosed => ?_, 18, typeNeedsDropCalls_eq ?_ ?_ type⟩
    · obtain ⟨fuel, hfuel⟩ := collectionEnds_of_acc h
      obtain ⟨helpers', hcollected⟩ := hfuel 0 helpers
      obtain ⟨hadded, hmem, -⟩ := collected_of_eq_some hcollected
      refine ⟨fuel + 0, helpers', hcollected, hmem, fun helper hhelper => ?_⟩
      rcases hadded.closed helper hhelper with hfirst | hparts
      · exact fun part hpart hdecoder => hadded.subset (hclosed helper hfirst part hpart hdecoder)
      · exact hparts
    · obtain ⟨hadded, hhas⟩ := @usesAdded_addTypeUse types type ctx
      exact ⟨hhas, hadded.closed' hclosed⟩
    · omega
    · omega

/-- The type `Tree` of a value and of an array of trees. -/
def treeDecl : TypeDecl :=
  .struct "Tree" [] [⟨"value", .INT, "INT", some (.expr (.int (Info.ofType .INT) 0))⟩,
    ⟨"kids", .ARR (.named "Tree"), "ARR[Tree]",
      some (.expr (.array (Info.ofType (.ARR (.named "Tree"))) []))⟩]

/-- The declaration is accepted, and the collection of the types decoded with trees has no end. -/
theorem not_traversalsEnd :
  ¬ ∀ (decls : List TypeDecl) (types : TypeTable) (type : Ty),
    buildTypeTable decls = .ok types → TraversalsEnd types type
  := by
  intro h
  have htree : ∃ types, buildTypeTable [treeDecl] = .ok types ∧
      ∃ fields, structOf types (.named "Tree") = some (fields, false) ∧
        ∃ field ∈ fields, field.declaredType = .ARR (.named "Tree") :=
    ⟨_, rfl, _, rfl, _, List.mem_cons_of_mem _ List.mem_cons_self, rfl⟩
  obtain ⟨types, htable, fields, hstruct, field, hfield, hkids⟩ := htree
  obtain ⟨fuel, helpers', hcollected, -⟩ := (h [treeDecl] types (.named "Tree") htable).decoded []
    fun helper hhelper => absurd hhelper List.not_mem_nil
  have hacc := (collected_of_eq_some hcollected).2.2
  apply not_rel_of_acc hacc.transGen
  apply Relation.TransGen.head (b := .ARR (.named "Tree"))
  · exact TypePart.elem (.named "Tree")
  · apply Relation.TransGen.single
    rw [← hkids]
    exact TypePart.field hstruct hfield

end Caster
