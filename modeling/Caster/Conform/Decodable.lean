import Caster.Conform.Decode

/-!
# Decodable types

For which types the emitter prints decoders that compile: those whose parts, followed through
the fields of fixed `MAP`s, the elements of arrays and the values of maps, form a finite tree
of types with declared conversions.
-/

namespace Caster

variable {types : TypeTable}

/-- A type is no fixed `MAP`, map or array: it has no decoder of its own. -/
def HasNoDecoder (types : TypeTable) (type : Ty) : Prop :=
  structOf types type = none ∧ isMapType type = false ∧ isArrayType type = false

/-- The types all of whose parts have decoders that compile. -/
inductive Decodable (types : TypeTable) : Ty → Prop where
  | leaf {type : Ty} : HasNoDecoder types type → Decodable types type
  | struct {type : Ty} {fields : List Field} {openRuntime : Bool} :
      structOf types type = some (fields, openRuntime) → DecoderCompiles types type →
      (∀ field ∈ fields, Decodable types field.declaredType) → Decodable types type
  | map {key value : Ty} : DecoderCompiles types (.MAP key value) → Decodable types value →
      Decodable types (.MAP key value)
  | arr {elem : Ty} : DecoderCompiles types (.ARR elem) → Decodable types elem →
      Decodable types (.ARR elem)

/-! ### Collected types -/

theorem subset_pushType (helpers : List Ty) (type : Ty) :
  helpers ⊆ pushType helpers type
  := by
  unfold pushType
  split
  · exact List.Subset.refl _
  · exact List.subset_append_left _ _

theorem mem_pushType (helpers : List Ty) (type : Ty) :
  type ∈ pushType helpers type
  := by
  unfold pushType
  split
  · assumption
  · simp

theorem mem_pushType_iff {helpers : List Ty} {type other : Ty} (h : other ∈ pushType helpers type) :
  other ∈ helpers ∨ other = type
  := by
  unfold pushType at h
  split at h
  · exact Or.inl h
  · simpa using h

/-! ### The recursion -/

theorem addJsonDecodeType_struct {type : Ty} {fields : List Field} {openRuntime : Bool}
    (h : structOf types type = some (fields, openRuntime)) (fuel : ℕ) (helpers : List Ty) :
  addJsonDecodeType types (fuel + 1) helpers type =
    fields.foldlM (fun helpers field => addJsonDecodeType types fuel helpers field.declaredType)
      (pushType helpers type)
  := by
  simp only [addJsonDecodeType, h]

theorem addJsonDecodeType_map (fuel : ℕ) (helpers : List Ty) (key value : Ty) :
  addJsonDecodeType types (fuel + 1) helpers (.MAP key value) =
    addJsonDecodeType types fuel (pushType helpers (.MAP key value)) value
  := rfl

theorem addJsonDecodeType_arr (fuel : ℕ) (helpers : List Ty) (elem : Ty) :
  addJsonDecodeType types (fuel + 1) helpers (.ARR elem) =
    addJsonDecodeType types fuel (pushType helpers (.ARR elem)) elem
  := rfl

theorem addJsonDecodeType_leaf {type : Ty} (h : HasNoDecoder types type) (fuel : ℕ)
    (helpers : List Ty) :
  addJsonDecodeType types (fuel + 1) helpers type = some helpers
  := by
  obtain ⟨hstruct, hmap, harr⟩ := h
  cases type with
  | MAP key value => cases hmap
  | ARR elem => cases harr
  | _ => simp [addJsonDecodeType, hstruct]

/-- A type is a fixed `MAP`, a map, an array or none of these. -/
theorem decoder_cases (types : TypeTable) (type : Ty) :
  (∃ fields openRuntime, structOf types type = some (fields, openRuntime)) ∨
    (∃ key value, type = .MAP key value) ∨ (∃ elem, type = .ARR elem) ∨ HasNoDecoder types type
  := by
  cases hstruct : structOf types type with
  | some fieldsOpen => exact Or.inl ⟨fieldsOpen.1, fieldsOpen.2, rfl⟩
  | none =>
    cases type with
    | MAP key value => exact Or.inr (Or.inl ⟨key, value, rfl⟩)
    | ARR elem => exact Or.inr (Or.inr (Or.inl ⟨elem, rfl⟩))
    | _ => exact Or.inr (Or.inr (Or.inr ⟨hstruct, rfl, rfl⟩))

/-! ### Emitted decoders -/

/-- What the collection of a type's decoders from some point on adds. -/
def Collects (types : TypeTable) (fuel : ℕ) (type : Ty) : Prop :=
  ∀ helpers, ∃ helpers', addJsonDecodeType types fuel helpers type = some helpers' ∧
    ∀ helper ∈ helpers', helper ∈ helpers ∨ DecoderCompiles types helper

theorem Collects.foldlM {fuel : ℕ} {fields : List Field}
    (h : ∀ field ∈ fields, Collects types fuel field.declaredType) (helpers : List Ty) :
  ∃ helpers', fields.foldlM
      (fun helpers field => addJsonDecodeType types fuel helpers field.declaredType) helpers =
        some helpers' ∧
    ∀ helper ∈ helpers', helper ∈ helpers ∨ DecoderCompiles types helper
  := by
  induction fields generalizing helpers with
  | nil => exact ⟨helpers, rfl, fun _ h => Or.inl h⟩
  | cons field fields ih =>
    obtain ⟨hfirst, hrest⟩ := List.forall_mem_cons.mp h
    obtain ⟨middle, hmiddle, hadded⟩ := hfirst helpers
    obtain ⟨final, hfinal, hadded'⟩ := ih hrest middle
    refine ⟨final, ?_, fun helper hhelper => ?_⟩
    · rw [List.foldlM_cons, hmiddle]
      exact hfinal
    · obtain hmem | hcompiles := hadded' helper hhelper
      · exact hadded helper hmem
      · exact Or.inr hcompiles

/-- The collection of a type that adds its own decoder and goes on with its parts. -/
theorem added_pushType {helpers helpers' : List Ty} {type : Ty} (h : DecoderCompiles types type)
    (hadded : ∀ helper ∈ helpers', helper ∈ pushType helpers type ∨ DecoderCompiles types helper) :
  ∀ helper ∈ helpers', helper ∈ helpers ∨ DecoderCompiles types helper
  := by
  intro helper hhelper
  obtain hmem | hcompiles := hadded helper hhelper
  · obtain hmem | rfl := mem_pushType_iff hmem
    · exact Or.inl hmem
    · exact Or.inr h
  · exact Or.inr hcompiles

/-- Fuels that are enough for the fields one by one have a bound for all of them. -/
theorem exists_common_fuel {P : Field → ℕ → Prop} {fields : List Field}
    (h : ∀ field ∈ fields, ∃ fuel, ∀ more, P field (fuel + more)) :
  ∃ fuel, ∀ field ∈ fields, ∀ more, P field (fuel + more)
  := by
  induction fields with
  | nil => exact ⟨0, by simp⟩
  | cons field fields ih =>
    obtain ⟨hfirst, hrest⟩ := List.forall_mem_cons.mp h
    obtain ⟨fuel, hfuel⟩ := hfirst
    obtain ⟨fuel', hfuel'⟩ := ih hrest
    refine ⟨max fuel fuel', List.forall_mem_cons.mpr ⟨fun more => ?_, fun f hf more => ?_⟩⟩
    · obtain ⟨k, hk⟩ := Nat.exists_eq_add_of_le (Nat.le_max_left fuel fuel')
      rw [hk, Nat.add_assoc]
      exact hfuel (k + more)
    · obtain ⟨k, hk⟩ := Nat.exists_eq_add_of_le (Nat.le_max_right fuel fuel')
      rw [hk, Nat.add_assoc]
      exact hfuel' f hf (k + more)

/-- The collection ends on a decodable type and adds decoders that compile. -/
theorem Decodable.collects {type : Ty} (h : Decodable types type) :
  ∃ fuel, ∀ more, Collects types (fuel + more) type
  := by
  induction h with
  | leaf hleaf =>
    refine ⟨1, fun more helpers => ⟨helpers, ?_, fun _ h => Or.inl h⟩⟩
    rw [Nat.add_comm, addJsonDecodeType_leaf hleaf]
  | map hcompiles _ ih =>
    obtain ⟨fuel, hfuel⟩ := ih
    refine ⟨fuel + 1, fun more helpers => ?_⟩
    obtain ⟨helpers', hadd, hadded⟩ := hfuel more (pushType helpers _)
    refine ⟨helpers', ?_, added_pushType hcompiles hadded⟩
    rw [Nat.add_right_comm, addJsonDecodeType_map]
    exact hadd
  | arr hcompiles _ ih =>
    obtain ⟨fuel, hfuel⟩ := ih
    refine ⟨fuel + 1, fun more helpers => ?_⟩
    obtain ⟨helpers', hadd, hadded⟩ := hfuel more (pushType helpers _)
    refine ⟨helpers', ?_, added_pushType hcompiles hadded⟩
    rw [Nat.add_right_comm, addJsonDecodeType_arr]
    exact hadd
  | @struct type fields openRuntime hstruct hcompiles _ ih =>
    obtain ⟨fuel, hfuel⟩ :=
      exists_common_fuel (P := fun field fuel => Collects types fuel field.declaredType) ih
    refine ⟨fuel + 1, fun more helpers => ?_⟩
    obtain ⟨helpers', hadd, hadded⟩ :=
      Collects.foldlM (fun field hfield => hfuel field hfield more) (pushType helpers type)
    refine ⟨helpers', ?_, added_pushType hcompiles hadded⟩
    rw [Nat.add_right_comm, addJsonDecodeType_struct hstruct]
    exact hadd

/-- A type whose collection ends with decoders that all compile is decodable. -/
theorem decodable_of_collected {fuel : ℕ} {helpers helpers' : List Ty} {type : Ty}
    (hadd : addJsonDecodeType types fuel helpers type = some helpers')
    (hcompiles : ∀ helper ∈ helpers', DecoderCompiles types helper) :
  Decodable types type ∧ helpers ⊆ helpers'
  := by
  induction fuel generalizing helpers helpers' type with
  | zero => cases hadd
  | succ fuel ih =>
    obtain ⟨fields, openRuntime, hstruct⟩ | ⟨key, value, rfl⟩ | ⟨elem, rfl⟩ | hleaf :=
      decoder_cases types type
    · rw [addJsonDecodeType_struct hstruct] at hadd
      have hfields : ∀ (fields : List Field) (start : List Ty),
          fields.foldlM (fun helpers field =>
            addJsonDecodeType types fuel helpers field.declaredType) start = some helpers' →
          (∀ field ∈ fields, Decodable types field.declaredType) ∧ start ⊆ helpers' := by
        intro fields
        induction fields with
        | nil =>
          intro start hstart
          cases hstart
          exact ⟨by simp, List.Subset.refl _⟩
        | cons field fields ihf =>
          intro start hstart
          rw [List.foldlM_cons] at hstart
          obtain ⟨middle, hmiddle, hrest⟩ := Option.bind_eq_some_iff.mp hstart
          obtain ⟨hdecodable, hsubset⟩ := ihf middle hrest
          obtain ⟨hfirst, hfirst'⟩ := ih hmiddle fun helper h => hcompiles helper (hsubset h)
          exact ⟨List.forall_mem_cons.mpr ⟨hfirst, hdecodable⟩,
            List.Subset.trans hfirst' hsubset⟩
      obtain ⟨hdecodable, hsubset⟩ := hfields fields _ hadd
      exact ⟨.struct hstruct (hcompiles _ (hsubset (mem_pushType _ _))) hdecodable,
        List.Subset.trans (subset_pushType _ _) hsubset⟩
    · rw [addJsonDecodeType_map] at hadd
      obtain ⟨hvalue, hsubset⟩ := ih hadd hcompiles
      exact ⟨.map (hcompiles _ (hsubset (mem_pushType _ _))) hvalue,
        List.Subset.trans (subset_pushType _ _) hsubset⟩
    · rw [addJsonDecodeType_arr] at hadd
      obtain ⟨helem, hsubset⟩ := ih hadd hcompiles
      exact ⟨.arr (hcompiles _ (hsubset (mem_pushType _ _))) helem,
        List.Subset.trans (subset_pushType _ _) hsubset⟩
    · rw [addJsonDecodeType_leaf hleaf] at hadd
      cases hadd
      exact ⟨.leaf hleaf, List.Subset.refl _⟩

/-- The decoders of a type are emitted and compile exactly when the type is decodable. -/
theorem emitsDecoder_iff {type : Ty} :
  EmitsDecoder types type ↔ Decodable types type
  := by
  constructor
  · rintro ⟨fuel, helpers, hadd, hcompiles⟩
    exact (decodable_of_collected hadd hcompiles).1
  · intro h
    obtain ⟨fuel, hfuel⟩ := h.collects
    obtain ⟨helpers, hadd, hadded⟩ := hfuel 0 []
    exact ⟨fuel + 0, helpers, hadd, fun helper h => (hadded helper h).resolve_left (by simp)⟩

end Caster
