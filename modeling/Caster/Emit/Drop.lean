import Caster.Value

/-!
# Drops of values

The drop helper the emitter gives a type, and the blocks it frees at run time.
-/

namespace Caster

/-! ### The types with a drop helper -/

/-- A type needs a drop, as `type_needs_drop_depth` decides it.  The source counts the levels
of fixed `MAP` types up to 17; here `left` counts those that are left to look into. -/
def typeNeedsDropDepth (types : TypeTable) : ℕ → Ty → Bool
  | 0, _ => false
  | left + 1, type =>
    match type with
    | .STR | .OBJ | .OPEN | .ARR _ | .MAP _ _ | .TSK _ | .REF _ => true
    | type =>
      match structOf types type with
      | some (_, true) => true
      | some (fields, false) => fields.any fun field =>
          isRefType field.declaredType || typeNeedsDropDepth types left field.declaredType
      | none => false

/-- A field of a fixed `MAP` needs a drop. -/
def fieldTypeNeedsDrop (types : TypeTable) (left : ℕ) (type : Ty) : Bool :=
  isRefType type || typeNeedsDropDepth types left type

/-- A type needs a drop. -/
def typeNeedsDrop (types : TypeTable) (type : Ty) : Bool :=
  typeNeedsDropDepth types 17 type

/-- A drop helper is printed for a type. -/
def typeHasDropHelper (types : TypeTable) (type : Ty) : Bool :=
  if type = .named "HttpReq" || type = .named "HttpRes" then true
  else
    match structOf types type with
    | some (_, true) => false
    | some (fields, false) => fields.any fun field =>
        fieldTypeNeedsDrop types 16 field.declaredType
    | none => typeNeedsDrop types type

/-- The helpers `drop_fn_for_type` names. -/
inductive DropHelper where
  | flxDropStr
  | flxDropObj
  | flxDropObjmap
  | arrDrop (elem : Ty)
  | mapDrop (value : Ty)
  | flxDropTskHttpres
  | structDrop (fields : List Field)

/-- The drop helper called for a value of a type, if there is one. -/
def dropFnForType (types : TypeTable) (type : Ty) : Option DropHelper :=
  match type with
  | .STR => some .flxDropStr
  | .OBJ => some .flxDropObj
  | .OPEN => some .flxDropObjmap
  | .ARR elem => some (.arrDrop elem)
  | .MAP _ value => some (.mapDrop value)
  | .TSK target => if target = .named "HttpRes" then some .flxDropTskHttpres else none
  | type =>
    match structOf types type with
    | some (_, true) => some .flxDropObjmap
    | some (fields, false) => some (.structDrop fields)
    | none => none

/-! ### What the helpers free -/

mutual

/-- The blocks `flx_drop_obj` frees. -/
def dropObj : Val → List Loc
  | .str buffer _ => buffer.toList
  | .objmap raw _ => raw.toList
  | .arr data elems => dropObjarr elems ++ data.toList
  | .box ptr _ => [ptr]
  | _ => []

/-- The blocks of boxed elements that `flx_drop_objarr` frees. -/
def dropObjarr : List Val → List Loc
  | [] => []
  | v :: vs => dropObj v ++ dropObjarr vs

end

/-- The block of a string that `flx_drop_str` frees. -/
def dropStr : Val → List Loc
  | .str buffer _ => buffer.toList
  | _ => []

/-- The blocks the `drop_entry` of a map type frees over the entries of a table. -/
def dropEntries (valueType : Ty) : List (Key × Val) → List Loc
  | [] => []
  | (key, v) :: entries =>
    key.buffer.toList ++ (if valueType = .STR then dropStr v else []) ++
      dropEntries valueType entries

mutual

/-- The blocks freed by the drop helper of a type, applied to a value. -/
def dropVal (types : TypeTable) (type : Ty) : Val → List Loc
  | .str buffer text =>
    match dropFnForType types type with
    | some .flxDropStr => buffer.toList
    | some .flxDropObj => dropObj (.str buffer text)
    | _ => []
  | .arr data elems =>
    match dropFnForType types type with
    | some (.arrDrop elem) =>
      (if typeHasDropHelper types elem then dropElems types elem elems else []) ++
        data.toList
    | some .flxDropObj => dropObj (.arr data elems)
    | _ => []
  | .map raw entries =>
    match dropFnForType types type with
    | some (.mapDrop value) =>
      match raw with
      | some table => dropEntries value entries ++ [table]
      | none => []
    | _ => []
  | .objmap raw entries =>
    match dropFnForType types type with
    | some .flxDropObjmap => raw.toList
    | some .flxDropObj => dropObj (.objmap raw entries)
    | _ => []
  | .struct vals =>
    match dropFnForType types type with
    | some (.structDrop fields) => dropFields types fields vals
    | _ => []
  | .tsk task =>
    match dropFnForType types type with
    | some .flxDropTskHttpres => task.toList
    | _ => []
  | .box ptr contents =>
    match dropFnForType types type with
    | some .flxDropObj => dropObj (.box ptr contents)
    | _ => []
  | _ => []

/-- The blocks freed for the elements of an array. -/
def dropElems (types : TypeTable) (elem : Ty) : List Val → List Loc
  | [] => []
  | v :: vs => dropVal types elem v ++ dropElems types elem vs

/-- The blocks freed for the fields of a fixed `MAP`. -/
def dropFields (types : TypeTable) : List Field → List Val → List Loc
  | field :: fields, .ref owned loc target :: vs =>
    (match field.declaredType, owned with
      | .REF targetType, true =>
        (if typeHasDropHelper types targetType then dropVal types targetType target else [])
          ++ [loc]
      | _, _ => []) ++
      dropFields types fields vs
  | field :: fields, v :: vs =>
    (if fieldTypeNeedsDrop types 17 field.declaredType then
        dropVal types field.declaredType v
      else []) ++
      dropFields types fields vs
  | _, _ => []

end

/-- The blocks freed for one field of a fixed `MAP`. -/
def dropField (types : TypeTable) (type : Ty) (v : Val) : List Loc :=
  match v with
  | .ref owned loc target =>
    match type, owned with
    | .REF targetType, true =>
      (if typeHasDropHelper types targetType then dropVal types targetType target else [])
        ++ [loc]
    | _, _ => []
  | v => if fieldTypeNeedsDrop types 17 type then dropVal types type v else []

/-- A fixed `MAP` is dropped field by field. -/
theorem dropFields_cons (types : TypeTable) (field : Field) (fields : List Field) (v : Val)
    (vs : List Val) :
  dropFields types (field :: fields) (v :: vs) =
    dropField types field.declaredType v ++ dropFields types fields vs
  := by
  cases v <;> rfl

/-! ### A drop frees what the value holds -/

mutual

/-- The drop of a boxed value frees blocks the value holds. -/
theorem dropObj_subset_locs :
  ∀ (v : Val), dropObj v ⊆ v.locs
  | .str buffer _ => by simp [dropObj, Val.locs]
  | .objmap raw entries => by simp [dropObj, Val.locs]
  | .arr data elems => by
    have helems := dropObjarr_subset_locs elems
    simp only [dropObj, Val.locs]
    intro a ha
    rcases List.mem_append.mp ha with ha | ha
    · exact List.mem_append_right _ (helems ha)
    · exact List.mem_append_left _ ha
  | .box ptr contents => by simp [dropObj, Val.locs]
  | .int _ | .flt _ | .bol _ | .nul | .map _ _ | .refNull | .ref _ _ _ | .tsk _ | .fn _
  | .struct _ => by
    simp [dropObj]

theorem dropObjarr_subset_locs :
  ∀ (vs : List Val), dropObjarr vs ⊆ Val.locsList vs
  | [] => by simp [dropObjarr]
  | v :: vs => by
    have hitem := dropObj_subset_locs v
    have hrest := dropObjarr_subset_locs vs
    simp only [dropObjarr, Val.locsList]
    intro a ha
    rcases List.mem_append.mp ha with ha | ha
    · exact List.mem_append_left _ (hitem ha)
    · exact List.mem_append_right _ (hrest ha)

end

theorem dropEntries_subset_locs (valueType : Ty) (entries : List (Key × Val)) :
  dropEntries valueType entries ⊆ Val.locsEntries entries
  := by
  induction entries with
  | nil => simp [dropEntries]
  | cons entry entries ih =>
    obtain ⟨key, v⟩ := entry
    have hvalue : (if valueType = .STR then dropStr v else []) ⊆ v.locs := by
      split
      · cases v <;> simp [dropStr, Val.locs]
      · simp
    intro a ha
    simp only [dropEntries, Val.locsEntries, List.mem_append] at ha ⊢
    rcases ha with (ha | ha) | ha
    · exact Or.inl (Or.inl ha)
    · exact Or.inl (Or.inr (hvalue ha))
    · exact Or.inr (ih ha)

mutual

/-- The drop of a value frees blocks the value holds. -/
theorem dropVal_subset_locs (types : TypeTable) :
  ∀ (type : Ty) (v : Val), dropVal types type v ⊆ v.locs
  | type, .str buffer text => by
    simp only [dropVal]
    split <;> simp [dropObj, Val.locs]
  | type, .arr data elems => by
    simp only [dropVal]
    split
    · next elem _ =>
      have helems := dropElems_subset_locs types elem elems
      intro a ha
      simp only [Val.locs, List.mem_append] at ha ⊢
      rcases ha with ha | ha
      · split at ha
        · exact Or.inr (helems ha)
        · cases ha
      · exact Or.inl ha
    · exact dropObj_subset_locs _
    · simp
  | type, .map raw entries => by
    simp only [dropVal]
    split
    · next value _ =>
      cases raw with
      | none => simp
      | some table =>
        have hentries := dropEntries_subset_locs value entries
        intro a ha
        simp only [Val.locs, Option.toList, List.mem_append] at ha ⊢
        exact ha.symm.imp_right (fun ha => hentries ha)
    · simp
  | type, .objmap raw entries => by
    simp only [dropVal]
    split <;> simp [dropObj, Val.locs]
  | type, .struct vals => by
    simp only [dropVal]
    split
    · next fields _ => exact dropFields_subset_locs types fields vals
    · simp
  | type, .tsk task => by
    simp only [dropVal]
    split <;> simp [Val.locs]
  | type, .box ptr contents => by
    simp only [dropVal]
    split <;> simp [dropObj, Val.locs]
  | _, .int _ | _, .flt _ | _, .bol _ | _, .nul | _, .refNull | _, .ref _ _ _ | _, .fn _ => by
    simp [dropVal]

theorem dropElems_subset_locs (types : TypeTable) :
  ∀ (elem : Ty) (vs : List Val), dropElems types elem vs ⊆ Val.locsList vs
  | _, [] => by simp [dropElems]
  | elem, v :: vs => by
    have hitem := dropVal_subset_locs types elem v
    have hrest := dropElems_subset_locs types elem vs
    apply List.append_subset.mpr
    exact ⟨List.subset_append_of_subset_left _ hitem,
      List.subset_append_of_subset_right _ hrest⟩

theorem dropFields_subset_locs (types : TypeTable) :
  ∀ (fields : List Field) (vs : List Val), dropFields types fields vs ⊆ Val.locsList vs
  | [], _ => by simp [dropFields]
  | _ :: _, [] => by simp [dropFields]
  | field :: fields, v :: vs => by
    have hitem : dropField types field.declaredType v ⊆ v.locs := by
      cases v with
      | ref owned loc target =>
        have htarget : ∀ targetType, dropVal types targetType target ⊆ target.locs :=
          fun targetType => dropVal_subset_locs types targetType target
        simp only [dropField]
        split
        · next targetType _ =>
          intro a ha
          simp only [Val.locs, List.mem_append, List.mem_cons] at ha ⊢
          rcases ha with ha | ha
          · split at ha
            · exact Or.inr (htarget targetType ha)
            · cases ha
          · exact Or.inl (by simpa using ha)
        · simp
      | _ =>
        simp only [dropField]
        split
        · exact dropVal_subset_locs types field.declaredType _
        · simp
    have hrest := dropFields_subset_locs types fields vs
    rw [dropFields_cons]
    apply List.append_subset.mpr
    exact ⟨List.subset_append_of_subset_left _ hitem,
      List.subset_append_of_subset_right _ hrest⟩

end

/-- The drop of a field frees blocks the field holds. -/
theorem dropField_subset_locs (types : TypeTable) (type : Ty) (v : Val) :
  dropField types type v ⊆ v.locs
  := by
  have h := dropFields_subset_locs types [⟨"", type, "", none⟩] [v]
  simpa [dropFields_cons, dropFields, Val.locsList] using h

end Caster
