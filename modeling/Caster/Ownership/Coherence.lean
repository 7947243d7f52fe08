import Caster.Library.Ledger
import Caster.Emit.Copy
import Caster.Emit.Drop

/-!
# Copies against drops

The copy of a value and the drop of a value are printed by two families of helpers that
recurse over the same types.  They fit together when dropping a copy frees exactly the
blocks that were allocated to make it.

They do not always: a boxed value is copied as it stands but dropped with what it boxes, a
task handle is copied as it stands but dropped with its task, the elements of an array are
copied even where they have no drop helper, and the search for a droppable field stops at a
fixed depth.  The predicate `coherentAt` is what is left when these are avoided.
-/

namespace Caster

open Ledger

/-! ### The types that hold blocks -/

/-- The ways a type can hold heap blocks. -/
inductive TypeShape where
  | str
  /-- A boxed value, of type `OBJ`. -/
  | dyn
  /-- An open map, `OPEN` or a fixed `MAP` that is open at runtime. -/
  | openMap
  | arr (elem : Ty)
  | map (value : Ty)
  /-- A task for an HTTP response. -/
  | httpTask
  /-- A fixed `MAP` with a C struct. -/
  | struct (fields : List Field)
  /-- A type without blocks of its own. -/
  | plain

def typeShape (types : TypeTable) (type : Ty) : TypeShape :=
  match type with
  | .STR => .str
  | .OBJ => .dyn
  | .OPEN => .openMap
  | .ARR elem => .arr elem
  | .MAP _ value => .map value
  | .TSK target => if target = .named "HttpRes" then .httpTask else .plain
  | type =>
    match structOf types type with
    | some (_, true) => .openMap
    | some (fields, false) => .struct fields
    | none => .plain

/-- The copy helper printed for a shape. -/
def TypeShape.copyHelper : TypeShape → CopyHelper
  | .str => .flxStrCopy
  | .openMap => .flxObjmapClone
  | .arr elem => .arrMake elem
  | .map value => .mapClone value
  | .struct fields => .structCopy fields
  | .dyn | .httpTask | .plain => .value

/-- The drop helper printed for a shape. -/
def TypeShape.dropHelper : TypeShape → Option DropHelper
  | .str => some .flxDropStr
  | .dyn => some .flxDropObj
  | .openMap => some .flxDropObjmap
  | .arr elem => some (.arrDrop elem)
  | .map value => some (.mapDrop value)
  | .httpTask => some .flxDropTskHttpres
  | .struct fields => some (.structDrop fields)
  | .plain => none

theorem emitHeapFieldCopy_eq (types : TypeTable) (type : Ty) :
  emitHeapFieldCopy types type = (typeShape types type).copyHelper
  := by
  cases type with
  | TSK target =>
    simp only [emitHeapFieldCopy, typeShape, structOf]
    split <;> rfl
  | named name =>
    simp only [emitHeapFieldCopy, typeShape]
    rcases structOf types (.named name) with _ | ⟨fields, _ | _⟩ <;> rfl
  | _ => rfl

theorem dropFnForType_eq (types : TypeTable) (type : Ty) :
  dropFnForType types type = (typeShape types type).dropHelper
  := by
  cases type with
  | TSK target =>
    simp only [dropFnForType, typeShape]
    split <;> rfl
  | named name =>
    simp only [dropFnForType, typeShape]
    rcases structOf types (.named name) with _ | ⟨fields, _ | _⟩ <;> rfl
  | _ => rfl

/-! ### Copies that allocate nothing -/

mutual

/-- The copy of a value at a type allocates nothing: only strings, arrays with elements, maps
and fixed `MAP` values with such a field are copied to fresh blocks. -/
def inertAt (types : TypeTable) (helper : StructHelper) (type : Ty) : Val → Bool
  | .str _ _ =>
    match typeShape types type with
    | .str => false
    | _ => true
  | .arr _ elems =>
    match typeShape types type with
    | .arr _ => elems.isEmpty
    | _ => true
  | .map _ _ =>
    match typeShape types type with
    | .map _ => false
    | _ => true
  | .objmap _ _ =>
    match typeShape types type with
    | .openMap => false
    | _ => true
  | .struct vals =>
    match typeShape types type with
    | .struct fields => inertFields types helper fields vals
    | _ => true
  | _ => true

/-- The copies of the fields of a fixed `MAP` allocate nothing. -/
def inertFields (types : TypeTable) (helper : StructHelper) : List Field → List Val → Bool
  | field :: fields, .ref owned _ _ :: vs =>
    (promotedTarget types helper owned field.declaredType).isNone &&
      inertFields types helper fields vs
  | field :: fields, v :: vs =>
    inertAt types .copy field.declaredType v && inertFields types helper fields vs
  | _, _ => true

end

/-! ### Values whose copies are dropped coherently -/

mutual

/-- A boxed value holds no block that `flx_drop_obj` frees. -/
def objHoldsNothing : Val → Bool
  | .str buffer _ => buffer.isNone
  | .objmap raw _ => raw.isNone
  | .arr data elems => objarrHoldsNothing elems && data.isNone
  | .box _ _ => false
  | _ => true

/-- None of the elements of a boxed array holds a block. -/
def objarrHoldsNothing : List Val → Bool
  | [] => true
  | v :: vs => objHoldsNothing v && objarrHoldsNothing vs

end

mutual

/-- The copy of a value at a type is dropped coherently.

* A boxed value holds no block, and a task handle holds no task.
* The elements of an array are copied coherently if their type has a drop helper, and
  allocate nothing if it has none.
* The fields of a fixed `MAP` are copied coherently if they are dropped, and allocate nothing
  if they are not; an owned reference is copied with its target. -/
def coherentAt (types : TypeTable) (helper : StructHelper) (type : Ty) : Val → Bool
  | .str buffer _ =>
    match typeShape types type with
    | .dyn => buffer.isNone
    | _ => true
  | .arr data elems =>
    match typeShape types type with
    | .arr elem =>
      if typeHasDropHelper types elem then coherentElems types elem elems
      else elems.all (inertAt types .copy elem)
    | .dyn => objHoldsNothing (.arr data elems)
    | _ => true
  | .objmap raw _ =>
    match typeShape types type with
    | .dyn => raw.isNone
    | _ => true
  | .struct vals =>
    match typeShape types type with
    | .struct fields => coherentFields types helper fields vals
    | _ => true
  | .tsk task =>
    match typeShape types type with
    | .httpTask => task.isNone
    | _ => true
  | .box _ _ =>
    match typeShape types type with
    | .dyn => false
    | _ => true
  | _ => true

/-- The elements of an array are copied and dropped coherently. -/
def coherentElems (types : TypeTable) (elem : Ty) : List Val → Bool
  | [] => true
  | v :: vs => coherentAt types .copy elem v && coherentElems types elem vs

/-- The fields of a fixed `MAP` are copied and dropped coherently. -/
def coherentFields (types : TypeTable) (helper : StructHelper) :
    List Field → List Val → Bool
  | field :: fields, .ref owned _ target :: vs =>
    (match promotedTarget types helper owned field.declaredType with
      | some targetType =>
        if typeHasDropHelper types targetType then
          coherentAt types .promote targetType target
        else inertAt types .promote targetType target
      | none => !(owned && isRefType field.declaredType)) &&
      coherentFields types helper fields vs
  | field :: fields, v :: vs =>
    (if fieldTypeNeedsDrop types 17 field.declaredType then
        coherentAt types .copy field.declaredType v
      else inertAt types .copy field.declaredType v) &&
      coherentFields types helper fields vs
  | _, _ => true

end

/-! ### The counter after an inert copy -/

/-- A field is copied without an allocation. -/
def inertField (types : TypeTable) (helper : StructHelper) (type : Ty) (v : Val) : Bool :=
  match v with
  | .ref owned _ _ => (promotedTarget types helper owned type).isNone
  | v => inertAt types .copy type v

theorem inertFields_cons (types : TypeTable) (helper : StructHelper) (field : Field)
    (fields : List Field) (v : Val) (vs : List Val) :
  inertFields types helper (field :: fields) (v :: vs) =
    (inertField types helper field.declaredType v && inertFields types helper fields vs)
  := by
  cases v <;> rfl

/-- Two consecutive runs allocate nothing if and only if neither does. -/
theorem counter_eq_iff {n n' n'' : ℕ} {a b : Bool} (hn : n ≤ n') (hn' : n' ≤ n'')
    (ha : n' = n ↔ a = true) (hb : n'' = n' ↔ b = true) :
  n'' = n ↔ (a && b) = true
  := by
  rw [Bool.and_eq_true, ← ha, ← hb]
  omega

mutual

/-- The inert copies are those that leave the counter as it is. -/
theorem copyVal_counter_eq_iff (types : TypeTable) :
  ∀ (helper : StructHelper) (type : Ty) (v : Val) (n : ℕ),
    (copyVal types helper type v n).2 = n ↔ inertAt types helper type v = true
  | helper, type, .str buffer text, n => by
    simp only [copyVal, inertAt, emitHeapFieldCopy_eq]
    cases typeShape types type <;> simp [TypeShape.copyHelper]
  | helper, type, .arr data elems, n => by
    simp only [copyVal, inertAt, emitHeapFieldCopy_eq]
    cases typeShape types type with
    | arr elem =>
      have helems := copyElems_le types elem elems (n + 1)
      cases hempty : elems.isEmpty with
      | true => simp [TypeShape.copyHelper]
      | false =>
        simp only [TypeShape.copyHelper, Bool.false_eq_true, if_false, iff_false]
        omega
    | _ => simp [TypeShape.copyHelper]
  | helper, type, .map raw entries, n => by
    simp only [copyVal, inertAt, emitHeapFieldCopy_eq]
    cases typeShape types type with
    | map value =>
      have hentries := setCopy_le value entries (n + 1)
      simp only [TypeShape.copyHelper, Bool.false_eq_true, iff_false]
      omega
    | _ => simp [TypeShape.copyHelper]
  | helper, type, .objmap raw entries, n => by
    simp only [copyVal, inertAt, emitHeapFieldCopy_eq]
    cases typeShape types type <;> simp [TypeShape.copyHelper]
  | helper, type, .struct vals, n => by
    simp only [copyVal, inertAt, emitHeapFieldCopy_eq]
    cases typeShape types type with
    | struct fields => exact copyFields_counter_eq_iff types helper fields vals n
    | _ => simp [TypeShape.copyHelper]
  | _, _, .int _, n | _, _, .flt _, n | _, _, .bol _, n | _, _, .nul, n | _, _, .refNull, n
  | _, _, .ref _ _ _, n | _, _, .tsk _, n | _, _, .fn _, n | _, _, .box _ _, n => by
    simp [copyVal, inertAt]

theorem copyFields_counter_eq_iff (types : TypeTable) :
  ∀ (helper : StructHelper) (fields : List Field) (vs : List Val) (n : ℕ),
    (copyFields types helper fields vs n).2 = n ↔ inertFields types helper fields vs = true
  | _, [], _, n => by simp [copyFields, inertFields]
  | _, _ :: _, [], n => by simp [copyFields, inertFields]
  | helper, field :: fields, v :: vs, n => by
    have hitem : n ≤ (copyField types helper field.declaredType v n).2 ∧
        ((copyField types helper field.declaredType v n).2 = n ↔
          inertField types helper field.declaredType v = true) := by
      cases v with
      | ref owned loc target =>
        simp only [copyField, inertField]
        cases promotedTarget types helper owned field.declaredType with
        | some targetType =>
          have := copyVal_le types .promote targetType target (n + 1)
          simp only [Option.isNone_some, Bool.false_eq_true, iff_false]
          omega
        | none => simp
      | _ =>
        exact ⟨copyVal_le types .copy field.declaredType _ n,
          copyVal_counter_eq_iff types .copy field.declaredType _ n⟩
    rw [copyFields_cons, inertFields_cons]
    apply counter_eq_iff hitem.1 (copyFields_le types helper fields vs _) hitem.2
    apply copyFields_counter_eq_iff

end

/-- The elements of an array are copied without an allocation if and only if each is. -/
theorem copyElems_counter_eq_iff (types : TypeTable) (elem : Ty) (vs : List Val) (n : ℕ) :
  (copyElems types elem vs n).2 = n ↔ vs.all (inertAt types .copy elem) = true
  := by
  induction vs generalizing n with
  | nil => simp [copyElems]
  | cons v vs ih =>
    rw [List.all_cons, copyElems]
    apply counter_eq_iff (copyVal_le types .copy elem v n) (copyElems_le types elem vs _)
    · apply copyVal_counter_eq_iff
    · apply ih

/-! ### What a drop frees -/

mutual

/-- The drop of a boxed value frees nothing if and only if the value holds nothing. -/
theorem dropObj_eq_nil_iff :
  ∀ (v : Val), dropObj v = [] ↔ objHoldsNothing v = true
  | .str buffer _ => by cases buffer <;> simp [dropObj, objHoldsNothing]
  | .objmap raw _ => by cases raw <;> simp [dropObj, objHoldsNothing]
  | .arr data elems => by
    have helems := dropObjarr_eq_nil_iff elems
    cases data <;> simp [dropObj, objHoldsNothing, helems]
  | .box _ _ => by simp [dropObj, objHoldsNothing]
  | .int _ | .flt _ | .bol _ | .nul | .map _ _ | .refNull | .ref _ _ _ | .tsk _ | .fn _
  | .struct _ => by
    simp [dropObj, objHoldsNothing]

theorem dropObjarr_eq_nil_iff :
  ∀ (vs : List Val), dropObjarr vs = [] ↔ objarrHoldsNothing vs = true
  | [] => by simp [dropObjarr, objarrHoldsNothing]
  | v :: vs => by
    have hitem := dropObj_eq_nil_iff v
    have hrest := dropObjarr_eq_nil_iff vs
    simp [dropObjarr, objarrHoldsNothing, hitem, hrest]

end

/-- A reference field frees nothing if and only if it does not own its target. -/
theorem dropField_ref_eq_nil_iff (types : TypeTable) (type : Ty) (owned : Bool) (loc : Loc)
    (target : Val) :
  dropField types type (.ref owned loc target) = [] ↔ (!(owned && isRefType type)) = true
  := by
  cases owned <;> cases type <;> simp [dropField, isRefType]

/-- A field other than a reference is dropped with its type's helper. -/
theorem dropField_copyVal (types : TypeTable) (type : Ty) (v : Val) (n : ℕ)
    (hv : ∀ owned loc target, v ≠ .ref owned loc target) :
  dropField types type (copyVal types .copy type v n).1 =
    if fieldTypeNeedsDrop types 17 type then
      dropVal types type (copyVal types .copy type v n).1
    else []
  := by
  cases v with
  | ref owned loc target => exact absurd rfl (hv owned loc target)
  | arr data elems =>
    simp only [copyVal]
    split
    · split <;> rfl
    · rfl
  | _ =>
    simp only [copyVal]
    first
    | rfl
    | split <;> rfl

/-- The blocks a map's clone allocates for the entries are those its drop frees for them. -/
theorem setCopy_settles (valueType : Ty) (n₀ : ℕ) (entries : List (Key × Val)) (n : ℕ)
    (h₀ : n₀ ≤ n) :
  Settles n₀ (dropEntries valueType (setCopy valueType entries n).1) n
    (setCopy valueType entries n).2 true
  := by
  induction entries generalizing n with
  | nil => exact Settles.nil n₀ (le_refl n) (by simp [setCopy])
  | cons entry entries ih =>
    obtain ⟨key, v⟩ := entry
    have hkey : Settles n₀ ([] ++ [n]) n (n + 1) true :=
      (Settles.nil n₀ (le_refl (n + 1)) (by simp)).concat h₀ (le_refl _)
    have hvalue : Settles n₀
        (if valueType = .STR then
            dropStr (if valueType = .STR then copyStr v (n + 1) else (v, n + 1)).1
          else [])
        (n + 1) (if valueType = .STR then copyStr v (n + 1) else (v, n + 1)).2 true := by
      by_cases hstr : valueType = .STR
      · simp only [hstr, if_true]
        cases v with
        | str buffer text =>
          exact (Settles.nil n₀ (le_refl (n + 2)) (by simp)).concat (by omega) (le_refl _)
        | _ => exact Settles.nil n₀ (le_refl _) (by simp [copyStr])
      · simp only [hstr, if_false]
        exact Settles.nil n₀ (le_refl _) (by simp)
    have hle : n + 1 ≤ (if valueType = .STR then copyStr v (n + 1) else (v, n + 1)).2 := by
      split
      · cases v <;> simp [copyStr]
      · simp
    have hrest := ih (if valueType = .STR then copyStr v (n + 1) else (v, n + 1)).2 (by omega)
    exact (hkey.append hvalue h₀ (by omega) hle).append hrest h₀ (by omega)
      (setCopy_le valueType entries _)

/-! ### A copy against its drop -/

/-- The copy of a field is dropped coherently. -/
def coherentField (types : TypeTable) (helper : StructHelper) (type : Ty) (v : Val) : Bool :=
  match v with
  | .ref owned _ target =>
    match promotedTarget types helper owned type with
    | some targetType =>
      if typeHasDropHelper types targetType then coherentAt types .promote targetType target
      else inertAt types .promote targetType target
    | none => !(owned && isRefType type)
  | v =>
    if fieldTypeNeedsDrop types 17 type then coherentAt types .copy type v
    else inertAt types .copy type v

theorem coherentFields_cons (types : TypeTable) (helper : StructHelper) (field : Field)
    (fields : List Field) (v : Val) (vs : List Val) :
  coherentFields types helper (field :: fields) (v :: vs) =
    (coherentField types helper field.declaredType v &&
      coherentFields types helper fields vs)
  := by
  cases v <;> rfl

/-- The type of a followed target is what the field's reference type refers to. -/
theorem promotedTarget_eq_some {types : TypeTable} {helper : StructHelper} {owned : Bool}
    {type targetType : Ty} (h : promotedTarget types helper owned type = some targetType) :
  type = .REF targetType
  := by
  cases type with
  | REF target =>
    simp only [promotedTarget] at h
    split at h
    · rw [Option.some.inj h]
    · cases h
  | _ => cases h

mutual

/-- The releases of a copy's drop belong to the copy or are blocks the original held, and
they are exactly what the copy allocated if and only if the value is coherent. -/
theorem dropVal_copyVal_settles (types : TypeTable) (n₀ : ℕ) :
  ∀ (helper : StructHelper) (type : Ty) (v : Val) (n : ℕ),
    (∀ a ∈ v.locs, a < n₀) → n₀ ≤ n →
    Settles n₀ (dropVal types type (copyVal types helper type v n).1) n
      (copyVal types helper type v n).2 (coherentAt types helper type v)
  | helper, type, .str buffer text, n, hv, h₀ => by
    have hd := dropFnForType_eq types type
    simp only [copyVal, coherentAt, emitHeapFieldCopy_eq]
    generalize typeShape types type = shape at hd ⊢
    cases shape with
    | str =>
      simp only [TypeShape.copyHelper, dropVal, hd, TypeShape.dropHelper]
      exact (Settles.nil n₀ (le_refl (n + 1)) (by simp)).concat h₀ (le_refl _)
    | dyn =>
      simp only [TypeShape.copyHelper, dropVal, hd, TypeShape.dropHelper]
      exact Settles.old hv (by cases buffer <;> simp [dropObj])
    | _ =>
      simp only [TypeShape.copyHelper, dropVal, hd, TypeShape.dropHelper]
      exact Settles.nil n₀ (le_refl n) (by simp)
  | helper, type, .arr data elems, n, hv, h₀ => by
    have hd := dropFnForType_eq types type
    simp only [copyVal, coherentAt, emitHeapFieldCopy_eq]
    generalize typeShape types type = shape at hd ⊢
    cases shape with
    | arr elem =>
      cases hempty : elems.isEmpty with
      | true =>
        rw [List.isEmpty_iff.mp hempty]
        simp only [TypeShape.copyHelper, if_true, dropVal, hd, TypeShape.dropHelper, dropElems, coherentElems, List.all_nil, ite_self]
        exact Settles.nil n₀ (le_refl n) (by simp)
      | false =>
        have hle := copyElems_le types elem elems (n + 1)
        simp only [TypeShape.copyHelper, Bool.false_eq_true, if_false, dropVal, hd,
          TypeShape.dropHelper]
        cases typeHasDropHelper types elem with
        | true =>
          simp only [if_true]
          apply Settles.concat _ h₀ hle
          apply dropElems_copyElems_settles
          · intro a ha
            apply hv
            exact List.mem_append_right _ ha
          · omega
        | false =>
          simp only [Bool.false_eq_true, if_false]
          apply Settles.concat _ h₀ hle
          apply Settles.nil n₀ hle
          apply copyElems_counter_eq_iff
    | dyn =>
      simp only [TypeShape.copyHelper, dropVal, hd, TypeShape.dropHelper]
      apply Settles.old
      · intro a ha
        exact hv a (dropObj_subset_locs _ ha)
      · apply dropObj_eq_nil_iff
    | _ =>
      simp only [TypeShape.copyHelper, dropVal, hd, TypeShape.dropHelper]
      exact Settles.nil n₀ (le_refl n) (by simp)
  | helper, type, .map raw entries, n, hv, h₀ => by
    have hd := dropFnForType_eq types type
    simp only [copyVal, coherentAt, emitHeapFieldCopy_eq]
    generalize typeShape types type = shape at hd ⊢
    cases shape with
    | map value =>
      simp only [TypeShape.copyHelper, dropVal, hd, TypeShape.dropHelper]
      apply Settles.concat _ h₀ (setCopy_le value entries (n + 1))
      exact setCopy_settles value n₀ entries (n + 1) (by omega)
    | _ =>
      simp only [TypeShape.copyHelper, dropVal, hd, TypeShape.dropHelper]
      exact Settles.nil n₀ (le_refl n) (by simp)
  | helper, type, .objmap raw entries, n, hv, h₀ => by
    have hd := dropFnForType_eq types type
    simp only [copyVal, coherentAt, emitHeapFieldCopy_eq]
    generalize typeShape types type = shape at hd ⊢
    cases shape with
    | openMap =>
      simp only [TypeShape.copyHelper, dropVal, hd, TypeShape.dropHelper]
      exact (Settles.nil n₀ (le_refl (n + 1)) (by simp)).concat h₀ (le_refl _)
    | dyn =>
      simp only [TypeShape.copyHelper, dropVal, hd, TypeShape.dropHelper]
      apply Settles.old
      · intro a ha
        exact hv a (dropObj_subset_locs _ ha)
      · cases raw <;> simp [dropObj]
    | _ =>
      simp only [TypeShape.copyHelper, dropVal, hd, TypeShape.dropHelper]
      exact Settles.nil n₀ (le_refl n) (by simp)
  | helper, type, .struct vals, n, hv, h₀ => by
    have hd := dropFnForType_eq types type
    simp only [copyVal, coherentAt, emitHeapFieldCopy_eq]
    generalize typeShape types type = shape at hd ⊢
    cases shape with
    | struct fields =>
      simp only [TypeShape.copyHelper, dropVal, hd, TypeShape.dropHelper]
      exact dropFields_copyFields_settles types n₀ helper fields vals n hv h₀
    | _ =>
      simp only [TypeShape.copyHelper, dropVal, hd, TypeShape.dropHelper]
      exact Settles.nil n₀ (le_refl n) (by simp)
  | helper, type, .tsk task, n, hv, h₀ => by
    simp only [copyVal, coherentAt, dropVal, dropFnForType_eq]
    cases typeShape types type with
    | httpTask => exact Settles.old hv (by cases task <;> simp [TypeShape.dropHelper])
    | _ => exact Settles.nil n₀ (le_refl n) (by simp)
  | helper, type, .box ptr contents, n, hv, h₀ => by
    simp only [copyVal, coherentAt, dropVal, dropFnForType_eq]
    cases typeShape types type with
    | dyn =>
      apply Settles.old
      · intro a ha
        exact hv a (dropObj_subset_locs _ ha)
      · simp [TypeShape.dropHelper, dropObj]
    | _ => exact Settles.nil n₀ (le_refl n) (by simp)
  | _, _, .int _, n, _, _ | _, _, .flt _, n, _, _ | _, _, .bol _, n, _, _
  | _, _, .nul, n, _, _ | _, _, .refNull, n, _, _ | _, _, .ref _ _ _, n, _, _
  | _, _, .fn _, n, _, _ => Settles.nil n₀ (le_refl n) (by simp [copyVal, coherentAt])

theorem dropElems_copyElems_settles (types : TypeTable) (n₀ : ℕ) :
  ∀ (elem : Ty) (vs : List Val) (n : ℕ), (∀ a ∈ Val.locsList vs, a < n₀) → n₀ ≤ n →
    Settles n₀ (dropElems types elem (copyElems types elem vs n).1) n
      (copyElems types elem vs n).2 (coherentElems types elem vs)
  | _, [], n, _, _ => Settles.nil n₀ (le_refl n) (by simp [copyElems, coherentElems])
  | elem, v :: vs, n, hv, h₀ => by
    have hle := copyVal_le types .copy elem v n
    have hitem := dropVal_copyVal_settles types n₀ .copy elem v n
      (fun a ha => hv a (List.mem_append_left _ ha)) h₀
    have hrest := dropElems_copyElems_settles types n₀ elem vs
      (copyVal types .copy elem v n).2 (fun a ha => hv a (List.mem_append_right _ ha))
      (by omega)
    exact hitem.append hrest h₀ hle (copyElems_le types elem vs _)

theorem dropFields_copyFields_settles (types : TypeTable) (n₀ : ℕ) :
  ∀ (helper : StructHelper) (fields : List Field) (vs : List Val) (n : ℕ),
    (∀ a ∈ Val.locsList vs, a < n₀) → n₀ ≤ n →
    Settles n₀ (dropFields types fields (copyFields types helper fields vs n).1) n
      (copyFields types helper fields vs n).2 (coherentFields types helper fields vs)
  | _, [], vs, n, _, _ => by
    simp only [copyFields, dropFields, coherentFields]
    exact Settles.nil n₀ (le_refl n) (by simp)
  | _, _ :: _, [], n, _, _ => by
    simp only [copyFields, dropFields, coherentFields]
    exact Settles.nil n₀ (le_refl n) (by simp)
  | helper, field :: fields, v :: vs, n, hv, h₀ => by
    have hv' : ∀ a ∈ v.locs, a < n₀ := fun a ha => hv a (List.mem_append_left _ ha)
    have hitem : n ≤ (copyField types helper field.declaredType v n).2 ∧
        Settles n₀
          (dropField types field.declaredType
            (copyField types helper field.declaredType v n).1)
          n (copyField types helper field.declaredType v n).2
          (coherentField types helper field.declaredType v) := by
      cases v with
      | ref owned loc target =>
        have htarget : ∀ a ∈ target.locs, a < n₀ :=
          fun a ha => hv' a (List.mem_cons_of_mem _ ha)
        simp only [copyField, coherentField]
        cases hp : promotedTarget types helper owned field.declaredType with
        | some targetType =>
          have hle := copyVal_le types .promote targetType target (n + 1)
          refine ⟨by simp only; omega, ?_⟩
          simp only [dropField, promotedTarget_eq_some hp]
          apply Settles.concat _ h₀ hle
          cases typeHasDropHelper types targetType with
          | true =>
            exact dropVal_copyVal_settles types n₀ .promote targetType target (n + 1)
              htarget (by omega)
          | false => exact Settles.nil n₀ hle (copyVal_counter_eq_iff types .promote _ _ _)
        | none =>
          refine ⟨le_refl n, Settles.old ?_ ?_⟩
          · intro a ha
            exact hv' a (dropField_subset_locs types field.declaredType _ ha)
          · rw [dropField_ref_eq_nil_iff]
      | _ =>
        refine ⟨copyVal_le types .copy field.declaredType _ n, ?_⟩
        simp only [copyField, coherentField]
        rw [dropField_copyVal _ _ _ _ (by simp)]
        split
        · exact dropVal_copyVal_settles types n₀ .copy field.declaredType _ n hv' h₀
        · exact Settles.nil n₀ (copyVal_le types .copy field.declaredType _ n)
            (copyVal_counter_eq_iff types .copy field.declaredType _ n)
    have hrest := dropFields_copyFields_settles types n₀ helper fields vs
      (copyField types helper field.declaredType v n).2
      (fun a ha => hv a (List.mem_append_right _ ha)) (by omega)
    rw [copyFields_cons, coherentFields_cons, dropFields_cons]
    exact hitem.2.append hrest h₀ hitem.1 (copyFields_le types helper fields vs _)

end

/-! ### The law of copies and drops -/

/-- Dropping the copy of a value frees exactly the blocks the copy allocated, each once, and
dropping the original as well frees no block twice. -/
def CopyDropCoherent (types : TypeTable) (type : Ty) (v : Val) (n : ℕ) : Prop :=
  Exact (dropVal types type (copyVal types .copy type v n).1) n
    (copyVal types .copy type v n).2 ∧
  ((dropVal types type v).Nodup →
    (dropVal types type v ++ dropVal types type (copyVal types .copy type v n).1).Nodup)

/-- Copies and drops of a type fit together at exactly the coherent values. -/
theorem copyDropCoherent_iff (types : TypeTable) (type : Ty) (v : Val) (n : ℕ)
    (hv : ∀ a ∈ v.locs, a < n) :
  CopyDropCoherent types type v n ↔ coherentAt types .copy type v = true
  := by
  have hsettles := dropVal_copyVal_settles types n .copy type v n hv (le_refl n)
  rw [← hsettles.exact_iff]
  constructor
  · exact fun h => h.1
  · intro hexact
    refine ⟨hexact, ?_⟩
    intro hnodup
    apply List.Nodup.append hnodup hexact.nodup
    intro a hold hfresh
    have hlt := hv a (dropVal_subset_locs types type v hold)
    have hle := (hexact.mem_iff (copyVal_le types .copy type v n)).mp hfresh
    exact absurd hle.1 (Nat.not_le.mpr hlt)

/-- An array of two strings is copied and dropped coherently. -/
theorem copyDropCoherent_strings :
  CopyDropCoherent [] (.ARR .STR) (.arr (some 0) [.str (some 1) "a", .str none "b"]) 2
  := (copyDropCoherent_iff [] (.ARR .STR) (.arr (some 0) [.str (some 1) "a", .str none "b"]) 2
    (by decide)).mpr (by decide)

/-- A boxed string that owns its text is not: its copy is the string itself. -/
theorem not_copyDropCoherent_dyn :
  ¬ CopyDropCoherent [] .OBJ (.str (some 0) "a") 1
  := by
  rintro ⟨hexact, -⟩
  have hmem : (0 : ℕ) ∈ dropVal [] .OBJ (copyVal [] .copy .OBJ (.str (some 0) "a") 1).1 := by
    decide
  have hle := (hexact.mem_iff (by decide)).mp hmem
  omega

end Caster
