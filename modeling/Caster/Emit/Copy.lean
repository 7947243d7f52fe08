import Caster.Value

/-!
# Copies of values

The copy the emitter prints for a value of a type, as `emit_heap_field_copy` chooses it, and
what the printed helper does at run time.  Allocations are numbered from a counter, which
every copy takes and returns.
-/

namespace Caster

/-- The helpers `emit_heap_field_copy` prints a call of. -/
inductive CopyHelper where
  | flxStrCopy
  | arrMake (elem : Ty)
  | mapClone (value : Ty)
  | flxObjmapClone
  | structCopy (fields : List Field)
  /-- The value itself is printed. -/
  | value

/-- The copy printed for a value of a type. -/
def emitHeapFieldCopy (types : TypeTable) (type : Ty) : CopyHelper :=
  match type with
  | .STR => .flxStrCopy
  | .ARR elem => .arrMake elem
  | .MAP _ value => .mapClone value
  | .OPEN => .flxObjmapClone
  | type =>
    match structOf types type with
    | some (_, true) => .flxObjmapClone
    | some (fields, false) => .structCopy fields
    | none => .value

/-- The two helpers printed for a fixed `MAP`: `flx_copy_` copies the targets of the
reference fields it owns, `flx_promote_` those of all its reference fields. -/
inductive StructHelper where
  | copy
  | promote
deriving DecidableEq, Repr

/-- The copy of a string of a map entry, when it is copied. -/
def copyStr (value : Val) (n : ℕ) : Val × ℕ :=
  match value with
  | .str _ text => (.str (some n) text, n + 1)
  | value => (value, n)

/-- The entries the `set_copy` of a map type puts into a fresh table: keys are copied, and
values when they are strings. -/
def setCopy (valueType : Ty) : List (Key × Val) → ℕ → List (Key × Val) × ℕ
  | [], n => ([], n)
  | (key, v) :: entries, n =>
    let value := if valueType = .STR then copyStr v (n + 1) else (v, n + 1)
    let rest := setCopy valueType entries value.2
    ((⟨some n, key.text⟩, value.1) :: rest.1, rest.2)

/-- The reference fields a helper of a fixed `MAP` copies the target of. -/
def StructHelper.follows (helper : StructHelper) (owned : Bool) : Bool :=
  match helper with
  | .copy => owned
  | .promote => true

/-- The type of the target that a field of a fixed `MAP` holds a copy of after a helper ran.
No helper is printed that promotes a `MAP` open at runtime. -/
def promotedTarget (types : TypeTable) (helper : StructHelper) (owned : Bool) (type : Ty) :
    Option Ty :=
  match type with
  | .REF target =>
    if helper.follows owned && !isOpenStructType types target then some target else none
  | _ => none

mutual

/-- The copy of a value at a type.  The helper matters only for a fixed `MAP`. -/
def copyVal (types : TypeTable) (helper : StructHelper) (type : Ty) : Val → ℕ → Val × ℕ
  | .str buffer text, n =>
    match emitHeapFieldCopy types type with
    | .flxStrCopy => (.str (some n) text, n + 1)
    | _ => (.str buffer text, n)
  | .arr data elems, n =>
    match emitHeapFieldCopy types type with
    | .arrMake elem =>
      if elems.isEmpty then (.arr none [], n)
      else
        let items := copyElems types elem elems (n + 1)
        (.arr (some n) items.1, items.2)
    | _ => (.arr data elems, n)
  | .map raw entries, n =>
    match emitHeapFieldCopy types type with
    | .mapClone value =>
      let copied := setCopy value entries (n + 1)
      (.map (some n) copied.1, copied.2)
    | _ => (.map raw entries, n)
  | .objmap raw entries, n =>
    match emitHeapFieldCopy types type with
    -- the clone of an open map shares the keys and values of its entries
    | .flxObjmapClone => (.objmap (some n) entries, n + 1)
    | _ => (.objmap raw entries, n)
  | .struct vals, n =>
    match emitHeapFieldCopy types type with
    | .structCopy fields =>
      let copied := copyFields types helper fields vals n
      (.struct copied.1, copied.2)
    | _ => (.struct vals, n)
  | v, n => (v, n)

/-- The copies of the elements of an array. -/
def copyElems (types : TypeTable) (elem : Ty) : List Val → ℕ → List Val × ℕ
  | [], n => ([], n)
  | v :: vs, n =>
    let item := copyVal types .copy elem v n
    let rest := copyElems types elem vs item.2
    (item.1 :: rest.1, rest.2)

/-- The copies of the fields of a fixed `MAP`. -/
def copyFields (types : TypeTable) (helper : StructHelper) :
    List Field → List Val → ℕ → List Val × ℕ
  | field :: fields, .ref owned loc target :: vs, n =>
    let item :=
      match promotedTarget types helper owned field.declaredType with
      | some targetType =>
        let promoted := copyVal types .promote targetType target (n + 1)
        (Val.ref true n promoted.1, promoted.2)
      | none => (Val.ref owned loc target, n)
    let rest := copyFields types helper fields vs item.2
    (item.1 :: rest.1, rest.2)
  | field :: fields, v :: vs, n =>
    let item := copyVal types .copy field.declaredType v n
    let rest := copyFields types helper fields vs item.2
    (item.1 :: rest.1, rest.2)
  | _, vs, n => (vs, n)

end

/-- The copy of one field of a fixed `MAP`. -/
def copyField (types : TypeTable) (helper : StructHelper) (type : Ty) (v : Val) (n : ℕ) :
    Val × ℕ :=
  match v with
  | .ref owned loc target =>
    match promotedTarget types helper owned type with
    | some targetType =>
      let promoted := copyVal types .promote targetType target (n + 1)
      (.ref true n promoted.1, promoted.2)
    | none => (.ref owned loc target, n)
  | v => copyVal types .copy type v n

/-- A fixed `MAP` is copied field by field. -/
theorem copyFields_cons (types : TypeTable) (helper : StructHelper) (field : Field)
    (fields : List Field) (v : Val) (vs : List Val) (n : ℕ) :
  copyFields types helper (field :: fields) (v :: vs) n =
    ((copyField types helper field.declaredType v n).1 ::
      (copyFields types helper fields vs
        (copyField types helper field.declaredType v n).2).1,
     (copyFields types helper fields vs
        (copyField types helper field.declaredType v n).2).2)
  := by
  cases v <;> rfl

/-! ### What a copy allocates -/

theorem setCopy_le (valueType : Ty) (entries : List (Key × Val)) (n : ℕ) :
  n ≤ (setCopy valueType entries n).2
  := by
  induction entries generalizing n with
  | nil => simp [setCopy]
  | cons entry entries ih =>
    obtain ⟨key, v⟩ := entry
    have hvalue : n + 1 ≤ (if valueType = .STR then copyStr v (n + 1) else (v, n + 1)).2 := by
      split
      · cases v <;> simp [copyStr]
      · simp
    have hrest := ih (if valueType = .STR then copyStr v (n + 1) else (v, n + 1)).2
    simp only [setCopy]
    omega

mutual

/-- Copies allocate upwards from the counter they are given. -/
theorem copyVal_le (types : TypeTable) :
  ∀ (helper : StructHelper) (type : Ty) (v : Val) (n : ℕ),
    n ≤ (copyVal types helper type v n).2
  | helper, type, .str buffer text, n => by
    simp only [copyVal]
    split <;> simp
  | helper, type, .arr data elems, n => by
    simp only [copyVal]
    split
    · next elem _ =>
      have helems := copyElems_le types elem elems (n + 1)
      split
      · exact le_refl n
      · simp only
        omega
    · exact le_refl n
  | helper, type, .map raw entries, n => by
    simp only [copyVal]
    split
    · next value _ =>
      have hentries := setCopy_le value entries (n + 1)
      simp only
      omega
    · exact le_refl n
  | helper, type, .objmap raw entries, n => by
    simp only [copyVal]
    split <;> simp
  | helper, type, .struct vals, n => by
    simp only [copyVal]
    split
    · next fields _ => exact copyFields_le types helper fields vals n
    · exact le_refl n
  | _, _, .int _, n | _, _, .flt _, n | _, _, .bol _, n | _, _, .nul, n | _, _, .refNull, n
  | _, _, .ref _ _ _, n | _, _, .tsk _, n | _, _, .fn _, n | _, _, .box _ _, n => by
    simp [copyVal]

theorem copyElems_le (types : TypeTable) :
  ∀ (elem : Ty) (vs : List Val) (n : ℕ), n ≤ (copyElems types elem vs n).2
  | _, [], n => by simp [copyElems]
  | elem, v :: vs, n => by
    have hitem := copyVal_le types .copy elem v n
    have hrest := copyElems_le types elem vs (copyVal types .copy elem v n).2
    simp only [copyElems]
    omega

theorem copyFields_le (types : TypeTable) :
  ∀ (helper : StructHelper) (fields : List Field) (vs : List Val) (n : ℕ),
    n ≤ (copyFields types helper fields vs n).2
  | _, [], _, n => by simp [copyFields]
  | _, _ :: _, [], n => by simp [copyFields]
  | helper, field :: fields, v :: vs, n => by
    have hitem : n ≤ (copyField types helper field.declaredType v n).2 := by
      cases v with
      | ref owned loc target =>
        simp only [copyField]
        split
        · next targetType _ =>
          have := copyVal_le types .promote targetType target (n + 1)
          simp only
          omega
        · exact le_refl n
      | _ => exact copyVal_le types .copy field.declaredType _ n
    have hrest := copyFields_le types helper fields vs
      (copyField types helper field.declaredType v n).2
    rw [copyFields_cons]
    simp only
    omega

end

end Caster
