import Caster.Emit.Expr
import Caster.Json.Stringify
import Caster.Library.Assoc

/-!
# Fallbacks of dynamic values

The operator `else` on a chain of dots over a value of type `DYN`.  Its last dot is printed with
tests in front of it, and the dots before it by `emit_expr`, whose runtime functions end the program
where an object is of another kind, or has no such key or index.
-/

namespace Caster

/-! ### Runtime functions -/

/-- The types a fallback may have. -/
inductive FallbackType where
  | INT
  | FLT
  | BOL
  | STR
deriving DecidableEq

/-- A value of such a type. -/
inductive Scalar (F : Type) where
  | int (value : ℤ)
  | flt (value : F)
  | bol (value : Bool)
  | str (text : Bytes)

/-- The type of a value. -/
def Scalar.type {F : Type} : Scalar F → FallbackType
  | .int _ => .INT
  | .flt _ => .FLT
  | .bol _ => .BOL
  | .str _ => .STR

section

variable {F : Type}

-- the conversion of an integer to `double`, and the comparison of a `double` with `0.0`
variable (ofInt : ℤ → F) (isZero : F → Bool)

/-- The truth of a dynamic value. -/
def flxObjTruthy : Dyn F → Bool
  | .nil => false
  | .bol value => value
  | .int value => value ≠ 0
  | .flt value => !isZero value
  | .str text => text.length ≠ 0
  | .map _ | .arr _ | .box => true

/-- A dynamic value as one of a scalar type, or the message the program ends with. -/
def flxObjAs : FallbackType → Dyn F → Except String (Scalar F)
  | .INT, .int value => .ok (.int value)
  | .INT, _ => .error "caster: object value is not INT"
  | .FLT, .flt value => .ok (.flt value)
  | .FLT, .int value => .ok (.flt (ofInt value))
  | .FLT, _ => .error "caster: object value is not FLT"
  | .BOL, .bol value => .ok (.bol value)
  | .BOL, .int value => .ok (.bol (value ≠ 0))
  | .BOL, _ => .error "caster: object value is not BOL"
  | .STR, .str text => .ok (.str text)
  | .STR, _ => .error "caster: object value is not STR"

/-- A dynamic value as an array. -/
def flxObjAsObjarr : Dyn F → Except String (List (Dyn F))
  | .arr elems => .ok elems
  | _ => .error "caster: object value is not ARR"

/-- A dynamic value as a map. -/
def flxObjAsObjmap : Dyn F → Except String (List (Bytes × Dyn F))
  | .map entries => .ok entries
  | _ => .error "caster: object value is not MAP"

/-- The element at an index, if the index is in range. -/
def elementAt (elems : List (Dyn F)) (index : ℤ) : Option (Dyn F) :=
  if 0 ≤ index ∧ index < elems.length then elems[index.toNat]? else none

/-- The element of an array. -/
def flxObjarrGet (elems : List (Dyn F)) (index : ℤ) : Except String (Dyn F) :=
  match elementAt elems index with
  | some item => .ok item
  | none => .error "caster: array index out of range"

/-- The value of a key. -/
def flxObjmapGet (entries : List (Bytes × Dyn F)) (key : Bytes) : Except String (Dyn F) :=
  match Assoc.get entries key with
  | some item => .ok item
  | none => .error "caster: missing object key"

end

/-! ### Emission -/

/-- The statement expression of an `else`. -/
inductive ElseCode where
  /-- An element of the array that a value is, if the value is true. -/
  | arrElse (object index : CExpr) (type : FallbackType) (fallback : CExpr)
  /-- The value of a key of the map that a value is. -/
  | mapElse (object key : CExpr) (type : FallbackType) (fallback : CExpr)
  | valueElse (value : CExpr) (type : FallbackType) (fallback : CExpr)

/-- The operator `else` with a dynamic value on its left side, and the type of its result.  Dots
over values of other types are left out. -/
def emitElseExpr (types : TypeTable) (left fallback : Expr) (type : FallbackType) :
    Option ElseCode :=
  match left with
  | .dotIndex _ object index =>
    if object.checkedType = .OBJ then
      some (.arrElse (emitExpr types object) (emitExpr types index) type (emitExpr types fallback))
    else none
  | .dotTarget _ object target =>
    if object.checkedType = .OBJ then
      some (.mapElse (emitExpr types object) (emitExpr types target) type (emitExpr types fallback))
    else none
  | left =>
    if left.checkedType = .OBJ then
      some (.valueElse (emitExpr types left) type (emitExpr types fallback))
    else none

/-! ### Execution -/

/-- The values of C expressions. -/
structure DynEnv (F : Type) where
  dyn : CExpr → Dyn F
  key : CExpr → Bytes
  index : CExpr → ℤ
  scalar : CExpr → Scalar F

section

variable {F : Type} (ofInt : ℤ → F) (isZero : F → Bool) (env : DynEnv F)

/-- The value of a key. -/
def DynEnv.keyOf : CExpr → Bytes
  | .strLit text => text.toUTF8.toList
  | e => env.key e

/-- The value of an index. -/
def DynEnv.indexOf : CExpr → ℤ
  | .intConst value => value
  | e => env.index e

/-- The value of a C expression of type `FLX_OBJ`. -/
def DynEnv.run : CExpr → Except String (Dyn F)
  | .call .flx_objarr_get [.call .flx_obj_as_objarr [object], index] => do
    let object ← DynEnv.run object
    let arr ← flxObjAsObjarr object
    flxObjarrGet arr (env.indexOf index)
  | .call .flx_objmap_get [.call .flx_obj_as_objmap [object], key] => do
    let object ← DynEnv.run object
    let map ← flxObjAsObjmap object
    flxObjmapGet map (env.keyOf key)
  | e => .ok (env.dyn e)

/-- A value that has been found, if it is true, or the fallback. -/
def foundOr (type : FallbackType) (fallback : CExpr) : Option (Dyn F) → Except String (Scalar F)
  | some item =>
    if flxObjTruthy isZero item then flxObjAs ofInt type item else .ok (env.scalar fallback)
  | none => .ok (env.scalar fallback)

/-- The value of an `else`. -/
def ElseCode.run : ElseCode → Except String (Scalar F)
  | .arrElse object index type fallback => do
    let object ← env.run object
    if flxObjTruthy isZero object then
      let arr ← flxObjAsObjarr object
      foundOr ofInt isZero env type fallback (elementAt arr (env.indexOf index))
    else .ok (env.scalar fallback)
  | .mapElse object key type fallback => do
    let object ← env.run object
    let map ← flxObjAsObjmap object
    foundOr ofInt isZero env type fallback (Assoc.get map (env.keyOf key))
  | .valueElse value type fallback => do
    let value ← env.run value
    foundOr ofInt isZero env type fallback (some value)

end

/-! ### Chains of dots -/

/-- A dot of a chain: a name, a string or an integer that is computed with. -/
inductive Access where
  | key (key : Bytes)
  | index (index : ℤ)

section

variable {F : Type} (isZero : F → Bool) (env : DynEnv F) (types : TypeTable)

/-- A chain of dots over an expression of type `DYN`, as the analyzer leaves it. -/
inductive DynChain (base : Expr) : Expr → List Access → Prop
  | base : DynChain base base []
  | index {object path} (info : Info) (index : Expr) (h : DynChain base object path) :
    DynChain base (.dotIndex (info.typed .OBJ) object index)
      (path ++ [.index (env.indexOf (emitExpr types index))])
  | key {object path} (info : Info) (key : Expr) (h : DynChain base object path) :
    DynChain base (.dotTarget (info.typed .OBJ) object key)
      (path ++ [.key (env.keyOf (emitExpr types key))])

/-- A dot with an index or a key. -/
def isComputedDot : Expr → Bool
  | .dotIndex _ _ _ | .dotTarget _ _ _ => true
  | _ => false

/-- What a dot finds in a value: nothing if it is no container of the kind that is needed. -/
def Dyn.find : Dyn F → Access → Option (Dyn F)
  | .map entries, .key key => Assoc.get entries key
  | .arr elems, .index index => elementAt elems index
  | _, _ => none

/-- What a chain of dots finds in a value. -/
def Dyn.follow (d : Dyn F) (path : List Access) : Option (Dyn F) := path.foldlM Dyn.find d

/-- A value of a scalar type. -/
def Dyn.scalar : Dyn F → Option (Scalar F)
  | .int value => some (.int value)
  | .flt value => some (.flt value)
  | .bol value => some (.bol value)
  | .str text => some (.str text)
  | _ => none

/-- A dot is tested: a key is looked up in a map, and an index in an array or in a value that is not
true. -/
def Access.IsTested (d : Dyn F) : Access → Prop
  | .key _ => ∃ entries, d = .map entries
  | .index _ => flxObjTruthy isZero d → ∃ elems, d = .arr elems

/-- The dots before the last one find a value, and the last one is tested there. -/
def CanGuard (d : Dyn F) (path : List Access) : Prop :=
  ∀ front last, path = front ++ [last] → ∃ object, d.follow front = some object ∧
    last.IsTested isZero object

/-- An `else` has the value of its fallback where a dot finds nothing, and the value that is found
where it is true and of the type of the fallback. -/
def IsGuarded (ofInt : ℤ → F) (d : Dyn F) (left fallback : Expr) (type : FallbackType)
    (path : List Access) : Prop :=
  ∃ code, emitElseExpr types left fallback type = some code ∧
    (d.follow path = none →
      code.run ofInt isZero env = .ok (env.scalar (emitExpr types fallback))) ∧
    ∀ w s, d.follow path = some w → flxObjTruthy isZero w → w.scalar = some s → s.type = type →
      code.run ofInt isZero env = .ok s

end

/-! ### Values of chains -/

section

variable {F : Type} {ofInt : ℤ → F} {isZero : F → Bool} {env : DynEnv F} {types : TypeTable}
  {base left object : Expr} {d : Dyn F} {path : List Access}

theorem Dyn.follow_append (d : Dyn F) (path : List Access) (access : Access) :
  d.follow (path ++ [access]) = (d.follow path).bind fun object => object.find access
  := by
  simp [Dyn.follow, List.foldlM_append]

/-- The dots of a chain are of type `DYN`. -/
theorem DynChain.checkedType (h : DynChain env types base left path)
    (hbase : base.checkedType = .OBJ) :
  left.checkedType = .OBJ
  := by
  cases h with
  | base => exact hbase
  | index info index h => rfl
  | key info key h => rfl

/-- The analyzer makes a chain longer by a dot, or takes the dot for that of a loop. -/
theorem DynChain.of_analyzedDot {scope : Scope} {keys : Expr → Prop} {info : Info} {e : Expr}
    (h : DynChain env types base object path) (hbase : base.checkedType = .OBJ)
    (hdot : AnalyzedDot types scope keys info object e) :
  (∃ info' name, e = .dot info' object name ∧ info'.cExpr.isSome) ∨
    ∃ access, DynChain env types base e (path ++ [access])
  := by
  have hobject := h.checkedType hbase
  cases hdot with
  | loopIndex sym c objectName name hsym hc => exact Or.inl ⟨_, _, rfl, rfl⟩
  | loopElement sym c info' objectName name hsym hc hname => exact Or.inl ⟨_, _, rfl, rfl⟩
  | field name field hfield =>
    rw [hobject] at hfield
    cases hfield
  | objIndex index htype hkeys hindex => exact Or.inr ⟨_, .index info index h⟩
  | objKey key htype hkeys hkey => exact Or.inr ⟨_, .key info key h⟩
  | openKey key hopen hkeys hkey =>
    rw [hobject] at hopen
    simp [isOpenStructType, structOf] at hopen
  | arr elem index htype | str index htype | map keyType value key htype =>
    rw [hobject] at htype
    cases htype

theorem emitExpr_dynIndex (info : Info) (index : Expr) (hobject : object.checkedType = .OBJ) :
  emitExpr types (.dotIndex (info.typed .OBJ) object index) =
    .call .flx_objarr_get [.call .flx_obj_as_objarr [emitExpr types object], emitExpr types index]
  := by
  rw [emitExpr, emitIndexDot, if_pos hobject]
  rfl

theorem emitExpr_dynKey (info : Info) (key : Expr) (hobject : object.checkedType = .OBJ) :
  emitExpr types (.dotTarget (info.typed .OBJ) object key) =
    .call .flx_objmap_get [.call .flx_obj_as_objmap [emitExpr types object], emitExpr types key]
  := by
  rw [emitExpr, emitTargetDot, if_pos hobject]
  rfl

/-- The element that is read is the one that a dot finds. -/
theorem objarrGet_eq (object : Dyn F) (index : ℤ) :
  (∀ w, object.find (.index index) = some w →
      (flxObjAsObjarr object >>= fun arr => flxObjarrGet arr index) = .ok w) ∧
    (object.find (.index index) = none →
      ∃ message, (flxObjAsObjarr object >>= fun arr => flxObjarrGet arr index) = .error message)
  := by
  cases object with
  | arr elems =>
    simp only [Dyn.find, flxObjAsObjarr, flxObjarrGet, bind, Except.bind]
    cases elementAt elems index <;> simp
  | _ => simp [Dyn.find, flxObjAsObjarr, bind, Except.bind]

/-- The value that is read is the one that a dot finds. -/
theorem objmapGet_eq (object : Dyn F) (key : Bytes) :
  (∀ w, object.find (.key key) = some w →
      (flxObjAsObjmap object >>= fun map => flxObjmapGet map key) = .ok w) ∧
    (object.find (.key key) = none →
      ∃ message, (flxObjAsObjmap object >>= fun map => flxObjmapGet map key) = .error message)
  := by
  cases object with
  | map entries =>
    simp only [Dyn.find, flxObjAsObjmap, flxObjmapGet, bind, Except.bind]
    cases Assoc.get entries key <;> simp
  | _ => simp [Dyn.find, flxObjAsObjmap, bind, Except.bind]

/-- The code of a chain has the value that the chain finds, or ends the program if it finds
nothing. -/
theorem DynChain.run_eq (h : DynChain env types base left path) (hbase : base.checkedType = .OBJ)
    (hd : env.run (emitExpr types base) = .ok d) :
  (∀ w, d.follow path = some w → env.run (emitExpr types left) = .ok w) ∧
    (d.follow path = none → ∃ message, env.run (emitExpr types left) = .error message)
  := by
  induction h with
  | base =>
    constructor
    · intro w hw
      cases hw
      exact hd
    · intro hnone
      cases hnone
  | @index object path info index h ih =>
    obtain ⟨hfound, hmissing⟩ := ih
    rw [emitExpr_dynIndex info index (h.checkedType hbase), DynEnv.run, Dyn.follow_append]
    cases hobject : d.follow path with
    | none =>
      obtain ⟨message, hmessage⟩ := hmissing hobject
      rw [hmessage]
      exact ⟨by simp, fun _ => ⟨message, rfl⟩⟩
    | some object =>
      rw [hfound object hobject]
      exact objarrGet_eq object _
  | @key object path info key h ih =>
    obtain ⟨hfound, hmissing⟩ := ih
    rw [emitExpr_dynKey info key (h.checkedType hbase), DynEnv.run, Dyn.follow_append]
    cases hobject : d.follow path with
    | none =>
      obtain ⟨message, hmessage⟩ := hmissing hobject
      rw [hmessage]
      exact ⟨by simp, fun _ => ⟨message, rfl⟩⟩
    | some object =>
      rw [hfound object hobject]
      exact objmapGet_eq object _

/-! ### Values of fallbacks -/

theorem emitElseExpr_base (hbase : base.checkedType = .OBJ) (hdot : isComputedDot base = false)
    (fallback : Expr) (type : FallbackType) :
  emitElseExpr types base fallback type =
    some (.valueElse (emitExpr types base) type (emitExpr types fallback))
  := by
  cases base with
  | dotIndex _ _ _ | dotTarget _ _ _ => cases hdot
  | _ => exact if_pos hbase

/-- A true value of the type of the fallback is what is found. -/
theorem foundOr_of_scalar {w : Dyn F} {s : Scalar F} {type : FallbackType} (fallback : CExpr)
    (htrue : flxObjTruthy isZero w) (hs : w.scalar = some s) (htype : s.type = type) :
  foundOr ofInt isZero env type fallback (some w) = .ok s
  := by
  rw [foundOr, if_pos htrue]
  subst htype
  cases w <;> cases hs <;> rfl

theorem isTested_of_find {object w : Dyn F} {access : Access} (h : object.find access = some w) :
  access.IsTested isZero object
  := by
  cases access with
  | key key =>
    cases object with
    | map entries => exact ⟨entries, rfl⟩
    | _ => cases h
  | index index =>
    cases object with
    | arr elems => exact fun _ => ⟨elems, rfl⟩
    | _ => cases h

/-- An element is looked for if and only if the index is tested. -/
theorem run_arrElse_iff {e index fallback : CExpr} {object : Dyn F} (type : FallbackType)
    (hobject : env.run e = .ok object) :
  (ElseCode.arrElse e index type fallback).run ofInt isZero env =
      foundOr ofInt isZero env type fallback (object.find (.index (env.indexOf index))) ↔
    Access.IsTested isZero object (.index (env.indexOf index))
  := by
  simp only [ElseCode.run, hobject, Access.IsTested, bind, Except.bind]
  by_cases htrue : flxObjTruthy isZero object = true
  · rw [if_pos htrue]
    cases object with
    | arr elems => simp [flxObjAsObjarr, Dyn.find]
    | _ => simp [flxObjAsObjarr, Dyn.find, foundOr, htrue]
  · rw [if_neg htrue]
    cases object with
    | arr elems => exact absurd rfl htrue
    | _ => simp [Dyn.find, foundOr, htrue]

/-- A key is looked for if and only if it is tested. -/
theorem run_mapElse_iff {e key fallback : CExpr} {object : Dyn F} (type : FallbackType)
    (hobject : env.run e = .ok object) :
  (ElseCode.mapElse e key type fallback).run ofInt isZero env =
      foundOr ofInt isZero env type fallback (object.find (.key (env.keyOf key))) ↔
    Access.IsTested isZero object (.key (env.keyOf key))
  := by
  simp only [ElseCode.run, hobject, Access.IsTested, bind, Except.bind]
  cases object with
  | map entries => simp [flxObjAsObjmap, Dyn.find]
  | _ => simp [flxObjAsObjmap, Dyn.find, foundOr]

/-- A value that is looked for by the last dot has the fallback where there is none. -/
theorem isGuarded_iff_isTested {result : Except String (Scalar F)} {object : Dyn F}
    {access : Access} {type : FallbackType} {fallback : CExpr}
    (hrun : result = foundOr ofInt isZero env type fallback (object.find access) ↔
      access.IsTested isZero object) :
  ((object.find access = none → result = .ok (env.scalar fallback)) ∧
    ∀ w s, object.find access = some w → flxObjTruthy isZero w → w.scalar = some s →
      s.type = type → result = .ok s) ↔
    access.IsTested isZero object
  := by
  constructor
  · rintro ⟨hmissing, -⟩
    cases hfind : object.find access with
    | none =>
      rw [← hrun, hfind]
      exact hmissing hfind
    | some w => exact isTested_of_find hfind
  · intro htested
    rw [hrun.mpr htested]
    constructor
    · intro hnone
      rw [hnone]
      rfl
    · intro w s hw htrue hs htype
      rw [hw]
      exact foundOr_of_scalar fallback htrue hs htype

theorem canGuard_append_iff (access : Access) :
  CanGuard isZero d (path ++ [access]) ↔
    ∃ object, d.follow path = some object ∧ access.IsTested isZero object
  := by
  constructor
  · intro h
    exact h path access rfl
  · rintro h front last heq
    obtain ⟨rfl, hlast⟩ := List.append_inj' heq rfl
    cases hlast
    exact h

/-- The last dot of a chain is guarded if the dots before it find a value where it is tested. -/
theorem isGuarded_append_iff {fallback : Expr} {type : FallbackType} {code : ElseCode}
    {access : Access} {e : CExpr}
    (hcode : emitElseExpr types left fallback type = some code)
    (hfound : ∀ w, d.follow path = some w → env.run e = .ok w)
    (hmissing : d.follow path = none → ∃ message, code.run ofInt isZero env = .error message)
    (hrun : ∀ {w}, env.run e = .ok w →
      (code.run ofInt isZero env =
          foundOr ofInt isZero env type (emitExpr types fallback) (w.find access) ↔
        access.IsTested isZero w)) :
  IsGuarded isZero env types ofInt d left fallback type (path ++ [access]) ↔
    CanGuard isZero d (path ++ [access])
  := by
  rw [canGuard_append_iff, IsGuarded, hcode]
  simp only [Option.some.injEq, exists_eq_left', Dyn.follow_append]
  cases hobject : d.follow path with
  | none =>
    obtain ⟨message, hmessage⟩ := hmissing hobject
    simp [hmessage]
  | some object =>
    simp only [Option.bind_some, Option.some.injEq, exists_eq_left']
    exact isGuarded_iff_isTested (hrun (hfound object hobject))

/-- An `else` on a chain of dots over a dynamic value is guarded if and only if the dots before the
last one find a value, which is a map where the last dot is a key, and an array or not true where it
is an index. -/
theorem isGuarded_iff (fallback : Expr) (type : FallbackType)
    (hchain : DynChain env types base left path) (hbase : base.checkedType = .OBJ)
    (hd : env.run (emitExpr types base) = .ok d)
    (hdot : path = [] → isComputedDot base = false) :
  IsGuarded isZero env types ofInt d left fallback type path ↔ CanGuard isZero d path
  := by
  cases hchain with
  | base =>
    constructor
    · intro _ front last heq
      simp at heq
    · intro _
      refine ⟨_, emitElseExpr_base hbase (hdot rfl) fallback type, ?_, ?_⟩
      · intro hnone
        cases hnone
      · intro w s hw htrue hs htype
        cases hw
        simp only [ElseCode.run, hd]
        exact foundOr_of_scalar _ htrue hs htype
  | @index object path info index h =>
    obtain ⟨hfound, hmissing⟩ := h.run_eq hbase hd
    have hcode : emitElseExpr types (.dotIndex (info.typed .OBJ) object index) fallback type =
        some (.arrElse (emitExpr types object) (emitExpr types index) type
          (emitExpr types fallback)) := by
      simp only [emitElseExpr, h.checkedType hbase, if_true]
    apply isGuarded_append_iff hcode hfound
    · intro hnone
      obtain ⟨message, hmessage⟩ := hmissing hnone
      exact ⟨message, by simp only [ElseCode.run, hmessage]; rfl⟩
    · intro w hw
      exact run_arrElse_iff type hw
  | @key object path info key h =>
    obtain ⟨hfound, hmissing⟩ := h.run_eq hbase hd
    have hcode : emitElseExpr types (.dotTarget (info.typed .OBJ) object key) fallback type =
        some (.mapElse (emitExpr types object) (emitExpr types key) type
          (emitExpr types fallback)) := by
      simp only [emitElseExpr, h.checkedType hbase, if_true]
    apply isGuarded_append_iff hcode hfound
    · intro hnone
      obtain ⟨message, hmessage⟩ := hmissing hnone
      exact ⟨message, by simp only [ElseCode.run, hmessage]; rfl⟩
    · intro w hw
      exact run_mapElse_iff type hw

end

/-- The name `d` of a dynamic value. -/
def dynName : Expr := .name (Info.ofType .OBJ) "d"

/-- The chain `d.a`. -/
def dotA : Expr := .dotTarget ((Info.ofType .OBJ).typed .OBJ) dynName (keyNode "a")

/-- The name has a value. -/
def dynEnv (d : Dyn ℕ) : DynEnv ℕ where
  dyn _ := d
  key _ := []
  index _ := 0
  scalar _ := .int 0

theorem dynChain_dotA (d : Dyn ℕ) :
  DynChain (dynEnv d) [] dynName dotA [.key "a".toUTF8.toList]
  := .key (Info.ofType .OBJ) (keyNode "a") .base

theorem isGuarded_iff_dotA :
  IsGuarded (fun n => n = 0) (dynEnv (.map [])) [] Int.toNat (.map []) dotA
      (.int (Info.ofType .INT) 0) .INT [.key "a".toUTF8.toList] ↔
    CanGuard (fun n => n = 0) (.map [] : Dyn ℕ) [.key "a".toUTF8.toList]
  := by
  apply isGuarded_iff _ _ (dynChain_dotA _) rfl rfl
  intro hnil
  cases hnil

/-- A key of a value that is no map ends the program. -/
theorem not_isGuarded :
  ¬ ∀ (F : Type) (ofInt : ℤ → F) (isZero : F → Bool) (env : DynEnv F) (types : TypeTable)
      (base left fallback : Expr) (d : Dyn F) (path : List Access) (type : FallbackType),
    DynChain env types base left path → base.checkedType = .OBJ →
    env.run (emitExpr types base) = .ok d → (path = [] → isComputedDot base = false) →
    IsGuarded isZero env types ofInt d left fallback type path
  := by
  intro hall
  have hguarded := hall ℕ Int.toNat (fun n => n = 0) (dynEnv .nil) [] dynName dotA
    (.int (Info.ofType .INT) 0) .nil _ .INT (dynChain_dotA _) rfl rfl (by intro hnil; cases hnil)
  obtain ⟨code, hcode, hmissing, -⟩ := hguarded
  cases hcode
  have hrun := hmissing rfl
  cases hrun

end Caster
