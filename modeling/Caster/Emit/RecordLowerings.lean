import Caster.Emit.Records

/-!
# The two lowerings of a fixed map agree

A literal, an overlay or a named value of a fixed `MAP` has the same fields when the map is a C
struct and when an expression elsewhere has marked it as open, up to a condition on the fields of
the map, on entries that are written twice and on left sides that are evaluated more than once.
-/

namespace Caster

variable (ofInt : ℤ → BitVec 64) (types types' : TypeTable)

/-! ### Agreement -/

/-- A type whose values are no arrays, maps or records. -/
def isUnstructured (types : TypeTable) (type : Ty) : Bool :=
  !isArrayType type && !isMapType type && !isStructType types type

/-- A value and another one of a program whose maps are lowered by another type table have the same
parts. -/
inductive Agree : Ty → Content → Content → Prop
  | eq {type c} (h : isUnstructured types type) : Agree type c c
  | arr {elem cs cs'} (hlength : cs.length = cs'.length)
    (h : ∀ (i : ℕ) c c', cs[i]? = some c → cs'[i]? = some c' → Agree elem c c') :
    Agree (.ARR elem) (.arr cs) (.arr cs')
  | map {keyType value es es'} (hkeys : Assoc.keys es = Assoc.keys es')
    (h : ∀ key c c', Assoc.get es key = some c → Assoc.get es' key = some c' → Agree value c c') :
    Agree (.MAP keyType value) (.map es) (.map es')
  | record {type c c'} (cs cs' : String → Content) (fields : List Field) (isOpen : Bool)
    (hstruct : structOf types type = some (fields, isOpen))
    (hread : ∀ field ∈ fields, readField ofInt types type c field.name = some (cs field.name))
    (hread' : ∀ field ∈ fields, readField ofInt types' type c' field.name = some (cs' field.name))
    (h : ∀ field ∈ fields, Agree field.declaredType (cs field.name) (cs' field.name)) :
    Agree type c c'

variable {ofInt types types'}

/-- Two records agree when the values of their fields do. -/
theorem agree_record_iff {type : Ty} {fields : List Field} {isOpen : Bool}
    (hstruct : structOf types type = some (fields, isOpen)) (c c' : Content) :
  Agree ofInt types types' type c c' ↔ ∀ field ∈ fields, ∃ v v',
    readField ofInt types type c field.name = some v ∧
    readField ofInt types' type c' field.name = some v' ∧
    Agree ofInt types types' field.declaredType v v'
  := by
  constructor
  · intro h
    cases h with
    | eq h => simp [isUnstructured, isStructType, hstruct] at h
    | arr _ _ => cases hstruct
    | map _ _ => cases hstruct
    | record _ _ fields' isOpen' hstruct' hread hread' h =>
      obtain ⟨rfl, -⟩ : fields = fields' ∧ isOpen = isOpen' := by simpa [hstruct] using hstruct'
      intro field hfield
      exact ⟨_, _, hread field hfield, hread' field hfield, h field hfield⟩
  · intro h
    have hvalue : ∀ field ∈ fields,
        readField ofInt types type c field.name =
          some ((readField ofInt types type c field.name).getD .nul) ∧
        readField ofInt types' type c' field.name =
          some ((readField ofInt types' type c' field.name).getD .nul) ∧
        Agree ofInt types types' field.declaredType
          ((readField ofInt types type c field.name).getD .nul)
          ((readField ofInt types' type c' field.name).getD .nul) := by
      intro field hfield
      obtain ⟨v, v', hv, hv', hagree⟩ := h field hfield
      simp [hv, hv', hagree]
    apply Agree.record (fun name => (readField ofInt types type c name).getD .nul)
      (fun name => (readField ofInt types' type c' name).getD .nul) fields isOpen hstruct
    · exact fun field hfield => (hvalue field hfield).1
    · exact fun field hfield => (hvalue field hfield).2.1
    · exact fun field hfield => (hvalue field hfield).2.2

theorem agree_iff_eq {type : Ty} (h : isUnstructured types type) (c c' : Content) :
  Agree ofInt types types' type c c' ↔ c = c'
  := by
  constructor
  · intro hagree
    cases hagree with
    | eq _ => rfl
    | arr _ _ => cases h
    | map _ _ => cases h
    | record _ _ _ _ hstruct _ _ _ => simp [isUnstructured, isStructType, hstruct] at h
  · rintro rfl
    exact .eq h

/-! ### Boxes -/

/-- A value of a type that is boxed is read back. -/
def isReadable (types : TypeTable) : Ty → Bool
  | .INT | .FLT | .BOL | .STR | .OPEN | .ARR _ | .MAP _ _ => true
  | type => isStructType types type

/-- A value can initialise an object of a type. -/
def FitsType : Ty → Content → Prop
  | .INT, c => ∃ i, c = .int i
  | .FLT, c => (∃ i, c = .int i) ∨ ∃ x, c = .flt x
  | .BOL, c => ∃ b, c = .bol b
  | .STR, c => ∃ s, c = .str s
  | .OPEN, c => ∃ entries, c = .objmap entries
  | _, _ => True

theorem convert_of_ne_flt {type : Ty} (h : type ≠ .FLT) (c : Content) :
  convert ofInt type c = c
  := by
  unfold convert
  split
  · exact absurd rfl h
  · rfl

/-- A boxed value is read back. -/
theorem objAsFn_objFromFn (ofInt : ℤ → BitVec 64) {type : Ty} {c : Content} (hreadable : isReadable types type)
    (hfits : FitsType type c) :
  ∃ d, objFromFn ofInt types type c = some d ∧
    objAsFn ofInt types type d = some (convert ofInt type c)
  := by
  cases type with
  | INT => obtain ⟨i, rfl⟩ := hfits; exact ⟨_, rfl, rfl⟩
  | FLT => obtain ⟨i, rfl⟩ | ⟨x, rfl⟩ := hfits <;> exact ⟨_, rfl, rfl⟩
  | BOL => obtain ⟨b, rfl⟩ := hfits; exact ⟨_, rfl, rfl⟩
  | STR => obtain ⟨s, rfl⟩ := hfits; exact ⟨_, rfl, rfl⟩
  | OPEN => obtain ⟨entries, rfl⟩ := hfits; exact ⟨_, rfl, rfl⟩
  | ARR elem => exact ⟨.box c, rfl, rfl⟩
  | MAP key value => exact ⟨.box c, rfl, rfl⟩
  | named name =>
    have hstruct : isStructType types (.named name) := hreadable
    exact ⟨.box c, by simp [objFromFn, hstruct], by simp [objAsFn, hstruct, convert]⟩
  | _ => cases hreadable

/-- Only values of such types are read. -/
theorem isReadable_of_objAsFn {type : Ty} {c d : Content} (h : objAsFn ofInt types type c = some d) :
  isReadable types type
  := by
  cases type with
  | named name =>
    cases c with
    | box c =>
      by_cases hstruct : isStructType types (.named name)
      · exact hstruct
      · simp [objAsFn, hstruct] at h
    | _ => cases h
  | INT | FLT | BOL | STR | OPEN | ARR | MAP => rfl
  | _ => cases h

/-- A value that is read has the form of its type. -/
theorem convert_of_objAsFn {type : Ty} {c d : Content} (h : objAsFn ofInt types type c = some d) :
  convert ofInt type d = d
  := by
  by_cases hflt : type = .FLT
  · subst hflt
    cases c with
    | int i => cases h; rfl
    | flt x => cases h; rfl
    | _ => cases h
  · exact convert_of_ne_flt hflt d

/-! ### Fields -/

section

variable {type : Ty} {fields : List Field}

theorem structField_of_mem {isOpen : Bool} (hstruct : structOf types type = some (fields, isOpen))
    (hnodup : (fields.map Field.name).Nodup) {field : Field} (hfield : field ∈ fields) :
  structField types type field.name = some field
  := by
  rw [structField, hstruct]
  show fields.find? (fun other => other.name = field.name) = some field
  clear hstruct
  induction fields with
  | nil => cases hfield
  | cons other fields ih =>
    rw [List.map_cons, List.nodup_cons] at hnodup
    rw [List.find?_cons]
    rcases List.mem_cons.mp hfield with rfl | hfield
    · simp
    · have hne : other.name ≠ field.name := by
        intro heq
        apply hnodup.1
        rw [heq]
        exact List.mem_map_of_mem hfield
      simp only [hne, decide_false]
      exact ih hnodup.2 hfield

theorem map_eq_mapIdx {α β : Type} (f : α → β) (l : List α) :
  l.map f = l.mapIdx fun _ => f
  := by
  rw [eq_comm, List.mapIdx_eq_iff]
  intro i
  simp

theorem keys_mapIdx (g : ℕ → Field → Ty × FieldCode) :
  Assoc.keys (fields.mapIdx fun i field => (field.name, g i field)) = fields.map Field.name
  := by
  rw [Assoc.keys, map_eq_mapIdx, map_eq_mapIdx, List.mapIdx_mapIdx]
  rfl

variable (ofInt : ℤ → BitVec 64) (env : Env) (code : ℕ → Field → FieldCode)

/-- The fields of a struct have the values of their code. -/
theorem run_structInit (hstruct : structOf types type = some (fields, false))
    (hnodup : (fields.map Field.name).Nodup)
    (hrun : ∀ (i : ℕ) field, fields[i]? = some field →
      ∃ v, (code i field).run ofInt types env type = some v) :
  ∃ c, (RecordCode.structInit type (fields.mapIdx fun i field =>
      (field.name, field.declaredType, code i field))).run ofInt types env type = some c ∧
    ∀ (i : ℕ) field v, fields[i]? = some field → (code i field).run ofInt types env type = some v →
      readField ofInt types type c field.name = some (convert ofInt field.declaredType v)
  := by
  have hmembers : ∃ members, runMembers ofInt types env type (fields.mapIdx fun i field =>
      (field.name, field.declaredType, code i field)) = some members := by
    apply (Assoc.exists_mapValues_iff _ _).mpr
    intro entry hentry
    obtain ⟨i, hi, rfl⟩ := List.mem_mapIdx.mp hentry
    obtain ⟨v, hv⟩ := hrun i fields[i] (List.getElem?_eq_getElem hi)
    exact ⟨convert ofInt fields[i].declaredType v, by simp only [hv, Option.map_some]⟩
  obtain ⟨members, hmembers⟩ := hmembers
  refine ⟨.struct members, ?_, ?_⟩
  · rw [RecordCode.run, hstruct]
    simp only [keys_mapIdx, hnodup, if_true, hmembers, Option.map_some]
  · intro i field v hi hv
    have hfield : field ∈ fields := List.mem_of_getElem? hi
    have hopen : isOpenStructType types type = false := by simp [isOpenStructType, hstruct]
    have hget := Assoc.get_mapValues hmembers field.name
    rw [Assoc.get_mapIdx Field.name _ hnodup hi] at hget
    simp only [Option.bind_some, hv, Option.map_some] at hget
    simp [readField, structField_of_mem hstruct hnodup hfield, hopen, hget]

/-- The fields of an open map have the values of their code. -/
theorem run_objmapMake (hstruct : structOf types type = some (fields, true))
    (hnodup : (fields.map Field.name).Nodup)
    (hrun : ∀ (i : ℕ) field, fields[i]? = some field → isReadable types field.declaredType ∧
      ∃ v, (code i field).run ofInt types env type = some v ∧ FitsType field.declaredType v) :
  ∃ c, (RecordCode.objmapMake (fields.mapIdx fun i field =>
      (field.name, field.declaredType, code i field))).run ofInt types env type = some c ∧
    ∀ (i : ℕ) field v, fields[i]? = some field → (code i field).run ofInt types env type = some v →
      readField ofInt types type c field.name = some (convert ofInt field.declaredType v)
  := by
  have hentries : ∃ entries, runEntries ofInt types env type (fields.mapIdx fun i field =>
      (field.name, field.declaredType, code i field)) = some entries := by
    apply (Assoc.exists_mapValues_iff _ _).mpr
    intro entry hentry
    obtain ⟨i, hi, rfl⟩ := List.mem_mapIdx.mp hentry
    obtain ⟨hreadable, v, hv, hfits⟩ := hrun i fields[i] (List.getElem?_eq_getElem hi)
    obtain ⟨d, hd, -⟩ := objAsFn_objFromFn ofInt hreadable hfits
    exact ⟨d, by simp only [hv, Option.bind_some, hd]⟩
  obtain ⟨entries, hentries⟩ := hentries
  refine ⟨.objmap (Assoc.setAll [] entries), ?_, ?_⟩
  · rw [RecordCode.run, hentries, Option.map_some]
  · intro i field v hi hv
    have hfield : field ∈ fields := List.mem_of_getElem? hi
    have hopen : isOpenStructType types type = true := by simp [isOpenStructType, hstruct]
    obtain ⟨hreadable, v', hv', hfits⟩ := hrun i field hi
    obtain rfl : v' = v := Option.some_inj.mp (hv'.symm.trans hv)
    obtain ⟨d, hd, hread⟩ := objAsFn_objFromFn ofInt hreadable hfits
    have hkeys : (Assoc.keys (fields.mapIdx fun i field =>
        (field.name, field.declaredType, code i field))).Nodup := by rwa [keys_mapIdx]
    have hlast := Assoc.last_mapValues hentries field.name
    rw [Assoc.last_eq_get hkeys, Assoc.get_mapIdx Field.name _ hnodup hi] at hlast
    simp only [Option.bind_some, hv, hd] at hlast
    simp [readField, structField_of_mem hstruct hnodup hfield, hopen, Assoc.get_setAll, hlast, hread]

end

/-! ### Initial values -/

section

variable (opened : List String)

/-- Marking maps as open changes no initial value. -/
theorem emitFieldDefault_foldl (field : Field) :
  emitFieldDefault (opened.foldl markStructOpen types) field = emitFieldDefault types field
  := by
  induction opened generalizing types with
  | nil => rfl
  | cons name opened ih =>
    rw [List.foldl_cons, ih]
    have hcomplete : ∀ info : TypeInfo,
        typeHasCompleteNamedValue (if info.name = name then info.opened else info) =
          typeHasCompleteNamedValue info := by
      rintro ⟨infoName, kind⟩
      by_cases hname : infoName = name <;> cases kind <;>
        simp [hname, TypeInfo.opened, typeHasCompleteNamedValue]
    unfold emitFieldDefault
    rw [typeFind_markStructOpen, Option.map_map]
    simp only [Function.comp_def, hcomplete]

/-- The initial value of a field is declared, or it is that of its type, if there is one. -/
theorem emitFieldDefault_cases (types : TypeTable) (field : Field) :
  emitFieldDefault types field = .namedValue field.text ∨
    (∃ value, emitFieldDefault types field = .expr field.name value) ∨
    (∃ elem, field.declaredType = .ARR elem ∧ emitFieldDefault types field = .emptyArr) ∨
    (∃ key value, field.declaredType = .MAP key value ∧ emitFieldDefault types field = .emptyMap) ∨
    (isUnstructured types field.declaredType ∧ field.declaredType ≠ .FLT ∧
      (∀ c, FitsType field.declaredType c) ∧ emitFieldDefault types field = .null) ∨
    fieldHasDefault types field = false
  := by
  unfold emitFieldDefault
  cases hvalue : field.value with
  | some value =>
    cases value with
    | INIT => exact Or.inl rfl
    | expr value => exact Or.inr (Or.inl ⟨value, rfl⟩)
  | none =>
    by_cases hcomplete : ((typeFind types field.text).map typeHasCompleteNamedValue).getD false
    · exact Or.inl (by rw [if_pos hcomplete])
    · cases hfind : typeFind types field.text with
      | none =>
        cases htype : field.declaredType <;>
          simp [fieldHasDefault, hvalue, hfind, htype, isUnstructured, isStructType, structOf, FitsType,
            isArrayType, isMapType, isRefType, isFnType]
      | some info =>
        have hnone : typeHasCompleteNamedValue info = false := by simpa [hfind] using hcomplete
        cases htype : field.declaredType <;>
          simp [fieldHasDefault, hvalue, hfind, hnone, htype, isUnstructured, isStructType, structOf,
            FitsType, isArrayType, isMapType, isRefType, isFnType]

end

/-! ### Records -/

/-- An expression for a record of a fixed `MAP`. -/
inductive RecordForm where
  | literal (record : Entries)
  /-- The literal of no entries. -/
  | empty
  | named
  | overlay (record : Entries)

/-- The code of a record of a type. -/
def RecordForm.emit (types : TypeTable) (type : Ty) : RecordForm → RecordCode
  | .literal record => emitRecordLiteral types type record
  | .empty => emitEmptyLiteral types type
  | .named => emitNamedValue types type
  | .overlay record => emitRecordOverlay types record type

/-- The entries that a record writes. -/
def RecordForm.entries : RecordForm → Entries
  | .literal record | .overlay record => record
  | .empty | .named => []

/-- The analyzer accepts a record of a type with given fields. -/
def RecordForm.Accepted (types : TypeTable) (fields : List Field) (form : RecordForm) : Prop :=
  (∀ entry ∈ form.entries, ∃ field ∈ fields, field.name = entry.1) ∧
    ∀ field ∈ fields, recordEntry form.entries field.name = none → fieldHasDefault types field

section

variable (ofInt : ℤ → BitVec 64) (types types' : TypeTable) (env env' : Env)

/-- The values of an expression that initialises an object of a type agree. -/
def ValuesAgree (type : Ty) (v v' : Content) : Prop :=
  FitsType type v' ∧ Agree ofInt types types' type (convert ofInt type v) (convert ofInt type v')

/-- The values of the expressions in a record of a type agree. -/
structure OperandsAgree (type : Ty) (fields : List Field) (form : RecordForm) : Prop where
  entry : ∀ entry ∈ form.entries, ∀ field ∈ fields, field.name = entry.1 →
    ValuesAgree ofInt types types' field.declaredType (env.value entry.2) (env'.value entry.2)
  namedValue : ∀ field ∈ fields, emitFieldDefault types field = .namedValue field.text →
    ValuesAgree ofInt types types' field.declaredType (env.namedValue field.text)
      (env'.namedValue field.text)
  default : ∀ field ∈ fields, ∀ value, emitFieldDefault types field = .expr field.name value →
    ValuesAgree ofInt types types' field.declaredType (env.default field.name)
      (env'.default field.name)
  left : ∀ record, form = .overlay record →
    ∀ i, Agree ofInt types types' type (env.left i) (env'.left i)

/-- The values of two codes for a record of a type agree. -/
def RunsAgree (type : Ty) (code code' : RecordCode) : Prop :=
  ∃ c c', code.run ofInt types env type = some c ∧ code'.run ofInt types' env' type = some c' ∧
    Agree ofInt types types' type c c'

/-- The condition under which the two lowerings of a record agree. -/
def RecordForm.LoweringsMatch (type : Ty) (fields : List Field) : RecordForm → Prop
  | .literal _ | .named => ∀ field ∈ fields, isReadable types field.declaredType
  | .empty => fields = []
  | .overlay record =>
    -- what is written first and last for a field agrees
    (∀ field ∈ fields, ∀ first last, recordEntry record field.name = some first →
      Assoc.last record field.name = some last →
      Agree ofInt types types' field.declaredType (convert ofInt field.declaredType (env.value first))
        (convert ofInt field.declaredType (env'.value last))) ∧
    -- the left side keeps the fields that are not written
    ∀ (i : ℕ) field v v', fields[i]? = some field → recordEntry record field.name = none →
      readField ofInt types type (env.left i) field.name = some v →
      readField ofInt types' type (env'.left 0) field.name = some v' →
      Agree ofInt types types' field.declaredType v v'

variable {ofInt types types' env env'} {type : Ty} {fields : List Field}

theorem isReadable_eq (hopens : OpensTo types types') (type : Ty) :
  isReadable types' type = isReadable types type
  := by
  have hstruct : isStructType types' type = isStructType types type := by
    have hfields := congrArg Option.isSome (hopens.fields type)
    simpa [isStructType] using hfields
  cases type <;> simp [isReadable, hstruct]

/-- The code for the fields of a struct and of an open map gives values that agree. -/
theorem runsAgree_of_fields {code code' : ℕ → Field → FieldCode}
    (hstruct : structOf types type = some (fields, false))
    (hstruct' : structOf types' type = some (fields, true))
    (hnodup : (fields.map Field.name).Nodup)
    (hcode : ∀ (i : ℕ) field, fields[i]? = some field → isReadable types' field.declaredType ∧
      ∃ v v', (code i field).run ofInt types env type = some v ∧
        (code' i field).run ofInt types' env' type = some v' ∧
        ValuesAgree ofInt types types' field.declaredType v v') :
  RunsAgree ofInt types types' env env' type
    (.structInit type (fields.mapIdx fun i field => (field.name, field.declaredType, code i field)))
    (.objmapMake (fields.mapIdx fun i field => (field.name, field.declaredType, code' i field)))
  := by
  obtain ⟨c, hc, hread⟩ := run_structInit ofInt env code hstruct hnodup (by
    intro i field hi
    obtain ⟨-, v, v', hv, -⟩ := hcode i field hi
    exact ⟨v, hv⟩)
  obtain ⟨c', hc', hread'⟩ := run_objmapMake ofInt env' code' hstruct' hnodup (by
    intro i field hi
    obtain ⟨hreadable, v, v', -, hv', hfits, -⟩ := hcode i field hi
    exact ⟨hreadable, v', hv', hfits⟩)
  refine ⟨c, c', hc, hc', (agree_record_iff hstruct c c').mpr ?_⟩
  intro field hfield
  obtain ⟨i, hi, rfl⟩ := List.mem_iff_getElem.mp hfield
  have hi' : fields[i]? = some fields[i] := List.getElem?_eq_getElem hi
  obtain ⟨-, v, v', hv, hv', -, hagree⟩ := hcode i fields[i] hi'
  exact ⟨_, _, hread i _ v hi' hv, hread' i _ v' hi' hv', hagree⟩

/-- A struct has no two fields of one name. -/
theorem nodup_of_run (code : ℕ → Field → FieldCode) {c : Content}
    (hstruct : structOf types type = some (fields, false))
    (h : (RecordCode.structInit type (fields.mapIdx fun i field =>
      (field.name, field.declaredType, code i field))).run ofInt types env type = some c) :
  (fields.map Field.name).Nodup
  := by
  rw [RecordCode.run, hstruct] at h
  by_contra hnodup
  simp only [keys_mapIdx, hnodup, if_false] at h
  cases h

/-- The fields of an open map that agrees with a struct are read. -/
theorem isReadable_of_agree (hopens : OpensTo types types')
    (hstruct : structOf types type = some (fields, false))
    (hstruct' : structOf types' type = some (fields, true))
    (hnodup : (fields.map Field.name).Nodup) {c c' : Content}
    (h : Agree ofInt types types' type c c') {field : Field} (hfield : field ∈ fields) :
  isReadable types field.declaredType
  := by
  obtain ⟨v, v', -, hread', -⟩ := (agree_record_iff hstruct c c').mp h field hfield
  rw [← isReadable_eq hopens]
  cases c' with
  | objmap entries =>
    simp only [readField, structField_of_mem hstruct' hnodup hfield] at hread'
    split at hread'
    · obtain ⟨d, -, hd⟩ := Option.bind_eq_some_iff.mp hread'
      exact isReadable_of_objAsFn hd
    · cases hread'
  | struct members => simp [readField, isOpenStructType, hstruct', structField_of_mem hstruct' hnodup hfield] at hread'
  | _ => simp [readField] at hread'

/-! ### Literals -/

section

variable {opened : List String} {form : RecordForm}

/-- The initial values of a field agree. -/
theorem exists_defaultValues
    (hoperands : OperandsAgree ofInt types types' env env' type fields form) {field : Field}
    (hfield : field ∈ fields) (hdefault : fieldHasDefault types field) :
  ∃ v v', (emitFieldDefault types field).run env = some v ∧
    (emitFieldDefault types field).run env' = some v' ∧
    ValuesAgree ofInt types types' field.declaredType v v'
  := by
  rcases emitFieldDefault_cases types field with h | ⟨value, h⟩ | ⟨elem, htype, h⟩ |
    ⟨key, value, htype, h⟩ | ⟨hplain, hflt, hfits, h⟩ | h
  · rw [h]
    exact ⟨_, _, rfl, rfl, hoperands.namedValue field hfield h⟩
  · rw [h]
    exact ⟨_, _, rfl, rfl, hoperands.default field hfield value h⟩
  · rw [h, htype]
    exact ⟨_, _, rfl, rfl, trivial, .arr rfl (fun i c c' hc => by simp at hc)⟩
  · rw [h, htype]
    exact ⟨_, _, rfl, rfl, trivial, .map rfl (fun key c c' hc => by simp [Assoc.get] at hc)⟩
  · rw [h]
    refine ⟨_, _, rfl, rfl, hfits _, ?_⟩
    rw [convert_of_ne_flt hflt]
    exact .eq hplain
  · rw [hdefault] at h
    cases h

/-- The values that a record gives to a field agree. -/
theorem exists_fieldValues (hmarked : types' = opened.foldl markStructOpen types)
    (haccepted : form.Accepted types fields)
    (hoperands : OperandsAgree ofInt types types' env env' type fields form) {field : Field}
    (hfield : field ∈ fields) :
  ∃ v v', (emitRecordFieldValue types field (recordEntry form.entries field.name)).run ofInt types
      env type = some v ∧
    (emitRecordFieldValue types' field (recordEntry form.entries field.name)).run ofInt types'
      env' type = some v' ∧
    ValuesAgree ofInt types types' field.declaredType v v'
  := by
  cases hentry : recordEntry form.entries field.name with
  | some operand =>
    have hmem : (field.name, operand) ∈ form.entries := Assoc.mem_of_get hentry
    exact ⟨_, _, rfl, rfl, hoperands.entry _ hmem field hfield rfl⟩
  | none =>
    obtain ⟨v, v', hv, hv', hagree⟩ :=
      exists_defaultValues hoperands hfield (haccepted.2 field hfield hentry)
    refine ⟨v, v', hv, ?_, hagree⟩
    rw [emitRecordFieldValue, hmarked, emitFieldDefault_foldl]
    exact hv'

variable (hmarked : types' = opened.foldl markStructOpen types)
  (hstruct : structOf types type = some (fields, false))
  (hstruct' : structOf types' type = some (fields, true))
  (haccepted : form.Accepted types fields)
  (hoperands : OperandsAgree ofInt types types' env env' type fields form)

include hmarked hstruct hstruct' haccepted hoperands

/-- A literal as a struct and as an open map agree when the fields are read. -/
theorem literal_runsAgree_iff :
  RunsAgree ofInt types types' env env' type
      (.structInit type (literalFields types fields form.entries))
      (.objmapMake (literalFields types' fields form.entries)) ↔
    (fields.map Field.name).Nodup ∧ ∀ field ∈ fields, isReadable types field.declaredType
  := by
  have hopens : OpensTo types types' := hmarked ▸ opensTo_foldl types opened
  rw [literalFields, literalFields, map_eq_mapIdx, map_eq_mapIdx]
  constructor
  · rintro ⟨c, c', hc, -, hagree⟩
    have hnodup := nodup_of_run
      (fun _ field => emitRecordFieldValue types field (recordEntry form.entries field.name))
      hstruct hc
    exact ⟨hnodup, fun field hfield =>
      isReadable_of_agree hopens hstruct hstruct' hnodup hagree hfield⟩
  · rintro ⟨hnodup, hreadable⟩
    apply runsAgree_of_fields hstruct hstruct' hnodup
    intro i field hi
    have hfield : field ∈ fields := List.mem_of_getElem? hi
    rw [isReadable_eq hopens]
    exact ⟨hreadable field hfield, exists_fieldValues hmarked haccepted hoperands hfield⟩

end

end

/-! ### Overlays -/

section

variable {types types' : TypeTable} {env env' : Env} {type : Ty} {fields : List Field}
  {record : Entries}

/-- A record with fields that are read from an open map is an open map. -/
theorem exists_objmap_of_readField (hstruct : structOf types type = some (fields, true)) {c v : Content}
    {name : String} (h : readField ofInt types type c name = some v) :
  ∃ entries, c = .objmap entries
  := by
  unfold readField at h
  split at h
  · exact ⟨_, rfl⟩
  · simp [isOpenStructType, hstruct] at h
  · cases h

/-- An overlay of an open map has what is written last for a field, and the other fields of the
left side. -/
theorem run_emitOpenOverlay (ofInt : ℤ → BitVec 64) (out : RecordCode)
    (hstruct : structOf types type = some (fields, true))
    (hnodup : (fields.map Field.name).Nodup) {c : Content}
    (hout : out.run ofInt types env type = some c)
    (hobjmap : fields ≠ [] → ∃ entries, c = .objmap entries)
    (hrecord : ∀ entry ∈ record, ∃ field ∈ fields, field.name = entry.1 ∧
      isReadable types field.declaredType ∧ FitsType field.declaredType (env.value entry.2)) :
  ∃ c', (emitOpenOverlay types type out record).run ofInt types env type = some c' ∧
    ∀ field ∈ fields,
      (Assoc.last record field.name = none →
        readField ofInt types type c' field.name = readField ofInt types type c field.name) ∧
      ∀ operand, Assoc.last record field.name = some operand →
        readField ofInt types type c' field.name =
          some (convert ofInt field.declaredType (env.value operand))
  := by
  induction record generalizing out c with
  | nil => exact ⟨c, hout, fun field _ => ⟨fun _ => rfl, fun operand h => by cases h⟩⟩
  | cons entry record ih =>
    obtain ⟨name, operand⟩ := entry
    rw [List.forall_mem_cons] at hrecord
    obtain ⟨⟨field, hfield, rfl, hreadable, hfits⟩, hrecord⟩ := hrecord
    have hopen : isOpenStructType types type = true := by simp [isOpenStructType, hstruct]
    obtain ⟨entries, rfl⟩ := hobjmap (List.ne_nil_of_mem hfield)
    obtain ⟨d, hd, hread⟩ := objAsFn_objFromFn ofInt hreadable hfits
    have hadded : (RecordCode.objmapAdd out field.name field.declaredType
        (emitRecordFieldValue types field (some operand))).run ofInt types env type =
          some (.objmap (Assoc.set entries field.name d)) := by
      rw [RecordCode.run, hout]
      simp only [emitRecordFieldValue, emitCopied, FieldCode.run, Option.bind_some, hd,
        Option.map_some]
    obtain ⟨c', hc', hfields⟩ := ih _ hadded (fun _ => ⟨_, rfl⟩) hrecord
    refine ⟨c', ?_, ?_⟩
    · rw [emitOpenOverlay, structField_of_mem hstruct hnodup hfield]
      exact hc'
    · intro other hother
      obtain ⟨hkept, hwritten⟩ := hfields other hother
      have hreadOther : ∀ entries, readField ofInt types type (.objmap entries) other.name =
          (Assoc.get entries other.name).bind (objAsFn ofInt types other.declaredType) := by
        intro entries
        simp [readField, structField_of_mem hstruct hnodup hother, hopen]
      rw [hreadOther] at hkept ⊢
      rw [Assoc.last]
      cases hlast : Assoc.last record other.name with
      | some last =>
        refine ⟨fun h => by simp at h, fun operand' h => ?_⟩
        have heq : last = operand' := by simpa using h
        rw [← heq]
        exact hwritten last hlast
      | none =>
        have hkept := hkept hlast
        by_cases hname : field.name = other.name
        · have hsame : field = other := by
            have hfound := structField_of_mem hstruct hnodup hfield
            rw [hname, structField_of_mem hstruct hnodup hother] at hfound
            exact (Option.some_inj.mp hfound).symm
          subst hsame
          rw [Assoc.get_set_self, Option.bind_some, hread] at hkept
          refine ⟨fun h => by simp at h, fun operand' h => ?_⟩
          have heq : operand = operand' := by simpa using h
          rw [← heq]
          exact hkept
        · rw [Assoc.get_set_of_ne _ _ hname] at hkept
          exact ⟨fun _ => hkept, fun operand' h => by simp [hname] at h⟩

/-- The code of an overlay of a struct for a field. -/
def overlayCode (types : TypeTable) (record : Entries) (i : ℕ) (field : Field) : FieldCode :=
  match recordEntry record field.name with
  | some entry => emitRecordFieldValue types field (some entry)
  | none => .leftMember i field.name field.declaredType

theorem recordEntry_eq_none_iff (name : String) :
  recordEntry record name = none ↔ Assoc.last record name = none
  := by
  rw [recordEntry, Assoc.get_eq_none_iff, Assoc.last_eq_none_iff]

/-- The values of fields that agree with those of an open map have the form of their types. -/
theorem convert_of_agree (hstruct : structOf types type = some (fields, false))
    (hstruct' : structOf types' type = some (fields, true)) (hnodup : (fields.map Field.name).Nodup)
    {c c' : Content} (h : Agree ofInt types types' type c c') {field : Field} (hfield : field ∈ fields)
    {v : Content} (hread : readField ofInt types type c field.name = some v) :
  convert ofInt field.declaredType v = v
  := by
  obtain ⟨w, w', hw, hw', hagree⟩ := (agree_record_iff hstruct c c').mp h field hfield
  obtain rfl : w = v := Option.some_inj.mp (hw.symm.trans hread)
  by_cases hflt : field.declaredType = .FLT
  · obtain ⟨entries, rfl⟩ := exists_objmap_of_readField hstruct' hw'
    simp only [readField, structField_of_mem hstruct' hnodup hfield, isOpenStructType, hstruct',
      if_true] at hw'
    obtain ⟨d, -, hd⟩ := Option.bind_eq_some_iff.mp hw'
    rw [hflt] at hagree
    rw [(agree_iff_eq rfl w w').mp hagree]
    exact convert_of_objAsFn hd
  · exact convert_of_ne_flt hflt w

/-- An overlay of a struct and of an open map agree when what is written first and last does, and
the left side keeps its fields. -/
theorem overlay_runsAgree_iff (hopens : OpensTo types types')
    (hstruct : structOf types type = some (fields, false))
    (hstruct' : structOf types' type = some (fields, true))
    (haccepted : (RecordForm.overlay record).Accepted types fields)
    (hoperands : OperandsAgree ofInt types types' env env' type fields (.overlay record)) :
  RunsAgree ofInt types types' env env' type
      (.structInit type (fields.mapIdx fun i field =>
        (field.name, field.declaredType, overlayCode types record i field)))
      (emitOpenOverlay types' type .left record) ↔
    (fields.map Field.name).Nodup ∧
      (RecordForm.overlay record).LoweringsMatch ofInt types types' env env' type fields
  := by
  by_cases hnodup : (fields.map Field.name).Nodup
  swap
  · apply iff_of_false
    · rintro ⟨c, c', hc, -⟩
      exact hnodup (nodup_of_run _ hstruct hc)
    · exact fun h => hnodup h.1
  have hleft : ∀ i, ∀ field ∈ fields, ∃ v v',
      readField ofInt types type (env.left i) field.name = some v ∧
      readField ofInt types' type (env'.left i) field.name = some v' ∧
      Agree ofInt types types' field.declaredType v v' :=
    fun i => (agree_record_iff hstruct _ _).mp (hoperands.left record rfl i)
  have hreadable : ∀ field ∈ fields, isReadable types' field.declaredType := by
    intro field hfield
    rw [isReadable_eq hopens]
    exact isReadable_of_agree hopens hstruct hstruct' hnodup (hoperands.left record rfl 0) hfield
  -- the code of the struct
  have hcode : ∀ (i : ℕ) field, fields[i]? = some field →
      ∃ v, (overlayCode types record i field).run ofInt types env type = some v := by
    intro i field hi
    unfold overlayCode
    cases recordEntry record field.name with
    | some entry => exact ⟨_, rfl⟩
    | none =>
      obtain ⟨v, -, hv, -⟩ := hleft i field (List.mem_of_getElem? hi)
      exact ⟨v, hv⟩
  obtain ⟨c, hc, hread⟩ := run_structInit ofInt env _ hstruct hnodup hcode
  -- the code of the open map
  have hobjmap : fields ≠ [] → ∃ entries, env'.left 0 = .objmap entries := by
    intro hne
    obtain ⟨field, hfield⟩ := List.exists_mem_of_ne_nil _ hne
    obtain ⟨v, v', -, hv', -⟩ := hleft 0 field hfield
    exact exists_objmap_of_readField hstruct' hv'
  have hrecord : ∀ entry ∈ record, ∃ field ∈ fields, field.name = entry.1 ∧
      isReadable types' field.declaredType ∧ FitsType field.declaredType (env'.value entry.2) := by
    intro entry hentry
    obtain ⟨field, hfield, hname⟩ := haccepted.1 entry hentry
    exact ⟨field, hfield, hname, hreadable field hfield,
      (hoperands.entry entry hentry field hfield hname).1⟩
  obtain ⟨c', hc', hfields⟩ :=
    run_emitOpenOverlay ofInt .left hstruct' hnodup rfl hobjmap hrecord
  have hruns : RunsAgree ofInt types types' env env' type
      (.structInit type (fields.mapIdx fun i field =>
        (field.name, field.declaredType, overlayCode types record i field)))
      (emitOpenOverlay types' type .left record) ↔ Agree ofInt types types' type c c' := by
    constructor
    · rintro ⟨d, d', hd, hd', hagree⟩
      obtain rfl : c = d := Option.some_inj.mp (hc.symm.trans hd)
      obtain rfl : c' = d' := Option.some_inj.mp (hc'.symm.trans hd')
      exact hagree
    · exact fun hagree => ⟨c, c', hc, hc', hagree⟩
  rw [hruns, agree_record_iff hstruct]
  -- what the two records have for a field that is written, and for one that is not
  have hwritten : ∀ (i : ℕ) field, fields[i]? = some field → ∀ first last,
      recordEntry record field.name = some first → Assoc.last record field.name = some last →
      readField ofInt types type c field.name =
        some (convert ofInt field.declaredType (env.value first)) ∧
      readField ofInt types' type c' field.name =
        some (convert ofInt field.declaredType (env'.value last)) := by
    intro i field hi first last hfirst hlast
    refine ⟨hread i field (env.value first) hi ?_, ?_⟩
    · rw [overlayCode, hfirst]
      rfl
    · exact (hfields field (List.mem_of_getElem? hi)).2 last hlast
  have hkept : ∀ (i : ℕ) field, fields[i]? = some field → recordEntry record field.name = none →
      ∃ v v', readField ofInt types type (env.left i) field.name = some v ∧
        readField ofInt types' type (env'.left 0) field.name = some v' ∧
        readField ofInt types type c field.name = some v ∧
        readField ofInt types' type c' field.name = some v' := by
    intro i field hi hnone
    have hfield := List.mem_of_getElem? hi
    obtain ⟨v, -, hv, -⟩ := hleft i field hfield
    obtain ⟨-, v', -, hv', -⟩ := hleft 0 field hfield
    have hstored := hread i field v hi (by rw [overlayCode, hnone]; exact hv)
    rw [convert_of_agree hstruct hstruct' hnodup (hoperands.left record rfl i) hfield hv] at hstored
    refine ⟨v, v', hv, hv', hstored, ?_⟩
    rw [(hfields field hfield).1 ((recordEntry_eq_none_iff _).mp hnone), hv']
  constructor
  · intro hagree
    refine ⟨hnodup, ?_, ?_⟩
    · intro field hfield first last hfirst hlast
      obtain ⟨i, hi⟩ := List.mem_iff_getElem?.mp hfield
      obtain ⟨hv, hv'⟩ := hwritten i field hi first last hfirst hlast
      obtain ⟨w, w', hw, hw', h⟩ := hagree field hfield
      rw [← Option.some_inj.mp (hw.symm.trans hv), ← Option.some_inj.mp (hw'.symm.trans hv')]
      exact h
    · intro i field u u' hi hnone hu hu'
      obtain ⟨v, v', hv, hv', hc, hc'⟩ := hkept i field hi hnone
      obtain ⟨w, w', hw, hw', h⟩ := hagree field (List.mem_of_getElem? hi)
      rw [← Option.some_inj.mp (hv.symm.trans hu), ← Option.some_inj.mp (hv'.symm.trans hu'),
        ← Option.some_inj.mp (hw.symm.trans hc), ← Option.some_inj.mp (hw'.symm.trans hc')]
      exact h
  · rintro ⟨-, hsame, hleftKept⟩ field hfield
    obtain ⟨i, hi⟩ := List.mem_iff_getElem?.mp hfield
    cases hfirst : recordEntry record field.name with
    | some first =>
      have hne : Assoc.last record field.name ≠ none := by
        rw [Ne, ← recordEntry_eq_none_iff, hfirst]
        simp
      obtain ⟨last, hlast⟩ := Option.ne_none_iff_exists'.mp hne
      obtain ⟨hv, hv'⟩ := hwritten i field hi first last hfirst hlast
      exact ⟨_, _, hv, hv', hsame field hfield first last hfirst hlast⟩
    | none =>
      obtain ⟨v, v', hv, hv', hc, hc'⟩ := hkept i field hi hfirst
      exact ⟨v, v', hc, hc', hleftKept i field v v' hi hfirst hv hv'⟩

end

/-! ### Literals of no expected type -/

/-- A literal of no expected type has for every name the value that it writes first. -/
def AnonymousAgrees (ofInt : ℤ → BitVec 64) (types : TypeTable) (env : Env) (record : Entries) : Prop :=
  ∃ entries, (emitRecordLiteral types .OPEN record).run ofInt types env .OPEN = some (.objmap entries) ∧
    ∀ name first, recordEntry record name = some first →
      Assoc.get entries name = objFromFn ofInt types first.expr.checkedType (env.value first)

/-- It does when its values are boxed, and what it writes first and last for a name is the same. -/
theorem anonymousAgrees_iff (types : TypeTable) (env : Env) (record : Entries) :
  AnonymousAgrees ofInt types env record ↔
    (∀ entry ∈ record, ∃ d,
      objFromFn ofInt types entry.2.expr.checkedType (env.value entry.2) = some d) ∧
    ∀ name first last, recordEntry record name = some first → Assoc.last record name = some last →
      objFromFn ofInt types first.expr.checkedType (env.value first) =
        objFromFn ofInt types last.expr.checkedType (env.value last)
  := by
  have hrun : (emitRecordLiteral types .OPEN record).run ofInt types env .OPEN =
      (Assoc.mapValues (fun operand : Operand =>
        objFromFn ofInt types operand.expr.checkedType (env.value operand)) record).map
          fun entries => .objmap (Assoc.setAll [] entries) := by
    rw [emitRecordLiteral, if_pos (Or.inr rfl), emitOpenAnonymousRecordLiteral, RecordCode.run,
      runEntries]
    have hmap := Assoc.mapValues_map (fun entry : Ty × FieldCode =>
      (entry.2.run ofInt types env .OPEN).bind (objFromFn ofInt types entry.1))
      (fun operand : Operand => (operand.expr.checkedType, emitDynamicFieldValue types operand)) record
    rw [hmap]
    rfl
  have hboxed := Assoc.exists_mapValues_iff (fun operand : Operand =>
    objFromFn ofInt types operand.expr.checkedType (env.value operand)) record
  rw [AnonymousAgrees, hrun, ← hboxed]
  constructor
  · rintro ⟨entries, hentries, hfirsts⟩
    obtain ⟨stored, hstored, heq⟩ := Option.map_eq_some_iff.mp hentries
    cases heq
    refine ⟨⟨stored, hstored⟩, ?_⟩
    intro name first last hfirst hlast
    have hget := hfirsts name first hfirst
    rw [Assoc.get_setAll, Assoc.last_mapValues hstored, hlast] at hget
    simpa [Assoc.get] using hget.symm
  · rintro ⟨⟨stored, hstored⟩, hsame⟩
    refine ⟨Assoc.setAll [] stored, by rw [hstored, Option.map_some], ?_⟩
    intro name first hfirst
    have hne : Assoc.last record name ≠ none := by
      rw [Ne, ← recordEntry_eq_none_iff, hfirst]
      simp
    obtain ⟨last, hlast⟩ := Option.ne_none_iff_exists'.mp hne
    rw [Assoc.get_setAll, Assoc.last_mapValues hstored, hlast, hsame name first last hfirst hlast]
    simp [Assoc.get]

/-! ### Agreement of the lowerings -/

/-- The records of a fixed `MAP` have the same fields as structs and as open maps exactly when the
fields are read, no braces are empty, what an overlay writes first and last for a field agrees, and
its left side keeps its fields.  A literal of no expected type has the values it writes first exactly
when its values are boxed, and they are what it writes last. -/
theorem lowerings_agree_iff {opened : List String} {form : RecordForm} {type : Ty} {fields : List Field}
    {types : TypeTable} {env env' : Env} (hstruct : structOf types type = some (fields, false))
    (hopen : isOpenStructType (opened.foldl markStructOpen types) type)
    (haccepted : form.Accepted types fields)
    (hoperands : OperandsAgree ofInt types (opened.foldl markStructOpen types) env env' type fields form) :
  (RunsAgree ofInt types (opened.foldl markStructOpen types) env env' type (form.emit types type)
      (form.emit (opened.foldl markStructOpen types) type) ↔
    (fields.map Field.name).Nodup ∧
      form.LoweringsMatch ofInt types (opened.foldl markStructOpen types) env env' type fields) ∧
  ∀ record, AnonymousAgrees ofInt types env record ↔
    (∀ entry ∈ record, ∃ d,
      objFromFn ofInt types entry.2.expr.checkedType (env.value entry.2) = some d) ∧
    ∀ name first last, recordEntry record name = some first → Assoc.last record name = some last →
      objFromFn ofInt types first.expr.checkedType (env.value first) =
        objFromFn ofInt types last.expr.checkedType (env.value last)
  := by
  refine ⟨?_, anonymousAgrees_iff types env⟩
  have hopens := opensTo_foldl types opened
  generalize hmarked : opened.foldl markStructOpen types = types' at *
  have hstruct' : structOf types' type = some (fields, true) := by
    have hfields := hopens.fields type
    rw [hstruct, Option.map_some] at hfields
    obtain ⟨⟨fields', isOpen⟩, hfound, rfl⟩ := Option.map_eq_some_iff.mp hfields
    rw [isOpenStructType, hfound] at hopen
    rw [hfound, ← hopen]
  have hscalar : ¬ (type = .OBJ ∨ type = .OPEN) := by
    rintro (rfl | rfl) <;> cases hstruct
  have hclosed : isOpenStructType types type = false := by simp [isOpenStructType, hstruct]
  have hfieldsOf : fieldsOf types type = fields := by simp [fieldsOf, hstruct]
  have hfieldsOf' : fieldsOf types' type = fields := by simp [fieldsOf, hstruct']
  cases form with
  | literal record =>
    have hemit : (RecordForm.literal record).emit types type =
        .structInit type (literalFields types fields record) := by
      simp [RecordForm.emit, emitRecordLiteral, hscalar, hclosed, hfieldsOf]
    have hemit' : (RecordForm.literal record).emit types' type =
        .objmapMake (literalFields types' fields record) := by
      simp [RecordForm.emit, emitRecordLiteral, emitOpenRecordLiteral, hscalar, hopen, hfieldsOf']
    rw [hemit, hemit']
    exact literal_runsAgree_iff hmarked.symm hstruct hstruct' haccepted hoperands
  | named =>
    have hemit : RecordForm.named.emit types type = .structInit type (literalFields types fields []) := by
      simp [RecordForm.emit, emitNamedValue, hclosed, hfieldsOf]
      rfl
    have hemit' : RecordForm.named.emit types' type = .objmapMake (literalFields types' fields []) := by
      simp [RecordForm.emit, emitNamedValue, hopen, hfieldsOf']
      rfl
    rw [hemit, hemit']
    exact literal_runsAgree_iff hmarked.symm hstruct hstruct' haccepted hoperands
  | empty =>
    have hemit' : RecordForm.empty.emit types' type = .structInit type (literalFields types' fields []) := by
      simp [RecordForm.emit, emitEmptyLiteral, hfieldsOf']
      rfl
    constructor
    · rintro ⟨c, c', -, hc', -⟩
      rw [hemit', RecordCode.run, hstruct'] at hc'
      cases fields with
      | nil => exact ⟨List.nodup_nil, rfl⟩
      | cons field fields => cases hc'
    · rintro ⟨-, rfl⟩
      refine ⟨.struct [], .objmap [], ?_, ?_, (agree_record_iff hstruct _ _).mpr (by simp)⟩
      · simp [RecordForm.emit, emitEmptyLiteral, hfieldsOf, RecordCode.run, hstruct, runMembers,
          Assoc.mapValues, Assoc.keys]
      · simp [RecordForm.emit, emitEmptyLiteral, hfieldsOf', RecordCode.run, hstruct']
  | overlay record =>
    have hemit : (RecordForm.overlay record).emit types type =
        .structInit type (fields.mapIdx fun i field =>
          (field.name, field.declaredType, overlayCode types record i field)) := by
      rw [RecordForm.emit, emitRecordOverlay, hclosed, hfieldsOf]
      rfl
    have hemit' : (RecordForm.overlay record).emit types' type =
        emitOpenOverlay types' type .left record := by
      simp [RecordForm.emit, emitRecordOverlay, hopen]
    rw [hemit, hemit']
    exact overlay_runsAgree_iff hopens hstruct hstruct' haccepted hoperands

/-- `MAP P = { INT a }`. -/
def mapWithOneField : TypeTable := [⟨"P", .struct [⟨"a", .INT, "INT", none⟩] false⟩]

/-- `left.upd({ a = 1 })`. -/
def writesOnce : RecordForm := .overlay [("a", ⟨0, .int (Info.ofType .INT) 1⟩)]

/-- Uses of expressions have the values of their numbers, and left sides are structs. -/
def structEnv : Env where
  value operand := .int operand.use
  namedValue _ := .nul
  default _ := .nul
  left _ := .struct [("a", .int 7)]

/-- Left sides are open maps. -/
def openEnv : Env := { structEnv with left := fun _ => .objmap [("a", .int 7)] }

theorem operandsAgree_of_ints (form : RecordForm) :
  OperandsAgree (fun _ => 0) mapWithOneField (["P"].foldl markStructOpen mapWithOneField) structEnv
    openEnv (.named "P") [⟨"a", .INT, "INT", none⟩] form
  := by
  constructor
  · rintro entry _ field hfield -
    obtain rfl := List.mem_singleton.mp hfield
    exact ⟨⟨_, rfl⟩, .eq rfl⟩
  · rintro field hfield h
    obtain rfl := List.mem_singleton.mp hfield
    cases h
  · rintro field hfield value h
    obtain rfl := List.mem_singleton.mp hfield
    cases h
  · intro _ _ i
    apply (agree_record_iff (by rfl) _ _).mpr
    intro field hfield
    obtain rfl := List.mem_singleton.mp hfield
    exact ⟨.int 7, .int 7, rfl, rfl, .eq rfl⟩

theorem lowerings_agree_iff_writesOnce :
  RunsAgree (fun _ => 0) mapWithOneField (["P"].foldl markStructOpen mapWithOneField) structEnv openEnv
      (.named "P") (writesOnce.emit mapWithOneField (.named "P"))
      (writesOnce.emit (["P"].foldl markStructOpen mapWithOneField) (.named "P")) ↔
    ([⟨"a", .INT, "INT", none⟩].map Field.name).Nodup ∧
      writesOnce.LoweringsMatch (fun _ => 0) mapWithOneField
        (["P"].foldl markStructOpen mapWithOneField) structEnv openEnv (.named "P")
        [⟨"a", .INT, "INT", none⟩]
  := by
  apply (lowerings_agree_iff (by rfl) (by rfl) _ (operandsAgree_of_ints writesOnce)).1
  constructor
  · simp [writesOnce, RecordForm.entries]
  · simp [writesOnce, RecordForm.entries, recordEntry, Assoc.get]

/-- `left.upd({ a = 1, a = 2 })`. -/
def writesTwice : Entries :=
  [("a", ⟨1, .int (Info.ofType .INT) 1⟩), ("a", ⟨2, .int (Info.ofType .INT) 2⟩)]

/-- An overlay that writes a field twice has the first value as a struct and the last one as an open
map. -/
theorem not_lowerings_agree :
  ¬ ∀ (ofInt : ℤ → BitVec 64) (opened : List String) (form : RecordForm) (type : Ty) (fields : List Field)
      (types : TypeTable) (env env' : Env), structOf types type = some (fields, false) →
    isOpenStructType (opened.foldl markStructOpen types) type → form.Accepted types fields →
    OperandsAgree ofInt types (opened.foldl markStructOpen types) env env' type fields form →
    RunsAgree ofInt types (opened.foldl markStructOpen types) env env' type (form.emit types type)
      (form.emit (opened.foldl markStructOpen types) type)
  := by
  intro hall
  have haccepted : (RecordForm.overlay writesTwice).Accepted mapWithOneField
      [⟨"a", .INT, "INT", none⟩] := by
    constructor
    · simp [writesTwice, RecordForm.entries]
    · simp [writesTwice, RecordForm.entries, recordEntry, Assoc.get]
  have hruns := hall (fun _ => 0) ["P"] (.overlay writesTwice) (.named "P") _ mapWithOneField structEnv
    openEnv rfl rfl haccepted (operandsAgree_of_ints _)
  have hmatch := (overlay_runsAgree_iff (opensTo_foldl mapWithOneField ["P"]) rfl rfl haccepted
    (operandsAgree_of_ints _)).mp hruns
  have hsame := hmatch.2.1 ⟨"a", .INT, "INT", none⟩ (List.mem_singleton.mpr rfl) _ _ rfl rfl
  have heq := (agree_iff_eq rfl _ _).mp hsame
  simp [convert, structEnv, openEnv] at heq

end Caster
