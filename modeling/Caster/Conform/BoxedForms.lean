import Caster.Conform.Decodable
import Caster.Conform.Parts

/-!
# Boxed forms

The boxed form of a value is the value as JSON gives it: open maps for records and maps, boxed
arrays, and scalars by their kind.  Decoders give the value back, and a field that was left out of
a record has its default.
-/

namespace Caster

variable {types : TypeTable} {default : Field → Data}

/-! ### Types and values -/

/-- A type of integers, booleans, strings, arrays, maps by strings, and records with a default for
each field, none of which contains itself. -/
inductive IsJsonType (types : TypeTable) : Ty → Prop where
  | int : IsJsonType types .INT
  | bol : IsJsonType types .BOL
  | str : IsJsonType types .STR
  | arr {elem : Ty} : IsJsonType types elem → IsJsonType types (.ARR elem)
  | map {value : Ty} : IsJsonType types value → IsJsonType types (.MAP .STR value)
  | record {type : Ty} {fields : List Field} {openRuntime : Bool} :
      structOf types type = some (fields, openRuntime) → (fields.map Field.name).Nodup →
      (∀ field ∈ fields, field.value.isSome) →
      (∀ field ∈ fields, IsJsonType types field.declaredType) → IsJsonType types type

/-- A record with a part for each field. -/
def recordValue (openRuntime : Bool) (fields : List Field) (part : Field → Data) : Data :=
  if openRuntime then .objmap (fields.map fun field => openEntry field (part field))
  else .struct (fields.map part)

/-- A value of a type, and its boxed form. -/
inductive Boxes (types : TypeTable) : Ty → Data → Data → Prop where
  | int (n : ℤ) : Boxes types .INT (.int n) (.int n)
  | bol (b : Bool) : Boxes types .BOL (.bol b) (.bol b)
  | str (text : String) : Boxes types .STR (.str text) (.str text)
  | arr {elem : Ty} {items : List (Data × Data)} :
      (∀ item ∈ items, Boxes types elem item.1 item.2) →
      Boxes types (.ARR elem) (.arr (items.map Prod.fst)) (.objarr (items.map Prod.snd))
  | map {value : Ty} {entries : List (String × Data × Data)} :
      (entries.map Prod.fst).Nodup →
      (∀ entry ∈ entries, Boxes types value entry.2.1 entry.2.2) →
      Boxes types (.MAP .STR value) (.map (entries.map fun entry => (entry.1, entry.2.1)))
        (.objmap (entries.map fun entry => (entry.1, entry.2.2)))
  | record {type : Ty} {fields : List Field} {openRuntime : Bool} {part boxed : Field → Data} :
      structOf types type = some (fields, openRuntime) → (fields.map Field.name).Nodup →
      (∀ field ∈ fields, Boxes types field.declaredType (part field) (boxed field)) →
      Boxes types type (recordValue openRuntime fields part)
        (.objmap (fields.map fun field => (field.name, boxed field)))

/-- A value of a type, its boxed form with keys added to records and fields left out of them, and
the value with the defaults of the fields that were left out. -/
inductive Edited (types : TypeTable) (default : Field → Data) : Ty → Data → Data → Data → Prop where
  | int (n : ℤ) : Edited types default .INT (.int n) (.int n) (.int n)
  | bol (b : Bool) : Edited types default .BOL (.bol b) (.bol b) (.bol b)
  | str (text : String) : Edited types default .STR (.str text) (.str text) (.str text)
  | arr {elem : Ty} {items : List (Data × Data × Data)} :
      (∀ item ∈ items, Edited types default elem item.1 item.2.1 item.2.2) →
      Edited types default (.ARR elem) (.arr (items.map fun item => item.1))
        (.objarr (items.map fun item => item.2.1)) (.arr (items.map fun item => item.2.2))
  | map {value : Ty} {entries : List (String × Data × Data × Data)} :
      (entries.map Prod.fst).Nodup →
      (∀ entry ∈ entries, Edited types default value entry.2.1 entry.2.2.1 entry.2.2.2) →
      Edited types default (.MAP .STR value) (.map (entries.map fun entry => (entry.1, entry.2.1)))
        (.objmap (entries.map fun entry => (entry.1, entry.2.2.1)))
        (.map (entries.map fun entry => (entry.1, entry.2.2.2)))
  | record {type : Ty} {fields : List Field} {openRuntime : Bool} {part result : Field → Data}
      {entries : List (String × Data)} :
      structOf types type = some (fields, openRuntime) → (fields.map Field.name).Nodup →
      (∀ field ∈ fields, ∀ boxed, Assoc.get entries field.name = some boxed →
        Edited types default field.declaredType (part field) boxed (result field)) →
      (∀ field ∈ fields, Assoc.get entries field.name = none → result field = default field) →
      Edited types default type (recordValue openRuntime fields part) (.objmap entries)
        (recordValue openRuntime fields result)

/-! ### Decoders -/

theorem hasObjAs_of_isJsonType {type : Ty} (h : IsJsonType types type) :
  hasObjAs types type = true
  := by
  cases h with
  | int => rfl
  | bol => rfl
  | str => rfl
  | arr _ => simp [hasObjAs, isArrayType]
  | map _ => simp [hasObjAs, isMapType]
  | record hstruct _ _ _ => simp [hasObjAs, isStructType, hstruct]

/-- The decoders of these types are emitted. -/
theorem decodable_of_isJsonType {type : Ty} (h : IsJsonType types type) : Decodable types type := by
  induction h with
  | int => exact .leaf ⟨rfl, rfl, rfl⟩
  | bol => exact .leaf ⟨rfl, rfl, rfl⟩
  | str => exact .leaf ⟨rfl, rfl, rfl⟩
  | arr helem ih =>
    apply Decodable.arr _ ih
    simp [DecoderCompiles, structOf, readsFromObj, hasObjAs_of_isJsonType helem]
  | map hvalue ih =>
    apply Decodable.map _ ih
    simp [DecoderCompiles, structOf, readsFromObj, hasObjAs_of_isJsonType hvalue]
  | @record type fields openRuntime hstruct hnodup hvalues hfields ih =>
    apply Decodable.struct hstruct _ ih
    unfold DecoderCompiles
    rw [hstruct]
    refine ⟨fun field hfield => ?_, Or.inr hnodup⟩
    have hobj := hasObjAs_of_isJsonType (hfields field hfield)
    exact ⟨hvalues field hfield, by simp [readsFromObj, hobj], fun _ => hobj⟩

/-! ### Decoding -/

/-- The elements of an array are decoded in their order. -/
theorem jsonElements_map {α : Type} {elem : Ty} {boxed result : α → Data} {items : List α}
    (h : ∀ item ∈ items, jsonObjAsType types default elem (boxed item) = .ok (result item)) :
  jsonElements types default elem (items.map boxed) = .ok (items.map result)
  := by
  induction items with
  | nil => rw [List.map_nil, jsonElements, List.map_nil]
  | cons item items ih =>
    obtain ⟨hitem, hitems⟩ := List.forall_mem_cons.mp h
    rw [List.map_cons, jsonElements, hitem, ih hitems]
    rfl

/-- The entries of a map are set one after the other. -/
theorem jsonEntries_map {α : Type} {value : Ty} {key : α → String} {boxed result : α → Data}
    {entries : List α} {m : List (String × Data)}
    (hnodup : (Assoc.keys m ++ entries.map key).Nodup)
    (h : ∀ entry ∈ entries, jsonObjAsType types default value (boxed entry) = .ok (result entry)) :
  jsonEntries types default value m (entries.map fun entry => (key entry, boxed entry)) =
    .ok (m ++ entries.map fun entry => (key entry, result entry))
  := by
  induction entries generalizing m with
  | nil => rw [List.map_nil, jsonEntries, List.map_nil, List.append_nil]
  | cons entry entries ih =>
    obtain ⟨hentry, hentries⟩ := List.forall_mem_cons.mp h
    have hnew : key entry ∉ Assoc.keys m := by
      intro hmem
      exact (List.nodup_append.mp hnodup).2.2 _ hmem _ List.mem_cons_self rfl
    have hkeys : Assoc.keys (m ++ [(key entry, result entry)]) = Assoc.keys m ++ [key entry] := by
      simp [Assoc.keys]
    have hrest := @ih (m ++ [(key entry, result entry)]) (by simpa [hkeys] using hnodup) hentries
    rw [List.map_cons, jsonEntries, hentry]
    simp only [bind, Except.bind]
    rw [Assoc.set_of_not_mem _ hnew, hrest, List.append_assoc]
    rfl

section

variable {decode : Field → Except String (Option Data)} {fields : List Field}
  {part : Field → Option Data}

theorem closedValue_eq (h : ∀ field ∈ fields, decode field = .ok (part field)) :
  closedValue default decode fields =
    .ok (.struct (fields.map fun field => (part field).getD (default field)))
  := by
  have hparts : fields.mapM (fun field => do
      let part ← decode field
      pure (part.getD (default field))) =
      Except.ok (fields.map fun field => (part field).getD (default field)) := by
    induction fields with
    | nil => rfl
    | cons field fields ih =>
      obtain ⟨hfield, hfields⟩ := List.forall_mem_cons.mp h
      rw [List.mapM_cons, hfield, ih hfields]
      rfl
  rw [closedValue, hparts]
  rfl

theorem openValue_eq (hnodup : (fields.map Field.name).Nodup)
    (h : ∀ field ∈ fields, decode field = .ok (part field)) :
  openValue default decode fields =
    .ok (.objmap (fields.map fun field => openEntry field ((part field).getD (default field))))
  := by
  have hempty : (([] ++ fields).map Field.name).Nodup := hnodup
  have hfold := @foldlM_openStep default _ _ _ _ hempty h
  rw [List.map_nil, List.nil_append] at hfold
  rw [openValue, openNamedValue_eq hnodup, hfold]
  rfl

end

/-- A record is decoded field by field. -/
theorem jsonObjAsType_record {type : Ty} {fields : List Field} {openRuntime : Bool}
    {entries : List (String × Data)} {result : Field → Data}
    (hstruct : structOf types type = some (fields, openRuntime))
    (hnodup : (fields.map Field.name).Nodup)
    (hgiven : ∀ field ∈ fields, ∀ boxed, Assoc.get entries field.name = some boxed →
      jsonObjAsType types default field.declaredType boxed = .ok (result field))
    (hleft : ∀ field ∈ fields, Assoc.get entries field.name = none → result field = default field) :
  jsonObjAsType types default type (.objmap entries) =
    .ok (recordValue openRuntime fields result)
  := by
  let part : Field → Option Data := fun field =>
    (Assoc.get entries field.name).map fun _ => result field
  have hparts : ∀ field ∈ fields,
      jsonFieldOf types default field.name field.declaredType entries = .ok (part field) := by
    intro field hfield
    rw [jsonFieldOf_eq]
    cases hget : Assoc.get entries field.name with
    | none => simp [part, hget]
    | some boxed => simp [part, hget, hgiven field hfield boxed hget, Except.map]
  have hresult : ∀ field ∈ fields, (part field).getD (default field) = result field := by
    intro field hfield
    cases hget : Assoc.get entries field.name with
    | none => simp [part, hget, hleft field hfield hget]
    | some boxed => simp [part, hget]
  cases openRuntime with
  | false =>
    simp only [jsonObjAsType, hstruct]
    rw [closedValue_eq hparts, List.map_congr_left hresult]
    rfl
  | true =>
    simp only [jsonObjAsType, hstruct]
    rw [openValue_eq hnodup hparts,
      List.map_congr_left fun field hfield => congrArg (openEntry field) (hresult field hfield)]
    rfl

/-- Decoders invert boxing, up to the fields that were left out. -/
theorem jsonObjAsType_edited {type : Ty} {v boxed result : Data}
    (h : Edited types default type v boxed result) :
  jsonObjAsType types default type boxed = .ok result
  := by
  induction h with
  | int n => rfl
  | bol b => rfl
  | str text => rfl
  | arr _ ih =>
    simp only [jsonObjAsType, structOf, jsonElements_map ih]
    rfl
  | map hnodup _ ih =>
    simp only [jsonObjAsType, structOf, jsonEntries_map (m := []) hnodup ih]
    rfl
  | record hstruct hnodup _ hleft ih => exact jsonObjAsType_record hstruct hnodup ih hleft

/-- A boxed form is one from which nothing was left out. -/
theorem edited_of_boxes {type : Ty} {v boxed : Data} (h : Boxes types type v boxed) :
  Edited types default type v boxed v
  := by
  induction h with
  | int n => exact .int n
  | bol b => exact .bol b
  | str text => exact .str text
  | @arr elem items _ ih =>
    have hedited := @Edited.arr types default elem
      (items.map fun item => (item.1, item.2, item.1)) (List.forall_mem_map.mpr ih)
    simpa only [List.map_map, Function.comp_def] using hedited
  | @map value entries hnodup _ ih =>
    have hedited := @Edited.map types default value
      (entries.map fun entry => (entry.1, entry.2.1, entry.2.2, entry.2.1))
      (by simpa only [List.map_map, Function.comp_def] using hnodup) (List.forall_mem_map.mpr ih)
    simpa only [List.map_map, Function.comp_def] using hedited
  | @record type fields openRuntime part boxedOf hstruct hnodup _ ih =>
    apply Edited.record hstruct hnodup
    · intro field hfield boxed hget
      rw [Assoc.get_map_of_mem hnodup boxedOf hfield] at hget
      rw [← Option.some.inj hget]
      exact ih field hfield
    · intro field hfield hget
      rw [Assoc.get_map_of_mem hnodup boxedOf hfield] at hget
      cases hget

/-- The type `Point` of two integers with the default 0. -/
def pointTypes : TypeTable :=
  [⟨"Point", .struct [⟨"x", .INT, "INT", some (.expr (.int (Info.ofType .INT) 0))⟩,
    ⟨"y", .INT, "INT", some (.expr (.int (Info.ofType .INT) 0))⟩] false⟩]

end Caster
