import Caster.Json.DirectResponse

/-!
# When the direct response body is the boxed one

The text that is written for a record literal without boxing it is the text of the boxed literal
exactly when there is no array in the literal and no record in it repeats a field.
-/

namespace Caster

variable {F : Type}

/-! ### Names -/

theorem ne_zero_of_isNameByte {b : UInt8} (h : isNameByte b = true) : b ≠ 0 := by
  rintro rfl
  cases h

/-- The bytes of a name are written as they are. -/
theorem escapeByte_of_isNameByte {b : UInt8} (h : isNameByte b = true) : escapeByte b = [b] := by
  have hne : b ≠ 34 ∧ b ≠ 92 ∧ b ≠ 10 ∧ b ≠ 9 := by
    refine ⟨?_, ?_, ?_, ?_⟩ <;>
    · rintro rfl
      cases h
  simp [escapeByte, hne]

theorem jsonStringifyString_name (name : FieldName) :
  jsonStringifyString name.text = 34 :: name.text ++ [34]
  := by
  have hall := List.all_eq_true.mp name.isName
  have hflat : name.text.flatMap escapeByte = name.text := by
    conv_rhs => rw [← List.flatMap_singleton' name.text]
    exact List.flatMap_congr fun b hb => escapeByte_of_isNameByte (hall b hb)
  rw [jsonStringifyString, hflat]

/-- On names the order of C strings is the one of the keys of a map. -/
theorem strcmp_le_iff {left right : Bytes} (hleft : ∀ b ∈ left, b ≠ 0) :
  strcmp left right ≤ 0 ↔ jsonCompareEntries left right ≤ 0
  := by
  induction left generalizing right with
  | nil =>
    cases right with
    | nil => simp [strcmp, jsonCompareEntries]
    | cons b right => simp [strcmp, jsonCompareEntries_nil_cons]
  | cons a left ih =>
    rw [List.forall_mem_cons] at hleft
    cases right with
    | nil =>
      have hpos : ¬ (a.toNat : ℤ) ≤ 0 := by
        intro hle
        apply hleft.1
        apply UInt8.toNat_inj.mp
        simp only [UInt8.toNat_zero]
        omega
      rw [strcmp, jsonCompareEntries_cons_nil]
      exact iff_of_false hpos (by decide)
    | cons b right =>
      rw [jsonCompareEntries_cons_cons, strcmp]
      by_cases hab : a = b
      · rw [if_pos hab, if_neg hleft.1, if_pos hab, ih hleft.2]
      · rw [if_neg hab, if_neg hab]

/-! ### Values and texts of fields -/

theorem boxedFields_eq_map (T : KeyedTable (Bytes × Dyn F) SameObjKey)
    (fields : List (FieldName × BodyValue F)) :
  boxedFields T fields = fields.map fun field => (field.1.text, boxedValue T field.2)
  := by
  induction fields with
  | nil => rfl
  | cons field fields ih => rw [boxedFields, ih, List.map_cons]

theorem directFields_eq_map (printG17 : F → Bytes) (fields : List (FieldName × BodyValue F)) :
  directFields printG17 fields = fields.map fun field => (field.1, directText printG17 field.2)
  := by
  induction fields with
  | nil => rfl
  | cons field fields ih => rw [directFields, ih, List.map_cons]

theorem plainFields_iff (fields : List (FieldName × BodyValue F)) :
  PlainFields fields ↔ ∀ field ∈ fields, field.2.Plain
  := by
  induction fields with
  | nil => simp [PlainFields]
  | cons field fields ih => simp [PlainFields, ih]

/-- The induction over a value that goes into the fields of records. -/
theorem BodyValue.induct {motive : BodyValue F → Prop} (int : ∀ value, motive (.int value))
    (flt : ∀ value, motive (.flt value)) (bol : ∀ value, motive (.bol value))
    (str : ∀ text, motive (.str text)) (nul : motive .nul)
    (record : ∀ fields, (∀ field ∈ fields, motive field.2) → motive (.record fields))
    (array : ∀ elements, motive (.array elements)) (b : BodyValue F) :
  motive b
  := by
  match b with
  | .int value => exact int value
  | .flt value => exact flt value
  | .bol value => exact bol value
  | .str text => exact str text
  | .nul => exact nul
  | .record fields =>
    apply record
    intro field hfield
    exact BodyValue.induct int flt bol str nul record array field.2
  | .array elements => exact array elements
termination_by sizeOf b
decreasing_by
  have hlt := List.sizeOf_lt_of_mem hfield
  obtain ⟨name, value⟩ := field
  simp only [BodyValue.record.sizeOf_spec, Prod.mk.sizeOf_spec] at hlt ⊢
  omega

/-- The text of the boxed literal. -/
def boxedText (printG17 : F → Bytes) (T : KeyedTable (Bytes × Dyn F) SameObjKey) (b : BodyValue F) :
    Bytes :=
  jsonStringifyValue printG17 (boxedValue T b)

variable (printG17 : F → Bytes) (T : KeyedTable (Bytes × Dyn F) SameObjKey)

/-- A boxed field is written as one that is written directly. -/
theorem entryText_boxed (field : FieldName × BodyValue F) :
  entryText (valueText printG17 (field.1.text, boxedValue T field.2)) =
    fieldText (field.1, boxedText printG17 T field.2)
  := by
  simp [entryText, valueText, fieldText, boxedText, jsonStringifyString_name]

/-- The text of a boxed record has some of its fields, one for each name. -/
theorem boxedText_record (fields : List (FieldName × BodyValue F)) :
  ∃ stored : List (FieldName × BodyValue F), ∃ sorted : List Bytes, stored.Sublist fields ∧
    (stored.map fun field => field.1.text).Nodup ∧
    (∀ field ∈ fields, field.1.text ∈ stored.map fun field => field.1.text) ∧
    sorted.Perm (stored.map fun field => fieldText (field.1, boxedText printG17 T field.2)) ∧
    boxedText printG17 T (.record fields) = 123 :: commaSeparated sorted ++ [125]
  := by
  obtain ⟨entries, hperm, hsublist, hnodup, hkeys⟩ := iter_objmapMake (T := T) (boxedFields T fields)
  rw [boxedFields_eq_map] at hsublist hkeys hperm
  obtain ⟨stored, hstored, rfl⟩ := List.sublist_map_iff.mp hsublist
  rw [List.map_map] at hnodup
  refine ⟨stored, (sortEntries (valueTexts printG17 (T.iter (objmapMake T (boxedFields T fields))))).map
    entryText, hstored, hnodup, ?_, ?_, rfl⟩
  · intro field hfield
    have hkey := hkeys field.1.text (by simpa using ⟨field.1, ⟨field.2, hfield⟩, rfl⟩)
    rwa [List.map_map] at hkey
  · have hsort := List.perm_insertionSort (fun left right : Bytes × Bytes =>
      jsonCompareEntries left.1 right.1 ≤ 0)
      (valueTexts printG17 (T.iter (objmapMake T (boxedFields T fields))))
    apply (hsort.map entryText).trans
    rw [valueTexts_eq_map, boxedFields_eq_map]
    have htexts : (stored.map fun field => fieldText (field.1, boxedText printG17 T field.2)) =
        ((stored.map fun field => (field.1.text, boxedValue T field.2)).map
          (valueText printG17)).map entryText := by
      simp only [List.map_map, Function.comp_def, entryText_boxed]
    rw [htexts]
    exact (hperm.map _).map _

/-- The text of a record that is written directly has all of its fields. -/
theorem directText_record (fields : List (FieldName × BodyValue F)) :
  ∃ sorted : List Bytes,
    sorted.Perm (fields.map fun field => fieldText (field.1, directText printG17 field.2)) ∧
    directText printG17 (.record fields) = 123 :: commaSeparated sorted ++ [125]
  := by
  refine ⟨(sortFields (directFields printG17 fields)).map fieldText, ?_, rfl⟩
  have hsort := List.perm_insertionSort (fun left right : FieldName × Bytes =>
    strcmp left.1.text right.1.text ≤ 0) (directFields printG17 fields)
  apply (hsort.map fieldText).trans
  rw [directFields_eq_map, List.map_map]
  exact List.Perm.refl _

/-! ### Weights -/

section

variable {w : Bytes → ℕ} (hw : ∀ a b, w (a ++ b) = w a + w b)

include hw

theorem weight_nil : w [] = 0 := by
  have h := hw [] []
  rw [List.append_nil] at h
  omega

theorem weight_commaSeparated (texts : List Bytes) :
  w (commaSeparated texts) = (texts.map w).sum + (texts.length - 1) * w [44]
  := by
  induction texts with
  | nil => simp [commaSeparated, weight_nil hw]
  | cons text texts ih =>
    cases texts with
    | nil => simp [commaSeparated]
    | cons next texts =>
      have hcons : w (44 :: commaSeparated (next :: texts)) =
          w [44] + w (commaSeparated (next :: texts)) := hw [44] _
      rw [commaSeparated, hw, hcons, ih]
      · simp only [List.map_cons, List.sum_cons, List.length_cons, Nat.add_sub_cancel]
        ring
      · simp

/-- The weight of the text of a record whose fields have the given texts. -/
theorem weight_record {texts sorted : List Bytes} (hperm : sorted.Perm texts) :
  w (123 :: commaSeparated sorted ++ [125]) =
    w [123] + ((texts.map w).sum + (texts.length - 1) * w [44]) + w [125]
  := by
  have hcons : w (123 :: commaSeparated sorted) = w [123] + w (commaSeparated sorted) := hw [123] _
  rw [hw, hcons, weight_commaSeparated hw, (hperm.map w).sum_eq, hperm.length_eq]

/-- The text of a field weighs more the more its value does. -/
theorem weight_fieldText (name : FieldName) (value : Bytes) :
  w (fieldText (name, value)) = w (34 :: name.text ++ [34, 58]) + w value
  := by
  rw [← hw]
  congr 1
  simp [fieldText]

end

theorem sum_add_le_of_sublist {l l' : List ℕ} (h : l.Sublist l') (hpos : ∀ n ∈ l', 1 ≤ n) :
  l.sum + (l'.length - l.length) ≤ l'.sum
  := by
  induction h with
  | slnil => simp
  | cons n hsublist ih =>
    rw [List.forall_mem_cons] at hpos
    have hrest := ih hpos.2
    have hlength := hsublist.length_le
    simp only [List.sum_cons, List.length_cons]
    omega
  | cons_cons n _ ih =>
    rw [List.forall_mem_cons] at hpos
    have hrest := ih hpos.2
    simp only [List.sum_cons, List.length_cons]
    omega

theorem sum_le_sum_of_forall {ι : Type} {l : List ι} {f g : ι → ℕ} (h : ∀ i ∈ l, f i ≤ g i) :
  (l.map f).sum ≤ (l.map g).sum ∧ ((l.map f).sum = (l.map g).sum → ∀ i ∈ l, f i = g i)
  := by
  induction l with
  | nil => simp
  | cons i l ih =>
    rw [List.forall_mem_cons] at h
    obtain ⟨hle, heq⟩ := ih h.2
    simp only [List.map_cons, List.sum_cons]
    constructor
    · omega
    · intro hsum
      rw [List.forall_mem_cons]
      exact ⟨by omega, heq (by omega)⟩

/-! ### Arrays -/

mutual

/-- The number of the arrays in a value that are in no other array. -/
def BodyValue.arrays : BodyValue F → ℕ
  | .record fields => arraysFields fields
  | .array _ => 1
  | _ => 0

def arraysFields : List (FieldName × BodyValue F) → ℕ
  | [] => 0
  | (_, value) :: fields => value.arrays + arraysFields fields

end

theorem arraysFields_eq (fields : List (FieldName × BodyValue F)) :
  arraysFields fields = (fields.map fun field => field.2.arrays).sum
  := by
  induction fields with
  | nil => rfl
  | cons field fields ih => rw [arraysFields, ih, List.map_cons, List.sum_cons]

/-- The text that is written directly has an opening bracket for every array, and the boxed one
has none. -/
theorem count_boxedText (b : BodyValue F) :
  (boxedText printG17 T b).count 91 + b.arrays ≤ (directText printG17 b).count 91
  := by
  induction b using BodyValue.induct with
  | int _ | flt _ | bol _ | str _ | nul => exact le_refl _
  | array elements =>
    have hnull : (boxedText printG17 T (.array elements)).count 91 = 0 := rfl
    rw [hnull, directText, List.cons_append, List.count_cons_self, BodyValue.arrays]
    omega
  | record fields ih =>
    have hw : ∀ a b : Bytes, (a ++ b).count 91 = a.count 91 + b.count 91 := fun a b => List.count_append
    obtain ⟨stored, sorted, hsublist, _, _, hperm, hboxed⟩ := boxedText_record printG17 T fields
    obtain ⟨sorted', hperm', hdirect⟩ := directText_record printG17 fields
    rw [hboxed, hdirect, weight_record hw hperm, weight_record hw hperm', BodyValue.arrays,
      arraysFields_eq]
    have hcomma : List.count 91 [(44 : UInt8)] = 0 := rfl
    have hstored := ((hsublist.map fun field =>
      (fieldText (field.1, boxedText printG17 T field.2)).count 91)).sum_le_sum fun _ _ => Nat.zero_le _
    have hfields : ((fields.map fun field =>
        (fieldText (field.1, boxedText printG17 T field.2)).count 91 + field.2.arrays).sum) ≤
        (fields.map fun field => (fieldText (field.1, directText printG17 field.2)).count 91).sum := by
      apply (sum_le_sum_of_forall _).1
      intro field hfield
      have hvalue := ih field hfield
      simp only [weight_fieldText hw]
      omega
    rw [List.sum_map_add] at hfields
    simp only [hcomma, Nat.mul_zero, List.map_map, Function.comp_def] at *
    omega

/-! ### Repeated fields -/

/-- Without arrays, the boxed text is at most as long as the one that is written directly, and
shorter when a field is repeated. -/
theorem length_boxedText (b : BodyValue F) (harrays : b.arrays = 0) :
  (boxedText printG17 T b).length ≤ (directText printG17 b).length ∧
    ((boxedText printG17 T b).length = (directText printG17 b).length → b.Plain)
  := by
  induction b using BodyValue.induct with
  | int _ | flt _ | bol _ | str _ | nul => exact ⟨le_refl _, fun _ => trivial⟩
  | array elements => cases harrays
  | record fields ih =>
    have hw : ∀ a b : Bytes, (a ++ b).length = a.length + b.length := fun a b => List.length_append
    obtain ⟨stored, sorted, hsublist, hnodup, _, hperm, hboxed⟩ := boxedText_record printG17 T fields
    obtain ⟨sorted', hperm', hdirect⟩ := directText_record printG17 fields
    rw [hboxed, hdirect, weight_record hw hperm, weight_record hw hperm']
    rw [BodyValue.arrays, arraysFields_eq] at harrays
    have hnone : ∀ field ∈ fields, field.2.arrays = 0 := by
      intro field hfield
      exact List.sum_eq_zero_iff.mp harrays _ (List.mem_map_of_mem hfield)
    -- Every field weighs something, so that a field that is not stored makes a difference.
    have hlengths : ((stored.map fun field =>
          (fieldText (field.1, boxedText printG17 T field.2)).length).sum + (fields.length - stored.length)) ≤
        (fields.map fun field => (fieldText (field.1, boxedText printG17 T field.2)).length).sum := by
      have hle := sum_add_le_of_sublist (hsublist.map fun field =>
        (fieldText (field.1, boxedText printG17 T field.2)).length) (by
          intro n hn
          obtain ⟨field, -, rfl⟩ := List.mem_map.mp hn
          exact Nat.succ_pos _)
      simpa only [List.length_map] using hle
    obtain ⟨hle, heq⟩ := sum_le_sum_of_forall (l := fields)
      (f := fun field => (fieldText (field.1, boxedText printG17 T field.2)).length)
      (g := fun field => (fieldText (field.1, directText printG17 field.2)).length) (by
        intro field hfield
        have hvalue := (ih field hfield (hnone field hfield)).1
        simp only [weight_fieldText hw]
        omega)
    have hstored := hsublist.length_le
    simp only [List.map_map, Function.comp_def, List.length_map, List.length_singleton, Nat.mul_one]
    refine ⟨by omega, fun hsame => ?_⟩
    have hall : stored = fields := hsublist.eq_of_length (by omega)
    refine ⟨hall ▸ hnodup, (plainFields_iff fields).mpr fun field hfield => ?_⟩
    apply (ih field hfield (hnone field hfield)).2
    have hfield' := heq (by omega) field hfield
    simp only [weight_fieldText hw] at hfield'
    omega

/-! ### Agreement -/

/-- Sorting the fields by their names is sorting the entries by their keys. -/
theorem map_sortFields (fields : List (FieldName × Bytes)) :
  (sortFields fields).map fieldText =
    (sortEntries (fields.map fun field => (field.1.text, field.2))).map entryText
  := by
  have hsort : (sortFields fields).map (fun field => (field.1.text, field.2)) =
      sortEntries (fields.map fun field => (field.1.text, field.2)) := by
    apply List.map_insertionSort
    intro left _ right _
    have hname := List.all_eq_true.mp left.1.isName
    exact strcmp_le_iff fun b hb => ne_zero_of_isNameByte (hname b hb)
  rw [← hsort, List.map_map]
  apply List.map_congr_left
  intro field _
  simp [fieldText, entryText, jsonStringifyString_name]

/-- A literal without arrays and repeated fields has one text. -/
theorem directText_of_plain (b : BodyValue F) (hplain : b.Plain) :
  directText printG17 b = boxedText printG17 T b
  := by
  induction b using BodyValue.induct with
  | int _ | flt _ | bol _ | str _ | nul => rfl
  | array elements => cases hplain
  | record fields ih =>
    obtain ⟨hnodup, hfields⟩ := hplain
    rw [plainFields_iff] at hfields
    have hkeys : ((boxedFields T fields).map Prod.fst).Nodup := by
      rwa [boxedFields_eq_map, List.map_map]
    have hperm := (iter_objmapMake_of_nodup (T := T) hkeys).map (valueText printG17)
    have hvalues : (boxedFields T fields).map (valueText printG17) =
        (directFields printG17 fields).map fun field => (field.1.text, field.2) := by
      rw [boxedFields_eq_map, directFields_eq_map, List.map_map, List.map_map]
      apply List.map_congr_left
      intro field hfield
      simp only [Function.comp_apply, valueText, ih field hfield (hfields field hfield), boxedText]
    have hdistinct : (((boxedFields T fields).map (valueText printG17)).map Prod.fst).Nodup := by
      rwa [List.map_map]
    have hsorted : sortEntries (valueTexts printG17 (T.iter (objmapMake T (boxedFields T fields)))) =
        sortEntries ((boxedFields T fields).map (valueText printG17)) := by
      rw [valueTexts_eq_map]
      apply eq_sortEntries hdistinct _ (pairwise_sortEntries _)
      exact (List.perm_insertionSort _ _).trans hperm
    have hboxed : boxedText printG17 T (.record fields) = 123 :: commaSeparated ((sortEntries
        (valueTexts printG17 (T.iter (objmapMake T (boxedFields T fields))))).map entryText) ++ [125] :=
      rfl
    rw [hboxed, hsorted, hvalues, directText, map_sortFields]

theorem directText_eq_boxedText_iff (b : BodyValue F) :
  directText printG17 b = boxedText printG17 T b ↔ b.Plain
  := by
  constructor
  · intro hsame
    have hcount := count_boxedText printG17 T b
    rw [hsame] at hcount
    have harrays : b.arrays = 0 := by omega
    exact (length_boxedText printG17 T b harrays).2 (congrArg List.length hsame).symm
  · exact directText_of_plain printG17 T b

/-! ### Literals of the program text -/

theorem literal_or_scalar (e : Expr) :
  (∃ info fields, e = .recordLiteral info fields) ∨ (∃ info elements, e = .array info elements) ∨
    (canEmitDirectJsonValue e = isDirectScalar e.checkedType ∧ PlainLiteral e ∧
      ∀ (eval : List ℕ → Scalars F) place,
        bodyValue eval place e = scalarValue (eval place) e.checkedType)
  := by
  cases e <;> simp [canEmitDirectJsonValue, PlainLiteral, bodyValue]

theorem exists_scalarValue (scalars : Scalars F) {type : Ty} (h : isDirectScalar type = true) :
  ∃ b, scalarValue scalars type = some b ∧ b.Plain
  := by
  simp only [isDirectScalar, Bool.or_eq_true, decide_eq_true_eq] at h
  rcases h with (((rfl | rfl) | rfl) | rfl) | rfl <;> simp [scalarValue, BodyValue.Plain]

theorem exists_fieldName {name : String} (h : (strLit name).all isNameByte = true) :
  ∃ field, fieldName name = some field ∧ field.text = strLit name
  := by
  rw [fieldName, dif_pos h]
  exact ⟨_, rfl, rfl⟩

mutual

/-- A literal that is written directly has a value, with the arrays and the repeated fields that
the literal has. -/
theorem exists_bodyValue (eval : List ℕ → Scalars F) (place : List ℕ) (e : Expr)
    (hcan : canEmitDirectJsonValue e = true) (hnamed : NamedLiteral e) :
  ∃ b, bodyValue eval place e = some b ∧ (b.Plain ↔ PlainLiteral e)
  := by
  rcases literal_or_scalar (F := F) e with ⟨info, fields, rfl⟩ | ⟨info, elements, rfl⟩ | ⟨hscalar, hplain, hvalue⟩
  · rw [NamedLiteral] at hnamed
    rw [canEmitDirectJsonValue, hnamed.1, Bool.false_or] at hcan
    obtain ⟨values, hvalues, hnames, hplain⟩ := exists_bodyFields eval place 0 fields hcan hnamed.2
    refine ⟨.record values, by simp [bodyValue, hvalues], ?_⟩
    rw [BodyValue.Plain, PlainLiteral, hnames, hplain]
  · rw [NamedLiteral] at hnamed
    rw [canEmitDirectJsonValue, hnamed.1, Bool.false_or] at hcan
    obtain ⟨values, hvalues⟩ := exists_bodyElements eval place 0 elements hcan hnamed.2
    exact ⟨.array values, by simp [bodyValue, hvalues], Iff.rfl⟩
  · rw [hscalar] at hcan
    obtain ⟨b, hb, hbplain⟩ := exists_scalarValue (eval place) hcan
    exact ⟨b, (hvalue eval place).trans hb, iff_of_true hbplain hplain⟩
termination_by sizeOf e

theorem exists_bodyFields (eval : List ℕ → Scalars F) (place : List ℕ) (i : ℕ)
    (fields : List (String × Expr)) (hcan : canEmitFields fields = true)
    (hnamed : NamedFields fields) :
  ∃ values, bodyFields eval place i fields = some values ∧
    (values.map fun field => field.1.text) = fields.map (fun field => strLit field.1) ∧
    (PlainFields values ↔ PlainLiteralFields fields)
  := by
  match fields with
  | [] => exact ⟨[], rfl, rfl, Iff.rfl⟩
  | (name, value) :: fields =>
    rw [canEmitFields, Bool.and_eq_true] at hcan
    rw [NamedFields] at hnamed
    obtain ⟨field, hfield, htext⟩ := exists_fieldName hnamed.1
    obtain ⟨b, hb, hplain⟩ := exists_bodyValue eval (i :: place) value hcan.1 hnamed.2.1
    obtain ⟨values, hvalues, hnames, hrest⟩ :=
      exists_bodyFields eval place (i + 1) fields hcan.2 hnamed.2.2
    refine ⟨(field, b) :: values, by simp [bodyFields, hfield, hb, hvalues], ?_, ?_⟩
    · rw [List.map_cons, List.map_cons, hnames, htext]
    · rw [PlainFields, PlainLiteralFields, hplain, hrest]
termination_by sizeOf fields

theorem exists_bodyElements (eval : List ℕ → Scalars F) (place : List ℕ) (i : ℕ)
    (elements : List Expr) (hcan : canEmitElements elements = true)
    (hnamed : NamedElements elements) :
  ∃ values, bodyElements eval place i elements = some values
  := by
  match elements with
  | [] => exact ⟨[], rfl⟩
  | e :: elements =>
    rw [canEmitElements, Bool.and_eq_true] at hcan
    rw [NamedElements] at hnamed
    obtain ⟨b, hb, -⟩ := exists_bodyValue eval (i :: place) e hcan.1 hnamed.1
    obtain ⟨values, hvalues⟩ := exists_bodyElements eval place (i + 1) elements hcan.2 hnamed.2
    exact ⟨b :: values, by simp [bodyElements, hb, hvalues]⟩
termination_by sizeOf elements

end

/-- The body that is written for a literal without boxing it is the text of the boxed literal
exactly when there is no array in the literal and no record in it repeats a field. -/
theorem directBody_eq (eval : List ℕ → Scalars F) (e : Expr)
    (hcan : canEmitDirectJsonValue e = true) (hnamed : NamedLiteral e) :
  ∃ b, bodyValue eval [] e = some b ∧
    (directText printG17 b = jsonStringifyValue printG17 (boxedValue T b) ↔ PlainLiteral e)
  := by
  obtain ⟨b, hb, hplain⟩ := exists_bodyValue eval [] e hcan hnamed
  exact ⟨b, hb, (directText_eq_boxedText_iff printG17 T b).trans hplain⟩

/-- The table of the runtime as the list of its entries. -/
def listTable : KeyedTable (Bytes × Dyn ℤ) SameObjKey := KeyedTable.ofList _ SameObjKey

/-- Every scalar is one. -/
def oneScalars : List ℕ → Scalars ℤ := fun _ => ⟨1, 1, true, [49]⟩

/-- The literal `{ a = 1 }`. -/
def fieldLiteral : Expr :=
  .recordLiteral (Info.ofType .OBJ) [("a", .int (Info.ofType .INT) 1)]

theorem directBody_eq_fieldLiteral :
  ∃ b, bodyValue oneScalars [] fieldLiteral = some b ∧
    (directText JsonReader.integerText b =
      jsonStringifyValue JsonReader.integerText (boxedValue listTable b) ↔ PlainLiteral fieldLiteral)
  :=
  directBody_eq JsonReader.integerText listTable oneScalars fieldLiteral rfl
    ⟨rfl, by decide, trivial, trivial⟩

/-- The literal `{ a = [1] }`. -/
def arrayLiteral : Expr :=
  .recordLiteral (Info.ofType .OBJ)
    [("a", .array (Info.ofType (.ARR .INT)) [.int (Info.ofType .INT) 1])]

/-- The body of `{ a = [1] }` has the array, and the boxed literal has none. -/
theorem not_directBody_eq :
  ¬ ∀ (eval : List ℕ → Scalars ℤ) (e : Expr), canEmitDirectJsonValue e = true → NamedLiteral e →
    ∃ b, bodyValue eval [] e = some b ∧
      directText JsonReader.integerText b =
        jsonStringifyValue JsonReader.integerText (boxedValue listTable b)
  := by
  intro hall
  obtain ⟨b, hb, heq⟩ := hall oneScalars arrayLiteral rfl ⟨rfl, by decide, ⟨rfl, trivial, trivial⟩, trivial⟩
  obtain ⟨b', hb', hplain⟩ :=
    exists_bodyValue oneScalars [] arrayLiteral rfl ⟨rfl, by decide, ⟨rfl, trivial, trivial⟩, trivial⟩
  obtain rfl : b = b' := Option.some_inj.mp (hb.symm.trans hb')
  have hno : ¬ PlainLiteral arrayLiteral := fun h => h.2.1
  exact hno (hplain.mp ((directText_eq_boxedText_iff JsonReader.integerText listTable b).mp heq))

end Caster
