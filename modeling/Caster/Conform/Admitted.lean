import Caster.Conform.Soundness

/-!
# What the conformance check admits

The check of an open local is enough for literals without arrays and maps that give no key
twice: what is known of such a local is what it holds.
-/

namespace Caster

variable {types : TypeTable} {default : Field → Data}

/-! ### Literals without boxes -/

mutual

/-- A literal without arrays and maps whose records give no key twice. -/
def HasNoBoxes : Expr → Prop
  | .array _ _ => False
  | .mapLiteral _ _ => False
  | .recordLiteral _ fields => (Assoc.keys fields).Nodup ∧ HaveNoBoxes fields
  | _ => True

/-- The values of a record are without arrays and maps. -/
def HaveNoBoxes : List (String × Expr) → Prop
  | [] => True
  | (_, e) :: fields => HasNoBoxes e ∧ HaveNoBoxes fields

end

/-! ### Facts -/

/-- The type known of a key is that of the value a record gives it last. -/
theorem exprSourceLiteralKeyType_record (info : Info) (fields : List (String × Expr)) (key : String) :
  exprSourceLiteralKeyType types [] (.recordLiteral info fields) key =
    (Assoc.last fields key).map Expr.checkedType
  := by
  have hfold : collectSourceLiteralKeyTypes types [] (.recordLiteral info fields) [] =
      Assoc.setAll [] (fields.map fun field => (field.1, field.2.checkedType)) := by
    unfold collectSourceLiteralKeyTypes collectKeyTypesWith Assoc.setAll
    rw [List.foldl_map]
    rfl
  unfold exprSourceLiteralKeyType sourceKeyTypeFind
  rw [hfold, Assoc.get_setAll, Assoc.get, Option.or_none]
  exact Assoc.last_map Expr.checkedType fields key

/-- The facts kept for an open local are those of its literal. -/
theorem exprSourceLiteralKeyType_openLocal {scope : Scope} {info nameInfo : Info} {name : String}
    {fields : List (String × Expr)}
    (hlocal : scopeTryResolve scope name = some (openLocal types name (.recordLiteral info fields)))
    (key : String) :
  exprSourceLiteralKeyType types scope (.name nameInfo name) key =
    exprSourceLiteralKeyType types [] (.recordLiteral info fields) key
  := by
  have hfold : collectSourceLiteralKeyTypes types scope (.name nameInfo name) [] =
      Assoc.setAll [] (collectSourceLiteralKeyTypes types [] (.recordLiteral info fields) []) := by
    conv_lhs => unfold collectSourceLiteralKeyTypes collectKeyTypesWith
    simp only [hlocal, openLocal]
    rfl
  have hnodup : (Assoc.keys (collectSourceLiteralKeyTypes types []
      (.recordLiteral info fields) [])).Nodup := by
    unfold collectSourceLiteralKeyTypes collectKeyTypesWith
    have hset := Assoc.nodup_keys_setAll (m := []) List.nodup_nil
      (fields.map fun field => (field.1, field.2.checkedType))
    rw [Assoc.setAll, List.foldl_map] at hset
    exact hset
  unfold exprSourceLiteralKeyType sourceKeyTypeFind
  rw [hfold, Assoc.get_setAll, Assoc.get, Option.or_none, Assoc.last_eq_get hnodup]

/-! ### Accepted values -/

/-- What an accepted open value says of a field. -/
theorem validateOpenConformsToStruct_field {keys : List String} {sourceType : String → Option Ty}
    {sourceConforms : String → Ty → Except Stop Bool} {target : Ty} {fields : List Field}
    {openRuntime : Bool} (hstruct : structOf types target = some (fields, openRuntime))
    (h : validateOpenConformsToStruct types keys sourceType sourceConforms target = .ok ()) :
  ∀ field ∈ fields, ∀ actual, sourceType field.name = some actual →
    typeConformsToExpected actual field.declaredType ∨
      sourceConforms field.name field.declaredType = .ok true
  := by
  simp only [validateOpenConformsToStruct, hstruct] at h
  obtain ⟨_, hforM, _⟩ := Stop.bind_ok h
  clear h hstruct
  induction fields with
  | nil => simp
  | cons field fields ih =>
    obtain ⟨_, hfirst, hrest⟩ := Stop.bind_ok hforM
    refine List.forall_mem_cons.mpr ⟨fun actual hactual => ?_, ih hrest⟩
    simp only [hactual] at hfirst
    split at hfirst
    · exact Or.inl ‹_›
    · obtain ⟨conforms, hconforms, hif⟩ := Stop.bind_ok hfirst
      cases conforms with
      | true => exact Or.inr hconforms
      | false => cases hif

theorem validateFirstConformsToType_eq (fields : List (String × Expr)) (key : String) (target : Ty) :
  validateFirstConformsToType types fields key target =
    match Assoc.get fields key with
    | none => .ok false
    | some e => validateExprConformsToType types e target
  := by
  induction fields with
  | nil => rw [validateFirstConformsToType, Assoc.get]
  | cons entry fields ih =>
    obtain ⟨name, e⟩ := entry
    rw [validateFirstConformsToType, Assoc.get]
    by_cases h : name = key
    · simp only [h, if_true]
    · simp only [h, if_false]
      exact ih

/-- A value whose type conforms is accepted. -/
theorem validateExpr_of_conforms {e : Expr} {type : Ty} (htyped : IsTyped e)
    (h : typeConformsToExpected e.checkedType type) :
  validateExprConformsToType types e type = .ok true
  := by
  cases e with
  | int info n | flt info x | bol info b | str info text | nil info =>
    simp [validateExprConformsToType, h]
  | array info elements | mapLiteral info entries | recordLiteral info fields =>
    have hconforms : typeConformsToExpected info.checkedType type := h
    cases type <;> simp [validateExprConformsToType, hconforms]
  | _ => exact htyped.elim

/-- An accepted record fits when its values do. -/
theorem fits_of_validated_record {info : Info} {fields : List (String × Expr)} {target : Ty}
    {keys : List String} {sourceType : String → Option Ty}
    (hdistinct : ∀ type fields openRuntime, structOf types type = some (fields, openRuntime) →
      (fields.map Field.name).Nodup)
    (htyped : AreTyped fields) (hkeys : (Assoc.keys fields).Nodup)
    (hsource : ∀ key, sourceType key =
      exprSourceLiteralKeyType types [] (.recordLiteral info fields) key)
    (hvalues : ∀ name e type, (name, e) ∈ fields →
      validateExprConformsToType types e type = .ok true → Fits types e type)
    (h : validateOpenConformsToStruct types keys sourceType
      (fun key target => validateFirstConformsToType types fields key target) target = .ok ()) :
  Fits types (.recordLiteral info fields) target
  := by
  cases hstruct : structOf types target with
  | none =>
    rw [validateOpenConformsToStruct, hstruct] at h
    cases h
  | some fieldsOpen =>
    obtain ⟨declared, openRuntime⟩ := fieldsOpen
    simp only [Fits, hstruct]
    refine ⟨hdistinct target declared openRuntime hstruct, fun field hfield => ?_⟩
    rw [fieldFits_iff]
    cases hlast : Assoc.last fields field.name with
    | none => trivial
    | some e =>
      have hmem := Assoc.mem_of_last hlast
      have hactual : sourceType field.name = some e.checkedType := by
        rw [hsource, exprSourceLiteralKeyType_record, hlast]
        rfl
      refine hvalues _ e _ hmem ?_
      obtain hconforms | hfirst :=
        validateOpenConformsToStruct_field hstruct h field hfield _ hactual
      · exact validateExpr_of_conforms (isTyped_of_mem htyped hmem) hconforms
      · rw [validateFirstConformsToType_eq, ← Assoc.last_eq_get hkeys, hlast] at hfirst
        exact hfirst

mutual

/-- An accepted literal without arrays and maps fits. -/
theorem fits_of_validated
    (hdistinct : ∀ type fields openRuntime, structOf types type = some (fields, openRuntime) →
      (fields.map Field.name).Nodup) :
    ∀ {e : Expr} {type : Ty}, IsTyped e → HasNoBoxes e →
      validateExprConformsToType types e type = .ok true → Fits types e type
  | .int .., _, _, _, h => by simpa [validateExprConformsToType, Fits] using h
  | .flt .., _, _, _, h => by simpa [validateExprConformsToType, Fits] using h
  | .bol .., _, _, _, h => by simpa [validateExprConformsToType, Fits] using h
  | .str .., _, _, _, h => by simpa [validateExprConformsToType, Fits] using h
  | .nil .., _, _, _, h => by simpa [validateExprConformsToType, Fits] using h
  | .array .., _, _, hboxes, _ => hboxes.elim
  | .mapLiteral .., _, _, hboxes, _ => hboxes.elim
  | .recordLiteral info fields, type, htyped, hboxes, h => by
    rw [validateExprConformsToType] at h
    split at h
    · rename_i hconforms
      have htype : type = .OPEN := by
        rw [htyped.1] at hconforms
        cases type <;> simp [typeConformsToExpected] at hconforms ⊢
      simp [Fits, htype, structOf]
    · split at h
      · obtain ⟨_, hvalid, _⟩ := Stop.bind_ok h
        exact fits_of_validated_record hdistinct htyped.2 hboxes.1 (fun _ => rfl)
          (areFit_of_validated hdistinct htyped.2 hboxes.2) hvalid
      · cases h
  | .name .., _, h, _, _ => h.elim
  | .shape .., _, h, _, _ => h.elim
  | .dot .., _, h, _, _ => h.elim
  | .dotIndex .., _, h, _, _ => h.elim
  | .dotTarget .., _, h, _, _ => h.elim
  | .unary .., _, h, _, _ => h.elim
  | .binary .., _, h, _, _ => h.elim
  | .call .., _, h, _, _ => h.elim
  | .methodCall .., _, h, _, _ => h.elim
  | .decode .., _, h, _, _ => h.elim
  | .ifExpr .., _, h, _, _ => h.elim

theorem areFit_of_validated
    (hdistinct : ∀ type fields openRuntime, structOf types type = some (fields, openRuntime) →
      (fields.map Field.name).Nodup) :
    ∀ {fields : List (String × Expr)}, AreTyped fields → HaveNoBoxes fields →
      ∀ name e type, (name, e) ∈ fields →
        validateExprConformsToType types e type = .ok true → Fits types e type
  | [], _, _, _, _, _, hmem, _ => absurd hmem List.not_mem_nil
  | (_, _) :: fields, htyped, hboxes, name, e, type, hmem, h => by
    rw [List.mem_cons] at hmem
    obtain heq | hmem := hmem
    · cases heq
      exact fits_of_validated hdistinct htyped.1 hboxes.1 h
    · exact areFit_of_validated hdistinct htyped.2 hboxes.2 name e type hmem h

end

end Caster
