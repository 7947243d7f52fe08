import Caster.Conform.Decode

/-!
# Named values

When a decoder ends with a value whose parts are the ones asked for: a closed fixed `MAP`
and one that is open at runtime store their parts differently.
-/

namespace Caster

variable {default : Field → Data}

/-! ### Closed fixed `MAP`s -/

/-- Both kinds of values: the parts of a value of a fixed `MAP`, as `given` has them. -/
def HasParts (openRuntime : Bool) (given : Field → Data → Prop) (fields : List Field) (v : Data) :
    Prop :=
  if openRuntime then
    ∃ entries, v = .objmap entries ∧ List.Forall₂ (fun field entry =>
      entry.1 = field.name ∧
        ∃ part, entry.2 = objFrom field.declaredType part ∧ given field part) fields entries
  else ∃ parts, v = .struct parts ∧ List.Forall₂ given fields parts

/-- A part that was decoded, or its default. -/
def PartIs (default : Field → Data) (decode : Field → Except String (Option Data))
    (given : Field → Data → Prop) (field : Field) : Prop :=
  ∃ part, decode field = .ok part ∧ given field (part.getD (default field))

variable {decode : Field → Except String (Option Data)} {given : Field → Data → Prop}

theorem bind_ok {α β : Type} {x : Except String α} {f : α → Except String β} {b : β} :
  (x >>= f) = .ok b ↔ ∃ a, x = .ok a ∧ f a = .ok b
  := by
  cases x with
  | error message =>
    constructor
    · intro h
      cases h
    · rintro ⟨a, h, _⟩
      cases h
  | ok a =>
    constructor
    · intro h
      exact ⟨a, rfl, h⟩
    · rintro ⟨_, h, hf⟩
      cases h
      exact hf

theorem mapM_forall₂_iff {g : Field → Except String Data} (fields : List Field) :
  (∃ parts, fields.mapM g = .ok parts ∧ List.Forall₂ given fields parts) ↔
    ∀ field ∈ fields, ∃ part, g field = .ok part ∧ given field part
  := by
  induction fields with
  | nil => simp [pure, Except.pure]
  | cons field fields ih =>
    rw [List.forall_mem_cons, ← ih]
    constructor
    · rintro ⟨parts, hmap, hgiven⟩
      rw [List.mapM_cons, bind_ok] at hmap
      obtain ⟨part, hpart, hmap⟩ := hmap
      rw [bind_ok] at hmap
      obtain ⟨parts', hparts, hmap⟩ := hmap
      cases hmap
      obtain ⟨hfirst, hrest⟩ := List.forall₂_cons.mp hgiven
      exact ⟨⟨part, hpart, hfirst⟩, parts', hparts, hrest⟩
    · rintro ⟨⟨part, hpart, hfirst⟩, parts, hparts, hrest⟩
      refine ⟨part :: parts, ?_, List.forall₂_cons.mpr ⟨hfirst, hrest⟩⟩
      rw [List.mapM_cons, hpart, hparts]
      rfl

/-- A closed fixed `MAP` is decoded when each of its parts is. -/
theorem closedValue_hasParts_iff (fields : List Field) :
  (∃ v, closedValue default decode fields = .ok v ∧ HasParts false given fields v) ↔
    ∀ field ∈ fields, PartIs default decode given field
  := by
  have hparts : ∀ field,
      PartIs default decode given field ↔
        ∃ part, (do let part ← decode field; pure (part.getD (default field))) = Except.ok part ∧
          given field part := by
    intro field
    constructor
    · rintro ⟨part, hpart, hgiven⟩
      refine ⟨_, ?_, hgiven⟩
      rw [hpart]
      rfl
    · rintro ⟨part, hpart, hgiven⟩
      rw [bind_ok] at hpart
      obtain ⟨part', hpart', heq⟩ := hpart
      cases heq
      exact ⟨part', hpart', hgiven⟩
  simp only [hparts]
  rw [← mapM_forall₂_iff]
  constructor
  · rintro ⟨v, hv, parts, rfl, hgiven⟩
    rw [closedValue, bind_ok] at hv
    obtain ⟨parts', hparts', heq⟩ := hv
    cases heq
    exact ⟨parts, hparts', hgiven⟩
  · rintro ⟨parts, hparts', hgiven⟩
    refine ⟨.struct parts, ?_, parts, rfl, hgiven⟩
    rw [closedValue, bind_ok]
    exact ⟨parts, hparts', rfl⟩

/-! ### Open fixed `MAP`s -/

/-- The entry of a field in the value of an open fixed `MAP`. -/
def openEntry (field : Field) (part : Data) : String × Data :=
  (field.name, objFrom field.declaredType part)

theorem keys_openEntry (part : Field → Data) (fields : List Field) :
  Assoc.keys (fields.map fun field => openEntry field (part field)) = fields.map Field.name
  := by
  rw [Assoc.keys, List.map_map]
  rfl

theorem openNamedValue_eq {fields : List Field} (h : (fields.map Field.name).Nodup) :
  openNamedValue default fields = fields.map fun field => openEntry field (default field)
  := by
  have hkeys := keys_openEntry default fields
  rw [openNamedValue, Assoc.setAll_append_of_nodup]
  · rfl
  · rw [List.nil_append]
    exact hkeys ▸ h

/-- The steps set each decoded part, one field after the other. -/
theorem foldlM_openStep {part : Field → Option Data} {before after : List Field}
    (hnodup : ((before ++ after).map Field.name).Nodup)
    (hdecode : ∀ field ∈ after, decode field = .ok (part field)) :
  after.foldlM (openStep decode)
      ((before.map fun field => openEntry field ((part field).getD (default field))) ++
        after.map fun field => openEntry field (default field)) =
    .ok ((before ++ after).map fun field => openEntry field ((part field).getD (default field)))
  := by
  induction after generalizing before with
  | nil => simp [pure, Except.pure]
  | cons field after ih =>
    have hstep : openStep decode
        ((before.map fun field => openEntry field ((part field).getD (default field))) ++
          (field :: after).map fun field => openEntry field (default field)) field =
        .ok (((before ++ [field]).map fun field =>
            openEntry field ((part field).getD (default field))) ++
          after.map fun field => openEntry field (default field)) := by
      rw [openStep, hdecode field List.mem_cons_self]
      cases hpart : part field with
      | none => simp [bind, Except.bind, pure, Except.pure, hpart]
      | some value =>
        have hkey : field.name ∉ Assoc.keys
            (before.map fun field => openEntry field ((part field).getD (default field))) := by
          rw [keys_openEntry]
          intro hmem
          rw [List.map_append, List.nodup_append] at hnodup
          exact hnodup.2.2 _ hmem _ (List.mem_map_of_mem List.mem_cons_self) rfl
        have hset := Assoc.set_append_cons _ (after.map fun field => openEntry field (default field))
          (objFrom field.declaredType value) (objFrom field.declaredType (default field)) hkey
        simp only [bind, Except.bind, pure, Except.pure, List.map_cons, openEntry] at hset ⊢
        rw [hset]
        simp [hpart]
    have happ : before ++ field :: after = before ++ [field] ++ after := by simp
    rw [List.foldlM_cons, hstep]
    rw [happ] at hnodup ⊢
    exact ih hnodup fun field hfield => hdecode field (List.mem_cons_of_mem _ hfield)

/-- Steps that go through decoded each part. -/
theorem decode_of_foldlM_openStep {fields : List Field} {m out : List (String × Data)}
    (h : fields.foldlM (openStep decode) m = .ok out) :
  ∀ field ∈ fields, ∃ part, decode field = .ok part
  := by
  induction fields generalizing m with
  | nil => simp
  | cons field fields ih =>
    rw [List.foldlM_cons, bind_ok] at h
    obtain ⟨m', hm', h⟩ := h
    rw [openStep, bind_ok] at hm'
    obtain ⟨part, hpart, _⟩ := hm'
    exact List.forall_mem_cons.mpr ⟨⟨part, hpart⟩, ih h⟩

theorem nodup_keys_foldlM_openStep {fields : List Field} {m out : List (String × Data)}
    (hm : (Assoc.keys m).Nodup) (h : fields.foldlM (openStep decode) m = .ok out) :
  (Assoc.keys out).Nodup
  := by
  induction fields generalizing m with
  | nil =>
    cases h
    exact hm
  | cons field fields ih =>
    rw [List.foldlM_cons, bind_ok] at h
    obtain ⟨m', hm', h⟩ := h
    rw [openStep, bind_ok] at hm'
    obtain ⟨part, _, hset⟩ := hm'
    cases part with
    | none =>
      cases hset
      exact ih hm h
    | some value =>
      cases hset
      exact ih (Assoc.nodup_keys_set hm _ _) h

/-- Boxing keeps values of a type apart. -/
theorem objFrom_injective {type : Ty} (h : type ≠ .NUL) {v w : Data}
    (heq : objFrom type v = objFrom type w) :
  v = w
  := by
  unfold objFrom at heq
  rw [if_neg h, if_neg h] at heq
  split at heq
  · exact heq
  · exact Data.box.inj heq

theorem forall₂_openEntry_iff {part : Field → Data} (fields : List Field)
    (htypes : ∀ field ∈ fields, field.declaredType ≠ .NUL) :
  List.Forall₂ (fun field entry => entry.1 = field.name ∧
      ∃ part, entry.2 = objFrom field.declaredType part ∧ given field part) fields
      (fields.map fun field => openEntry field (part field)) ↔
    ∀ field ∈ fields, given field (part field)
  := by
  rw [List.forall₂_map_right_iff, List.forall₂_same]
  refine forall₂_congr fun field hfield => ?_
  constructor
  · rintro ⟨_, part', heq, hgiven⟩
    rw [objFrom_injective (htypes field hfield) heq]
    exact hgiven
  · intro hgiven
    exact ⟨rfl, _, rfl, hgiven⟩

/-- An open fixed `MAP` is decoded when its fields have distinct names and each of its parts
is decoded. -/
theorem openValue_hasParts_iff (fields : List Field)
    (htypes : ∀ field ∈ fields, field.declaredType ≠ .NUL) :
  (∃ v, openValue default decode fields = .ok v ∧ HasParts true given fields v) ↔
    (fields.map Field.name).Nodup ∧ ∀ field ∈ fields, PartIs default decode given field
  := by
  have hvalue : ∀ v, openValue default decode fields = .ok v ↔
      ∃ out, fields.foldlM (openStep decode) (openNamedValue default fields) = .ok out ∧
        v = .objmap out := by
    intro v
    rw [openValue, bind_ok]
    constructor
    · rintro ⟨out, hout, heq⟩
      cases heq
      exact ⟨out, hout, rfl⟩
    · rintro ⟨out, hout, rfl⟩
      exact ⟨out, hout, rfl⟩
  have hrun : ∀ part : Field → Option Data, (fields.map Field.name).Nodup →
      (∀ field ∈ fields, decode field = .ok (part field)) →
      fields.foldlM (openStep decode) (openNamedValue default fields) =
        .ok (fields.map fun field => openEntry field ((part field).getD (default field))) := by
    intro part hnodup hpart
    rw [openNamedValue_eq hnodup]
    have hempty : (([] ++ fields).map Field.name).Nodup := hnodup
    exact foldlM_openStep hempty hpart
  constructor
  · rintro ⟨v, hv, entries, hentries, hparts⟩
    obtain ⟨out, hout, heq⟩ := (hvalue v).mp hv
    subst hentries
    cases heq
    have hkeys : Assoc.keys entries = fields.map Field.name := by
      have hnames : List.Forall₂ (fun (entry : String × Data) (field : Field) =>
          entry.1 = field.name) entries fields :=
        List.Forall₂.flip (hparts.imp fun _ _ h => h.1)
      rw [Assoc.keys, ← List.forall₂_eq_eq_eq, List.forall₂_map_left_iff,
        List.forall₂_map_right_iff]
      exact hnames
    have hnodup : (fields.map Field.name).Nodup := by
      rw [← hkeys]
      refine nodup_keys_foldlM_openStep ?_ hout
      exact Assoc.nodup_keys_setAll (m := []) List.nodup_nil _
    choose! part hpart using decode_of_foldlM_openStep hout
    have hout' := (hrun part hnodup hpart).symm.trans hout
    cases hout'
    refine ⟨hnodup, fun field hfield => ⟨part field, hpart field hfield, ?_⟩⟩
    exact (forall₂_openEntry_iff fields htypes).mp hparts field hfield
  · rintro ⟨hnodup, hparts⟩
    choose! part hpart using hparts
    refine ⟨_, (hvalue _).mpr ⟨_, hrun part hnodup fun field h => (hpart field h).1, rfl⟩, _, rfl, ?_⟩
    exact (forall₂_openEntry_iff fields htypes).mpr fun field h => (hpart field h).2

end Caster
