import Caster.Emit.Copy

/-!
# What a copy keeps

The blocks of a value that its copy holds as well: the values that the clone of a map shares, the
entries of open maps, and all that is printed without a copy.  The other blocks of a copy are
fresh.
-/

namespace Caster

/-! ### Values without their blocks -/

mutual

/-- A value without the blocks it holds. -/
def Val.content : Val → Val
  | .str _ text => .str none text
  | .arr _ elems => .arr none (contentList elems)
  | .map _ entries => .map none (contentEntries entries)
  | .objmap _ entries => .objmap none (contentEntries entries)
  | .struct fields => .struct (contentList fields)
  | .ref _ _ target => .ref false 0 target.content
  | .tsk _ => .tsk none
  | .box _ contents => .box 0 contents.content
  | v => v

def Val.contentList : List Val → List Val
  | [] => []
  | v :: vs => v.content :: contentList vs

def Val.contentEntries : List (Key × Val) → List (Key × Val)
  | [] => []
  | (key, v) :: entries => (⟨none, key.text⟩, v.content) :: contentEntries entries

end

/-! ### Other blocks -/

/-- A key in another block. -/
def Key.rename (f : Loc → Loc) (key : Key) : Key := { key with buffer := key.buffer.map f }

mutual

/-- A value in other blocks. -/
def Val.rename (f : Loc → Loc) : Val → Val
  | .str buffer text => .str (buffer.map f) text
  | .arr data elems => .arr (data.map f) (renameList f elems)
  | .map raw entries => .map (raw.map f) (renameEntries f entries)
  | .objmap raw entries => .objmap (raw.map f) (renameEntries f entries)
  | .struct fields => .struct (renameList f fields)
  | .ref owned loc target => .ref owned (f loc) (target.rename f)
  | .tsk task => .tsk (task.map f)
  | .box ptr contents => .box (f ptr) (contents.rename f)
  | v => v

def Val.renameList (f : Loc → Loc) : List Val → List Val
  | [] => []
  | v :: vs => v.rename f :: renameList f vs

def Val.renameEntries (f : Loc → Loc) : List (Key × Val) → List (Key × Val)
  | [] => []
  | (key, v) :: entries => (key.rename f, v.rename f) :: renameEntries f entries

end

mutual

theorem Val.content_rename (f : Loc → Loc) : ∀ v : Val, (v.rename f).content = v.content
  | .str _ _ | .tsk _ | .int _ | .flt _ | .bol _ | .nul | .refNull | .fn _ => by
    simp [Val.rename, Val.content]
  | .arr _ elems => by simp [Val.rename, Val.content, contentList_renameList f elems]
  | .map _ entries | .objmap _ entries => by
    simp [Val.rename, Val.content, contentEntries_renameEntries f entries]
  | .struct fields => by simp [Val.rename, Val.content, contentList_renameList f fields]
  | .ref _ _ target => by simp [Val.rename, Val.content, Val.content_rename f target]
  | .box _ contents => by simp [Val.rename, Val.content, Val.content_rename f contents]

theorem Val.contentList_renameList (f : Loc → Loc) :
  ∀ vs : List Val, contentList (renameList f vs) = contentList vs
  | [] => rfl
  | v :: vs => by
    simp [renameList, contentList, Val.content_rename f v, contentList_renameList f vs]

theorem Val.contentEntries_renameEntries (f : Loc → Loc) :
  ∀ entries : List (Key × Val), contentEntries (renameEntries f entries) = contentEntries entries
  | [] => rfl
  | (key, v) :: entries => by
    simp [renameEntries, contentEntries, Key.rename, Val.content_rename f v,
      contentEntries_renameEntries f entries]

end

mutual

theorem Val.locs_rename (f : Loc → Loc) : ∀ v : Val, (v.rename f).locs = v.locs.map f
  | .str buffer _ => by cases buffer <;> rfl
  | .tsk task => by cases task <;> rfl
  | .int _ | .flt _ | .bol _ | .nul | .refNull | .fn _ => rfl
  | .arr data elems => by
    cases data <;> simp [Val.rename, Val.locs, locsList_renameList f elems]
  | .map raw entries | .objmap raw entries => by
    cases raw <;> simp [Val.rename, Val.locs, locsEntries_renameEntries f entries]
  | .struct fields => by simp [Val.rename, Val.locs, locsList_renameList f fields]
  | .ref _ _ target => by simp [Val.rename, Val.locs, Val.locs_rename f target]
  | .box _ contents => by simp [Val.rename, Val.locs, Val.locs_rename f contents]

theorem Val.locsList_renameList (f : Loc → Loc) :
  ∀ vs : List Val, locsList (renameList f vs) = (locsList vs).map f
  | [] => rfl
  | v :: vs => by simp [renameList, locsList, Val.locs_rename f v, locsList_renameList f vs]

theorem Val.locsEntries_renameEntries (f : Loc → Loc) :
  ∀ entries : List (Key × Val), locsEntries (renameEntries f entries) = (locsEntries entries).map f
  | [] => rfl
  | (⟨buffer, _⟩, v) :: entries => by
    cases buffer <;> simp [renameEntries, locsEntries, Key.rename, Val.locs_rename f v,
      locsEntries_renameEntries f entries]

end

/-! ### Kept blocks -/

/-- The blocks that the clone of a map keeps of a value. -/
def keptEntry (valueType : Ty) : Val → List Loc
  | .str buffer _ => if valueType = .STR then [] else buffer.toList
  | v => v.locs

mutual

/-- The blocks of a value that its copy keeps. -/
def keptVal (types : TypeTable) (helper : StructHelper) (type : Ty) : Val → List Loc
  | .str buffer _ =>
    match emitHeapFieldCopy types type with
    | .flxStrCopy => []
    | _ => buffer.toList
  | .arr data elems =>
    match emitHeapFieldCopy types type with
    | .arrMake elem => keptElems types elem elems
    | _ => data.toList ++ Val.locsList elems
  | .map raw entries =>
    match emitHeapFieldCopy types type with
    | .mapClone value => entries.flatMap fun entry => keptEntry value entry.2
    | _ => raw.toList ++ Val.locsEntries entries
  | .objmap raw entries =>
    match emitHeapFieldCopy types type with
    | .flxObjmapClone => Val.locsEntries entries
    | _ => raw.toList ++ Val.locsEntries entries
  | .struct vals =>
    match emitHeapFieldCopy types type with
    | .structCopy fields => keptFields types helper fields vals
    | _ => Val.locsList vals
  | v => v.locs

def keptElems (types : TypeTable) (elem : Ty) : List Val → List Loc
  | [] => []
  | v :: vs => keptVal types .copy elem v ++ keptElems types elem vs

def keptFields (types : TypeTable) (helper : StructHelper) : List Field → List Val → List Loc
  | field :: fields, .ref owned loc target :: vs =>
    (match promotedTarget types helper owned field.declaredType with
    | some targetType => keptVal types .promote targetType target
    | none => loc :: target.locs) ++ keptFields types helper fields vs
  | field :: fields, v :: vs =>
    keptVal types .copy field.declaredType v ++ keptFields types helper fields vs
  | _, vs => Val.locsList vs

end

/-- The blocks that the copy of a field keeps. -/
def keptField (types : TypeTable) (helper : StructHelper) (type : Ty) (v : Val) : List Loc :=
  match v with
  | .ref owned loc target =>
    match promotedTarget types helper owned type with
    | some targetType => keptVal types .promote targetType target
    | none => loc :: target.locs
  | v => keptVal types .copy type v

theorem keptFields_cons (types : TypeTable) (helper : StructHelper) (field : Field)
    (fields : List Field) (v : Val) (vs : List Val) :
  keptFields types helper (field :: fields) (v :: vs) =
    keptField types helper field.declaredType v ++ keptFields types helper fields vs
  := by
  cases v <;> rfl

theorem keptEntry_subset (value : Ty) (v : Val) : keptEntry value v ⊆ v.locs := by
  cases v with
  | str buffer text =>
    by_cases hvalue : value = .STR
    · simp [keptEntry, hvalue]
    · simp [keptEntry, hvalue, Val.locs]
  | _ => apply List.Subset.refl

theorem keptEntries_subset (value : Ty) (entries : List (Key × Val)) :
  (entries.flatMap fun entry => keptEntry value entry.2) ⊆ Val.locsEntries entries
  := by
  induction entries with
  | nil => apply List.nil_subset
  | cons entry entries ih =>
    obtain ⟨key, v⟩ := entry
    intro a ha
    simp only [List.flatMap_cons, Val.locsEntries, List.mem_append] at ha ⊢
    exact ha.imp (fun hmem => Or.inr (keptEntry_subset value v hmem)) (fun hmem => ih hmem)

mutual

theorem keptVal_subset (types : TypeTable) :
  ∀ (helper : StructHelper) (type : Ty) (v : Val), keptVal types helper type v ⊆ v.locs
  | _, type, .str _ _ => by
    cases hcopy : emitHeapFieldCopy types type <;> simp [keptVal, hcopy, Val.locs]
  | _, type, .arr data elems => by
    cases hcopy : emitHeapFieldCopy types type with
    | arrMake elem =>
      simp only [keptVal, hcopy, Val.locs]
      exact List.subset_append_of_subset_right _ (keptElems_subset types elem elems)
    | _ => simp [keptVal, hcopy, Val.locs]
  | _, type, .map raw entries => by
    cases hcopy : emitHeapFieldCopy types type with
    | mapClone value =>
      simp only [keptVal, hcopy, Val.locs]
      exact List.subset_append_of_subset_right _ (keptEntries_subset value entries)
    | _ => simp [keptVal, hcopy, Val.locs]
  | _, type, .objmap raw entries => by
    cases hcopy : emitHeapFieldCopy types type <;> simp [keptVal, hcopy, Val.locs]
  | helper, type, .struct vals => by
    cases hcopy : emitHeapFieldCopy types type with
    | structCopy fields =>
      simp only [keptVal, hcopy, Val.locs]
      exact keptFields_subset types helper fields vals
    | _ => simp [keptVal, hcopy, Val.locs]
  | _, _, .int _ | _, _, .flt _ | _, _, .bol _ | _, _, .nul | _, _, .refNull | _, _, .fn _
  | _, _, .tsk _ | _, _, .ref _ _ _ | _, _, .box _ _ => by simp [keptVal]

theorem keptElems_subset (types : TypeTable) :
  ∀ (elem : Ty) (vs : List Val), keptElems types elem vs ⊆ Val.locsList vs
  | _, [] => List.nil_subset _
  | elem, v :: vs =>
    List.append_subset.mpr
      ⟨List.subset_append_of_subset_left _ (keptVal_subset types .copy elem v),
        List.subset_append_of_subset_right _ (keptElems_subset types elem vs)⟩

theorem keptFields_subset (types : TypeTable) :
  ∀ (helper : StructHelper) (fields : List Field) (vs : List Val),
    keptFields types helper fields vs ⊆ Val.locsList vs
  | _, [], vs => by
    simp only [keptFields]
    apply List.Subset.refl
  | _, _ :: _, [] => List.nil_subset _
  | helper, field :: fields, v :: vs => by
    have hitem : keptField types helper field.declaredType v ⊆ v.locs := by
      cases v with
      | ref owned loc target =>
        cases htarget : promotedTarget types helper owned field.declaredType with
        | some targetType =>
          simp only [keptField, htarget, Val.locs]
          exact List.subset_cons_of_subset loc (keptVal_subset types .promote targetType target)
        | none => simp [keptField, htarget, Val.locs]
      | _ => exact keptVal_subset types .copy field.declaredType _
    rw [keptFields_cons]
    exact List.append_subset.mpr
      ⟨List.subset_append_of_subset_left _ hitem,
        List.subset_append_of_subset_right _ (keptFields_subset types helper fields vs)⟩

end

/-! ### Kept blocks of a value in other blocks -/

theorem keptEntry_rename (value : Ty) (f : Loc → Loc) (v : Val) :
  keptEntry value (v.rename f) = (keptEntry value v).map f
  := by
  cases v with
  | str buffer text =>
    by_cases hvalue : value = .STR
    · simp [Val.rename, keptEntry, hvalue]
    · cases buffer <;> simp [Val.rename, keptEntry, hvalue]
  | _ => exact Val.locs_rename f _

theorem keptEntries_rename (value : Ty) (f : Loc → Loc) (entries : List (Key × Val)) :
  (Val.renameEntries f entries).flatMap (fun entry => keptEntry value entry.2) =
    (entries.flatMap fun entry => keptEntry value entry.2).map f
  := by
  induction entries with
  | nil => rfl
  | cons entry entries ih =>
    obtain ⟨key, v⟩ := entry
    simp only [Val.renameEntries, List.flatMap_cons, List.map_append, keptEntry_rename, ih]

mutual

theorem keptVal_rename (types : TypeTable) (f : Loc → Loc) :
  ∀ (helper : StructHelper) (type : Ty) (v : Val),
    keptVal types helper type (v.rename f) = (keptVal types helper type v).map f
  | helper, type, .str buffer text => by
    cases hcopy : emitHeapFieldCopy types type <;>
      cases buffer <;> simp [Val.rename, keptVal, hcopy]
  | helper, type, .arr data elems => by
    cases hcopy : emitHeapFieldCopy types type with
    | arrMake elem =>
      simpa [Val.rename, keptVal, hcopy] using keptElems_renameList types f elem elems
    | _ => cases data <;> simp [Val.rename, keptVal, hcopy, Val.locsList_renameList]
  | helper, type, .map raw entries => by
    cases hcopy : emitHeapFieldCopy types type with
    | mapClone value => simpa [Val.rename, keptVal, hcopy] using keptEntries_rename value f entries
    | _ => cases raw <;> simp [Val.rename, keptVal, hcopy, Val.locsEntries_renameEntries]
  | helper, type, .objmap raw entries => by
    cases hcopy : emitHeapFieldCopy types type <;>
      cases raw <;> simp [Val.rename, keptVal, hcopy, Val.locsEntries_renameEntries]
  | helper, type, .struct vals => by
    cases hcopy : emitHeapFieldCopy types type with
    | structCopy fields =>
      simpa [Val.rename, keptVal, hcopy] using keptFields_renameList types f helper fields vals
    | _ => simp [Val.rename, keptVal, hcopy, Val.locsList_renameList]
  | _, _, .int _ | _, _, .flt _ | _, _, .bol _ | _, _, .nul | _, _, .refNull | _, _, .fn _ => by
    simp [Val.rename, keptVal, Val.locs]
  | _, _, .tsk task => by cases task <;> simp [Val.rename, keptVal, Val.locs]
  | _, _, .ref _ _ target => by simp [Val.rename, keptVal, Val.locs, Val.locs_rename]
  | _, _, .box _ contents => by simp [Val.rename, keptVal, Val.locs, Val.locs_rename]

theorem keptElems_renameList (types : TypeTable) (f : Loc → Loc) :
  ∀ (elem : Ty) (vs : List Val),
    keptElems types elem (Val.renameList f vs) = (keptElems types elem vs).map f
  | _, [] => rfl
  | elem, v :: vs => by
    simp only [Val.renameList, keptElems, List.map_append, keptVal_rename types f .copy elem v,
      keptElems_renameList types f elem vs]

theorem keptFields_renameList (types : TypeTable) (f : Loc → Loc) :
  ∀ (helper : StructHelper) (fields : List Field) (vs : List Val),
    keptFields types helper fields (Val.renameList f vs) = (keptFields types helper fields vs).map f
  | _, [], vs => by simp only [keptFields, Val.locsList_renameList]
  | _, _ :: _, [] => rfl
  | helper, field :: fields, v :: vs => by
    have hitem : keptField types helper field.declaredType (v.rename f) =
        (keptField types helper field.declaredType v).map f := by
      cases v with
      | ref owned loc target =>
        cases htarget : promotedTarget types helper owned field.declaredType with
        | some targetType =>
          simpa [Val.rename, keptField, htarget] using
            keptVal_rename types f .promote targetType target
        | none => simp [Val.rename, keptField, htarget, Val.locs_rename]
      | _ => exact keptVal_rename types f .copy field.declaredType _
    rw [Val.renameList, keptFields_cons, keptFields_cons, hitem,
      keptFields_renameList types f helper fields vs, List.map_append]

end

/-! ### The blocks of a copy -/

/-- What is copied, at a counter: the content is the same, the blocks are those that are kept and
fresh ones, and a copy of the copy keeps the same blocks. -/
structure CopyOf {β : Type} (content content' : β) (kept kept' locs' : List Loc) (n n' : ℕ) :
    Prop where
  content : content' = content
  le : n ≤ n'
  mem : ∀ a ∈ locs', a ∈ kept ∨ n ≤ a ∧ a < n'
  subset : kept ⊆ locs'
  kept : kept' = kept

/-- What is printed without a copy keeps all its blocks. -/
theorem CopyOf.self {β : Type} (content : β) (locs : List Loc) (n : ℕ) :
  CopyOf content content locs locs locs n n
  where
  content := rfl
  le := le_refl n
  mem _ ha := Or.inl ha
  subset := List.Subset.refl locs
  kept := rfl

/-- Two copies one after the other. -/
theorem CopyOf.append {β γ δ : Type} {content content' : β} {rest rest' : γ}
    {kept kept' locs' keptRest keptRest' locsRest' : List Loc} {n m n' : ℕ}
    (h : CopyOf content content' kept kept' locs' n m)
    (hrest : CopyOf rest rest' keptRest keptRest' locsRest' m n') (f : β → γ → δ) :
  CopyOf (f content rest) (f content' rest') (kept ++ keptRest) (kept' ++ keptRest')
    (locs' ++ locsRest') n n'
  where
  content := by rw [h.content, hrest.content]
  le := le_trans h.le hrest.le
  mem a ha := by
    have hle := h.le
    have hle' := hrest.le
    simp only [List.mem_append] at ha ⊢
    rcases ha with ha | ha
    · rcases h.mem a ha with hmem | ⟨hlow, hhigh⟩
      · exact Or.inl (Or.inl hmem)
      · exact Or.inr ⟨hlow, lt_of_lt_of_le hhigh hle'⟩
    · rcases hrest.mem a ha with hmem | ⟨hlow, hhigh⟩
      · exact Or.inl (Or.inr hmem)
      · exact Or.inr ⟨le_trans hle hlow, hhigh⟩
  subset := by
    intro a ha
    simp only [List.mem_append] at ha ⊢
    exact ha.imp (fun hmem => h.subset hmem) (fun hmem => hrest.subset hmem)
  kept := by rw [h.kept, hrest.kept]

/-- A copy whose block has been allocated before its parts were copied. -/
theorem CopyOf.block {β γ : Type} {content content' : β} {kept kept' locs' : List Loc} {n n' : ℕ}
    (h : CopyOf content content' kept kept' locs' (n + 1) n') (f : β → γ) :
  CopyOf (f content) (f content') kept kept' (n :: locs') n n'
  where
  content := by rw [h.content]
  le := Nat.le_of_succ_le h.le
  mem a ha := by
    have hle := h.le
    rcases List.mem_cons.mp ha with rfl | ha
    · exact Or.inr ⟨le_refl a, hle⟩
    · exact (h.mem a ha).imp id fun hmem => ⟨by omega, hmem.2⟩
  subset := fun _ ha => List.mem_cons_of_mem n (h.subset ha)
  kept := h.kept

/-- The content of a copy within another value. -/
theorem CopyOf.map {β γ : Type} {content content' : β} {kept kept' locs' : List Loc} {n n' : ℕ}
    (h : CopyOf content content' kept kept' locs' n n') (f : β → γ) :
  CopyOf (f content) (f content') kept kept' locs' n n'
  where
  content := by rw [h.content]
  le := h.le
  mem := h.mem
  subset := h.subset
  kept := h.kept

/-- The value of an entry: a string is copied when the values of the map are strings. -/
theorem copyOf_entry (value : Ty) (v : Val) (n : ℕ) :
  let copied := if value = .STR then copyStr v n else (v, n)
  CopyOf v.content copied.1.content (keptEntry value v) (keptEntry value copied.1)
    copied.1.locs n copied.2
  := by
  by_cases hvalue : value = .STR
  · cases v with
    | str buffer text =>
      simp only [hvalue, if_true, copyStr, keptEntry, Val.content, Val.locs]
      exact (CopyOf.self text [] (n + 1)).block fun text => Val.str none text
    | _ =>
      simp only [hvalue, if_true, copyStr, keptEntry]
      apply CopyOf.self
  · have hkept : keptEntry value v = v.locs := by
      cases v <;> simp [keptEntry, hvalue, Val.locs]
    simp only [hvalue, if_false, hkept]
    apply CopyOf.self

theorem copyOf_setCopy (value : Ty) (entries : List (Key × Val)) (n : ℕ) :
  CopyOf (Val.contentEntries entries) (Val.contentEntries (setCopy value entries n).1)
    (entries.flatMap fun entry => keptEntry value entry.2)
    ((setCopy value entries n).1.flatMap fun entry => keptEntry value entry.2)
    (Val.locsEntries (setCopy value entries n).1) n (setCopy value entries n).2
  := by
  induction entries generalizing n with
  | nil => apply CopyOf.self
  | cons entry entries ih =>
    obtain ⟨key, v⟩ := entry
    have hentry := copyOf_entry value v (n + 1)
    have hrest := ih (if value = .STR then copyStr v (n + 1) else (v, n + 1)).2
    have hboth := (hentry.append hrest fun v entries =>
      ((⟨none, key.text⟩, v) : Key × Val) :: entries).block id
    simpa [setCopy, Val.contentEntries, Val.locsEntries] using hboth

/-- A promoted field owns its target. -/
theorem promotedTarget_owned {types : TypeTable} {helper : StructHelper} {owned : Bool}
    {type target : Ty} (h : promotedTarget types helper owned type = some target) :
  promotedTarget types helper true type = some target
  := by
  cases type with
  | REF targetType =>
    have hfollows : helper.follows true = true := by cases helper <;> rfl
    by_cases hopen : isOpenStructType types targetType
    · simp [promotedTarget, hopen] at h
    · simp only [promotedTarget, hopen, Bool.not_false, Bool.and_true] at h ⊢
      rw [if_pos hfollows]
      split at h
      · exact h
      · cases h
  | _ => cases h

theorem keptField_of_ne {types : TypeTable} {helper : StructHelper} {type : Ty} {v : Val}
    (hv : ∀ owned loc target, v ≠ .ref owned loc target) :
  keptField types helper type v = keptVal types .copy type v
  := by
  cases v with
  | ref owned loc target => exact absurd rfl (hv owned loc target)
  | _ => rfl

theorem keptField_copyField {types : TypeTable} {helper : StructHelper} {type : Ty} {v : Val}
    {n : ℕ} (hv : ∀ owned loc target, v ≠ .ref owned loc target) :
  keptField types helper type (copyField types helper type v n).1 =
    keptVal types .copy type (copyField types helper type v n).1
  := by
  apply keptField_of_ne
  intro owned loc target
  cases v with
  | ref owned' loc' target' => exact absurd rfl (hv owned' loc' target')
  | arr data elems =>
    cases hcopy : emitHeapFieldCopy types type <;>
      cases elems <;> simp [copyField, copyVal, hcopy]
  | _ => cases hcopy : emitHeapFieldCopy types type <;> simp [copyField, copyVal, hcopy]

mutual

theorem copyOf_copyVal (types : TypeTable) :
  ∀ (helper : StructHelper) (type : Ty) (v : Val) (n : ℕ),
    CopyOf v.content (copyVal types helper type v n).1.content (keptVal types helper type v)
      (keptVal types helper type (copyVal types helper type v n).1)
      (copyVal types helper type v n).1.locs n (copyVal types helper type v n).2
  | helper, type, .str buffer text, n => by
    cases hcopy : emitHeapFieldCopy types type with
    | flxStrCopy =>
      simp only [copyVal, keptVal, hcopy, Val.content, Val.locs]
      exact (CopyOf.self text [] (n + 1)).block fun text => Val.str none text
    | _ =>
      simp only [copyVal, keptVal, hcopy]
      apply CopyOf.self
  | helper, type, .arr data elems, n => by
    cases hcopy : emitHeapFieldCopy types type with
    | arrMake elem =>
      cases elems with
      | nil =>
        simp only [copyVal, keptVal, hcopy, List.isEmpty_nil, if_true, keptElems, Val.content,
          Val.locs, Val.locsList]
        apply CopyOf.self
      | cons v vs =>
        have helems := (copyOf_copyElems types elem (v :: vs) (n + 1)).block (Val.arr none)
        simpa [copyVal, keptVal, hcopy, Val.content, Val.locs] using helems
    | _ =>
      simp only [copyVal, keptVal, hcopy]
      apply CopyOf.self
  | helper, type, .map raw entries, n => by
    cases hcopy : emitHeapFieldCopy types type with
    | mapClone value =>
      have hentries := (copyOf_setCopy value entries (n + 1)).block (Val.map none)
      simpa [copyVal, keptVal, hcopy, Val.content, Val.locs] using hentries
    | _ =>
      simp only [copyVal, keptVal, hcopy]
      apply CopyOf.self
  | helper, type, .objmap raw entries, n => by
    cases hcopy : emitHeapFieldCopy types type with
    | flxObjmapClone =>
      have hentries := (CopyOf.self (Val.contentEntries entries) (Val.locsEntries entries)
        (n + 1)).block (Val.objmap none)
      simpa [copyVal, keptVal, hcopy, Val.content, Val.locs] using hentries
    | _ =>
      simp only [copyVal, keptVal, hcopy]
      apply CopyOf.self
  | helper, type, .struct vals, n => by
    cases hcopy : emitHeapFieldCopy types type with
    | structCopy fields =>
      have hfields := (copyOf_copyFields types helper fields vals n).map Val.struct
      simpa [copyVal, keptVal, hcopy, Val.content, Val.locs] using hfields
    | _ =>
      simp only [copyVal, keptVal, hcopy]
      apply CopyOf.self
  | _, _, .int _, n | _, _, .flt _, n | _, _, .bol _, n | _, _, .nul, n | _, _, .refNull, n
  | _, _, .ref _ _ _, n | _, _, .tsk _, n | _, _, .fn _, n | _, _, .box _ _, n => by
    simp only [copyVal, keptVal]
    apply CopyOf.self

theorem copyOf_copyElems (types : TypeTable) :
  ∀ (elem : Ty) (vs : List Val) (n : ℕ),
    CopyOf (Val.contentList vs) (Val.contentList (copyElems types elem vs n).1)
      (keptElems types elem vs) (keptElems types elem (copyElems types elem vs n).1)
      (Val.locsList (copyElems types elem vs n).1) n (copyElems types elem vs n).2
  | _, [], n => CopyOf.self _ _ n
  | elem, v :: vs, n => by
    have hitem := copyOf_copyVal types .copy elem v n
    have hrest := copyOf_copyElems types elem vs (copyVal types .copy elem v n).2
    exact hitem.append hrest List.cons

theorem copyOf_copyFields (types : TypeTable) :
  ∀ (helper : StructHelper) (fields : List Field) (vs : List Val) (n : ℕ),
    CopyOf (Val.contentList vs) (Val.contentList (copyFields types helper fields vs n).1)
      (keptFields types helper fields vs)
      (keptFields types helper fields (copyFields types helper fields vs n).1)
      (Val.locsList (copyFields types helper fields vs n).1) n
      (copyFields types helper fields vs n).2
  | _, [], vs, n => by
    simp only [copyFields, keptFields]
    apply CopyOf.self
  | _, _ :: _, [], n => by
    simp only [copyFields, keptFields]
    apply CopyOf.self
  | helper, field :: fields, v :: vs, n => by
    have hitem : CopyOf v.content (copyField types helper field.declaredType v n).1.content
        (keptField types helper field.declaredType v)
        (keptField types helper field.declaredType
          (copyField types helper field.declaredType v n).1)
        (copyField types helper field.declaredType v n).1.locs n
        (copyField types helper field.declaredType v n).2 := by
      cases v with
      | ref owned loc target =>
        cases htarget : promotedTarget types helper owned field.declaredType with
        | some targetType =>
          have htarget' := promotedTarget_owned htarget
          have hpromoted := (copyOf_copyVal types .promote targetType target (n + 1)).block
            (Val.ref false 0)
          simpa [copyField, keptField, htarget, htarget', Val.content, Val.locs] using hpromoted
        | none =>
          simp only [copyField, keptField, htarget]
          apply CopyOf.self
      | _ =>
        rw [keptField_copyField (by simp), keptField_of_ne (by simp)]
        exact copyOf_copyVal types .copy field.declaredType _ n
    have hrest := copyOf_copyFields types helper fields vs
      (copyField types helper field.declaredType v n).2
    rw [copyFields_cons, keptFields_cons, keptFields_cons]
    exact hitem.append hrest List.cons

end

end Caster
