import Caster.Ownership.InPlace

/-!
# When a copy is a value of its own

The copy of a map of strings copies its values, the copies of other maps and of open maps
share them with the original.  A shared value is harmless as long as nothing in it can be
written: it may hold strings, which are never changed in place, but no array with elements
and no map with entries.

The invariant of a run is `Apart`: the blocks a value owns, and those in it that can be
written, are not held by the other variable.
-/

namespace Caster

/-! ### Shared values -/

mutual

/-- Nothing in the value can be written in place. -/
def frozen : Val → Bool
  | .arr _ elems => elems.isEmpty
  | .map _ entries => entries.isEmpty
  | .objmap _ entries => entries.isEmpty
  | .struct fields => frozenList fields
  | .ref _ _ _ => false
  | .box _ contents => frozen contents
  | _ => true

def frozenList : List Val → Bool
  | [] => true
  | v :: vs => frozen v && frozenList vs

end

mutual

/-- Every value that a map in `v` may share with the copies of `v` has a property. -/
def SharedAll (p : Val → Prop) : Val → Prop
  | .arr _ elems => SharedAllList p elems
  | .map _ entries => ∀ entry ∈ entries, p entry.2
  | .objmap _ entries => ∀ entry ∈ entries, p entry.2
  | .struct fields => SharedAllList p fields
  | .ref _ _ target => SharedAll p target
  | .box _ contents => SharedAll p contents
  | _ => True

def SharedAllList (p : Val → Prop) : List Val → Prop
  | [] => True
  | v :: vs => SharedAll p v ∧ SharedAllList p vs

end

mutual

/-- The blocks of a value outside the values its maps may share. -/
def ownLocs : Val → List Loc
  | .str buffer _ => buffer.toList
  | .arr data elems => data.toList ++ ownLocsList elems
  | .map raw entries =>
    raw.toList ++ entries.flatMap fun entry => entry.1.buffer.toList ++ dropStr entry.2
  | .objmap raw _ => raw.toList
  | .struct fields => ownLocsList fields
  | _ => []

def ownLocsList : List Val → List Loc
  | [] => []
  | v :: vs => ownLocs v ++ ownLocsList vs

end

mutual

/-- The blocks in the values that a map in a value shares with its copies. -/
def sharedLocs : Val → List Loc
  | .arr _ elems => sharedLocsList elems
  | .map _ entries => entries.flatMap fun entry =>
      match entry.2 with
      | .str _ _ => []
      | v => v.locs
  | .objmap _ entries => Val.locsEntries entries
  | .struct fields => sharedLocsList fields
  | _ => []

def sharedLocsList : List Val → List Loc
  | [] => []
  | v :: vs => sharedLocs v ++ sharedLocsList vs

end

/-! ### Values apart from another variable -/

/-- Where a value stands in a variable: in a part the variable owns, or in a value that its
maps may share. -/
inductive Position where
  | owned
  | shared
deriving DecidableEq

/-- A string in an owned position owns no foreign block. -/
def strApart (foreign : Loc → Prop) (pos : Position) : Val → Prop
  | .str buffer _ => pos = .owned → ∀ a ∈ buffer, ¬ foreign a
  | _ => True

mutual

/-- The blocks that a value owns or that can be written through it are not foreign. -/
def Apart (foreign : Loc → Prop) (pos : Position) : Val → Prop
  | .str buffer _ => pos = .owned → ∀ a ∈ buffer, ¬ foreign a
  | .arr data elems =>
    (pos = .shared ∧ elems = []) ∨
      (∀ a ∈ data, ¬ foreign a) ∧ ApartList foreign .owned elems
  | .map raw entries =>
    (pos = .shared ∧ entries = []) ∨
      (∀ a ∈ raw, ¬ foreign a) ∧ ApartEntries foreign .owned entries
  | .objmap raw entries =>
    (pos = .shared ∧ entries = []) ∨
      (∀ a ∈ raw, ¬ foreign a) ∧ ApartEntries foreign .shared entries
  | .struct fields => ApartList foreign pos fields
  | .ref _ loc target => ¬ foreign loc ∧ Apart foreign .owned target
  | .tsk task => pos = .owned → ∀ a ∈ task, ¬ foreign a
  | .box ptr contents => (pos = .owned → ¬ foreign ptr) ∧ Apart foreign .shared contents
  | _ => True

def ApartList (foreign : Loc → Prop) (pos : Position) : List Val → Prop
  | [] => True
  | v :: vs => Apart foreign pos v ∧ ApartList foreign pos vs

/-- The entries of a map: a typed map owns its keys and the strings among its values. -/
def ApartEntries (foreign : Loc → Prop) (pos : Position) : List (Key × Val) → Prop
  | [] => True
  | (key, v) :: entries =>
    ((pos = .owned → ∀ a ∈ key.buffer, ¬ foreign a) ∧ strApart foreign pos v ∧
      Apart foreign .shared v) ∧
      ApartEntries foreign pos entries

end

section

variable {foreign : Loc → Prop}

theorem apartList_iff {pos : Position} {vs : List Val} :
  ApartList foreign pos vs ↔ ∀ v ∈ vs, Apart foreign pos v
  := by
  induction vs with
  | nil => simp [ApartList]
  | cons v vs ih => simp [ApartList, ih]

/-- What is asked of one entry of a map. -/
def EntryApart (foreign : Loc → Prop) (pos : Position) (entry : Key × Val) : Prop :=
  (pos = .owned → ∀ a ∈ entry.1.buffer, ¬ foreign a) ∧ strApart foreign pos entry.2 ∧
    Apart foreign .shared entry.2

theorem apartEntries_iff {pos : Position} {entries : List (Key × Val)} :
  ApartEntries foreign pos entries ↔ ∀ entry ∈ entries, EntryApart foreign pos entry
  := by
  induction entries with
  | nil => simp [ApartEntries]
  | cons entry entries ih =>
    obtain ⟨key, v⟩ := entry
    simp [ApartEntries, ih, EntryApart]

mutual

/-- A value apart in an owned position is apart in a shared one. -/
theorem apart_shared :
  ∀ (v : Val), Apart foreign .owned v → Apart foreign .shared v
  | .str _ _, _ => by simp [Apart]
  | .arr _ _, h => Or.inr (h.resolve_left (by simp))
  | .map _ _, h => Or.inr (h.resolve_left (by simp))
  | .objmap _ _, h => Or.inr (h.resolve_left (by simp))
  | .struct fields, h => apartList_shared fields h
  | .ref _ _ _, h => h
  | .tsk _, _ => by simp [Apart]
  | .box _ _, h => ⟨by simp, h.2⟩
  | .int _, _ | .flt _, _ | .bol _, _ | .nul, _ | .refNull, _ | .fn _, _ => by simp [Apart]

theorem apartList_shared :
  ∀ (vs : List Val), ApartList foreign .owned vs → ApartList foreign .shared vs
  | [], _ => trivial
  | v :: vs, h => ⟨apart_shared v h.1, apartList_shared vs h.2⟩

end

theorem Apart.shared {v : Val} (h : Apart foreign .owned v) : Apart foreign .shared v :=
  apart_shared v h

theorem Apart.of_owned {v : Val} (h : Apart foreign .owned v) (pos : Position) :
  Apart foreign pos v
  := by
  cases pos with
  | owned => exact h
  | shared => exact h.shared

theorem strApart_of_apart {v : Val} (h : Apart foreign .owned v) (pos : Position) :
  strApart foreign pos v
  := by
  cases v with
  | str buffer text => exact fun _ => h rfl
  | _ => trivial

mutual

/-- A value without foreign blocks is apart. -/
theorem apart_of_disjoint :
  ∀ (v : Val), (∀ a ∈ v.locs, ¬ foreign a) → Apart foreign .owned v
  | .str _ _, h => fun _ a ha => h a (by simpa [Val.locs] using ha)
  | .arr data elems, h => by
    refine Or.inr ⟨fun a ha => h a ?_, apartList_of_disjoint elems fun a ha => h a ?_⟩
    · simp [Val.locs, Option.mem_def.mp ha]
    · simp [Val.locs, ha]
  | .map raw entries, h => by
    refine Or.inr ⟨fun a ha => h a ?_, apartEntries_of_disjoint entries fun a ha => h a ?_⟩
    · simp [Val.locs, Option.mem_def.mp ha]
    · simp [Val.locs, ha]
  | .objmap raw entries, h => by
    have hentries : ApartEntries foreign .owned entries :=
      apartEntries_of_disjoint entries fun a ha => h a (by simp [Val.locs, ha])
    refine Or.inr ⟨fun a ha => h a ?_, ?_⟩
    · simp [Val.locs, Option.mem_def.mp ha]
    · rw [apartEntries_iff] at hentries ⊢
      intro entry hentry
      obtain ⟨-, -, hshared⟩ := hentries entry hentry
      refine ⟨by simp, ?_, hshared⟩
      cases entry.2 <;> simp [strApart]
  | .struct fields, h => apartList_of_disjoint fields h
  | .ref _ loc target, h => by
    refine ⟨h loc (by simp [Val.locs]), apart_of_disjoint target fun a ha => h a ?_⟩
    simp [Val.locs, ha]
  | .tsk _, h => fun _ a ha => h a (by simpa [Val.locs] using ha)
  | .box ptr contents, h => by
    refine ⟨fun _ => h ptr (by simp [Val.locs]), apart_shared contents ?_⟩
    exact apart_of_disjoint contents fun a ha => h a (by simp [Val.locs, ha])
  | .int _, _ | .flt _, _ | .bol _, _ | .nul, _ | .refNull, _ | .fn _, _ => by simp [Apart]

theorem apartList_of_disjoint :
  ∀ (vs : List Val), (∀ a ∈ Val.locsList vs, ¬ foreign a) → ApartList foreign .owned vs
  | [], _ => trivial
  | v :: vs, h =>
    ⟨apart_of_disjoint v fun a ha => h a (List.mem_append_left _ ha),
      apartList_of_disjoint vs fun a ha => h a (List.mem_append_right _ ha)⟩

theorem apartEntries_of_disjoint :
  ∀ (entries : List (Key × Val)), (∀ a ∈ Val.locsEntries entries, ¬ foreign a) →
    ApartEntries foreign .owned entries
  | [], _ => trivial
  | (key, v) :: entries, h => by
    have hv : Apart foreign .owned v :=
      apart_of_disjoint v fun a ha => h a (by simp [Val.locsEntries, ha])
    refine ⟨⟨fun _ a ha => h a ?_, strApart_of_apart hv _, hv.shared⟩,
      apartEntries_of_disjoint entries fun a ha => h a ?_⟩
    · simp [Val.locsEntries, Option.mem_def.mp ha]
    · simp [Val.locsEntries, ha]

end

/-- What a value holds is apart, though it may stand in a shared position. -/
theorem Apart.of_holds {x u : Val} (hu : Holds x u) :
  ∀ {pos : Position}, Apart foreign pos x → Apart foreign .shared u
  := by
  induction hu with
  | refl v =>
    intro pos h
    cases pos with
    | owned => exact h.shared
    | shared => exact h
  | elem hv _ ih =>
    intro pos h
    rcases h with ⟨-, rfl⟩ | ⟨-, helems⟩
    · cases hv
    · exact ih (apartList_iff.mp helems _ hv)
  | entry hv _ ih =>
    intro pos h
    rcases h with ⟨-, rfl⟩ | ⟨-, hentries⟩
    · cases hv
    · exact ih (apartEntries_iff.mp hentries _ hv).2.2
  | objEntry hv _ ih =>
    intro pos h
    rcases h with ⟨-, rfl⟩ | ⟨-, hentries⟩
    · cases hv
    · exact ih (apartEntries_iff.mp hentries _ hv).2.2
  | field hv _ ih =>
    intro pos h
    exact ih (apartList_iff.mp h _ hv)
  | target _ ih =>
    intro pos h
    exact ih h.2
  | contents _ ih =>
    intro pos h
    exact ih h.2

/-! ### What the maps of a value share -/

theorem sharedAllList_iff {p : Val → Prop} {vs : List Val} :
  SharedAllList p vs ↔ ∀ v ∈ vs, SharedAll p v
  := by
  induction vs with
  | nil => simp [SharedAllList]
  | cons v vs ih => simp [SharedAllList, ih]

mutual

theorem sharedAll_mono {p q : Val → Prop} (hpq : ∀ w, p w → q w) :
  ∀ (v : Val), SharedAll p v → SharedAll q v
  | .arr _ elems, h => sharedAllList_mono hpq elems h
  | .map _ _, h => fun entry hentry => hpq _ (h entry hentry)
  | .objmap _ _, h => fun entry hentry => hpq _ (h entry hentry)
  | .struct fields, h => sharedAllList_mono hpq fields h
  | .ref _ _ target, h => sharedAll_mono hpq target h
  | .box _ contents, h => sharedAll_mono hpq contents h
  | .str _ _, _ | .tsk _, _ | .int _, _ | .flt _, _ | .bol _, _ | .nul, _ | .refNull, _
  | .fn _, _ => by simp [SharedAll]

theorem sharedAllList_mono {p q : Val → Prop} (hpq : ∀ w, p w → q w) :
  ∀ (vs : List Val), SharedAllList p vs → SharedAllList q vs
  | [], _ => trivial
  | v :: vs, h => ⟨sharedAll_mono hpq v h.1, sharedAllList_mono hpq vs h.2⟩

end

mutual

/-- What is apart in a shared position shares nothing that is not. -/
theorem Apart.sharedAll :
  ∀ {v : Val}, Apart foreign .shared v → SharedAll (Apart foreign .shared) v
  | .arr _ elems, h => by
    rcases h with ⟨-, rfl⟩ | ⟨-, helems⟩
    · trivial
    · apply sharedAllList_iff.mpr
      intro v hv
      exact Apart.sharedAll ((apartList_iff.mp helems v hv).shared)
  | .map _ _, h => by
    intro entry hentry
    rcases h with ⟨-, rfl⟩ | ⟨-, hentries⟩
    · cases hentry
    · exact (apartEntries_iff.mp hentries entry hentry).2.2
  | .objmap _ _, h => by
    intro entry hentry
    rcases h with ⟨-, rfl⟩ | ⟨-, hentries⟩
    · cases hentry
    · exact (apartEntries_iff.mp hentries entry hentry).2.2
  | .struct fields, h => ApartList.sharedAll h
  | .ref _ _ _, h => h.2.shared.sharedAll
  | .box _ _, h => h.2.sharedAll
  | .str _ _, _ | .tsk _, _ | .int _, _ | .flt _, _ | .bol _, _ | .nul, _ | .refNull, _
  | .fn _, _ => by simp [SharedAll]

theorem ApartList.sharedAll :
  ∀ {vs : List Val}, ApartList foreign .shared vs →
    SharedAllList (Apart foreign .shared) vs
  | [], _ => trivial
  | _ :: _, h => ⟨h.1.sharedAll, ApartList.sharedAll h.2⟩

end

mutual

/-- A frozen value is apart wherever its blocks are, and shares only frozen values. -/
theorem apart_of_frozen :
  ∀ (v : Val), frozen v = true → Apart foreign .shared v ∧ SharedAll (frozen · = true) v
  | .str _ _, _ => by simp [Apart, SharedAll]
  | .arr _ elems, h => by
    have hnil : elems = [] := List.isEmpty_iff.mp h
    subst hnil
    exact ⟨Or.inl ⟨rfl, rfl⟩, trivial⟩
  | .map _ entries, h => by
    have hnil : entries = [] := List.isEmpty_iff.mp h
    subst hnil
    exact ⟨Or.inl ⟨rfl, rfl⟩, by simp [SharedAll]⟩
  | .objmap _ entries, h => by
    have hnil : entries = [] := List.isEmpty_iff.mp h
    subst hnil
    exact ⟨Or.inl ⟨rfl, rfl⟩, by simp [SharedAll]⟩
  | .struct fields, h => apartList_of_frozen fields h
  | .ref _ _ _, h => by simp [frozen] at h
  | .box _ contents, h =>
    ⟨⟨by simp, (apart_of_frozen contents h).1⟩, (apart_of_frozen contents h).2⟩
  | .tsk _, _ | .int _, _ | .flt _, _ | .bol _, _ | .nul, _ | .refNull, _ | .fn _, _ => by
    simp [Apart, SharedAll]

theorem apartList_of_frozen :
  ∀ (vs : List Val), frozenList vs = true →
    ApartList foreign .shared vs ∧ SharedAllList (frozen · = true) vs
  | [], _ => ⟨trivial, trivial⟩
  | v :: vs, h => by
    obtain ⟨hv, hvs⟩ := Bool.and_eq_true _ _ ▸ h
    have hitem := apart_of_frozen v hv
    have hrest := apartList_of_frozen vs hvs
    exact ⟨⟨hitem.1, hrest.1⟩, hitem.2, hrest.2⟩

end

/-- What a value with frozen shared parts holds has frozen shared parts. -/
theorem sharedAll_frozen_of_holds {x u : Val} (hu : Holds x u)
    (hx : SharedAll (frozen · = true) x) :
  SharedAll (frozen · = true) u
  := by
  induction hu with
  | refl v => exact hx
  | elem hv _ ih => exact ih (sharedAllList_iff.mp hx _ hv)
  | entry hv _ ih => exact ih (@apart_of_frozen (fun _ => False) _ (hx _ hv)).2
  | objEntry hv _ ih => exact ih (@apart_of_frozen (fun _ => False) _ (hx _ hv)).2
  | field hv _ ih => exact ih (sharedAllList_iff.mp hx _ hv)
  | target _ ih => exact ih hx
  | contents _ ih => exact ih hx

/-! ### Copies are apart -/

theorem structOf_named {types : TypeTable} {type : Ty} {info : List Field × Bool}
    (h : structOf types type = some info) :
  ∃ name, type = .named name
  := by
  cases type with
  | named name => exact ⟨name, rfl⟩
  | _ => simp [structOf] at h

/-- A fixed `MAP` open at runtime is cloned. -/
theorem emitHeapFieldCopy_openStruct {types : TypeTable} {type : Ty}
    (h : isOpenStructType types type = true) :
  emitHeapFieldCopy types type = .flxObjmapClone
  := by
  unfold isOpenStructType at h
  split at h
  · next fields openRuntime hstruct =>
    obtain ⟨name, rfl⟩ := structOf_named hstruct
    subst h
    simp only [emitHeapFieldCopy, hstruct]
  · cases h

/-- A fixed `MAP` with a C struct is copied field by field. -/
theorem emitHeapFieldCopy_struct {types : TypeTable} {type : Ty} {fields : List Field}
    (h : structOf types type = some (fields, false)) :
  emitHeapFieldCopy types type = .structCopy fields
  := by
  obtain ⟨name, rfl⟩ := structOf_named h
  simp only [emitHeapFieldCopy, h]

/-- The values of a map of strings are strings. -/
theorem eq_str_of_builtValue {types : TypeTable} {v : Val}
    (h : builtValue types .STR v = true) :
  ∃ buffer text, v = .str buffer text
  := by
  cases v with
  | str buffer text => exact ⟨buffer, text, rfl⟩
  | objmap raw entries => simp [builtValue, isOpenStructType, structOf] at h
  | struct vals => simp [builtValue, structOf] at h
  | _ => simp [builtValue] at h

/-- A copied string of a map entry owns a fresh block. -/
theorem strApart_copyStr {v : Val} {n : ℕ} (hn : ∀ a, n ≤ a → ¬ foreign a) :
  strApart foreign .owned (copyStr v n).1
  := by
  cases v with
  | str buffer text =>
    intro _ a ha
    rw [← Option.some.inj ha]
    exact hn n (le_refl n)
  | _ => trivial

/-- The clone of a typed map is apart if its values are. -/
theorem apart_setCopy (types : TypeTable) (value : Ty) (entries : List (Key × Val)) (n : ℕ)
    (hn : ∀ a, n ≤ a → ¬ foreign a) (htype : builtEntries types value entries = true)
    (h : ∀ entry ∈ entries, Apart foreign .shared entry.2) :
  ApartEntries foreign .owned (setCopy value entries n).1
  := by
  induction entries generalizing n with
  | nil => trivial
  | cons entry entries ih =>
    obtain ⟨key, v⟩ := entry
    obtain ⟨hv, hentries⟩ := Bool.and_eq_true _ _ ▸ htype
    have hshared : Apart foreign .shared v := h _ (List.mem_cons_self ..)
    have hrest := fun m hm => ih m hm hentries fun e he => h e (List.mem_cons_of_mem _ he)
    have hkey : ∀ a ∈ some n, ¬ foreign a := by
      intro a ha
      rw [← Option.some.inj ha]
      exact hn n (le_refl n)
    by_cases hstr : value = .STR
    · subst hstr
      obtain ⟨buffer, text, rfl⟩ := eq_str_of_builtValue hv
      simp only [setCopy, if_true]
      refine ⟨⟨fun _ => hkey, strApart_copyStr fun a ha => hn a (by omega), ?_⟩, ?_⟩
      · simp [copyStr, Apart]
      · exact hrest _ fun a ha => hn a (by simp only [copyStr] at ha; omega)
    · simp only [setCopy, if_neg hstr]
      refine ⟨⟨fun _ => hkey, ?_, hshared⟩, hrest _ fun a ha => hn a (by omega)⟩
      cases v with
      | str buffer text => exact absurd (of_decide_eq_true hv) hstr
      | _ => trivial

mutual

/-- The copy of a value is apart from a variable that holds none of the copy's fresh blocks,
if the values shared by the value's maps are. -/
theorem apart_copyVal (types : TypeTable) :
  ∀ (type : Ty) (v : Val) (n : ℕ), builtValue types type v = true →
    (∀ a, n ≤ a → ¬ foreign a) → SharedAll (Apart foreign .shared) v →
    Apart foreign .owned (copyVal types .copy type v n).1
  | type, .str buffer text, n, htype, hn, _ => by
    have htype : type = .STR := of_decide_eq_true htype
    subst htype
    intro _ a ha
    rw [← Option.some.inj ha]
    exact hn n (le_refl n)
  | type, .arr data elems, n, htype, hn, h => by
    cases type with
    | ARR elem =>
      simp only [copyVal, emitHeapFieldCopy]
      split
      · exact Or.inr ⟨by simp, trivial⟩
      · refine Or.inr ⟨?_, ?_⟩
        · intro a ha
          rw [← Option.some.inj ha]
          exact hn n (le_refl n)
        · exact apartList_copyElems types elem elems (n + 1) htype
            (fun a ha => hn a (by omega)) h
    | _ => simp [builtValue] at htype
  | type, .map raw entries, n, htype, hn, h => by
    match type, htype with
    | .MAP .STR value, htype =>
      simp only [copyVal, emitHeapFieldCopy]
      refine Or.inr ⟨?_, ?_⟩
      · intro a ha
        rw [← Option.some.inj ha]
        exact hn n (le_refl n)
      · exact apart_setCopy types value entries (n + 1) (fun a ha => hn a (by omega)) htype h
  | type, .objmap raw entries, n, htype, hn, h => by
    rw [copyVal, emitHeapFieldCopy_openStruct htype]
    refine Or.inr ⟨?_, ?_⟩
    · intro a ha
      rw [← Option.some.inj ha]
      exact hn n (le_refl n)
    · apply apartEntries_iff.mpr
      intro entry hentry
      refine ⟨by simp, ?_, h entry hentry⟩
      cases entry.2 <;> simp [strApart]
  | type, .struct vals, n, htype, hn, h => by
    simp only [builtValue] at htype
    split at htype
    · next fields hstruct =>
      rw [copyVal, emitHeapFieldCopy_struct hstruct]
      exact apartList_copyFields types fields vals n htype hn h
    · cases htype
  | type, .int _, n, htype, _, _ | type, .flt _, n, htype, _, _
  | type, .bol _, n, htype, _, _ => by
    simp [copyVal, Apart]
  | type, .nul, n, htype, _, _ | type, .refNull, n, htype, _, _
  | type, .ref _ _ _, n, htype, _, _ | type, .tsk _, n, htype, _, _
  | type, .fn _, n, htype, _, _ | type, .box _ _, n, htype, _, _ => by
    simp [builtValue] at htype

theorem apartList_copyElems (types : TypeTable) :
  ∀ (elem : Ty) (vs : List Val) (n : ℕ), builtList types elem vs = true →
    (∀ a, n ≤ a → ¬ foreign a) → SharedAllList (Apart foreign .shared) vs →
    ApartList foreign .owned (copyElems types elem vs n).1
  | _, [], _, _, _, _ => trivial
  | elem, v :: vs, n, htype, hn, h => by
    obtain ⟨hv, hvs⟩ := Bool.and_eq_true _ _ ▸ htype
    have hle := copyVal_le types .copy elem v n
    refine ⟨apart_copyVal types elem v n hv hn h.1, ?_⟩
    exact apartList_copyElems types elem vs _ hvs (fun a ha => hn a (le_trans hle ha)) h.2

theorem apartList_copyFields (types : TypeTable) :
  ∀ (fields : List Field) (vs : List Val) (n : ℕ), builtFields types fields vs = true →
    (∀ a, n ≤ a → ¬ foreign a) → SharedAllList (Apart foreign .shared) vs →
    ApartList foreign .owned (copyFields types .copy fields vs n).1
  | [], [], _, _, _, _ => trivial
  | [], _ :: _, _, htype, _, _ => by simp [builtFields] at htype
  | _ :: _, [], _, htype, _, _ => by simp [builtFields] at htype
  | field :: fields, v :: vs, n, htype, hn, h => by
    obtain ⟨hv, hvs⟩ := Bool.and_eq_true _ _ ▸ htype
    have hle := copyVal_le types .copy field.declaredType v n
    have hitem : copyField types .copy field.declaredType v n =
        copyVal types .copy field.declaredType v n := by
      cases v with
      | ref owned loc target => simp [builtValue] at hv
      | _ => rfl
    rw [copyFields_cons, hitem]
    refine ⟨apart_copyVal types field.declaredType v n hv hn h.1, ?_⟩
    exact apartList_copyFields types fields vs _ hvs (fun a ha => hn a (le_trans hle ha)) h.2

end

/-! ### What an operation leaves -/

/-- The invariant of a run: the first variable is apart from the second, and the second
shares only values that cannot be written. -/
structure Separate (x y : Val) : Prop where
  apart : Apart (· ∈ y.locs) .owned x
  frozen : SharedAll (frozen · = true) y

/-- What a part of either variable shares is apart. -/
theorem Separate.sharedAll {x y u : Val} (h : Separate x y) (hu : Holds x u ∨ Holds y u) :
  SharedAll (Apart (· ∈ y.locs) .shared) u
  := by
  rcases hu with hu | hu
  · exact (h.apart.of_holds hu).sharedAll
  · apply sharedAll_mono _ u (sharedAll_frozen_of_holds hu h.frozen)
    exact fun w hw => (apart_of_frozen w hw).1

theorem Separate.stored {types : TypeTable} {x y w : Val} (h : Separate x y)
    (hw : Stored types x y w) :
  Apart (· ∈ y.locs) .owned w
  := by
  induction hw with
  | fresh w hw => exact apart_of_disjoint w hw
  | copy u type n hu htype hn => exact apart_copyVal types type u n htype hn (h.sharedAll hu)
  | arr loc elems hloc _ ih =>
    refine Or.inr ⟨?_, apartList_iff.mpr ih⟩
    intro a ha
    rw [← Option.some.inj ha]
    exact hloc
  | map loc entries hloc hkeys _ ih =>
    refine Or.inr ⟨?_, apartEntries_iff.mpr ?_⟩
    · intro a ha
      rw [← Option.some.inj ha]
      exact hloc
    · intro entry hentry
      refine ⟨fun _ => hkeys entry hentry, ?_⟩
      by_cases hjoined : JoinedValue x y entry.2
      · obtain ⟨hstr, raw, shared, key, hu, hmem⟩ := hjoined
        refine ⟨?_, h.sharedAll hu (key, entry.2) hmem⟩
        cases hv : entry.2 with
        | str buffer text => exact absurd hv (hstr buffer text)
        | _ => trivial
      · have hv := ih entry hentry hjoined
        exact ⟨strApart_of_apart hv _, hv.shared⟩
  | objmap loc entries hloc _ ih =>
    refine Or.inr ⟨?_, apartEntries_iff.mpr ?_⟩
    · intro a ha
      rw [← Option.some.inj ha]
      exact hloc
    · intro entry hentry
      refine ⟨by simp, by cases entry.2 <;> simp [strApart], ?_⟩
      by_cases hjoined : JoinedObj x y entry.2
      · obtain ⟨raw, shared, key, hu, hmem⟩ := hjoined
        exact h.sharedAll hu (key, entry.2) hmem
      · exact (ih entry hentry hjoined).shared
  | struct fields _ ih => exact apartList_iff.mpr ih

/-- An edit of a value that is apart is apart. -/
theorem Separate.edit {types : TypeTable} {x y v w : Val} (h : Separate x y)
    (hedit : Edit types x y v w) {pos : Position} (hv : Apart (· ∈ y.locs) pos v) :
  Apart (· ∈ y.locs) pos w
  := by
  induction hedit with
  | keep v => exact hv
  | store v w hw => exact (h.stored hw).of_owned pos
  | truncate data elems len =>
    rcases hv with ⟨hpos, rfl⟩ | ⟨hdata, helems⟩
    · exact Or.inl ⟨hpos, by simp⟩
    · refine Or.inr ⟨hdata, apartList_iff.mpr ?_⟩
      intro u hu
      exact apartList_iff.mp helems u (List.mem_of_mem_take hu)
  | field before after v w _ ih =>
    have hfields := apartList_iff.mp hv
    apply apartList_iff.mpr
    intro u hu
    rcases List.mem_append.mp hu with hu | hu
    · exact hfields u (List.mem_append_left _ hu)
    · rcases List.mem_cons.mp hu with rfl | hu
      · exact ih (hfields v (by simp))
      · exact hfields u (by simp [hu])

/-- An edited string of a map entry owns no foreign block. -/
theorem Separate.edit_str {types : TypeTable} {x y v w : Val} (h : Separate x y)
    (hedit : Edit types x y v w) {pos : Position} (hv : strApart (· ∈ y.locs) pos v) :
  strApart (· ∈ y.locs) pos w
  := by
  cases hedit with
  | keep v => exact hv
  | store v w hw => exact strApart_of_apart (h.stored hw) pos
  | _ => trivial

/-! ### What a write leaves -/

theorem mem_overwrite {α : Type} {new old : List α} {v : α} (h : v ∈ overwrite new old) :
  v ∈ new ∨ v ∈ old
  := by
  rcases List.mem_append.mp h with h | h
  · exact Or.inl (List.mem_of_mem_take h)
  · exact Or.inr (List.mem_of_mem_drop h)

theorem overwrite_nil {α : Type} (new : List α) : overwrite new [] = [] := by
  simp [overwrite]

/-- The contents written to a block keep what is asked of its items. -/
def Contents.Apart (foreign : Loc → Prop) : Contents → Prop
  | .slots new => ∀ v ∈ new, Caster.Apart foreign .owned v
  | .entries new => ∀ entry ∈ new, EntryApart foreign .owned entry
  | .objEntries new => ∀ entry ∈ new, EntryApart foreign .shared entry

theorem strApart_poke {loc : Loc} {contents : Contents} {pos : Position} {v : Val}
    (h : strApart foreign pos v) :
  strApart foreign pos (poke loc contents v)
  := by
  cases v with
  | str buffer text => exact h
  | _ => trivial

mutual

/-- A value is apart after a write that keeps what is asked of the items of a block. -/
theorem apart_poke (loc : Loc) {contents : Contents} (hcontents : contents.Apart foreign) :
  ∀ {pos : Position} (v : Val), Apart foreign pos v → Apart foreign pos (poke loc contents v)
  | pos, .arr data elems, h => by
    rcases h with ⟨hpos, rfl⟩ | ⟨hdata, helems⟩
    · refine Or.inl ⟨hpos, ?_⟩
      cases contents <;> simp [pokeList, Contents.slotsAt, overwrite_nil]
    · refine Or.inr ⟨hdata, apartList_iff.mpr ?_⟩
      have hpoked := apartList_iff.mp (apartList_poke loc hcontents elems helems)
      intro v hv
      cases contents with
      | slots new =>
        simp only [Contents.slotsAt] at hv
        split at hv
        · rcases mem_overwrite hv with hv | hv
          · exact hcontents v hv
          · exact hpoked v hv
        · exact hpoked v hv
      | _ => exact hpoked v hv
  | pos, .map raw entries, h => by
    rcases h with ⟨hpos, rfl⟩ | ⟨hraw, hentries⟩
    · refine Or.inl ⟨hpos, ?_⟩
      cases contents <;> simp [pokeEntries, Contents.entriesAt, overwrite_nil]
    · refine Or.inr ⟨hraw, apartEntries_iff.mpr ?_⟩
      have hpoked := apartEntries_iff.mp (apartEntries_poke loc hcontents entries hentries)
      intro entry hentry
      cases contents with
      | entries new =>
        simp only [Contents.entriesAt] at hentry
        split at hentry
        · rcases mem_overwrite hentry with hentry | hentry
          · exact hcontents entry hentry
          · exact hpoked entry hentry
        · exact hpoked entry hentry
      | _ => exact hpoked entry hentry
  | pos, .objmap raw entries, h => by
    rcases h with ⟨hpos, rfl⟩ | ⟨hraw, hentries⟩
    · refine Or.inl ⟨hpos, ?_⟩
      cases contents <;> simp [pokeEntries, Contents.objEntriesAt, overwrite_nil]
    · refine Or.inr ⟨hraw, apartEntries_iff.mpr ?_⟩
      have hpoked := apartEntries_iff.mp (apartEntries_poke loc hcontents entries hentries)
      intro entry hentry
      cases contents with
      | objEntries new =>
        simp only [Contents.objEntriesAt] at hentry
        split at hentry
        · rcases mem_overwrite hentry with hentry | hentry
          · exact hcontents entry hentry
          · exact hpoked entry hentry
        · exact hpoked entry hentry
      | _ => exact hpoked entry hentry
  | _, .struct fields, h => apartList_poke loc hcontents fields h
  | _, .ref _ _ target, h => ⟨h.1, apart_poke loc hcontents target h.2⟩
  | _, .box _ v, h => ⟨h.1, apart_poke loc hcontents v h.2⟩
  | _, .str _ _, h | _, .tsk _, h | _, .int _, h | _, .flt _, h | _, .bol _, h | _, .nul, h
  | _, .refNull, h | _, .fn _, h => h

theorem apartList_poke (loc : Loc) {contents : Contents}
    (hcontents : contents.Apart foreign) :
  ∀ {pos : Position} (vs : List Val), ApartList foreign pos vs →
    ApartList foreign pos (pokeList loc contents vs)
  | _, [], _ => trivial
  | _, v :: vs, h => ⟨apart_poke loc hcontents v h.1, apartList_poke loc hcontents vs h.2⟩

theorem apartEntries_poke (loc : Loc) {contents : Contents}
    (hcontents : contents.Apart foreign) :
  ∀ {pos : Position} (entries : List (Key × Val)), ApartEntries foreign pos entries →
    ApartEntries foreign pos (pokeEntries loc contents entries)
  | _, [], _ => trivial
  | _, (_, v) :: entries, h =>
    ⟨⟨h.1.1, strApart_poke h.1.2.1, apart_poke loc hcontents v h.1.2.2⟩,
      apartEntries_poke loc hcontents entries h.2⟩

end

mutual

/-- A write to a block a value does not hold leaves the value as it is. -/
theorem poke_eq_self {loc : Loc} {contents : Contents} :
  ∀ (v : Val), loc ∉ v.locs → poke loc contents v = v
  | .arr data elems, h => by
    simp only [Val.locs, List.mem_append, not_or] at h
    have hdata : data ≠ some loc := by
      rintro rfl
      simp at h
    simp only [poke, pokeList_eq_self elems h.2]
    cases contents <;> simp [Contents.slotsAt, hdata]
  | .map raw entries, h => by
    simp only [Val.locs, List.mem_append, not_or] at h
    have hraw : raw ≠ some loc := by
      rintro rfl
      simp at h
    simp only [poke, pokeEntries_eq_self entries h.2]
    cases contents <;> simp [Contents.entriesAt, hraw]
  | .objmap raw entries, h => by
    simp only [Val.locs, List.mem_append, not_or] at h
    have hraw : raw ≠ some loc := by
      rintro rfl
      simp at h
    simp only [poke, pokeEntries_eq_self entries h.2]
    cases contents <;> simp [Contents.objEntriesAt, hraw]
  | .struct fields, h => by
    simp only [poke, pokeList_eq_self fields h]
  | .ref _ _ target, h => by
    simp only [poke, poke_eq_self target (List.not_mem_of_not_mem_cons h)]
  | .box _ v, h => by
    simp only [poke, poke_eq_self v (List.not_mem_of_not_mem_cons h)]
  | .str _ _, _ | .tsk _, _ | .int _, _ | .flt _, _ | .bol _, _ | .nul, _ | .refNull, _
  | .fn _, _ => rfl

theorem pokeList_eq_self {loc : Loc} {contents : Contents} :
  ∀ (vs : List Val), loc ∉ Val.locsList vs → pokeList loc contents vs = vs
  | [], _ => rfl
  | v :: vs, h => by
    simp only [Val.locsList, List.mem_append, not_or] at h
    rw [pokeList, poke_eq_self v h.1, pokeList_eq_self vs h.2]

theorem pokeEntries_eq_self {loc : Loc} {contents : Contents} :
  ∀ (entries : List (Key × Val)), loc ∉ Val.locsEntries entries →
    pokeEntries loc contents entries = entries
  | [], _ => rfl
  | (key, v) :: entries, h => by
    simp only [Val.locsEntries, List.mem_append, not_or] at h
    rw [pokeEntries, poke_eq_self v h.1.2, pokeEntries_eq_self entries h.2]

end

/-! ### What a drop frees -/

mutual

theorem not_foreign_of_mem_dropObj :
  ∀ (v : Val), Apart foreign .owned v → ∀ a ∈ dropObj v, ¬ foreign a
  | .str buffer _, h => fun a ha => h rfl a (by simpa [dropObj] using ha)
  | .arr data elems, h => by
    obtain ⟨hdata, helems⟩ := h.resolve_left (by simp)
    intro a ha
    rcases List.mem_append.mp ha with ha | ha
    · exact not_foreign_of_mem_dropObjarr elems helems a ha
    · exact hdata a (by simpa using ha)
  | .objmap raw entries, h => by
    obtain ⟨hraw, -⟩ := h.resolve_left (by simp)
    exact fun a ha => hraw a (by simpa [dropObj] using ha)
  | .box ptr contents, h => by
    intro a ha
    rw [List.mem_singleton.mp ha]
    exact h.1 rfl
  | .map _ _, _ | .struct _, _ | .ref _ _ _, _ | .tsk _, _ | .int _, _ | .flt _, _
  | .bol _, _ | .nul, _ | .refNull, _ | .fn _, _ => by simp [dropObj]

theorem not_foreign_of_mem_dropObjarr :
  ∀ (vs : List Val), ApartList foreign .owned vs → ∀ a ∈ dropObjarr vs, ¬ foreign a
  | [], _ => by simp [dropObjarr]
  | v :: vs, h => by
    intro a ha
    rcases List.mem_append.mp ha with ha | ha
    · exact not_foreign_of_mem_dropObj v h.1 a ha
    · exact not_foreign_of_mem_dropObjarr vs h.2 a ha

end

theorem not_foreign_of_mem_dropEntries (value : Ty) (entries : List (Key × Val))
    (h : ApartEntries foreign .owned entries) :
  ∀ a ∈ dropEntries value entries, ¬ foreign a
  := by
  induction entries with
  | nil => simp [dropEntries]
  | cons entry entries ih =>
    obtain ⟨key, v⟩ := entry
    intro a ha
    simp only [dropEntries, List.mem_append] at ha
    rcases ha with (ha | ha) | ha
    · exact h.1.1 rfl a (by simpa using ha)
    · split at ha
      · cases v with
        | str buffer text => exact h.1.2.1 rfl a (by simpa [dropStr] using ha)
        | _ => cases ha
      · cases ha
    · exact ih h.2 a ha

mutual

/-- The drop of a value that is apart frees no foreign block. -/
theorem not_foreign_of_mem_dropVal (types : TypeTable) :
  ∀ (type : Ty) (v : Val), Apart foreign .owned v → ∀ a ∈ dropVal types type v, ¬ foreign a
  | type, .str buffer text, h => by
    intro a ha
    apply not_foreign_of_mem_dropObj (.str buffer text) h
    simp only [dropVal] at ha
    split at ha
    · exact ha
    · exact ha
    · cases ha
  | type, .arr data elems, h => by
    obtain ⟨hdata, helems⟩ := h.resolve_left (by simp)
    intro a ha
    simp only [dropVal] at ha
    split at ha
    · next elem _ =>
      rcases List.mem_append.mp ha with ha | ha
      · split at ha
        · exact not_foreign_of_mem_dropElems types elem elems helems a ha
        · cases ha
      · exact hdata a (by simpa using ha)
    · exact not_foreign_of_mem_dropObj _ h a ha
    · cases ha
  | type, .map raw entries, h => by
    obtain ⟨hraw, hentries⟩ := h.resolve_left (by simp)
    intro a ha
    simp only [dropVal] at ha
    split at ha
    · next value _ =>
      cases raw with
      | none => cases ha
      | some table =>
        rcases List.mem_append.mp ha with ha | ha
        · exact not_foreign_of_mem_dropEntries value entries hentries a ha
        · rw [List.mem_singleton.mp ha]
          exact hraw table rfl
    · cases ha
  | type, .objmap raw entries, h => by
    intro a ha
    apply not_foreign_of_mem_dropObj (.objmap raw entries) h
    simp only [dropVal] at ha
    split at ha
    · exact ha
    · exact ha
    · cases ha
  | type, .struct vals, h => by
    intro a ha
    simp only [dropVal] at ha
    split at ha
    · next fields _ => exact not_foreign_of_mem_dropFields types fields vals h a ha
    · cases ha
  | type, .tsk task, h => by
    intro a ha
    simp only [dropVal] at ha
    split at ha
    · exact h rfl a (by simpa using ha)
    · cases ha
  | type, .box ptr contents, h => by
    intro a ha
    simp only [dropVal] at ha
    split at ha
    · exact not_foreign_of_mem_dropObj _ h a ha
    · cases ha
  | _, .ref _ _ _, _ | _, .int _, _ | _, .flt _, _ | _, .bol _, _ | _, .nul, _
  | _, .refNull, _ | _, .fn _, _ => by simp [dropVal]

theorem not_foreign_of_mem_dropElems (types : TypeTable) :
  ∀ (elem : Ty) (vs : List Val), ApartList foreign .owned vs →
    ∀ a ∈ dropElems types elem vs, ¬ foreign a
  | _, [], _ => by simp [dropElems]
  | elem, v :: vs, h => by
    intro a ha
    rcases List.mem_append.mp ha with ha | ha
    · exact not_foreign_of_mem_dropVal types elem v h.1 a ha
    · exact not_foreign_of_mem_dropElems types elem vs h.2 a ha

theorem not_foreign_of_mem_dropFields (types : TypeTable) :
  ∀ (fields : List Field) (vs : List Val), ApartList foreign .owned vs →
    ∀ a ∈ dropFields types fields vs, ¬ foreign a
  | [], _, _ => by simp [dropFields]
  | _ :: _, [], _ => by simp [dropFields]
  | field :: fields, v :: vs, h => by
    have hitem : ∀ a ∈ dropField types field.declaredType v, ¬ foreign a := by
      intro a ha
      cases v with
      | ref owned loc target =>
        simp only [dropField] at ha
        split at ha
        · next targetType _ =>
          rcases List.mem_append.mp ha with ha | ha
          · split at ha
            · exact not_foreign_of_mem_dropVal types targetType target h.1.2 a ha
            · cases ha
          · rw [List.mem_singleton.mp ha]
            exact h.1.1
        · cases ha
      | _ =>
        simp only [dropField] at ha
        split at ha
        · exact not_foreign_of_mem_dropVal types field.declaredType _ h.1 a ha
        · cases ha
    intro a ha
    rw [dropFields_cons] at ha
    rcases List.mem_append.mp ha with ha | ha
    · exact hitem a ha
    · exact not_foreign_of_mem_dropFields types fields vs h.2 a ha

end

/-! ### Runs -/

theorem Separate.poke {x y : Val} {loc : Loc} {contents : Contents} (h : Separate x y)
    (hloc : loc ∉ y.locs) (hcontents : contents.Apart (· ∈ y.locs)) :
  Separate (Caster.poke loc contents x) (Caster.poke loc contents y) ∧
    Caster.poke loc contents y = y
  := by
  have hy : Caster.poke loc contents y = y := poke_eq_self y hloc
  rw [hy]
  exact ⟨⟨apart_poke loc hcontents x h.apart, h.frozen⟩, rfl⟩

/-- An operation on the first variable keeps the variables separate and the second one as it
is. -/
theorem Separate.step {types : TypeTable} {x y x' y' : Val} (h : Separate x y)
    (hstep : Step types (x, y) (x', y')) :
  Separate x' y' ∧ y' = y
  := by
  cases hstep with
  | edit hedit => exact ⟨⟨h.edit hedit h.apart, h.frozen⟩, rfl⟩
  | slots hheld hne hnew =>
    obtain ⟨hdata, helems⟩ := (h.apart.of_holds hheld).resolve_left (fun hnil => hne hnil.2)
    apply h.poke (hdata _ rfl)
    intro w hw
    obtain ⟨v, hv, hedit⟩ := hnew w hw
    exact h.edit hedit (apartList_iff.mp helems v hv)
  | entries hheld hne hnew =>
    obtain ⟨hraw, hold⟩ := (h.apart.of_holds hheld).resolve_left (fun hnil => hne hnil.2)
    apply h.poke (hraw _ rfl)
    intro entry hentry
    obtain ⟨entry', hentry', hkey, hedit⟩ := hnew entry hentry
    obtain ⟨hkey', hstr, hshared⟩ := apartEntries_iff.mp hold entry' hentry'
    refine ⟨fun hpos => ?_, h.edit_str hedit hstr, h.edit hedit hshared⟩
    rcases hkey with hkey | hkey
    · rw [hkey]
      exact hkey' hpos
    · exact hkey
  | objEntries hheld hne hnew =>
    obtain ⟨hraw, hold⟩ := (h.apart.of_holds hheld).resolve_left (fun hnil => hne hnil.2)
    apply h.poke (hraw _ rfl)
    intro entry hentry
    obtain ⟨entry', hentry', hedit⟩ := hnew entry hentry
    obtain ⟨-, hstr, hshared⟩ := apartEntries_iff.mp hold entry' hentry'
    exact ⟨by simp, h.edit_str hedit hstr, h.edit hedit hshared⟩

/-- Separate variables are independent. -/
theorem Separate.independent {x y : Val} (h : Separate x y) (types : TypeTable) (type : Ty) :
  Independent types type x y
  := by
  intro x' y' hrun
  have hrun' : Separate x' y' ∧ y' = y := by
    generalize hend : (x', y') = s at hrun
    induction hrun generalizing x' y' with
    | refl =>
      obtain ⟨rfl, rfl⟩ := Prod.mk.inj hend
      exact ⟨h, rfl⟩
    | tail _ hstep ih =>
      next s _ _ =>
      subst hend
      obtain ⟨hmid, hy⟩ := ih s.1 s.2 rfl
      obtain ⟨hend, hy'⟩ := hmid.step hstep
      exact ⟨hend, hy'.trans hy⟩
  obtain ⟨hsep, rfl⟩ := hrun'
  exact ⟨rfl, not_foreign_of_mem_dropVal types type x' hsep.apart⟩

/-! ### A value and its copy -/

mutual

/-- A built value is apart from a variable that holds none of the value's own blocks and
shares only what cannot be written. -/
theorem apart_of_ownLocs (types : TypeTable) :
  ∀ (type : Ty) (v : Val), builtValue types type v = true →
    (∀ a ∈ ownLocs v, ¬ foreign a) → SharedAll (frozen · = true) v → Apart foreign .owned v
  | _, .str buffer _, _, hown, _ => fun _ a ha => hown a (by simpa [ownLocs] using ha)
  | type, .arr data elems, htype, hown, h => by
    cases type with
    | ARR elem =>
      refine Or.inr ⟨fun a ha => hown a ?_, ?_⟩
      · simp [ownLocs, Option.mem_def.mp ha]
      · exact apartList_of_ownLocs types elem elems htype
          (fun a ha => hown a (by simp [ownLocs, ha])) h
    | _ => simp [builtValue] at htype
  | _, .map raw entries, _, hown, h => by
    refine Or.inr ⟨fun a ha => hown a ?_, apartEntries_iff.mpr ?_⟩
    · simp [ownLocs, Option.mem_def.mp ha]
    · intro entry hentry
      refine ⟨fun _ a ha => hown a ?_, ?_, (apart_of_frozen entry.2 (h entry hentry)).1⟩
      · simp only [ownLocs, List.mem_append, List.mem_flatMap]
        exact Or.inr ⟨entry, hentry, Or.inl (by simpa using ha)⟩
      · cases hv : entry.2 with
        | str buffer text =>
          intro _ a ha
          apply hown
          simp only [ownLocs, List.mem_append, List.mem_flatMap]
          exact Or.inr ⟨entry, hentry, Or.inr (by simpa [hv, dropStr] using ha)⟩
        | _ => trivial
  | _, .objmap raw entries, _, hown, h => by
    refine Or.inr ⟨fun a ha => hown a ?_, apartEntries_iff.mpr ?_⟩
    · simp [ownLocs, Option.mem_def.mp ha]
    · intro entry hentry
      refine ⟨by simp, by cases entry.2 <;> simp [strApart], ?_⟩
      exact (apart_of_frozen entry.2 (h entry hentry)).1
  | type, .struct vals, htype, hown, h => by
    simp only [builtValue] at htype
    split at htype
    · next fields _ => exact apartFields_of_ownLocs types fields vals htype hown h
    · cases htype
  | _, .int _, _, _, _ | _, .flt _, _, _, _ | _, .bol _, _, _, _ => by simp [Apart]
  | _, .nul, htype, _, _ | _, .refNull, htype, _, _ | _, .ref _ _ _, htype, _, _
  | _, .tsk _, htype, _, _ | _, .fn _, htype, _, _ | _, .box _ _, htype, _, _ => by
    simp [builtValue] at htype

theorem apartList_of_ownLocs (types : TypeTable) :
  ∀ (elem : Ty) (vs : List Val), builtList types elem vs = true →
    (∀ a ∈ ownLocsList vs, ¬ foreign a) → SharedAllList (frozen · = true) vs →
    ApartList foreign .owned vs
  | _, [], _, _, _ => trivial
  | elem, v :: vs, htype, hown, h => by
    obtain ⟨hv, hvs⟩ := Bool.and_eq_true _ _ ▸ htype
    exact ⟨apart_of_ownLocs types elem v hv
        (fun a ha => hown a (List.mem_append_left _ ha)) h.1,
      apartList_of_ownLocs types elem vs hvs
        (fun a ha => hown a (List.mem_append_right _ ha)) h.2⟩

theorem apartFields_of_ownLocs (types : TypeTable) :
  ∀ (fields : List Field) (vs : List Val), builtFields types fields vs = true →
    (∀ a ∈ ownLocsList vs, ¬ foreign a) → SharedAllList (frozen · = true) vs →
    ApartList foreign .owned vs
  | [], [], _, _, _ => trivial
  | [], _ :: _, htype, _, _ => by simp [builtFields] at htype
  | _ :: _, [], htype, _, _ => by simp [builtFields] at htype
  | field :: fields, v :: vs, htype, hown, h => by
    obtain ⟨hv, hvs⟩ := Bool.and_eq_true _ _ ▸ htype
    exact ⟨apart_of_ownLocs types field.declaredType v hv
        (fun a ha => hown a (List.mem_append_left _ ha)) h.1,
      apartFields_of_ownLocs types fields vs hvs
        (fun a ha => hown a (List.mem_append_right _ ha)) h.2⟩

end

/-- The blocks of a cloned entry are fresh or those of a shared value. -/
theorem mem_locs_setCopy (types : TypeTable) (value : Ty) (entries : List (Key × Val)) (n : ℕ)
    (htype : builtEntries types value entries = true) :
  ∀ a ∈ Val.locsEntries (setCopy value entries n).1,
    n ≤ a ∨ a ∈ sharedLocs (.map none entries)
  := by
  induction entries generalizing n with
  | nil => simp [setCopy, Val.locsEntries]
  | cons entry entries ih =>
    obtain ⟨key, v⟩ := entry
    obtain ⟨hv, hentries⟩ := Bool.and_eq_true _ _ ▸ htype
    intro a ha
    have hcons : a ∈ sharedLocs (.map none entries) →
        a ∈ sharedLocs (.map none ((key, v) :: entries)) := by
      intro hmem
      simp only [sharedLocs, List.flatMap_cons, List.mem_append] at hmem ⊢
      exact Or.inr hmem
    by_cases hstr : value = .STR
    · subst hstr
      obtain ⟨buffer, text, rfl⟩ := eq_str_of_builtValue hv
      simp only [setCopy, if_true, copyStr, Val.locsEntries, Val.locs, Option.toList,
        List.mem_append, List.mem_singleton] at ha
      rcases ha with (rfl | rfl) | ha
      · exact Or.inl (le_refl _)
      · exact Or.inl (Nat.le_succ n)
      · exact (ih (n + 2) hentries a ha).imp (fun h => by omega) hcons
    · simp only [setCopy, if_neg hstr, Val.locsEntries, Option.toList, List.mem_append,
        List.mem_singleton] at ha
      rcases ha with (rfl | ha) | ha
      · exact Or.inl (le_refl _)
      · right
        have hne : ∀ buffer text, v ≠ .str buffer text := by
          rintro buffer text rfl
          exact hstr (of_decide_eq_true hv)
        simp only [sharedLocs, List.flatMap_cons, List.mem_append]
        left
        cases v with
        | str buffer text => exact absurd rfl (hne buffer text)
        | _ => exact ha
      · exact (ih (n + 1) hentries a ha).imp (fun h => by omega) hcons

/-- The values of a clone are fresh strings or shared values. -/
theorem sharedAll_setCopy {p : Val → Prop} (hstr : ∀ buffer text, p (.str buffer text))
    (value : Ty) (entries : List (Key × Val)) (n : ℕ) (h : ∀ entry ∈ entries, p entry.2) :
  ∀ entry ∈ (setCopy value entries n).1, p entry.2
  := by
  induction entries generalizing n with
  | nil => simp [setCopy]
  | cons entry entries ih =>
    obtain ⟨key, v⟩ := entry
    have hv : p v := h (key, v) (List.mem_cons_self ..)
    have hrest := fun m => ih m fun e he => h e (List.mem_cons_of_mem _ he)
    intro e he
    simp only [setCopy] at he
    rcases List.mem_cons.mp he with rfl | he
    · split
      · cases v with
        | str buffer text => exact hstr (some (n + 1)) text
        | _ => exact hv
      · exact hv
    · exact hrest _ e he

/-- A field that is no reference is copied as a value of its type. -/
theorem copyField_built {types : TypeTable} {type : Ty} {v : Val} (n : ℕ)
    (h : builtValue types type v = true) :
  copyField types .copy type v n = copyVal types .copy type v n
  := by
  cases v with
  | ref owned loc target => simp [builtValue] at h
  | _ => rfl

mutual

/-- The blocks of a copy are fresh or those of a shared value. -/
theorem mem_locs_copyVal (types : TypeTable) :
  ∀ (type : Ty) (v : Val) (n : ℕ), builtValue types type v = true →
    ∀ a ∈ (copyVal types .copy type v n).1.locs, n ≤ a ∨ a ∈ sharedLocs v
  | type, .str buffer text, n, htype => by
    have htype : type = .STR := of_decide_eq_true htype
    subst htype
    intro a ha
    simp only [copyVal, emitHeapFieldCopy, Val.locs, Option.toList, List.mem_singleton] at ha
    exact Or.inl (le_of_eq ha.symm)
  | type, .arr data elems, n, htype => by
    cases type with
    | ARR elem =>
      have helems := mem_locs_copyElems types elem elems (n + 1) htype
      intro a ha
      simp only [copyVal, emitHeapFieldCopy] at ha
      split at ha
      · simp [Val.locs, Val.locsList] at ha
      · simp only [Val.locs, Option.toList, List.mem_append, List.mem_singleton] at ha
        rcases ha with rfl | ha
        · exact Or.inl (le_refl _)
        · exact (helems a ha).imp (fun h => by omega) id
    | _ => simp [builtValue] at htype
  | type, .map raw entries, n, htype => by
    match type, htype with
    | .MAP .STR value, htype =>
      have hentries := mem_locs_setCopy types value entries (n + 1) htype
      intro a ha
      simp only [copyVal, emitHeapFieldCopy, Val.locs, Option.toList, List.mem_append,
        List.mem_singleton] at ha
      rcases ha with rfl | ha
      · exact Or.inl (le_refl _)
      · exact (hentries a ha).imp (fun h => by omega) id
  | type, .objmap raw entries, n, htype => by
    intro a ha
    rw [copyVal, emitHeapFieldCopy_openStruct htype] at ha
    simp only [Val.locs, Option.toList, List.mem_append, List.mem_singleton] at ha
    exact ha.imp (fun h => le_of_eq h.symm) id
  | type, .struct vals, n, htype => by
    simp only [builtValue] at htype
    split at htype
    · next fields hstruct =>
      rw [copyVal, emitHeapFieldCopy_struct hstruct]
      exact mem_locs_copyFields types fields vals n htype
    · cases htype
  | _, .int _, n, _ | _, .flt _, n, _ | _, .bol _, n, _ => by simp [copyVal, Val.locs]
  | _, .nul, n, htype | _, .refNull, n, htype | _, .ref _ _ _, n, htype
  | _, .tsk _, n, htype | _, .fn _, n, htype | _, .box _ _, n, htype => by
    simp [builtValue] at htype

theorem mem_locs_copyElems (types : TypeTable) :
  ∀ (elem : Ty) (vs : List Val) (n : ℕ), builtList types elem vs = true →
    ∀ a ∈ Val.locsList (copyElems types elem vs n).1, n ≤ a ∨ a ∈ sharedLocsList vs
  | _, [], _, _ => by simp [copyElems, Val.locsList]
  | elem, v :: vs, n, htype => by
    obtain ⟨hv, hvs⟩ := Bool.and_eq_true _ _ ▸ htype
    have hle := copyVal_le types .copy elem v n
    intro a ha
    rcases List.mem_append.mp ha with ha | ha
    · exact (mem_locs_copyVal types elem v n hv a ha).imp id (List.mem_append_left _)
    · exact (mem_locs_copyElems types elem vs _ hvs a ha).imp (le_trans hle)
        (List.mem_append_right _)

theorem mem_locs_copyFields (types : TypeTable) :
  ∀ (fields : List Field) (vs : List Val) (n : ℕ), builtFields types fields vs = true →
    ∀ a ∈ Val.locsList (copyFields types .copy fields vs n).1, n ≤ a ∨ a ∈ sharedLocsList vs
  | [], [], _, _ => by simp [copyFields, Val.locsList]
  | [], _ :: _, _, htype => by simp [builtFields] at htype
  | _ :: _, [], _, htype => by simp [builtFields] at htype
  | field :: fields, v :: vs, n, htype => by
    obtain ⟨hv, hvs⟩ := Bool.and_eq_true _ _ ▸ htype
    have hle := copyVal_le types .copy field.declaredType v n
    intro a ha
    rw [copyFields_cons, copyField_built n hv] at ha
    rcases List.mem_append.mp ha with ha | ha
    · exact (mem_locs_copyVal types field.declaredType v n hv a ha).imp id
        (List.mem_append_left _)
    · exact (mem_locs_copyFields types fields vs _ hvs a ha).imp (le_trans hle)
        (List.mem_append_right _)

end

mutual

/-- A copy shares what the original shares, and strings. -/
theorem sharedAll_copyVal {p : Val → Prop} (hstr : ∀ buffer text, p (.str buffer text))
    (types : TypeTable) :
  ∀ (type : Ty) (v : Val) (n : ℕ), builtValue types type v = true → SharedAll p v →
    SharedAll p (copyVal types .copy type v n).1
  | type, .str buffer text, n, htype, _ => by
    have htype : type = .STR := of_decide_eq_true htype
    subst htype
    trivial
  | type, .arr data elems, n, htype, h => by
    cases type with
    | ARR elem =>
      simp only [copyVal, emitHeapFieldCopy]
      split
      · trivial
      · exact sharedAll_copyElems hstr types elem elems (n + 1) htype h
    | _ => simp [builtValue] at htype
  | type, .map raw entries, n, htype, h => by
    match type, htype with
    | .MAP .STR value, _ => exact sharedAll_setCopy hstr value entries (n + 1) h
  | type, .objmap raw entries, n, htype, h => by
    rw [copyVal, emitHeapFieldCopy_openStruct htype]
    exact h
  | type, .struct vals, n, htype, h => by
    simp only [builtValue] at htype
    split at htype
    · next fields hstruct =>
      rw [copyVal, emitHeapFieldCopy_struct hstruct]
      exact sharedAll_copyFields hstr types fields vals n htype h
    · cases htype
  | _, .int _, n, _, _ | _, .flt _, n, _, _ | _, .bol _, n, _, _ => trivial
  | _, .nul, n, htype, _ | _, .refNull, n, htype, _ | _, .ref _ _ _, n, htype, _
  | _, .tsk _, n, htype, _ | _, .fn _, n, htype, _ | _, .box _ _, n, htype, _ => by
    simp [builtValue] at htype

theorem sharedAll_copyElems {p : Val → Prop} (hstr : ∀ buffer text, p (.str buffer text))
    (types : TypeTable) :
  ∀ (elem : Ty) (vs : List Val) (n : ℕ), builtList types elem vs = true →
    SharedAllList p vs → SharedAllList p (copyElems types elem vs n).1
  | _, [], _, _, _ => trivial
  | elem, v :: vs, n, htype, h => by
    obtain ⟨hv, hvs⟩ := Bool.and_eq_true _ _ ▸ htype
    exact ⟨sharedAll_copyVal hstr types elem v n hv h.1,
      sharedAll_copyElems hstr types elem vs _ hvs h.2⟩

theorem sharedAll_copyFields {p : Val → Prop} (hstr : ∀ buffer text, p (.str buffer text))
    (types : TypeTable) :
  ∀ (fields : List Field) (vs : List Val) (n : ℕ), builtFields types fields vs = true →
    SharedAllList p vs → SharedAllList p (copyFields types .copy fields vs n).1
  | [], [], _, _, _ => trivial
  | [], _ :: _, _, htype, _ => by simp [builtFields] at htype
  | _ :: _, [], _, htype, _ => by simp [builtFields] at htype
  | field :: fields, v :: vs, n, htype, h => by
    obtain ⟨hv, hvs⟩ := Bool.and_eq_true _ _ ▸ htype
    rw [copyFields_cons, copyField_built n hv]
    exact ⟨sharedAll_copyVal hstr types field.declaredType v n hv h.1,
      sharedAll_copyFields hstr types fields vs _ hvs h.2⟩

end

mutual

theorem ownLocs_subset_locs :
  ∀ (v : Val), ownLocs v ⊆ v.locs
  | .str _ _ => by simp [ownLocs, Val.locs]
  | .arr data elems => by
    have helems := ownLocsList_subset_locs elems
    intro a ha
    rcases List.mem_append.mp ha with ha | ha
    · exact List.mem_append_left _ ha
    · exact List.mem_append_right _ (helems ha)
  | .map raw entries => by
    intro a ha
    simp only [ownLocs, Val.locs, List.mem_append] at ha ⊢
    apply ha.imp_right
    intro ha
    induction entries with
    | nil => simp at ha
    | cons entry entries ih =>
      obtain ⟨key, v⟩ := entry
      simp only [List.flatMap_cons, List.mem_append, Val.locsEntries] at ha ⊢
      rcases ha with (ha | ha) | ha
      · exact Or.inl (Or.inl ha)
      · refine Or.inl (Or.inr ?_)
        cases v with
        | str buffer text => exact ha
        | _ => cases ha
      · exact Or.inr (ih (Or.inr ha) ha)
  | .objmap raw entries => by simp [ownLocs, Val.locs]
  | .struct fields => ownLocsList_subset_locs fields
  | .ref _ _ _ | .tsk _ | .box _ _ | .int _ | .flt _ | .bol _ | .nul | .refNull | .fn _ => by
    simp [ownLocs]

theorem ownLocsList_subset_locs :
  ∀ (vs : List Val), ownLocsList vs ⊆ Val.locsList vs
  | [] => by simp [ownLocsList]
  | v :: vs => by
    intro a ha
    rcases List.mem_append.mp ha with ha | ha
    · exact List.mem_append_left _ (ownLocs_subset_locs v ha)
    · exact List.mem_append_right _ (ownLocsList_subset_locs vs ha)

end

end

end Caster
