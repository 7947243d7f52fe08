import Caster.Library.KeyedTable
import Caster.Json.Stringify

/-!
# Open maps

The functions `flx_objmap_*` of the emitted runtime over a table of entries, and the values
a program builds with them.
-/

namespace Caster

/-- The order of two strings of one length, that of the first bytes that differ. -/
def compareBytes : Bytes → Bytes → ℤ
  | a :: left, b :: right => if a ≠ b then if a < b then -1 else 1 else compareBytes left right
  | _, _ => 0

/-- The comparison `flx_objmap_compare` of the keys of two entries. -/
def objmapCompare (left right : Bytes) : ℤ :=
  if left.length ≠ right.length then if left.length < right.length then -1 else 1
  else compareBytes left right

theorem compareBytes_eq_zero_iff {left right : Bytes} (h : left.length = right.length) :
  compareBytes left right = 0 ↔ left = right
  := by
  induction left generalizing right with
  | nil =>
    cases right with
    | nil => exact ⟨fun _ => rfl, fun _ => rfl⟩
    | cons b right => cases h
  | cons a left ih =>
    cases right with
    | nil => cases h
    | cons b right =>
      have htail := ih (Nat.succ.inj h)
      by_cases hab : a = b
      · simp [compareBytes, hab, htail]
      · simp only [compareBytes, ne_eq, hab, not_false_eq_true, if_true, List.cons.injEq, false_and,
          iff_false]
        split <;> decide

/-- Two keys compare equal when they are the same bytes. -/
theorem objmapCompare_eq_zero_iff (left right : Bytes) :
  objmapCompare left right = 0 ↔ left = right
  := by
  unfold objmapCompare
  by_cases h : left.length = right.length
  · rw [if_neg (not_not.mpr h)]
    exact compareBytes_eq_zero_iff h
  · rw [if_pos h]
    constructor
    · intro hzero
      split at hzero <;> cases hzero
    · rintro rfl
      exact absurd rfl h

/-! ### Operations -/

section

variable {F : Type}

/-- Two entries have one key. -/
def SameObjKey (left right : Bytes × Dyn F) : Prop := objmapCompare left.1 right.1 = 0

instance : DecidableRel (@SameObjKey F) := fun left right =>
  inferInstanceAs (Decidable (objmapCompare left.1 right.1 = 0))

variable (T : KeyedTable (Bytes × Dyn F) SameObjKey)

/-- A value `FLX_OBJMAP`: the table, unless it is null. -/
abbrev ObjMap : Type := Option T.Table

variable {T}

/-- The entries in the order of an iteration over a map. -/
def ObjMap.entries (map : ObjMap T) : List (Bytes × Dyn F) :=
  match map with
  | none => []
  | some raw => T.iter raw

/-- Entries are stored one after the other. -/
def setEntries (raw : T.Table) (entries : List (Bytes × Dyn F)) : T.Table :=
  entries.foldl (fun raw entry => (T.set raw entry).1) raw

variable (T) in
/-- The map `flx_objmap_new` makes. -/
def objmapNew : T.Table := T.new

variable (T) in
/-- The map `flx_objmap_make` makes of entries. -/
def objmapMake (entries : List (Bytes × Dyn F)) : T.Table := setEntries (objmapNew T) entries

/-- The copy `flx_objmap_clone` makes of a map. -/
def objmapClone (src : ObjMap T) : T.Table := setEntries (objmapNew T) src.entries

/-- A map with one more entry. -/
def objmapAdd (src : ObjMap T) (key : Bytes) (value : Dyn F) : T.Table :=
  (T.set (objmapClone src) (key, value)).1

/-- The entries of two maps. -/
def objmapJoin (left right : ObjMap T) : T.Table := setEntries (objmapClone left) right.entries

/-- A map without a key.  Only the key of the probe is read. -/
def objmapSub (src : ObjMap T) (key : Bytes) : T.Table := (T.delete (objmapClone src) (key, .nil)).1

/-- A map as a dynamic value. -/
def objFromObjmap (value : ObjMap T) : Dyn F := .map value.entries

end

/-! ### The values a program builds -/

section

variable {F : Type} (T : KeyedTable (Bytes × Dyn F) SameObjKey)

mutual

/-- A dynamic value built from values without parts, arrays and maps. -/
inductive Built : Dyn F → Prop
  | int (value : ℤ) : Built (.int value)
  | flt (value : F) : Built (.flt value)
  | bol (value : Bool) : Built (.bol value)
  | str (text : Bytes) : Built (.str text)
  | nil : Built .nil
  | box : Built .box
  | arr {elems : List (Dyn F)} (h : ∀ v ∈ elems, Built v) : Built (.arr elems)
  | null : Built (objFromObjmap (none : ObjMap T))
  | map {raw : T.Table} (h : BuiltTable raw) : Built (objFromObjmap (some raw))

/-- A table that insertions, overwrites and removals lead to. -/
inductive BuiltTable : T.Table → Prop
  | new : BuiltTable T.new
  | set {raw : T.Table} {v : Dyn F} (h : BuiltTable raw) (key : Bytes) (hv : Built v) :
    BuiltTable (T.set raw (key, v)).1
  | delete {raw : T.Table} (h : BuiltTable raw) (probe : Bytes × Dyn F) :
    BuiltTable (T.delete raw probe).1

end

variable {T}

/-- The map a pointer leads to is one the program built, if there is one. -/
def BuiltMap (map : ObjMap T) : Prop := ∀ raw, map = some raw → BuiltTable T raw

/-- The values of a map the program built are values it built. -/
theorem built_of_mem_iter {raw : T.Table} (h : BuiltTable T raw) :
  ∀ entry ∈ T.iter raw, Built T entry.2
  := by
  match h with
  | .new =>
    rw [T.iter_new]
    exact fun entry hentry => absurd hentry List.not_mem_nil
  | .set h key hv =>
    intro entry hentry
    rw [(T.iter_set _ _).mem_iff, List.mem_cons] at hentry
    obtain rfl | hentry := hentry
    · exact hv
    · exact built_of_mem_iter h entry (List.mem_filter.mp hentry).1
  | .delete h probe =>
    intro entry hentry
    rw [(T.iter_delete _ probe).mem_iff] at hentry
    exact built_of_mem_iter h entry (List.mem_filter.mp hentry).1

theorem built_of_mem_entries {map : ObjMap T} (h : BuiltMap map) :
  ∀ entry ∈ map.entries, Built T entry.2
  := by
  cases map with
  | none => exact fun entry hentry => absurd hentry List.not_mem_nil
  | some raw => exact built_of_mem_iter (h raw rfl)

theorem builtTable_setEntries {raw : T.Table} (h : BuiltTable T raw) {entries : List (Bytes × Dyn F)}
    (hentries : ∀ entry ∈ entries, Built T entry.2) :
  BuiltTable T (setEntries raw entries)
  := by
  induction entries generalizing raw with
  | nil => exact h
  | cons entry entries ih =>
    rw [List.forall_mem_cons] at hentries
    exact ih (BuiltTable.set h entry.1 hentries.1) hentries.2

theorem builtTable_objmapMake {entries : List (Bytes × Dyn F)}
    (h : ∀ entry ∈ entries, Built T entry.2) :
  BuiltTable T (objmapMake T entries)
  := builtTable_setEntries BuiltTable.new h

theorem builtTable_objmapClone {src : ObjMap T} (h : BuiltMap src) :
  BuiltTable T (objmapClone src)
  := builtTable_setEntries BuiltTable.new (built_of_mem_entries h)

theorem builtTable_objmapAdd {src : ObjMap T} (h : BuiltMap src) (key : Bytes) {value : Dyn F}
    (hvalue : Built T value) :
  BuiltTable T (objmapAdd src key value)
  := BuiltTable.set (builtTable_objmapClone h) key hvalue

theorem builtTable_objmapJoin {left right : ObjMap T} (hleft : BuiltMap left) (hright : BuiltMap right) :
  BuiltTable T (objmapJoin left right)
  := builtTable_setEntries (builtTable_objmapClone hleft) (built_of_mem_entries hright)

theorem builtTable_objmapSub {src : ObjMap T} (h : BuiltMap src) (key : Bytes) :
  BuiltTable T (objmapSub src key)
  := BuiltTable.delete (builtTable_objmapClone h) (key, .nil)

/-- No table a program builds holds two entries of one key. -/
theorem nodup_keys_of_builtTable {raw : T.Table} (h : BuiltTable T raw) :
  ((T.iter raw).map Prod.fst).Nodup
  := by
  have hkey : ∀ a b : Bytes × Dyn F, SameObjKey a b ↔ a.1 = b.1 :=
    fun a b => objmapCompare_eq_zero_iff a.1 b.1
  match h with
  | .new => exact T.nodup_keys_new
  | .set h key hv => exact T.nodup_keys_set hkey (nodup_keys_of_builtTable h) _
  | .delete h probe => exact T.nodup_keys_delete (nodup_keys_of_builtTable h) probe

end

/-! ### Maps made of entries -/

section

variable {F : Type} {T : KeyedTable (Bytes × Dyn F) SameObjKey}

theorem objmapMake_append (entries : List (Bytes × Dyn F)) (entry : Bytes × Dyn F) :
  objmapMake T (entries ++ [entry]) = (T.set (objmapMake T entries) entry).1
  := by
  rw [objmapMake, setEntries, List.foldl_append]
  rfl

/-- The entries of a map that is made of entries are some of them, one for each key. -/
theorem iter_objmapMake (entries : List (Bytes × Dyn F)) :
  ∃ stored, (T.iter (objmapMake T entries)).Perm stored ∧ stored.Sublist entries ∧
    (stored.map Prod.fst).Nodup ∧ ∀ key ∈ entries.map Prod.fst, key ∈ stored.map Prod.fst
  := by
  induction entries using List.reverseRecOn with
  | nil =>
    refine ⟨[], ?_, List.Sublist.refl [], List.nodup_nil, fun key hkey => hkey⟩
    rw [objmapMake, setEntries, objmapNew, List.foldl_nil, T.iter_new]
  | append_singleton entries entry ih =>
    obtain ⟨stored, hperm, hsublist, hnodup, hkeys⟩ := ih
    have hsame : ∀ e : Bytes × Dyn F, SameObjKey entry e ↔ entry.1 = e.1 :=
      fun e => objmapCompare_eq_zero_iff entry.1 e.1
    have hfilter : (stored.filter fun e => ¬ SameObjKey entry e).Sublist stored := List.filter_sublist
    refine ⟨stored.filter (fun e => ¬ SameObjKey entry e) ++ [entry], ?_, ?_, ?_, ?_⟩
    · rw [objmapMake_append]
      have hset := T.iter_set (objmapMake T entries) entry
      exact hset.trans (((hperm.filter _).cons entry).trans (List.perm_append_singleton _ _).symm)
    · exact (hfilter.trans hsublist).append (List.Sublist.refl [entry])
    · rw [List.map_append, List.map_singleton, List.nodup_append]
      refine ⟨(hfilter.map Prod.fst).nodup hnodup, List.nodup_singleton _, ?_⟩
      intro key hkey other hother heq
      obtain ⟨e, he, rfl⟩ := List.mem_map.mp hkey
      rw [List.mem_singleton.mp hother] at heq
      have hdiffers := (List.mem_filter.mp he).2
      simp [hsame, heq] at hdiffers
    · intro key hkey
      rw [List.map_append, List.mem_append]
      by_cases heq : entry.1 = key
      · exact Or.inr (by simp [heq])
      · rw [List.map_append, List.mem_append] at hkey
        rcases hkey with hkey | hkey
        · obtain ⟨e, he, rfl⟩ := List.mem_map.mp (hkeys key hkey)
          refine Or.inl (List.mem_map.mpr ⟨e, List.mem_filter.mpr ⟨he, ?_⟩, rfl⟩)
          simp [hsame, heq]
        · have hlast : key = entry.1 := by simpa using hkey
          exact absurd hlast.symm heq

/-- A map that is made of entries has all of them when their keys are different. -/
theorem iter_objmapMake_of_nodup {entries : List (Bytes × Dyn F)}
    (hnodup : (entries.map Prod.fst).Nodup) :
  (T.iter (objmapMake T entries)).Perm entries
  := by
  obtain ⟨stored, hperm, hsublist, _, hkeys⟩ := iter_objmapMake (T := T) entries
  have hle : (entries.map Prod.fst).length ≤ (stored.map Prod.fst).length :=
    (List.Nodup.subperm hnodup hkeys).length_le
  rw [List.length_map, List.length_map] at hle
  rw [hsublist.eq_of_length_le hle] at hperm
  exact hperm

end

end Caster
