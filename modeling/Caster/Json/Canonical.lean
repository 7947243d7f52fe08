import Caster.Json.ObjMap
import Caster.Json.Reading

/-!
# The text of a map does not depend on how it was built

The order `flx_json_compare_entries` sorts the entries of a map by is the lexicographic
order of the bytes of their keys, a total order in which only equal keys are tied.  A map
never holds two equal keys, so its sorted entries depend on the entries only.
-/

namespace Caster

/-! ### The order of keys -/

/-- The codes of the bytes of a string, ordered lexicographically. -/
def codes (text : Bytes) : List ℕ := text.map UInt8.toNat

theorem codes_injective : Function.Injective codes :=
  List.map_injective_iff.mpr fun _ _ h => UInt8.toNat_inj.mp h

theorem jsonCompareEntries_nil_cons (b : UInt8) (right : Bytes) :
  jsonCompareEntries [] (b :: right) = -1
  := by
  simp [jsonCompareEntries]

theorem jsonCompareEntries_cons_nil (a : UInt8) (left : Bytes) :
  jsonCompareEntries (a :: left) [] = 1
  := by
  simp [jsonCompareEntries]

theorem memcmp_of_pos (left right : Bytes) (n : ℕ) :
  (if 0 < n then memcmp left right n else 0) = memcmp left right n
  := by
  cases n with
  | zero => cases left <;> cases right <;> rfl
  | succ n => rw [if_pos (Nat.succ_pos n)]

theorem jsonCompareEntries_cons_cons (a b : UInt8) (left right : Bytes) :
  jsonCompareEntries (a :: left) (b :: right)
    = if a = b then jsonCompareEntries left right else (a.toNat : ℤ) - b.toNat
  := by
  have hmin : (if left.length < right.length then left.length + 1 else right.length + 1)
      = (if left.length < right.length then left.length else right.length) + 1 := by
    split <;> rfl
  unfold jsonCompareEntries
  simp only [memcmp_of_pos, List.length_cons, Nat.add_lt_add_iff_right, hmin]
  simp only [memcmp]
  by_cases hab : a = b
  · simp only [if_pos hab]
  · have hne : (a.toNat : ℤ) - b.toNat ≠ 0 := by
      intro hzero
      apply hab
      apply UInt8.toNat_inj.mp
      omega
    simp only [if_neg hab, hne, ne_eq, not_false_eq_true, if_true]

/-- Only equal keys are tied. -/
theorem jsonCompareEntries_eq_zero_iff (left right : Bytes) :
  jsonCompareEntries left right = 0 ↔ left = right
  := by
  induction left generalizing right with
  | nil =>
    cases right with
    | nil => exact ⟨fun _ => rfl, fun _ => rfl⟩
    | cons b right => simp [jsonCompareEntries_nil_cons]
  | cons a left ih =>
    cases right with
    | nil => simp [jsonCompareEntries_cons_nil]
    | cons b right =>
      rw [jsonCompareEntries_cons_cons]
      by_cases hab : a = b
      · simp [hab, ih]
      · have hne : (a.toNat : ℤ) - b.toNat ≠ 0 := by
          intro hzero
          apply hab
          apply UInt8.toNat_inj.mp
          omega
        simp [hab, hne]

/-- One key is before another when its bytes are lexicographically smaller. -/
theorem jsonCompareEntries_neg_iff (left right : Bytes) :
  jsonCompareEntries left right < 0 ↔ codes left < codes right
  := by
  induction left generalizing right with
  | nil =>
    cases right with
    | nil => exact ⟨fun h => absurd h (by decide), fun h => absurd h (lt_irrefl _)⟩
    | cons b right =>
      simp only [jsonCompareEntries_nil_cons, codes, List.map_nil, List.map_cons, List.nil_lt_cons, iff_true]
      decide
  | cons a left ih =>
    cases right with
    | nil =>
      simp only [jsonCompareEntries_cons_nil, codes, List.map_nil, List.not_lt_nil, iff_false]
      decide
    | cons b right =>
      have hcodes : codes (a :: left) < codes (b :: right)
          ↔ a.toNat < b.toNat ∨ a.toNat = b.toNat ∧ codes left < codes right := List.cons_lt_cons_iff
      rw [jsonCompareEntries_cons_cons, hcodes, UInt8.toNat_inj]
      by_cases hab : a = b
      · simp [hab, ih]
      · simp [hab]

/-- A key is not after another. -/
theorem jsonCompareEntries_le_iff (left right : Bytes) :
  jsonCompareEntries left right ≤ 0 ↔ codes left ≤ codes right
  := by
  rw [le_iff_lt_or_eq, le_iff_lt_or_eq, jsonCompareEntries_neg_iff, jsonCompareEntries_eq_zero_iff,
    codes_injective.eq_iff]

/-- A comparison orders all keys, and distinct keys strictly. -/
structure StrictTotal (compare : Bytes → Bytes → ℤ) : Prop where
  tied : ∀ left right, compare left right = 0 ↔ left = right
  swap : ∀ left right, compare left right < 0 ↔ 0 < compare right left
  trans : ∀ a b c, compare a b < 0 → compare b c < 0 → compare a c < 0

theorem strictTotal_jsonCompareEntries :
  StrictTotal jsonCompareEntries
  := by
  constructor
  · exact jsonCompareEntries_eq_zero_iff
  · intro left right
    rw [jsonCompareEntries_neg_iff, ← not_le (a := jsonCompareEntries right left),
      jsonCompareEntries_le_iff, not_le]
  · intro a b c hab hbc
    rw [jsonCompareEntries_neg_iff] at hab hbc ⊢
    exact lt_trans hab hbc

/-! ### Sorting -/

/-- The order `sortEntries` sorts by. -/
def EntryLE {α : Type} (left right : Bytes × α) : Prop := jsonCompareEntries left.1 right.1 ≤ 0

theorem pairwise_sortEntries {α : Type} (entries : List (Bytes × α)) :
  (sortEntries entries).Pairwise EntryLE
  := by
  have htotal : @Std.Total (Bytes × α) fun left right => jsonCompareEntries left.1 right.1 ≤ 0 := by
    constructor
    intro left right
    simp only [jsonCompareEntries_le_iff]
    exact le_total _ _
  have htrans : IsTrans (Bytes × α) fun left right => jsonCompareEntries left.1 right.1 ≤ 0 := by
    constructor
    intro a b c
    simp only [jsonCompareEntries_le_iff]
    exact le_trans
  exact List.pairwise_insertionSort (fun left right => jsonCompareEntries left.1 right.1 ≤ 0) entries

/-- Any sorting of entries with different keys gives one list. -/
theorem eq_sortEntries {α : Type} {entries sorted : List (Bytes × α)}
    (hkeys : (entries.map Prod.fst).Nodup) (hperm : sorted.Perm entries)
    (hsorted : sorted.Pairwise EntryLE) :
  sorted = sortEntries entries
  := by
  have hsort : (sortEntries entries).Perm entries := List.perm_insertionSort _ entries
  apply List.Perm.eq_of_pairwise _ hsorted (pairwise_sortEntries entries) (hperm.trans hsort.symm)
  intro left right hleft hright hle hge
  simp only [EntryLE, jsonCompareEntries_le_iff] at hle hge
  have hkey : left.1 = right.1 := codes_injective (le_antisymm hle hge)
  exact List.inj_on_of_nodup_map hkeys (hperm.mem_iff.mp hleft) (hsort.mem_iff.mp hright) hkey

/-! ### Equal values -/

variable {F : Type}

mutual

/-- Two values are equal as trees, maps compared as sets of keys with values. -/
def Dyn.Same : Dyn F → Dyn F → Prop
  | .int i, .int j => i = j
  | .flt x, .flt y => x = y
  | .bol b, .bol c => b = c
  | .str s, .str t => s = t
  | .nil, .nil => True
  | .box, .box => True
  | .arr vs, .arr ws => SameList vs ws
  | .map es, .map fs => EntriesIn es fs ∧ ∀ f ∈ fs, EntryIn es f
  | _, _ => False
termination_by structural v => v

/-- The elements of two arrays are equal. -/
def SameList : List (Dyn F) → List (Dyn F) → Prop
  | [], [] => True
  | v :: vs, w :: ws => v.Same w ∧ SameList vs ws
  | _, _ => False

/-- Every entry is equal to one of the other entries. -/
def EntriesIn : List (Bytes × Dyn F) → List (Bytes × Dyn F) → Prop
  | [], _ => True
  | (key, v) :: es, fs => (∃ f ∈ fs, key = f.1 ∧ v.Same f.2) ∧ EntriesIn es fs

/-- An entry is equal to one of the entries of a list. -/
def EntryIn : List (Bytes × Dyn F) → Bytes × Dyn F → Prop
  | [], _ => False
  | (key, v) :: es, f => (key = f.1 ∧ v.Same f.2) ∨ EntryIn es f

end

theorem sameList_iff (vs ws : List (Dyn F)) :
  SameList vs ws ↔ List.Forall₂ Dyn.Same vs ws
  := by
  induction vs generalizing ws with
  | nil => cases ws <;> simp [SameList]
  | cons v vs ih => cases ws <;> simp [SameList, ih]

theorem entriesIn_iff (es fs : List (Bytes × Dyn F)) :
  EntriesIn es fs ↔ ∀ e ∈ es, ∃ f ∈ fs, e.1 = f.1 ∧ e.2.Same f.2
  := by
  induction es with
  | nil => simp [EntriesIn]
  | cons e es ih => rw [EntriesIn, List.forall_mem_cons, ih]

theorem entryIn_iff (es : List (Bytes × Dyn F)) (f : Bytes × Dyn F) :
  EntryIn es f ↔ ∃ e ∈ es, e.1 = f.1 ∧ e.2.Same f.2
  := by
  induction es with
  | nil => simp [EntryIn]
  | cons e es ih => simp [EntryIn, ih]

variable (printG17 : F → Bytes)

/-- Values with the keys of whose maps are different have one text if they are equal. -/
theorem text_map_eq {es fs : List (Bytes × Dyn F)} (hes : (es.map Prod.fst).Nodup)
    (hfs : (fs.map Prod.fst).Nodup) (h : (Dyn.map es).Same (.map fs))
    (htext : ∀ e ∈ es, ∀ f ∈ fs, e.2.Same f.2 →
      jsonStringifyValue printG17 e.2 = jsonStringifyValue printG17 f.2) :
  jsonStringifyValue printG17 (.map es) = jsonStringifyValue printG17 (.map fs)
  := by
  obtain ⟨hin, hout⟩ := h
  rw [entriesIn_iff] at hin
  have hkeys : ∀ l : List (Bytes × Dyn F), (valueTexts printG17 l).map Prod.fst = l.map Prod.fst := by
    intro l
    rw [valueTexts_eq_map, List.map_map]
    rfl
  have hes' : ((valueTexts printG17 es).map Prod.fst).Nodup := by rwa [hkeys]
  have hfs' : ((valueTexts printG17 fs).map Prod.fst).Nodup := by rwa [hkeys]
  -- the two maps have the same entries once the values are written out
  have hperm : (valueTexts printG17 es).Perm (valueTexts printG17 fs) := by
    rw [List.perm_ext_iff_of_nodup hes'.of_map hfs'.of_map, valueTexts_eq_map, valueTexts_eq_map]
    intro entry
    constructor
    · intro hentry
      obtain ⟨e, he, rfl⟩ := List.mem_map.mp hentry
      obtain ⟨f, hf, hkey, hsame⟩ := hin e he
      apply List.mem_map.mpr
      refine ⟨f, hf, ?_⟩
      rw [valueText, valueText, hkey, htext e he f hf hsame]
    · intro hentry
      obtain ⟨f, hf, rfl⟩ := List.mem_map.mp hentry
      obtain ⟨e, he, hkey, hsame⟩ := (entryIn_iff es f).mp (hout f hf)
      apply List.mem_map.mpr
      refine ⟨e, he, ?_⟩
      rw [valueText, valueText, hkey, htext e he f hf hsame]
  have hsort : (sortEntries (valueTexts printG17 es)).Perm (valueTexts printG17 fs) :=
    (List.perm_insertionSort _ _).trans hperm
  rw [jsonStringifyValue, jsonStringifyValue, eq_sortEntries hfs' hsort (pairwise_sortEntries _)]

theorem built_of_mem_elems {T : KeyedTable (Bytes × Dyn F) SameObjKey} {elems : List (Dyn F)}
    (h : Built T (.arr elems)) :
  ∀ v ∈ elems, Built T v
  := by
  cases h with
  | arr h => exact h

/-- The entries of a map the program built have different keys. -/
theorem map_of_built {T : KeyedTable (Bytes × Dyn F) SameObjKey} {entries : List (Bytes × Dyn F)}
    (h : Built T (.map entries)) :
  (entries.map Prod.fst).Nodup ∧ ∀ entry ∈ entries, Built T entry.2
  := by
  generalize hv : Dyn.map entries = v at h
  cases h with
  | null =>
    cases hv
    exact ⟨List.nodup_nil, fun entry hentry => absurd hentry List.not_mem_nil⟩
  | map h =>
    cases hv
    exact ⟨nodup_keys_of_builtTable h, built_of_mem_iter h⟩
  | _ => cases hv

/-- The text of a value does not depend on how it was built. -/
theorem text_eq {T T' : KeyedTable (Bytes × Dyn F) SameObjKey} (v : Dyn F) :
  ∀ w, Built T v → Built T' w → v.Same w → jsonStringifyValue printG17 v = jsonStringifyValue printG17 w
  := by
  induction v using Dyn.induct with
  | int i =>
    intro w _ _ h
    cases w with
    | int j => rw [(h : i = j)]
    | _ => exact h.elim
  | flt x =>
    intro w _ _ h
    cases w with
    | flt y => rw [(h : x = y)]
    | _ => exact h.elim
  | bol b =>
    intro w _ _ h
    cases w with
    | bol c => rw [(h : b = c)]
    | _ => exact h.elim
  | str s =>
    intro w _ _ h
    cases w with
    | str t => rw [(h : s = t)]
    | _ => exact h.elim
  | nil =>
    intro w _ _ h
    cases w with
    | nil => rfl
    | _ => exact h.elim
  | box =>
    intro w _ _ h
    cases w with
    | box => rfl
    | _ => exact h.elim
  | arr vs ih =>
    intro w hv hw h
    cases w with
    | arr ws =>
      rw [Dyn.Same, sameList_iff] at h
      have hvs := built_of_mem_elems hv
      have hws := built_of_mem_elems hw
      have htexts : elemTexts printG17 vs = elemTexts printG17 ws := by
        rw [elemTexts_eq_map, elemTexts_eq_map]
        clear hv hw
        induction h with
        | nil => rfl
        | cons h _ hrest =>
          rw [List.forall_mem_cons] at hvs hws ih
          rw [List.map_cons, List.map_cons, ih.1 _ hvs.1 hws.1 h, hrest ih.2 hvs.2 hws.2]
      rw [jsonStringifyValue, jsonStringifyValue, htexts]
    | _ => exact h.elim
  | map es ih =>
    intro w hv hw h
    cases w with
    | map fs =>
      obtain ⟨hnodup, hvalues⟩ := map_of_built hv
      obtain ⟨hnodup', hvalues'⟩ := map_of_built hw
      apply text_map_eq printG17 hnodup hnodup' h
      intro e he f hf hsame
      exact ih e he f.2 (hvalues e he) (hvalues' f hf) hsame
    | _ => exact h.elim

/-- Equal values built in any way have one text, and the order of the keys behind it is a
strict total order. -/
theorem jsonStringify_canonical :
  StrictTotal jsonCompareEntries ∧
    ∀ (T T' : KeyedTable (Bytes × Dyn F) SameObjKey) (v w : Dyn F), Built T v → Built T' w →
      v.Same w → jsonStringifyValue printG17 v = jsonStringifyValue printG17 w
  := ⟨strictTotal_jsonCompareEntries, fun _ _ v w => text_eq printG17 v w⟩

/-- The map of two keys, built in two orders, one of them with a detour. -/
theorem jsonStringify_twoKeys :
  StrictTotal jsonCompareEntries ∧
    jsonStringifyValue (fun _ : Empty => []) (.map [([97, 98], .int 2), ([97], .int 1)])
      = jsonStringifyValue (fun _ : Empty => []) (.map [([97], .int 1), ([97, 98], .int 2)])
  := by
  have hnew : BuiltTable (F := Empty) (KeyedTable.ofList _ SameObjKey) [] := BuiltTable.new
  have hv : Built (F := Empty) (KeyedTable.ofList _ SameObjKey)
      (.map [([97, 98], .int 2), ([97], .int 1)]) :=
    Built.map (BuiltTable.set (BuiltTable.set hnew [97] (Built.int 1)) [97, 98] (Built.int 2))
  have hw : Built (F := Empty) (KeyedTable.ofList _ SameObjKey)
      (.map [([97], .int 1), ([97, 98], .int 2)]) :=
    Built.map (BuiltTable.set (BuiltTable.delete (BuiltTable.set (BuiltTable.set hnew [97, 98]
      (Built.int 2)) [255] Built.nil) ([255], .nil)) [97] (Built.int 1))
  have hsame : Dyn.Same (F := Empty) (.map [([97, 98], .int 2), ([97], .int 1)])
      (.map [([97], .int 1), ([97, 98], .int 2)]) := by
    refine ⟨⟨⟨([97, 98], .int 2), by simp, rfl, rfl⟩, ⟨([97], .int 1), by simp, rfl, rfl⟩, trivial⟩, ?_⟩
    rw [List.forall_mem_cons, List.forall_mem_singleton]
    exact ⟨Or.inr (Or.inl ⟨rfl, rfl⟩), Or.inl ⟨rfl, rfl⟩⟩
  obtain ⟨horder, hcanonical⟩ := jsonStringify_canonical fun _ : Empty => []
  exact ⟨horder, hcanonical _ _ _ _ hv hw hsame⟩

end Caster
