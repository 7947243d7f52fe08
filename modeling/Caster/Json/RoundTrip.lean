import Mathlib.Data.List.TakeWhile
import Caster.Json.CJsonReading

/-!
# The round trip of a dynamic value

The runtime makes a value of what is parsed of the text of a value.  An integer comes back through
a `double`, so that it is the same only within 2⁵³.
-/

namespace Caster

/-! ### Integers -/

/-- A whole number within 2⁵³ is a number of the format. -/
theorem toRat_ofRat_natCast {n : ℕ} (h : n ≤ 2 ^ 53) :
  ∃ x, Binary64.ofRat (n : ℚ) = .finite x ∧ x.toRat = n
  := by
  rcases Nat.eq_zero_or_pos n with rfl | hpos
  · refine ⟨Binary64.zero, by simp [Binary64.ofRat], ?_⟩
    simp [Binary64.toRat, Binary64.zero]
  have hq : (0 : ℚ) < n := by exact_mod_cast hpos
  have hone : (1 : ℚ) ≤ n := by exact_mod_cast hpos
  have hle : (n : ℚ) ≤ 2 ^ 53 := by exact_mod_cast h
  have hlow : (-52 : ℤ) ≤ Rounding.lastDigit 2 53 n := by
    apply Rounding.le_lastDigit (by decide) hq
    simpa using hone
  have hhigh : Rounding.lastDigit 2 53 n ≤ 1 := by
    apply Rounding.lastDigit_le (by decide) hq
    have hlt : (2 : ℚ) ^ 53 < ((2 : ℕ) : ℚ) ^ ((1 : ℤ) + ((53 : ℕ) : ℤ)) := by norm_num
    exact lt_of_le_of_lt hle hlt
  have hbits : Binary64.bits n = Rounding.leading 2 53 n := by
    have hlast : Binary64.lastBit n = Rounding.lastDigit 2 53 n := max_eq_right (by omega)
    rw [Binary64.bits, hlast, Rounding.leading]
  have hexp : (Binary64.bits n).2 ≤ 971 := by
    rw [hbits, Rounding.leading, Rounding.digitsAt]
    split
    · dsimp only
      omega
    · dsimp only
      omega
  refine ⟨_, by rw [Binary64.ofRat, dif_pos hq, dif_pos hexp], ?_⟩
  have hvalue : Rounding.value 2 (Rounding.leading 2 53 n) = n := by
    rcases Nat.lt_or_eq_of_le h with hlt | rfl
    · exact Rounding.leading_natCast (by decide) (by decide) hpos hlt
    · -- the carry out of the last digit
      have hlast : Rounding.lastDigit 2 53 ((2 ^ 53 : ℕ) : ℚ) = 1 := by
        apply le_antisymm hhigh
        apply Rounding.le_lastDigit (by decide) hq
        norm_num
      have hhalf : ((2 ^ 53 : ℕ) : ℚ) / ((2 : ℕ) : ℚ) ^ (1 : ℤ) = ((2 ^ 52 : ℕ) : ℚ) := by norm_num
      rw [Rounding.value, Rounding.leading, Rounding.digitsAt_value (by decide) (by decide), hlast,
        hhalf, Rounding.halfEven_natCast]
      norm_num
  rw [Rounding.value] at hvalue
  simp only [Binary64.toRat, hbits]
  exact_mod_cast hvalue

/-- An integer comes back exactly within 2⁵³. -/
theorem jsonNumberFromCjson_nearest (i : ℤ) :
  jsonNumberFromCjson (nearest i) = .int i ↔ i.natAbs ≤ 2 ^ 53
  := by
  unfold jsonNumberFromCjson nearest
  constructor
  · intro h
    dsimp only at h
    split at h
    · cases h
    · rename_i x hx
      split at h
      · rename_i hle
        split at h
        · rename_i hfloor
          have hbound : (⌊x.toRat⌋ : ℚ) ≤ 9007199254740992 := by rw [hfloor]; exact hle
          have hfloor' : ⌊x.toRat⌋ ≤ 9007199254740992 := by exact_mod_cast hbound
          have hnonneg : 0 ≤ ⌊x.toRat⌋ := Int.floor_nonneg.mpr (Binary64.toRat_nonneg x)
          simp only [Dyn.int.injEq] at h
          split at h
          · omega
          · omega
        · cases h
      · cases h
  · intro h
    obtain ⟨x, hx, hvalue⟩ := toRat_ofRat_natCast h
    have hle : (i.natAbs : ℚ) ≤ 9007199254740992 := by
      have hcast : (i.natAbs : ℚ) ≤ ((2 ^ 53 : ℕ) : ℚ) := by exact_mod_cast h
      simpa using hcast
    have hfloor : ⌊(i.natAbs : ℚ)⌋ = i.natAbs := Int.floor_natCast _
    dsimp only
    rw [hx]
    dsimp only
    rw [hvalue, if_pos hle, hfloor, if_pos (Int.cast_natCast _)]
    by_cases hneg : i < 0
    · simp only [hneg, decide_true, if_true, Dyn.int.injEq]
      omega
    · simp only [hneg, decide_false, Bool.false_eq_true, if_false, Dyn.int.injEq]
      omega

/-! ### Values -/

mutual

/-- All integers of a value are within 2⁵³. -/
def Dyn.Exact : Dyn SignedDouble → Prop
  | .int i => i.natAbs ≤ 2 ^ 53
  | .arr elems => ExactList elems
  | .map entries => ExactEntries entries
  | _ => True

def ExactList : List (Dyn SignedDouble) → Prop
  | [] => True
  | v :: vs => v.Exact ∧ ExactList vs

def ExactEntries : List (Bytes × Dyn SignedDouble) → Prop
  | [] => True
  | (_, v) :: entries => v.Exact ∧ ExactEntries entries

end

theorem exactList_iff (elems : List (Dyn SignedDouble)) :
  ExactList elems ↔ ∀ v ∈ elems, v.Exact
  := by
  induction elems with
  | nil => simp [ExactList]
  | cons v vs ih => rw [ExactList, List.forall_mem_cons, ih]

theorem exactEntries_iff (entries : List (Bytes × Dyn SignedDouble)) :
  ExactEntries entries ↔ ∀ entry ∈ entries, entry.2.Exact
  := by
  induction entries with
  | nil => simp [ExactEntries]
  | cons entry entries ih => rw [ExactEntries, List.forall_mem_cons, ih]

/-- A string without a zero byte. -/
def NulFree (text : Bytes) : Prop := 0 ∉ text

theorem jsonCopyCstr_eq {text : Bytes} (h : NulFree text) : jsonCopyCstr text = text := by
  apply List.takeWhile_eq_self_iff.mpr
  intro b hb
  rw [decide_eq_true_eq]
  rintro rfl
  exact h hb

section

variable (T : KeyedTable (Bytes × Dyn SignedDouble) SameObjKey)

theorem jsonObjarrFromCjson_eq_map (children : List CjsonItem) :
  jsonObjarrFromCjson T children = children.map (jsonFromCjson T)
  := by
  induction children with
  | nil => rfl
  | cons child children ih => rw [jsonObjarrFromCjson, ih, List.map_cons]

/-- The entry that is set for a child of an object. -/
def entryFromCjson (child : Bytes × CjsonItem) : Bytes × Dyn SignedDouble :=
  (jsonCopyCstr child.1, jsonFromCjson T child.2)

theorem jsonEntriesFromCjson_eq_map (children : List (Bytes × CjsonItem)) :
  jsonEntriesFromCjson T children = children.map (entryFromCjson T)
  := by
  induction children with
  | nil => rfl
  | cons child children ih => rw [jsonEntriesFromCjson, ih, List.map_cons, entryFromCjson]

/-- Values that are the same one by one, in lists that belong together. -/
theorem forall₂_same_iff {elems : List (Dyn SignedDouble)} {children : List CjsonItem}
    (hparses : List.Forall₂ Dyn.Parses elems children)
    (hsame : ∀ v ∈ elems, ∀ w, v.Parses w → (v.Same (jsonFromCjson T w) ↔ v.Exact)) :
  List.Forall₂ Dyn.Same elems (children.map (jsonFromCjson T)) ↔ ∀ v ∈ elems, v.Exact
  := by
  induction hparses with
  | nil => simp
  | cons hw _ ih =>
    rw [List.forall_mem_cons] at hsame ⊢
    rw [List.map_cons, List.forall₂_cons, hsame.1 _ hw, ih hsame.2]

theorem exists_child {entries : List (Bytes × Dyn SignedDouble)}
    {children : List (Bytes × CjsonItem)} (h : List.Forall₂ EntryParses entries children) :
  (∀ e ∈ entries, ∃ c ∈ children, EntryParses e c) ∧ ∀ c ∈ children, ∃ e ∈ entries, EntryParses e c
  := by
  induction h with
  | nil => simp
  | cons hparses _ ih =>
    constructor
    · rw [List.forall_mem_cons]
      exact ⟨⟨_, List.mem_cons_self, hparses⟩, fun e he =>
        (ih.1 e he).imp fun _ hc => ⟨List.mem_cons_of_mem _ hc.1, hc.2⟩⟩
    · rw [List.forall_mem_cons]
      exact ⟨⟨_, List.mem_cons_self, hparses⟩, fun c hc =>
        (ih.2 c hc).imp fun _ he => ⟨List.mem_cons_of_mem _ he.1, he.2⟩⟩

/-- The map that is made of the children of an object is the map that was written if and only if
the integers in its values are exact. -/
theorem same_map_iff {entries : List (Bytes × Dyn SignedDouble)}
    {children : List (Bytes × CjsonItem)}
    (hkeys : (entries.map Prod.fst).Nodup) (hnul : ∀ e ∈ entries, NulFree e.1)
    (hparses : (Dyn.map entries).Parses (.object children))
    (hsame : ∀ e ∈ entries, ∀ w, e.2.Parses w → (e.2.Same (jsonFromCjson T w) ↔ e.2.Exact)) :
  (Dyn.map entries).Same (jsonFromCjson T (.object children)) ↔ ∀ e ∈ entries, e.2.Exact
  := by
  obtain ⟨ordered, hperm, hordered⟩ := hparses
  rw [parsesEntries_iff] at hordered
  obtain ⟨hchild, hentry⟩ := exists_child hordered
  have hnames : (ordered.map (entryFromCjson T)).map Prod.fst = entries.map Prod.fst := by
    clear hperm hchild hentry hkeys
    induction hordered with
    | nil => rfl
    | cons hparses _ ih =>
      rw [List.forall_mem_cons] at hnul hsame
      rw [List.map_cons, List.map_cons, List.map_cons, ih hnul.2 hsame.2, entryFromCjson,
        ← hparses.1, jsonCopyCstr_eq hnul.1]
  have hmade : ((children.map (entryFromCjson T)).map Prod.fst).Nodup := by
    rw [((hperm.symm.map _).map _).nodup_iff, hnames]
    exact hkeys
  -- the entries that are iterated over are those of the children
  have hmem : ∀ f, f ∈ T.iter (objmapMake T (jsonEntriesFromCjson T children)) ↔
      ∃ c ∈ ordered, entryFromCjson T c = f := by
    intro f
    rw [jsonEntriesFromCjson_eq_map, (iter_objmapMake_of_nodup hmade).mem_iff, List.mem_map]
    simp only [hperm.mem_iff]
  rw [jsonFromCjson, objFromObjmap, ObjMap.entries, Dyn.Same, entriesIn_iff]
  constructor
  · rintro ⟨hin, -⟩ e he
    obtain ⟨f, hf, hkey, hvalue⟩ := hin e he
    obtain ⟨c, hc, rfl⟩ := (hmem f).mp hf
    obtain ⟨other, hother, hparses⟩ := hentry c hc
    have hname : e.1 = other.1 := by
      rw [hkey, entryFromCjson, ← hparses.1, jsonCopyCstr_eq (hnul other hother)]
    have hequal : e = other := List.inj_on_of_nodup_map hkeys he hother hname
    exact (hsame e he c.2 (hequal ▸ hparses.2)).mp hvalue
  · intro hexact
    constructor
    · intro e he
      obtain ⟨c, hc, hparses⟩ := hchild e he
      refine ⟨entryFromCjson T c, (hmem _).mpr ⟨c, hc, rfl⟩, ?_,
        (hsame e he c.2 hparses.2).mpr (hexact e he)⟩
      rw [entryFromCjson, ← hparses.1, jsonCopyCstr_eq (hnul e he)]
    · intro f hf
      obtain ⟨c, hc, rfl⟩ := (hmem f).mp hf
      obtain ⟨e, he, hparses⟩ := hentry c hc
      apply (entryIn_iff _ _).mpr
      refine ⟨e, he, ?_, (hsame e he c.2 hparses.2).mpr (hexact e he)⟩
      rw [entryFromCjson, ← hparses.1, jsonCopyCstr_eq (hnul e he)]

/-- What is made of a parsed value is the value if and only if its integers are exact. -/
theorem same_jsonFromCjson_iff {T' : KeyedTable (Bytes × Dyn SignedDouble) SameObjKey}
    (v : Dyn SignedDouble) (hbuilt : Built T' v) (hnul : v.BuiltFrom NulFree) :
  ∀ w, v.Parses w → (v.Same (jsonFromCjson T w) ↔ v.Exact)
  := by
  induction v using Dyn.induct with
  | int i =>
    intro w hw
    cases w with
    | number value =>
      rw [Dyn.Parses] at hw
      rw [jsonFromCjson, Dyn.Exact, ← jsonNumberFromCjson_nearest, hw]
      constructor
      · intro hsame
        cases hvalue : jsonNumberFromCjson (nearest i) with
        | int j =>
          rw [hvalue] at hsame
          rw [(hsame : i = j)]
        | _ =>
          rw [hvalue] at hsame
          exact hsame.elim
      · intro hint
        rw [hint]
        rfl
    | _ => exact hw.elim
  | flt x => exact hnul.elim
  | bol b =>
    intro w hw
    cases w with
    | bool c => exact iff_of_true hw trivial
    | _ => exact hw.elim
  | str text =>
    intro w hw
    cases w with
    | string valuestring =>
      rw [Dyn.Parses] at hw
      subst hw
      apply iff_of_true _ trivial
      rw [jsonFromCjson, jsonCopyCstr_eq hnul]
      rfl
    | _ => exact hw.elim
  | nil =>
    intro w hw
    cases w with
    | null => exact iff_of_true trivial trivial
    | _ => exact hw.elim
  | map entries ih =>
    intro w hw
    cases w with
    | object children =>
      obtain ⟨hkeys, hvalues⟩ := map_of_built hbuilt
      rw [Dyn.BuiltFrom, builtFromEntries_iff] at hnul
      rw [Dyn.Exact, exactEntries_iff]
      apply same_map_iff T hkeys (fun e he => (hnul e he).1) hw
      intro e he
      exact ih e he (hvalues e he) (hnul e he).2
    | _ => exact hw.elim
  | arr elems ih =>
    intro w hw
    cases w with
    | array children =>
      have helems := built_of_mem_elems hbuilt
      rw [Dyn.BuiltFrom, builtFromList_iff] at hnul
      rw [Dyn.Parses, parsesList_iff] at hw
      rw [jsonFromCjson, jsonObjarrFromCjson_eq_map, Dyn.Same, sameList_iff, Dyn.Exact,
        exactList_iff]
      apply forall₂_same_iff T hw
      intro v hv
      exact ih v hv (helems v hv) (hnul v hv)
    | _ => exact hw.elim
  | box => exact hnul.elim

end

/-! ### The round trip -/

/-- `JSON(JSON.stringify(d))` is `d`. -/
def ComesBack (printG17 : SignedDouble → Bytes) (s : CjsonSettings)
    (T : KeyedTable (Bytes × Dyn SignedDouble) SameObjKey) (d : Dyn SignedDouble) : Prop :=
  ∃ parsed, jsonParseDyn T s (jsonStringifyValue printG17 d) = some parsed ∧ d.Same parsed

/-- A value comes back as it was if and only if all its integers are within 2⁵³ and it fits the
parser. -/
theorem comesBack_iff (printG17 : SignedDouble → Bytes) (s : CjsonSettings)
    (T T' : KeyedTable (Bytes × Dyn SignedDouble) SameObjKey) (d : Dyn SignedDouble)
    (hbuilt : Built T d) (hnul : d.BuiltFrom NulFree) :
  ComesBack printG17 s T' d ↔ d.Exact ∧ d.Fits s 0
  := by
  unfold ComesBack jsonParseDyn
  obtain ⟨hfits, root, hparse, hroot⟩ | ⟨hfits, hparse⟩ := jsonParseCjson_text printG17 s d hnul
  · have hsame := same_jsonFromCjson_iff T' d hbuilt hnul root hroot
    rw [hparse, Option.map_some]
    constructor
    · rintro ⟨parsed, hparsed, h⟩
      rw [← Option.some.inj hparsed] at h
      exact ⟨hsame.mp h, hfits⟩
    · rintro ⟨hexact, -⟩
      exact ⟨_, rfl, hsame.mpr hexact⟩
  · rw [hparse, Option.map_none]
    constructor
    · rintro ⟨parsed, hparsed, -⟩
      cases hparsed
    · rintro ⟨-, h⟩
      exact absurd h hfits

/-- A map with an array in it comes back. -/
theorem comesBack_map :
  ComesBack (fun _ => []) .vendored (KeyedTable.ofList _ SameObjKey)
    (.map [([97], .arr [.int (-7), .str [34, 10], .nil])])
  := by
  have hnew : BuiltTable (F := SignedDouble) (KeyedTable.ofList _ SameObjKey) [] := BuiltTable.new
  have harr : Built (KeyedTable.ofList _ (@SameObjKey SignedDouble))
      (.arr [.int (-7), .str [34, 10], .nil]) := by
    apply Built.arr
    simp only [List.forall_mem_cons]
    exact ⟨Built.int (-7), Built.str [34, 10], Built.nil, by simp⟩
  have hmap : Built (KeyedTable.ofList _ (@SameObjKey SignedDouble))
      (.map [([97], .arr [.int (-7), .str [34, 10], .nil])]) :=
    Built.map (BuiltTable.set hnew [97] harr)
  apply (comesBack_iff _ _ _ _ _ hmap _).mpr
  · constructor
    · simp [Dyn.Exact, ExactEntries, ExactList]
    · simp [Dyn.Fits, FitsEntries, FitsList, Readable, readsByte, tooDeep, CjsonSettings.vendored]
  · simp [Dyn.BuiltFrom, BuiltFromEntries, BuiltFromList, NulFree]

/-- 2⁵³ + 1 is read as 2⁵³. -/
theorem not_comesBack_int :
  ¬ ∀ d : Dyn SignedDouble, Built (KeyedTable.ofList _ SameObjKey) d → d.BuiltFrom NulFree →
    ComesBack (fun _ => []) .vendored (KeyedTable.ofList _ SameObjKey) d
  := by
  intro h
  obtain ⟨parsed, hparsed, hsame⟩ := h (.int 9007199254740993) (Built.int _) trivial
  obtain ⟨-, root, hparse, hroot⟩ | ⟨hfits, -⟩ :=
    jsonParseCjson_text (p := NulFree) (fun _ => []) .vendored
      (.int 9007199254740993 : Dyn SignedDouble) trivial
  · rw [jsonParseDyn, hparse, Option.map_some] at hparsed
    rw [← Option.some.inj hparsed] at hsame
    have hexact := (same_jsonFromCjson_iff (KeyedTable.ofList _ SameObjKey) _
      (Built.int (T := KeyedTable.ofList _ SameObjKey) _) trivial root hroot).mp hsame
    rw [Dyn.Exact] at hexact
    norm_num at hexact
  · exact hfits trivial

end Caster
