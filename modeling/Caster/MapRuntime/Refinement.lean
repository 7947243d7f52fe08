import Mathlib.Data.Set.Card
import Caster.MapRuntime.Accounts

/-!
# Typed maps are finite maps

A program runs map operations on any number of live maps and allocates and frees strings of
its own in between.  Every run is one of the same operations on finite maps, functions from
keys to values, which share nothing.  No run fails, and none leaves a block without owner.
-/

namespace Caster.MapRuntime

variable {α : Type} {T : KeyedTable (Entry α) SameKey}

/-! ### The operations on one table -/

/-- A table owns its blocks, has no key twice and holds the given contents. -/
structure Holds (heap : Heap) (others : Finset BlockId) (raw : T.Table)
    (contents : Bytes → Option (Content α)) : Prop where
  accounts : Accounts heap others (blocksOf (T.iter raw))
  keys : ((T.iter raw).map keyOf).Nodup
  contents_eq : contentsOf (T.iter raw) = contents

theorem perm_of_find? {entries : List (Entry α)} {probe found : Entry α}
    (hkeys : (entries.map keyOf).Nodup) (h : entries.find? (fun e => SameKey probe e) = some found) :
  entries.Perm (found :: entries.filter fun e => ¬ SameKey probe e)
  := by
  induction entries with
  | nil => cases h
  | cons entry entries ih =>
    rw [List.map_cons, List.nodup_cons] at hkeys
    by_cases hsame : SameKey probe entry
    · rw [List.find?_cons_of_pos (by simpa using hsame)] at h
      obtain rfl : entry = found := Option.some.inj h
      -- no later entry has the key
      have hkeep : entries.filter (fun e => ¬ SameKey probe e) = entries := by
        apply List.filter_eq_self.mpr
        intro e he
        have hne : ¬ SameKey probe e := by
          intro hsame'
          apply hkeys.1
          rw [← (sameKey_iff probe entry).mp hsame, (sameKey_iff probe e).mp hsame']
          exact List.mem_map_of_mem he
        simpa using hne
      rw [List.filter_cons_of_neg (by simpa using hsame), hkeep]
    · rw [List.find?_cons_of_neg (by simpa using hsame)] at h
      rw [List.filter_cons_of_pos (by simpa using hsame)]
      exact ((ih hkeys.2 h).cons entry).trans (List.Perm.swap found entry _)

/-- The entry with the key of a probe is freed, if there is one. -/
theorem dropReplaced_spec {heap : Heap} {others : Finset BlockId} {rest : List BlockId}
    {entries : List (Entry α)} (hkeys : (entries.map keyOf).Nodup) (probe : Entry α)
    (h : Accounts heap others (blocksOf entries ++ rest)) :
  ∃ heap', dropReplaced (entries.find? fun e => SameKey probe e) heap = some heap' ∧
    Accounts heap' others (blocksOf (entries.filter fun e => ¬ SameKey probe e) ++ rest)
  := by
  cases hfind : entries.find? (fun e => SameKey probe e) with
  | none =>
    have hkeep : entries.filter (fun e => ¬ SameKey probe e) = entries := by
      apply List.filter_eq_self.mpr
      intro e he
      simpa using List.find?_eq_none.mp hfind e he
    rw [hkeep]
    exact ⟨heap, rfl, h⟩
  | some found =>
    have hperm := (perm_of_find? hkeys hfind).flatMap_right Entry.blocks
    rw [List.flatMap_cons] at hperm
    have hsplit := h.perm (hperm.append_right rest)
    rw [List.append_assoc] at hsplit
    exact dropEntry_spec hsplit

variable {heap : Heap} {others : Finset BlockId} {raw : T.Table}
  {m : Bytes → Option (Content α)}

/-- A fresh table is empty. -/
theorem holds_new (h : Accounts heap others []) :
  Holds (T := T) heap others T.new fun _ => none
  := by
  constructor
  · rw [T.iter_new]
    exact h
  · rw [T.iter_new]
    exact List.nodup_nil
  · rw [T.iter_new]
    rfl

/-- The hash table may read the keys of a table whose blocks are accounted for. -/
theorem comparable_of_accounts {rest : List BlockId} {heap' : Heap}
    (haccounts : Accounts heap' others (rest ++ blocksOf (T.iter raw))) {key : Str}
    (hkey : Readable heap' key) :
  Comparable heap' raw key
  := by
  refine ⟨hkey, ?_⟩
  intro entry hentry b hb
  apply (haccounts.live_iff b).mpr
  right
  apply List.mem_append_right
  apply List.mem_flatMap.mpr
  exact ⟨entry, hentry, List.mem_append_left _ (Option.mem_toList.mpr hb)⟩

theorem setCopy_spec (h : Holds heap others raw m) {key : Str} {value : Value α}
    (hkey : Lent others key) (hvalue : value.Lent others) :
  ∃ raw' heap', setCopy raw key value heap = some (raw', heap') ∧
    Holds heap' others raw' (Function.update m key.text (some value.content))
  := by
  obtain ⟨key', heap₁, hstr, htext, haccounts₁⟩ := strCopy_spec h.accounts hkey
  obtain ⟨value', heap₂, hval, hcontent, haccounts₂⟩ := copyValue_spec haccounts₁ hvalue
  have hreadable : Readable heap₂ key' := by
    intro b hb
    apply (haccounts₂.live_iff b).mpr
    right
    apply List.mem_append_right
    exact List.mem_append_left _ (Option.mem_toList.mpr hb)
  have hcomparable : Comparable heap₂ raw key' := by
    rw [← List.append_assoc] at haccounts₂
    exact comparable_of_accounts haccounts₂ hreadable
  -- the table's own blocks first, then those of the new entry
  have hentry : Accounts heap₂ others
      (blocksOf (T.iter raw) ++ (Entry.blocks ⟨key', value'⟩)) := by
    apply haccounts₂.perm
    rw [← List.append_assoc]
    exact (List.perm_append_comm.append_right _).trans List.perm_append_comm
  obtain ⟨heap₃, hdrop, haccounts₃⟩ := dropReplaced_spec h.keys ⟨key', value'⟩ hentry
  have hiter := T.iter_set raw ⟨key', value'⟩
  refine ⟨(T.set raw ⟨key', value'⟩).1, heap₃, ?_, ?_⟩
  · rw [setCopy, hstr]
    simp only [Option.bind_eq_bind, Option.bind_some, hval, if_pos hcomparable, T.set_replaced, hdrop]
  · constructor
    · apply haccounts₃.perm
      have hblocks := hiter.symm.flatMap_right Entry.blocks
      rw [List.flatMap_cons] at hblocks
      exact List.perm_append_comm.trans hblocks
    · exact T.nodup_keys_set sameKey_iff h.keys _
    · rw [contentsOf_perm hiter (T.nodup_keys_set sameKey_iff h.keys _), contentsOf_cons,
        contentsOf_filter, h.contents_eq]
      simp only [keyOf, htext, hcontent, Function.update_idem]

/-- Keys with values are set one after the other. -/
def updateAll (contents : Bytes → Option (Content α)) (entries : List (Bytes × Content α)) :
    Bytes → Option (Content α) :=
  entries.foldl (fun contents entry => Function.update contents entry.1 (some entry.2)) contents

/-- The key and the value of an entry. -/
def Entry.content (entry : Entry α) : Bytes × Content α := (keyOf entry, entry.value.content)

/-- The strings of an entry are lent. -/
def Entry.Lent (others : Finset BlockId) (entry : Entry α) : Prop :=
  MapRuntime.Lent others entry.key ∧ entry.value.Lent others

theorem setCopies_spec (h : Holds heap others raw m) {entries : List (Entry α)}
    (hentries : ∀ entry ∈ entries, entry.Lent others) :
  ∃ raw' heap', setCopies raw entries heap = some (raw', heap') ∧
    Holds heap' others raw' (updateAll m (entries.map Entry.content))
  := by
  induction entries generalizing raw heap m with
  | nil => exact ⟨raw, heap, rfl, h⟩
  | cons entry entries ih =>
    rw [List.forall_mem_cons] at hentries
    obtain ⟨raw₁, heap₁, hset, hholds⟩ := setCopy_spec h hentries.1.1 hentries.1.2
    obtain ⟨raw₂, heap₂, hrest, hholds⟩ := ih hholds hentries.2
    refine ⟨raw₂, heap₂, ?_, hholds⟩
    simp only [setCopies, List.foldlM_cons, hset]
    exact hrest

/-- Setting the entries of a table gives each key the value the table has for it. -/
theorem updateAll_entries (m : Bytes → Option (Content α)) {entries : List (Entry α)}
    (hkeys : (entries.map keyOf).Nodup) :
  updateAll m (entries.map Entry.content) = fun key => (contentsOf entries key).or (m key)
  := by
  induction entries generalizing m with
  | nil => rfl
  | cons entry entries ih =>
    rw [List.map_cons, List.nodup_cons] at hkeys
    rw [List.map_cons, updateAll, List.foldl_cons]
    have hrest := ih (Function.update m (keyOf entry) (some entry.value.content)) hkeys.2
    rw [updateAll] at hrest
    rw [Entry.content, hrest, contentsOf_cons]
    funext key
    by_cases hkey : key = keyOf entry
    · subst hkey
      have hnone : contentsOf entries (keyOf entry) = none := by
        rw [contentsOf, Option.map_eq_none_iff, List.find?_eq_none]
        intro e he hsame
        rw [decide_eq_true_eq] at hsame
        apply hkeys.1
        rw [← hsame]
        exact List.mem_map_of_mem he
      simp [hnone]
    · simp [hkey]

/-! ### Maps -/

/-- The contents of a map. -/
def Handle.contents (map : Handle T) : Bytes → Option (Content α) := contentsOf map.entries

/-- The strings of a map are lent, and it has no key twice. -/
structure Handle.Source (others : Finset BlockId) (map : Handle T) : Prop where
  lent : ∀ entry ∈ map.entries, entry.Lent others
  keys : (map.entries.map keyOf).Nodup

theorem clone_spec {src : Handle T} (h : Accounts heap others []) (hsrc : src.Source others) :
  ∃ dst heap', clone src heap = some (dst, heap') ∧ Holds heap' others dst src.contents
  := by
  obtain ⟨dst, heap', hcopy, hholds⟩ := setCopies_spec (T := T) (holds_new h) hsrc.lent
  rw [updateAll_entries _ hsrc.keys] at hholds
  simp only [Option.or_none] at hholds
  exact ⟨dst, heap', hcopy, hholds⟩

theorem make_spec {entries : List (Entry α)} (h : Accounts heap others [])
    (hentries : ∀ entry ∈ entries, entry.Lent others) :
  ∃ dst heap', make T entries heap = some (dst, heap') ∧
    Holds heap' others dst (updateAll (fun _ => none) (entries.map Entry.content))
  := setCopies_spec (holds_new h) hentries

theorem add_spec {src : Handle T} (h : Accounts heap others []) (hsrc : src.Source others)
    {key : Str} {value : Value α} (hkey : Lent others key) (hvalue : value.Lent others) :
  ∃ dst heap', add src key value heap = some (dst, heap') ∧
    Holds heap' others dst (Function.update src.contents key.text (some value.content))
  := by
  obtain ⟨raw, heap₁, hclone, hholds⟩ := clone_spec h hsrc
  obtain ⟨dst, heap₂, hset, hholds⟩ := setCopy_spec hholds hkey hvalue
  refine ⟨dst, heap₂, ?_, hholds⟩
  rw [add, hclone]
  exact hset

theorem join_spec {left right : Handle T} (h : Accounts heap others []) (hleft : left.Source others)
    (hright : right.Source others) :
  ∃ dst heap', join left right heap = some (dst, heap') ∧
    Holds heap' others dst fun key => (right.contents key).or (left.contents key)
  := by
  obtain ⟨raw, heap₁, hclone, hholds⟩ := clone_spec h hleft
  obtain ⟨dst, heap₂, hcopies, hholds⟩ := setCopies_spec hholds hright.lent
  rw [updateAll_entries _ hright.keys] at hholds
  refine ⟨dst, heap₂, ?_, hholds⟩
  rw [join, hclone]
  exact hcopies

theorem sub_spec {src : Handle T} (h : Accounts heap others []) (hsrc : src.Source others)
    {key : Str} (probe : Value α) (hkey : Lent others key) :
  ∃ dst heap', sub src key probe heap = some (dst, heap') ∧
    Holds heap' others dst (Function.update src.contents key.text none)
  := by
  obtain ⟨raw, heap₁, hclone, hholds⟩ := clone_spec h hsrc
  have haccounts : Accounts heap₁ others (blocksOf (T.iter raw) ++ []) := by
    rw [List.append_nil]
    exact hholds.accounts
  have hblocks : Accounts heap₁ others ([] ++ blocksOf (T.iter raw)) := hholds.accounts
  have hcomparable : Comparable heap₁ raw key :=
    comparable_of_accounts hblocks (hkey.readable hholds.accounts)
  obtain ⟨heap₂, hdrop, haccounts₂⟩ := dropReplaced_spec hholds.keys ⟨key, probe⟩ haccounts
  have hiter := T.iter_delete raw ⟨key, probe⟩
  refine ⟨(T.delete raw ⟨key, probe⟩).1, heap₂, ?_, ?_⟩
  · rw [sub, hclone]
    simp only [Option.bind_eq_bind, Option.bind_some, if_pos hcomparable, T.delete_removed, hdrop]
  · constructor
    · rw [List.append_nil] at haccounts₂
      exact haccounts₂.perm (hiter.symm.flatMap_right Entry.blocks)
    · exact T.nodup_keys_delete hholds.keys _
    · rw [contentsOf_perm hiter (T.nodup_keys_delete hholds.keys _), contentsOf_filter,
        hholds.contents_eq]
      rfl

/-- A lookup reads the contents of the map. -/
theorem find_spec {src : Handle T} {rest : List BlockId} (h : Accounts heap others rest)
    (hsrc : src.Source others) {key : Str} (probe : Value α) (hkey : Readable heap key) :
  ∃ found, find src key probe heap = some found ∧
    found.map (fun entry => entry.value.content) = src.contents key.text ∧
    ∀ entry ∈ found, entry ∈ src.entries
  := by
  cases src with
  | none => exact ⟨none, rfl, rfl, fun _ hentry => nomatch hentry⟩
  | some raw =>
    have hcomparable : Comparable heap raw key := by
      refine ⟨hkey, ?_⟩
      intro entry hentry
      exact (hsrc.lent entry hentry).1.readable h
    refine ⟨T.get raw ⟨key, probe⟩, if_pos hcomparable, ?_⟩
    rw [T.get_eq]
    refine ⟨contentsOf_eq_find (T.iter raw) ⟨key, probe⟩, ?_⟩
    intro entry hentry
    exact List.mem_of_find?_eq_some hentry

/-- The length of a map is the number of its keys. -/
theorem count_spec {src : Handle T} (hsrc : src.Source others) :
  count src = Set.ncard {key | (src.contents key).isSome}
  := by
  have hmem : {key | (src.contents key).isSome} = ((src.entries.map keyOf).toFinset : Set Bytes) := by
    ext key
    simp only [Handle.contents, contentsOf, Option.isSome_map, List.find?_isSome, decide_eq_true_eq,
      Set.mem_ofPred_eq, List.coe_toFinset, List.mem_map]
  rw [hmem, Set.ncard_coe_finset, List.toFinset_card_of_nodup hsrc.keys, List.length_map]
  cases src with
  | none => rfl
  | some raw => exact T.count_eq raw

end Caster.MapRuntime
