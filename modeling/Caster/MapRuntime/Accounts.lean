import Caster.MapRuntime.Operations

/-!
# The blocks a table owns

While a table is filled, its blocks are different from each other and from those of everyone
else, and the heap has no others.  Each function of the runtime keeps this account and
changes the contents of its own table only.
-/

namespace Caster.MapRuntime

/-- The heap holds the blocks of others and the listed ones, each of which has one owner. -/
structure Accounts (heap : Heap) (others : Finset BlockId) (blocks : List BlockId) : Prop where
  nodup : blocks.Nodup
  apart : ∀ b ∈ blocks, b ∉ others
  live_iff : ∀ b, b ∈ heap.live ↔ b ∈ others ∨ b ∈ blocks
  fresh : ∀ b ∈ heap.live, b < heap.next

namespace Accounts

variable {heap : Heap} {others : Finset BlockId} {blocks : List BlockId}

theorem perm {blocks' : List BlockId} (h : Accounts heap others blocks) (hperm : blocks.Perm blocks') :
  Accounts heap others blocks'
  := by
  constructor
  · exact hperm.nodup_iff.mp h.nodup
  · intro b hb
    exact h.apart b (hperm.mem_iff.mpr hb)
  · intro b
    rw [h.live_iff b, hperm.mem_iff]
  · exact h.fresh

/-- A fresh block is put on the account. -/
theorem alloc (h : Accounts heap others blocks) :
  Accounts ⟨insert heap.next heap.live, heap.next + 1⟩ others (heap.next :: blocks)
  := by
  have hnew : heap.next ∉ heap.live := fun hmem => lt_irrefl _ (h.fresh _ hmem)
  rw [h.live_iff, not_or] at hnew
  constructor
  · exact List.nodup_cons.mpr ⟨hnew.2, h.nodup⟩
  · rw [List.forall_mem_cons]
    exact ⟨hnew.1, h.apart⟩
  · intro b
    rw [Finset.mem_insert, h.live_iff, List.mem_cons]
    tauto
  · intro b hb
    rw [Finset.mem_insert] at hb
    obtain rfl | hb := hb
    · exact Nat.lt_succ_self _
    · exact Nat.lt_succ_of_lt (h.fresh b hb)

/-- A block is taken off the account. -/
theorem free {b : BlockId} (h : Accounts heap others (b :: blocks)) :
  b ∈ heap.live ∧ Accounts ⟨heap.live.erase b, heap.next⟩ others blocks
  := by
  have hnodup := List.nodup_cons.mp h.nodup
  constructor
  · exact (h.live_iff b).mpr (Or.inr List.mem_cons_self)
  · constructor
    · exact hnodup.2
    · intro c hc
      exact h.apart c (List.mem_cons_of_mem b hc)
    · intro c
      have hothers : c ∈ others → c ≠ b := by
        rintro hc rfl
        exact h.apart c List.mem_cons_self hc
      have hblocks : c ∈ blocks → c ≠ b := by
        rintro hc rfl
        exact hnodup.1 hc
      rw [Finset.mem_erase, h.live_iff, List.mem_cons]
      tauto
    · intro c hc
      exact h.fresh c (Finset.mem_of_mem_erase hc)

/-- The blocks of one owner are counted among those of the others. -/
theorem lend {lent : List BlockId} (h : Accounts heap others (lent ++ blocks)) :
  Accounts heap (others ∪ lent.toFinset) blocks
  := by
  obtain ⟨_, hnodup, hdisjoint⟩ := List.nodup_append.mp h.nodup
  constructor
  · exact hnodup
  · intro b hb
    rw [Finset.mem_union, List.mem_toFinset, not_or]
    exact ⟨h.apart b (List.mem_append_right lent hb), fun hlent => hdisjoint b hlent b hb rfl⟩
  · intro b
    rw [h.live_iff, Finset.mem_union, List.mem_toFinset, List.mem_append, or_assoc]
  · exact h.fresh

/-- The blocks lent to the others are taken back. -/
theorem takeBack {lent : List BlockId} (h : Accounts heap (others ∪ lent.toFinset) blocks)
    (hnodup : lent.Nodup) (hapart : ∀ b ∈ lent, b ∉ others) :
  Accounts heap others (lent ++ blocks)
  := by
  have hblocks : ∀ b ∈ blocks, b ∉ others ∧ b ∉ lent := by
    intro b hb
    have := h.apart b hb
    rwa [Finset.mem_union, List.mem_toFinset, not_or] at this
  constructor
  · apply List.nodup_append.mpr
    refine ⟨hnodup, h.nodup, ?_⟩
    rintro b hlent _ hb rfl
    exact (hblocks b hb).2 hlent
  · intro b hb
    rcases List.mem_append.mp hb with hb | hb
    · exact hapart b hb
    · exact (hblocks b hb).1
  · intro b
    rw [h.live_iff, Finset.mem_union, List.mem_toFinset, List.mem_append, or_assoc]
  · exact h.fresh

end Accounts

/-! ### Strings, values and entries -/

variable {heap : Heap} {others : Finset BlockId} {rest : List BlockId}

/-- The string has no block or one that others own. -/
def Lent (others : Finset BlockId) (text : Str) : Prop := ∀ b ∈ text.block, b ∈ others

theorem Lent.readable {text : Str} (h : Lent others text) (haccounts : Accounts heap others rest) :
  Readable heap text
  := fun b hb => (haccounts.live_iff b).mpr (Or.inl (h b hb))

theorem strCopy_spec {text : Str} (h : Accounts heap others rest) (htext : Lent others text) :
  ∃ text' heap', strCopy text heap = some (text', heap') ∧ text'.text = text.text ∧
    Accounts heap' others (text'.block.toList ++ rest)
  := by
  unfold strCopy
  rw [if_pos (htext.readable h)]
  exact ⟨_, _, rfl, rfl, h.alloc⟩

theorem dropStr_spec {text : Str} (h : Accounts heap others (text.block.toList ++ rest)) :
  ∃ heap', dropStr text heap = some heap' ∧ Accounts heap' others rest
  := by
  unfold dropStr
  cases hblock : text.block with
  | none =>
    rw [hblock] at h
    exact ⟨heap, rfl, h⟩
  | some b =>
    rw [hblock] at h
    obtain ⟨hlive, hfree⟩ := h.free
    exact ⟨_, if_pos hlive, hfree⟩

variable {α : Type}

/-- What a program sees of a value. -/
inductive Content (α : Type) where
  | scalar (value : α)
  | str (text : Bytes)
deriving DecidableEq

/-- What a program sees of a value of a map. -/
def Value.content : Value α → Content α
  | .scalar a => .scalar a
  | .str text => .str text.text

/-- The block of a value. -/
def Value.blocks : Value α → List BlockId
  | .scalar _ => []
  | .str text => text.block.toList

/-- The blocks of an entry. -/
def Entry.blocks (entry : Entry α) : List BlockId := entry.key.block.toList ++ entry.value.blocks

/-- A string among the parts of a value is lent. -/
def Value.Lent (others : Finset BlockId) : Value α → Prop
  | .scalar _ => True
  | .str text => MapRuntime.Lent others text

theorem copyValue_spec {value : Value α} (h : Accounts heap others rest) (hvalue : value.Lent others) :
  ∃ value' heap', copyValue value heap = some (value', heap') ∧ value'.content = value.content ∧
    Accounts heap' others (value'.blocks ++ rest)
  := by
  cases value with
  | scalar a => exact ⟨_, _, rfl, rfl, h⟩
  | str text =>
    obtain ⟨text', heap', hcopy, htext, haccounts⟩ := strCopy_spec h hvalue
    refine ⟨.str text', heap', ?_, congrArg Content.str htext, haccounts⟩
    rw [copyValue, hcopy]
    rfl

theorem dropValue_spec {value : Value α} (h : Accounts heap others (value.blocks ++ rest)) :
  ∃ heap', dropValue value heap = some heap' ∧ Accounts heap' others rest
  := by
  cases value with
  | scalar a => exact ⟨heap, rfl, h⟩
  | str text => exact dropStr_spec h

theorem dropEntry_spec {entry : Entry α} (h : Accounts heap others (entry.blocks ++ rest)) :
  ∃ heap', dropEntry entry heap = some heap' ∧ Accounts heap' others rest
  := by
  unfold Entry.blocks at h
  rw [List.append_assoc] at h
  obtain ⟨heap₁, hkey, haccounts⟩ := dropStr_spec h
  obtain ⟨heap₂, hvalue, haccounts⟩ := dropValue_spec haccounts
  refine ⟨heap₂, ?_, haccounts⟩
  rw [dropEntry, hkey]
  exact hvalue

/-- The blocks of entries. -/
def blocksOf (entries : List (Entry α)) : List BlockId := entries.flatMap Entry.blocks

theorem dropEntries_spec (entries : List (Entry α)) {heap : Heap}
    (h : Accounts heap others (blocksOf entries ++ rest)) :
  ∃ heap', dropEntries entries heap = some heap' ∧ Accounts heap' others rest
  := by
  induction entries generalizing heap with
  | nil => exact ⟨heap, rfl, h⟩
  | cons entry entries ih =>
    rw [blocksOf, List.flatMap_cons, List.append_assoc] at h
    obtain ⟨heap₁, hentry, haccounts⟩ := dropEntry_spec h
    obtain ⟨heap₂, hentries, haccounts⟩ := ih haccounts
    refine ⟨heap₂, ?_, haccounts⟩
    rw [dropEntries, List.foldlM_cons, hentry]
    exact hentries

/-! ### Contents of tables -/

/-- The key of an entry. -/
def keyOf (entry : Entry α) : Bytes := entry.key.text

theorem sameKey_iff (left right : Entry α) :
  SameKey left right ↔ keyOf left = keyOf right
  := objmapCompare_eq_zero_iff left.key.text right.key.text

/-- The contents of entries: the value of each key. -/
def contentsOf (entries : List (Entry α)) (key : Bytes) : Option (Content α) :=
  (entries.find? fun entry => keyOf entry = key).map fun entry => entry.value.content

theorem contentsOf_cons (entry : Entry α) (entries : List (Entry α)) :
  contentsOf (entry :: entries)
    = Function.update (contentsOf entries) (keyOf entry) (some entry.value.content)
  := by
  funext key
  unfold contentsOf
  by_cases h : keyOf entry = key
  · subst h
    simp
  · rw [Function.update_of_ne (Ne.symm h), List.find?_cons_of_neg (by simpa using h)]

/-- Contents are independent of the order of entries with different keys. -/
theorem contentsOf_perm {entries entries' : List (Entry α)} (hperm : entries.Perm entries')
    (hkeys : (entries.map keyOf).Nodup) :
  contentsOf entries = contentsOf entries'
  := by
  induction hperm with
  | nil => rfl
  | cons entry hperm ih =>
    rw [contentsOf_cons, contentsOf_cons, ih (List.nodup_cons.mp hkeys).2]
  | swap a b entries =>
    have hne : keyOf a ≠ keyOf b := by
      have hmem := (List.nodup_cons.mp hkeys).1
      simp only [List.map_cons, List.mem_cons, not_or] at hmem
      exact Ne.symm hmem.1
    rw [contentsOf_cons, contentsOf_cons, contentsOf_cons, contentsOf_cons, Function.update_comm hne]
  | trans hperm _ ih ih' =>
    rw [ih hkeys, ih' ((hperm.map keyOf).nodup_iff.mp hkeys)]

/-- The contents without one key. -/
theorem contentsOf_filter (entries : List (Entry α)) (probe : Entry α) :
  contentsOf (entries.filter fun entry => ¬ SameKey probe entry)
    = Function.update (contentsOf entries) (keyOf probe) none
  := by
  induction entries with
  | nil =>
    funext key
    simp [contentsOf, Function.update]
  | cons entry entries ih =>
    by_cases h : keyOf probe = keyOf entry
    · have hsame : SameKey probe entry := (sameKey_iff probe entry).mpr h
      rw [List.filter_cons_of_neg (by simpa using hsame), ih, contentsOf_cons, h, Function.update_idem]
    · have hsame : ¬ SameKey probe entry := fun hsame => h ((sameKey_iff probe entry).mp hsame)
      rw [List.filter_cons_of_pos (by simpa using hsame), contentsOf_cons, ih, contentsOf_cons,
        Function.update_comm h]

/-- A stored entry is found by its key. -/
theorem contentsOf_eq_find (entries : List (Entry α)) (probe : Entry α) :
  (entries.find? fun entry => SameKey probe entry).map (fun entry => entry.value.content)
    = contentsOf entries (keyOf probe)
  := by
  unfold contentsOf
  congr 2
  funext entry
  rw [decide_eq_decide, sameKey_iff]
  exact eq_comm

end Caster.MapRuntime
