import Caster.MapRuntime.Refinement

/-!
# Runs of map operations

A program runs map operations on any number of live maps, drops maps it no longer needs, and
allocates and frees strings of its own in between.  The strings it passes may be its own or
borrowed from a map.  A run of the reference is one on finite maps that share nothing.
-/

namespace Caster.MapRuntime

variable {α : Type}

/-- A step of a program.  Maps are numbered in the order they are made.  The value of a probe
is what the stack holds. -/
inductive Op (α : Type) where
  | newStr
  | freeStr (block : BlockId)
  /-- A map whose table is null. -/
  | null
  | make (entries : List (Entry α))
  | clone (src : ℕ)
  | add (src : ℕ) (key : Str) (value : Value α)
  | join (left right : ℕ)
  | sub (src : ℕ) (key : Str) (probe : Value α)
  | get (src : ℕ) (key : Str) (probe : Value α)
  | has (src : ℕ) (key : Str) (probe : Value α)
  | count (src : ℕ)
  | drop (src : ℕ)

/-- What a program sees of a step. -/
inductive Observed (α : Type) where
  | done
  | value (content : Content α)
  | has (found : Bool)
  | count (length : ℕ)
  /-- The program reports a missing key and exits. -/
  | exited

/-! ### The program -/

section

variable (T : KeyedTable (Entry α) SameKey)

/-- The heap, the blocks of the program's own strings and its maps, `none` once dropped. -/
structure State where
  heap : Heap
  owned : Finset BlockId
  maps : List (Option (Handle T))

/-- The state a program starts in. -/
def State.init : State T := ⟨⟨∅, 0⟩, ∅, []⟩

end

variable {T : KeyedTable (Entry α) SameKey}

/-- A live map. -/
def State.map (s : State T) (i : ℕ) : Option (Handle T) := s.maps[i]?.join

/-- The state with one more map. -/
def State.push (s : State T) (made : T.Table × Heap) : State T :=
  { s with heap := made.2, maps := s.maps ++ [some (some made.1)] }

/-- The strings of a value may be read. -/
def Value.Readable (heap : Heap) : Value α → Prop
  | .scalar _ => True
  | .str text => MapRuntime.Readable heap text

instance (heap : Heap) (value : Value α) : Decidable (value.Readable heap) :=
  match value with
  | .scalar _ => isTrue trivial
  | .str text => inferInstanceAs (Decidable (MapRuntime.Readable heap text))

/-- The value `get` returns, as the program reads it. -/
def getFound (s : State T) (found : Option (Entry α)) : Option (State T × Observed α) :=
  match found with
  | none => some (s, .exited)
  | some entry => if entry.value.Readable s.heap then some (s, .value entry.value.content) else none

/-- One step.  It fails where a function of the runtime does and where it names no live
map. -/
def step (s : State T) (op : Op α) : Option (State T × Observed α) :=
  match op with
  | .newStr =>
    some ({ s with
      heap := ⟨insert s.heap.next s.heap.live, s.heap.next + 1⟩
      owned := insert s.heap.next s.owned }, .done)
  | .freeStr b =>
    (dropStr ⟨some b, []⟩ s.heap).map fun heap => ({ s with heap, owned := s.owned.erase b }, .done)
  | .null => some ({ s with maps := s.maps ++ [some none] }, .done)
  | .make entries => (make T entries s.heap).map fun made => (s.push made, .done)
  | .clone src => do
    let src ← s.map src
    (clone src s.heap).map fun made => (s.push made, .done)
  | .add src key value => do
    let src ← s.map src
    (add src key value s.heap).map fun made => (s.push made, .done)
  | .join left right => do
    let left ← s.map left
    let right ← s.map right
    (join left right s.heap).map fun made => (s.push made, .done)
  | .sub src key probe => do
    let src ← s.map src
    (sub src key probe s.heap).map fun made => (s.push made, .done)
  | .get src key probe => do
    let src ← s.map src
    let found ← find src key probe s.heap
    getFound s found
  | .has src key probe => do
    let src ← s.map src
    (find src key probe s.heap).map fun found => (s, .has found.isSome)
  | .count src => (s.map src).map fun src => (s, .count (count src))
  | .drop i => do
    let src ← s.map i
    (drop src s.heap).map fun heap => ({ s with heap, maps := s.maps.set i none }, .done)

/-- What a program may do: it frees its own strings only, names live maps only and passes
strings it may read. -/
def Allowed (s : State T) : Op α → Prop
  | .newStr => True
  | .freeStr b => b ∈ s.owned
  | .null => True
  | .make entries => ∀ e ∈ entries, Readable s.heap e.key ∧ e.value.Readable s.heap
  | .clone src => (s.map src).isSome
  | .add src key value => (s.map src).isSome ∧ Readable s.heap key ∧ value.Readable s.heap
  | .join left right => (s.map left).isSome ∧ (s.map right).isSome
  | .sub src key _ => (s.map src).isSome ∧ Readable s.heap key
  | .get src key _ => (s.map src).isSome ∧ Readable s.heap key
  | .has src key _ => (s.map src).isSome ∧ Readable s.heap key
  | .count src => (s.map src).isSome
  | .drop src => (s.map src).isSome

instance (s : State T) (op : Op α) : Decidable (Allowed s op) :=
  match op with
  | .newStr => isTrue trivial
  | .freeStr b => inferInstanceAs (Decidable (b ∈ s.owned))
  | .null => isTrue trivial
  | .make entries => inferInstanceAs
      (Decidable (∀ e ∈ entries, MapRuntime.Readable s.heap e.key ∧ Value.Readable s.heap e.value))
  | .clone src => inferInstanceAs (Decidable ((s.map src).isSome = true))
  | .add _ _ _ => inferInstanceAs (Decidable (_ ∧ _ ∧ _))
  | .join _ _ => inferInstanceAs (Decidable (_ ∧ _))
  | .sub _ _ _ => inferInstanceAs (Decidable (_ ∧ _))
  | .get _ _ _ => inferInstanceAs (Decidable (_ ∧ _))
  | .has _ _ _ => inferInstanceAs (Decidable (_ ∧ _))
  | .count src => inferInstanceAs (Decidable ((s.map src).isSome = true))
  | .drop src => inferInstanceAs (Decidable ((s.map src).isSome = true))

/-- A run to the end of the operations or to the exit of the program. -/
def run (s : State T) : List (Op α) → Option (State T × List (Observed α))
  | [] => some (s, [])
  | op :: ops => do
    let (s, seen) ← step s op
    match seen with
    | .exited => some (s, [.exited])
    | seen => (run s ops).map fun (s, rest) => (s, seen :: rest)

/-- Every operation of a run is allowed when it is reached. -/
def AllowedRun (s : State T) : List (Op α) → Prop
  | [] => True
  | op :: ops => Allowed s op ∧ ∀ s' seen, step s op = some (s', seen) → AllowedRun s' ops

/-! ### The reference -/

/-- A finite map: the values of its keys. -/
abbrev Contents (α : Type) := Bytes → Option (Content α)

/-- The finite map without keys. -/
def empty : Contents α := fun _ => none

/-- The contents of a live map of the reference. -/
def refMap (maps : List (Option (Contents α))) (i : ℕ) : Contents α :=
  match maps[i]? with
  | some (some m) => m
  | _ => empty

/-- One step of the reference. -/
noncomputable def refStep (maps : List (Option (Contents α))) (op : Op α) :
    List (Option (Contents α)) × Observed α :=
  match op with
  | .newStr => (maps, .done)
  | .freeStr _ => (maps, .done)
  | .null => (maps ++ [some empty], .done)
  -- a later entry of a key wins over an earlier one
  | .make entries => (maps ++ [some (updateAll empty (entries.map Entry.content))], .done)
  | .clone src => (maps ++ [some (refMap maps src)], .done)
  | .add src key value =>
    (maps ++ [some (Function.update (refMap maps src) key.text (some value.content))], .done)
  -- the right map wins over the left one
  | .join left right =>
    (maps ++ [some fun key => (refMap maps right key).or (refMap maps left key)], .done)
  | .sub src key _ => (maps ++ [some (Function.update (refMap maps src) key.text none)], .done)
  | .get src key _ => (maps, (refMap maps src key.text).elim .exited .value)
  | .has src key _ => (maps, .has (refMap maps src key.text).isSome)
  | .count src => (maps, .count (Set.ncard {key | (refMap maps src key).isSome}))
  | .drop src => (maps.set src none, .done)

/-- A run of the reference. -/
noncomputable def refRun (maps : List (Option (Contents α))) :
    List (Op α) → List (Option (Contents α)) × List (Observed α)
  | [] => (maps, [])
  | op :: ops =>
    match refStep maps op with
    | (maps, .exited) => (maps, [.exited])
    | (maps, seen) => ((refRun maps ops).1, seen :: (refRun maps ops).2)

/-! ### The invariant -/

/-- The blocks of a map. -/
def mapBlocks : Option (Handle T) → List BlockId
  | none => []
  | some map => blocksOf map.entries

/-- The contents of the maps of a state. -/
def State.contents (s : State T) : List (Option (Contents α)) := s.maps.map (Option.map Handle.contents)

/-- Every block has one owner, a live map or the program, and no map has a key twice. -/
structure Inv (s : State T) : Prop where
  accounts : Accounts s.heap s.owned (s.maps.flatMap mapBlocks)
  keys : ∀ map, some map ∈ s.maps → (map.entries.map keyOf).Nodup

/-- The blocks of everyone. -/
def State.all (s : State T) : Finset BlockId := s.owned ∪ (s.maps.flatMap mapBlocks).toFinset

theorem Inv.lend {s : State T} (h : Inv s) :
  Accounts s.heap s.all []
  := by
  have haccounts := h.accounts
  rw [← List.append_nil (s.maps.flatMap mapBlocks)] at haccounts
  exact haccounts.lend

theorem Inv.lent {s : State T} (h : Inv s) {text : Str} (htext : Readable s.heap text) :
  Lent s.all text
  := by
  intro b hb
  have hlive := (h.lend.live_iff b).mp (htext b hb)
  exact hlive.resolve_right List.not_mem_nil

theorem Inv.lentValue {s : State T} (h : Inv s) {value : Value α} (hvalue : value.Readable s.heap) :
  value.Lent s.all
  := by
  cases value with
  | scalar a => trivial
  | str text => exact h.lent hvalue

theorem Inv.readable {s : State T} (h : Inv s) {value : Value α} (hvalue : value.Lent s.all) :
  value.Readable s.heap
  := by
  cases value with
  | scalar a => trivial
  | str text => exact Lent.readable hvalue h.lend

theorem mem_maps_of_map {s : State T} {i : ℕ} {map : Handle T} (h : s.map i = some map) :
  s.maps[i]? = some (some map)
  := by
  unfold State.map at h
  exact Option.join_eq_some_iff.mp h

theorem Inv.source {s : State T} (h : Inv s) {i : ℕ} {map : Handle T} (hmap : s.map i = some map) :
  map.Source s.all
  := by
  have hmem : some map ∈ s.maps := List.mem_of_getElem? (mem_maps_of_map hmap)
  have hblocks : ∀ entry ∈ map.entries, ∀ b ∈ entry.blocks, b ∈ s.all := by
    intro entry hentry b hb
    apply Finset.mem_union_right
    rw [List.mem_toFinset]
    apply List.mem_flatMap.mpr
    exact ⟨some map, hmem, List.mem_flatMap.mpr ⟨entry, hentry, hb⟩⟩
  constructor
  · intro entry hentry
    constructor
    · intro b hb
      exact hblocks entry hentry b (List.mem_append_left _ (Option.mem_toList.mpr hb))
    · have hvalue : ∀ b ∈ entry.value.blocks, b ∈ s.all := fun b hb =>
        hblocks entry hentry b (List.mem_append_right _ hb)
      cases hval : entry.value with
      | scalar a => trivial
      | str text =>
        rw [hval] at hvalue
        intro b hb
        exact hvalue b (Option.mem_toList.mpr hb)
  · exact h.keys map hmem

/-- The contents the reference has for a live map. -/
theorem refMap_contents {s : State T} {i : ℕ} {map : Handle T} (h : s.map i = some map) :
  refMap s.contents i = map.contents
  := by
  have hmap := mem_maps_of_map h
  unfold refMap State.contents
  rw [List.getElem?_map, hmap]
  rfl

/-- A new map joins the live ones. -/
theorem Inv.push {s : State T} (h : Inv s) {dst : T.Table} {heap : Heap} {m : Contents α}
    (hholds : Holds heap s.all dst m) :
  Inv (s.push (dst, heap)) ∧ (s.push (dst, heap)).contents = s.contents ++ [some m]
  := by
  constructor
  · constructor
    · have hback := hholds.accounts.takeBack h.accounts.nodup h.accounts.apart
      have hblocks : (s.push (dst, heap)).maps.flatMap mapBlocks
          = s.maps.flatMap mapBlocks ++ blocksOf (T.iter dst) := by
        simp [State.push, mapBlocks, Handle.entries]
      rw [hblocks]
      exact hback
    · intro map hmap
      rcases List.mem_append.mp hmap with hmap | hmap
      · exact h.keys map hmap
      · obtain rfl : map = some dst := by simpa using hmap
        exact hholds.keys
  · have hnew : Handle.contents (some dst) = m := hholds.contents_eq
    simp [State.push, State.contents, hnew]

/-! ### One step -/

/-- A string of the program or of a map stays with its owner. -/
theorem step_newStr {s : State T} (h : Inv s) :
  ∃ s', step s .newStr = some (s', .done) ∧ Inv s' ∧ s'.contents = s.contents
  := by
  have hnew : s.heap.next ∉ s.maps.flatMap mapBlocks := by
    intro hmem
    exact lt_irrefl _ (h.accounts.fresh _ ((h.accounts.live_iff _).mpr (Or.inr hmem)))
  refine ⟨_, rfl, ⟨⟨h.accounts.nodup, ?_, ?_, ?_⟩, h.keys⟩, rfl⟩
  · intro b hb hmem
    rw [Finset.mem_insert] at hmem
    obtain rfl | hmem := hmem
    · exact hnew hb
    · exact h.accounts.apart b hb hmem
  · intro b
    rw [Finset.mem_insert, Finset.mem_insert, h.accounts.live_iff, or_assoc]
  · exact h.accounts.alloc.fresh

theorem step_freeStr {s : State T} (h : Inv s) {b : BlockId} (hb : b ∈ s.owned) :
  ∃ s', step s (.freeStr b) = some (s', .done) ∧ Inv s' ∧ s'.contents = s.contents
  := by
  have hlive : b ∈ s.heap.live := (h.accounts.live_iff b).mpr (Or.inl hb)
  refine ⟨⟨⟨s.heap.live.erase b, s.heap.next⟩, s.owned.erase b, s.maps⟩, ?_,
    ⟨⟨h.accounts.nodup, ?_, ?_, ?_⟩, h.keys⟩, rfl⟩
  · simp only [step, dropStr, if_pos hlive, Option.map_some]
  · intro c hc hmem
    exact h.accounts.apart c hc (Finset.mem_of_mem_erase hmem)
  · intro c
    have hother : c ∈ s.maps.flatMap mapBlocks → c ≠ b := by
      rintro hc rfl
      exact h.accounts.apart c hc hb
    rw [Finset.mem_erase, Finset.mem_erase, h.accounts.live_iff]
    tauto
  · intro c hc
    exact h.accounts.fresh c (Finset.mem_of_mem_erase hc)

/-- The blocks of one of some maps, and those of the others. -/
theorem perm_set_none {maps : List (Option (Handle T))} {i : ℕ} {map : Handle T}
    (h : maps[i]? = some (some map)) :
  (maps.flatMap mapBlocks).Perm (blocksOf map.entries ++ (maps.set i none).flatMap mapBlocks)
  := by
  induction maps generalizing i with
  | nil => cases h
  | cons first maps ih =>
    cases i with
    | zero =>
      obtain rfl : first = some map := Option.some.inj h
      exact List.Perm.refl _
    | succ i =>
      rw [List.set_cons_succ, List.flatMap_cons, List.flatMap_cons]
      exact ((ih h).append_left _).trans (List.perm_append_comm_assoc _ _ _)

theorem step_drop {s : State T} (h : Inv s) {i : ℕ} (hallowed : (s.map i).isSome) :
  ∃ s', step s (.drop i : Op α) = some (s', .done) ∧ Inv s' ∧ s'.contents = s.contents.set i none
  := by
  obtain ⟨map, hmap⟩ := Option.isSome_iff_exists.mp hallowed
  -- the blocks of the map are set apart from those of the other maps
  have haccounts := h.accounts.perm (perm_set_none (mem_maps_of_map hmap))
  obtain ⟨heap, hdrop, haccounts⟩ := dropEntries_spec map.entries haccounts
  refine ⟨{ s with heap, maps := s.maps.set i none }, ?_, ⟨haccounts, ?_⟩, ?_⟩
  · simp only [step, hmap, Option.bind_eq_bind, Option.bind_some, drop, hdrop, Option.map_some]
  · intro other hother
    exact h.keys other ((List.mem_or_eq_of_mem_set hother).resolve_right (by simp))
  · simp [State.contents, List.map_set]

/-- An operation that makes a map adds it to the live ones. -/
theorem step_push {s : State T} (h : Inv s) {op : Op α} {m : Contents α}
    {made : Option (T.Table × Heap)} (hmade : ∃ dst heap, made = some (dst, heap) ∧ Holds heap s.all dst m)
    (hstep : step s op = made.map fun made => (s.push made, .done)) :
  ∃ s', step s op = some (s', .done) ∧ Inv s' ∧ s'.contents = s.contents ++ [some m]
  := by
  obtain ⟨dst, heap, rfl, hholds⟩ := hmade
  exact ⟨s.push (dst, heap), hstep, h.push hholds⟩

/-- Every allowed step succeeds, does what the reference does and keeps the invariant. -/
theorem step_spec {s : State T} (h : Inv s) {op : Op α} (hallowed : Allowed s op) :
  ∃ s', step s op = some (s', (refStep s.contents op).2) ∧ Inv s' ∧
    s'.contents = (refStep s.contents op).1
  := by
  cases op with
  | newStr => exact step_newStr h
  | freeStr b => exact step_freeStr h hallowed
  | null =>
    refine ⟨_, rfl, ⟨?_, ?_⟩, ?_⟩
    · have haccounts := h.accounts
      simpa [mapBlocks, blocksOf, Handle.entries] using haccounts
    · intro map hmap
      rcases List.mem_append.mp hmap with hmap | hmap
      · exact h.keys map hmap
      · obtain rfl : map = none := by simpa using hmap
        exact List.nodup_nil
    · have hnull : Handle.contents (none : Handle T) = empty := rfl
      simp [State.contents, refStep, hnull]
  | make entries =>
    have hentries : ∀ e ∈ entries, e.Lent s.all := by
      intro e he
      exact ⟨h.lent (hallowed e he).1, h.lentValue (hallowed e he).2⟩
    exact step_push h (make_spec h.lend hentries) rfl
  | clone src =>
    obtain ⟨map, hmap⟩ := Option.isSome_iff_exists.mp hallowed
    rw [refStep, refMap_contents hmap]
    apply step_push h (clone_spec h.lend (h.source hmap))
    simp only [step, hmap, Option.bind_eq_bind, Option.bind_some]
  | add src key value =>
    obtain ⟨hsrc, hkey, hvalue⟩ := hallowed
    obtain ⟨map, hmap⟩ := Option.isSome_iff_exists.mp hsrc
    rw [refStep, refMap_contents hmap]
    apply step_push h (add_spec h.lend (h.source hmap) (h.lent hkey) (h.lentValue hvalue))
    simp only [step, hmap, Option.bind_eq_bind, Option.bind_some]
  | join left right =>
    obtain ⟨l, hl⟩ := Option.isSome_iff_exists.mp hallowed.1
    obtain ⟨r, hr⟩ := Option.isSome_iff_exists.mp hallowed.2
    rw [refStep, refMap_contents hl, refMap_contents hr]
    apply step_push h (join_spec h.lend (h.source hl) (h.source hr))
    simp only [step, hl, hr, Option.bind_eq_bind, Option.bind_some]
  | sub src key probe =>
    obtain ⟨map, hmap⟩ := Option.isSome_iff_exists.mp hallowed.1
    rw [refStep, refMap_contents hmap]
    apply step_push h (sub_spec h.lend (h.source hmap) probe (h.lent hallowed.2))
    simp only [step, hmap, Option.bind_eq_bind, Option.bind_some]
  | get src key probe =>
    obtain ⟨map, hmap⟩ := Option.isSome_iff_exists.mp hallowed.1
    obtain ⟨found, hfind, hcontent, hmem⟩ := find_spec h.lend (h.source hmap) probe hallowed.2
    refine ⟨s, ?_, h, rfl⟩
    rw [refStep, refMap_contents hmap, ← hcontent]
    simp only [step, hmap, Option.bind_eq_bind, Option.bind_some, hfind]
    cases found with
    | none => rfl
    | some entry =>
      -- the value is read while the map still owns it
      have hlent := ((h.source hmap).lent entry (hmem entry rfl)).2
      exact if_pos (h.readable hlent)
  | has src key probe =>
    obtain ⟨map, hmap⟩ := Option.isSome_iff_exists.mp hallowed.1
    obtain ⟨found, hfind, hcontent, _⟩ := find_spec h.lend (h.source hmap) probe hallowed.2
    refine ⟨s, ?_, h, rfl⟩
    rw [refStep, refMap_contents hmap, ← hcontent]
    simp only [step, hmap, Option.bind_eq_bind, Option.bind_some, hfind, Option.map_some, Option.isSome_map]
  | count src =>
    obtain ⟨map, hmap⟩ := Option.isSome_iff_exists.mp hallowed
    refine ⟨s, ?_, h, rfl⟩
    rw [refStep, refMap_contents hmap, ← count_spec (h.source hmap)]
    simp only [step, hmap, Option.map_some]
  | drop src => exact step_drop h hallowed

/-! ### Runs -/

theorem inv_init : Inv (State.init T) := by
  refine ⟨⟨List.nodup_nil, ?_, ?_, ?_⟩, ?_⟩
  · exact fun b hb => nomatch hb
  · simp [State.init]
  · simp [State.init]
  · exact fun map hmap => nomatch hmap

/-- A run from a state with the invariant does what the reference does. -/
theorem run_spec {s : State T} (h : Inv s) {ops : List (Op α)} (hallowed : AllowedRun s ops) :
  ∃ s', run s ops = some (s', (refRun s.contents ops).2) ∧ Inv s' ∧
    s'.contents = (refRun s.contents ops).1
  := by
  induction ops generalizing s with
  | nil => exact ⟨s, rfl, h, rfl⟩
  | cons op ops ih =>
    obtain ⟨s₁, hstep, hinv, hcontents⟩ := step_spec h hallowed.1
    obtain ⟨s₂, hrun, hinv₂, hcontents₂⟩ := ih hinv (hallowed.2 s₁ _ hstep)
    rw [hcontents] at hrun hcontents₂
    unfold run refRun
    rw [hstep]
    generalize refStep s.contents op = seen at hstep hcontents hrun hcontents₂
    obtain ⟨maps, seen⟩ := seen
    cases seen with
    | exited => exact ⟨s₁, rfl, hinv, hcontents⟩
    | _ =>
      refine ⟨s₂, ?_, hinv₂, hcontents₂⟩
      simp [hrun]

/-- Only a drop changes a map of the reference. -/
theorem refStep_getElem? (maps : List (Option (Contents α))) (op : Op α) {i : ℕ}
    (hi : i < maps.length) (hop : op ≠ .drop i) :
  (refStep maps op).1[i]? = maps[i]?
  := by
  cases op with
  | newStr => rfl
  | freeStr b => rfl
  | get src key probe => rfl
  | has src key probe => rfl
  | count src => rfl
  | drop src =>
    apply List.getElem?_set_ne
    rintro rfl
    exact hop rfl
  | _ => exact List.getElem?_append_left hi

/-- Whatever a program does with maps, it sees what it would see of finite maps, and its live
maps have their contents.  Each block that is left belongs to one map or to the program, and
a next step changes no map but the one it drops. -/
theorem run_refines {ops : List (Op α)} (hallowed : AllowedRun (State.init T) ops) :
  ∃ s, run (State.init T) ops = some (s, (refRun [] ops).2) ∧
    s.contents = (refRun [] ops).1 ∧ Inv s ∧
    ∀ op s' seen i, Allowed s op → step s op = some (s', seen) → i < s.maps.length → op ≠ .drop i →
      s'.contents[i]? = s.contents[i]?
  := by
  obtain ⟨s, hrun, hinv, hcontents⟩ := run_spec (inv_init (T := T)) hallowed
  refine ⟨s, hrun, hcontents, hinv, ?_⟩
  intro op s' seen i hop hstep hi hne
  obtain ⟨s₁, hstep₁, _, hcontents₁⟩ := step_spec hinv hop
  obtain rfl : s₁ = s' := (Prod.mk.inj (Option.some.inj (hstep₁.symm.trans hstep))).1
  rw [hcontents₁]
  apply refStep_getElem? _ _ _ hne
  rw [State.contents, List.length_map]
  exact hi

/-- A map is made of two entries with one key of the program, which is freed, and joined with
itself. -/
def joinOnce : List (Op ℤ) :=
  [.newStr, .make [⟨⟨some 0, [97]⟩, .scalar 1⟩, ⟨⟨some 0, [97]⟩, .scalar 2⟩], .freeStr 0, .join 0 0,
    .get 1 ⟨none, [97]⟩ (.scalar 0)]

theorem run_joinOnce :
  ∃ s, run (State.init (KeyedTable.ofList (Entry ℤ) SameKey)) joinOnce
      = some (s, (refRun [] joinOnce).2) ∧
    s.contents = (refRun [] joinOnce).1 ∧ Inv s ∧
    ∀ op s' seen i, Allowed s op → step s op = some (s', seen) → i < s.maps.length → op ≠ .drop i →
      s'.contents[i]? = s.contents[i]?
  := by
  apply run_refines
  refine ⟨trivial, ?_⟩
  intro s₁ _ h₁
  cases h₁
  refine ⟨by decide, ?_⟩
  intro s₂ _ h₂
  cases h₂
  refine ⟨by decide, ?_⟩
  intro s₃ _ h₃
  cases h₃
  refine ⟨by decide, ?_⟩
  intro s₄ _ h₄
  cases h₄
  refine ⟨by decide, ?_⟩
  intro s₅ _ h₅
  trivial

end Caster.MapRuntime
