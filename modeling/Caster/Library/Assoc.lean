import Mathlib.Data.List.Basic
import Mathlib.Tactic

/-!
# Association lists

Finite maps as lists of keys with values, in the order the keys were first set.  Setting a
key that is present replaces its value, so a map built from a list of entries gives every
key the last value the list has for it.
-/

namespace Assoc

variable {κ α : Type} [DecidableEq κ]

/-- The value of a key. -/
def get : List (κ × α) → κ → Option α
  | [], _ => none
  | (k, a) :: m, key => if k = key then some a else get m key

/-- A key is given a value. -/
def set : List (κ × α) → κ → α → List (κ × α)
  | [], key, a => [(key, a)]
  | (k, b) :: m, key, a => if k = key then (k, a) :: m else (k, b) :: set m key a

/-- A key is removed. -/
def erase : List (κ × α) → κ → List (κ × α)
  | [], _ => []
  | (k, b) :: m, key => if k = key then m else (k, b) :: erase m key

/-- The keys of a map. -/
def keys (m : List (κ × α)) : List κ := m.map Prod.fst

/-- The last value a list of entries has for a key. -/
def last : List (κ × α) → κ → Option α
  | [], _ => none
  | (k, a) :: l, key => (last l key).or (if k = key then some a else none)

/-- The entries of a list are set one after the other. -/
def setAll (m : List (κ × α)) (l : List (κ × α)) : List (κ × α) :=
  l.foldl (fun m entry => set m entry.1 entry.2) m

/-! ### Setting -/

@[simp]
theorem get_set_self (m : List (κ × α)) (key : κ) (a : α) :
  get (set m key a) key = some a
  := by
  induction m with
  | nil => simp [set, get]
  | cons entry m ih =>
    obtain ⟨k, b⟩ := entry
    by_cases h : k = key
    · simp [set, get, h]
    · simp [set, get, h, ih]

theorem get_set_of_ne (m : List (κ × α)) {key other : κ} (a : α) (h : key ≠ other) :
  get (set m key a) other = get m other
  := by
  induction m with
  | nil => simp [set, get, h]
  | cons entry m ih =>
    obtain ⟨k, b⟩ := entry
    by_cases hk : k = key
    · subst hk
      simp [set, get, h]
    · by_cases ho : k = other
      · subst ho
        simp [set, get, hk]
      · simp [set, get, hk, ho, ih]

theorem get_set (m : List (κ × α)) (key other : κ) (a : α) :
  get (set m key a) other = if key = other then some a else get m other
  := by
  by_cases h : key = other
  · subst h
    simp
  · rw [if_neg h, get_set_of_ne m a h]

theorem keys_set (m : List (κ × α)) (key : κ) (a : α) :
  keys (set m key a) = if key ∈ keys m then keys m else keys m ++ [key]
  := by
  unfold keys
  induction m with
  | nil => simp [set]
  | cons entry m ih =>
    obtain ⟨k, b⟩ := entry
    by_cases hk : k = key
    · simp [set, hk]
    · have hne : ¬ key = k := fun h => hk h.symm
      simp only [set, hk, if_false, List.map_cons, List.mem_cons, hne, false_or, ih]
      split <;> simp

theorem nodup_keys_set {m : List (κ × α)} (h : (keys m).Nodup) (key : κ) (a : α) :
  (keys (set m key a)).Nodup
  := by
  rw [keys_set]
  split
  · exact h
  · rename_i hkey
    rw [List.nodup_append]
    refine ⟨h, List.nodup_singleton key, ?_⟩
    rintro k hk _ hmem rfl
    rw [List.mem_singleton] at hmem
    subst hmem
    exact hkey hk

theorem get_eq_none_iff (m : List (κ × α)) (key : κ) :
  get m key = none ↔ key ∉ keys m
  := by
  induction m with
  | nil => simp [get, keys]
  | cons entry m ih =>
    obtain ⟨k, b⟩ := entry
    by_cases hk : k = key
    · simp [get, keys, hk]
    · have hne : ¬ key = k := fun h => hk h.symm
      simpa [get, keys, hk, hne] using ih

/-! ### Lists of entries -/

theorem get_setAll (m l : List (κ × α)) (key : κ) :
  get (setAll m l) key = (last l key).or (get m key)
  := by
  unfold setAll
  induction l generalizing m with
  | nil => simp [last]
  | cons entry l ih =>
    obtain ⟨k, a⟩ := entry
    rw [List.foldl_cons, ih, get_set, last]
    cases last l key with
    | some b => rfl
    | none =>
      by_cases hk : k = key <;> simp [hk]

theorem nodup_keys_setAll {m : List (κ × α)} (h : (keys m).Nodup) (l : List (κ × α)) :
  (keys (setAll m l)).Nodup
  := by
  unfold setAll
  induction l generalizing m with
  | nil => exact h
  | cons entry l ih => exact ih (nodup_keys_set h entry.1 entry.2)

theorem last_eq_none_iff (l : List (κ × α)) (key : κ) :
  last l key = none ↔ key ∉ keys l
  := by
  induction l with
  | nil => simp [last, keys]
  | cons entry l ih =>
    obtain ⟨k, a⟩ := entry
    unfold keys at ih
    by_cases hk : k = key
    · subst hk
      simp [last, keys]
    · have hne : ¬ key = k := fun h => hk h.symm
      simp [last, keys, hk, hne, ih]

theorem last_map {β : Type} (f : α → β) (l : List (κ × α)) (key : κ) :
  last (l.map fun entry => (entry.1, f entry.2)) key = (last l key).map f
  := by
  induction l with
  | nil => rfl
  | cons entry l ih =>
    obtain ⟨k, a⟩ := entry
    rw [List.map_cons, last, last, ih]
    cases last l key with
    | some b => rfl
    | none => by_cases hk : k = key <;> simp [hk]

/-- A key that is set once in a list is given its value there. -/
theorem set_append_cons (m m' : List (κ × α)) {key : κ} (a b : α) (h : key ∉ keys m) :
  set (m ++ (key, b) :: m') key a = m ++ (key, a) :: m'
  := by
  induction m with
  | nil => simp [set]
  | cons entry m ih =>
    obtain ⟨k, c⟩ := entry
    simp only [keys, List.map_cons, List.mem_cons, not_or] at h ih
    have hne : ¬ k = key := fun hk => h.1 hk.symm
    simp [set, hne, ih h.2]

theorem set_of_not_mem {m : List (κ × α)} {key : κ} (a : α) (h : key ∉ keys m) :
  set m key a = m ++ [(key, a)]
  := by
  induction m with
  | nil => rfl
  | cons entry m ih =>
    obtain ⟨k, c⟩ := entry
    simp only [keys, List.map_cons, List.mem_cons, not_or] at h ih
    have hne : ¬ k = key := fun hk => h.1 hk.symm
    simp [set, hne, ih h.2]

/-- A list without repeated keys is the map it builds. -/
theorem setAll_append_of_nodup {m l : List (κ × α)} (h : (keys (m ++ l)).Nodup) :
  setAll m l = m ++ l
  := by
  induction l generalizing m with
  | nil => simp [setAll]
  | cons entry l ih =>
    have hkey : entry.1 ∉ keys m := by
      simp only [keys, List.map_append, List.map_cons, List.nodup_append] at h
      intro hmem
      exact h.2.2 _ hmem _ List.mem_cons_self rfl
    rw [setAll, List.foldl_cons, set_of_not_mem _ hkey]
    have happ : m ++ [(entry.1, entry.2)] ++ l = m ++ entry :: l := by simp
    rw [← happ] at h ⊢
    exact ih h

/-- Without repeated keys, the last value of a key is the first. -/
theorem last_eq_get {l : List (κ × α)} (h : (keys l).Nodup) (key : κ) :
  last l key = get l key
  := by
  have hset := setAll_append_of_nodup (m := []) (l := l) h
  have hget := get_setAll [] l key
  rw [hset, List.nil_append, get, Option.or_none] at hget
  exact hget.symm

theorem mem_of_last {l : List (κ × α)} {key : κ} {a : α} (h : last l key = some a) :
  (key, a) ∈ l
  := by
  induction l with
  | nil => simp [last] at h
  | cons entry l ih =>
    obtain ⟨k, b⟩ := entry
    rw [last] at h
    cases hl : last l key with
    | some c =>
      rw [hl] at h
      cases h
      exact List.mem_cons_of_mem _ (ih hl)
    | none =>
      rw [hl, Option.none_or] at h
      split at h
      · rename_i hk
        cases h
        rw [hk]
        exact List.mem_cons_self
      · cases h

theorem mem_of_get {l : List (κ × α)} {key : κ} {a : α} (h : get l key = some a) :
  (key, a) ∈ l
  := by
  induction l with
  | nil => cases h
  | cons entry l ih =>
    obtain ⟨k, b⟩ := entry
    rw [get] at h
    split at h
    · cases h
      simp [*]
    · exact List.mem_cons_of_mem _ (ih h)

/-! ### Values -/

/-- The values of a list of entries are replaced, if there is a value for each. -/
def mapValues {β : Type} (f : α → Option β) : List (κ × α) → Option (List (κ × β))
  | [] => some []
  | (k, a) :: l => do
    let b ← f a
    let l ← mapValues f l
    some ((k, b) :: l)

omit [DecidableEq κ] in
theorem mapValues_cons_eq_some_iff {β : Type} {f : α → Option β} {entry : κ × α} {l : List (κ × α)}
    {l' : List (κ × β)} :
  mapValues f (entry :: l) = some l' ↔
    ∃ b l'', f entry.2 = some b ∧ mapValues f l = some l'' ∧ l' = (entry.1, b) :: l''
  := by
  obtain ⟨k, a⟩ := entry
  rw [mapValues]
  cases f a with
  | none => simp
  | some b =>
    cases mapValues f l with
    | none => simp
    | some l'' => simp [eq_comm]

omit [DecidableEq κ] in
theorem mapValues_map {β γ : Type} (f : β → Option γ) (g : α → β) (l : List (κ × α)) :
  mapValues f (l.map fun entry => (entry.1, g entry.2)) = mapValues (fun a => f (g a)) l
  := by
  induction l with
  | nil => rfl
  | cons entry l ih => rw [List.map_cons, mapValues, mapValues, ih]

omit [DecidableEq κ] in
/-- Each value must have a replacement. -/
theorem exists_mapValues_iff {β : Type} (f : α → Option β) (l : List (κ × α)) :
  (∃ l', mapValues f l = some l') ↔ ∀ entry ∈ l, ∃ b, f entry.2 = some b
  := by
  induction l with
  | nil => simp [mapValues]
  | cons entry l ih =>
    rw [List.forall_mem_cons, ← ih]
    constructor
    · rintro ⟨l', h⟩
      obtain ⟨b, l'', hb, hl, -⟩ := mapValues_cons_eq_some_iff.mp h
      exact ⟨⟨b, hb⟩, ⟨l'', hl⟩⟩
    · rintro ⟨⟨b, hb⟩, ⟨l'', hl⟩⟩
      exact ⟨_, mapValues_cons_eq_some_iff.mpr ⟨b, l'', hb, hl, rfl⟩⟩

theorem get_mapValues {β : Type} {f : α → Option β} {l : List (κ × α)} {l' : List (κ × β)}
    (h : mapValues f l = some l') (key : κ) :
  get l' key = (get l key).bind f
  := by
  induction l generalizing l' with
  | nil => cases h; rfl
  | cons entry l ih =>
    obtain ⟨b, l'', hb, hl, rfl⟩ := mapValues_cons_eq_some_iff.mp h
    rw [get, get]
    split
    · rw [Option.bind_some, hb]
    · exact ih hl

theorem last_mapValues {β : Type} {f : α → Option β} {l : List (κ × α)} {l' : List (κ × β)}
    (h : mapValues f l = some l') (key : κ) :
  last l' key = (last l key).bind f
  := by
  induction l generalizing l' with
  | nil => cases h; rfl
  | cons entry l ih =>
    obtain ⟨b, l'', hb, hl, rfl⟩ := mapValues_cons_eq_some_iff.mp h
    rw [last, last, ih hl]
    cases hlast : last l key with
    | some a =>
      have hmem := mem_of_last hlast
      obtain ⟨c, hc⟩ := (exists_mapValues_iff f l).mp ⟨l'', hl⟩ _ hmem
      simp [hc]
    | none =>
      by_cases hkey : entry.1 = key <;> simp [hkey, hb]

/-- The value of a key that is one of different keys. -/
theorem get_mapIdx {ι : Type} (key : ι → κ) (g : ℕ → ι → α) {l : List ι}
    (hnodup : (l.map key).Nodup) {n : ℕ} {i : ι} (h : l[n]? = some i) :
  get (l.mapIdx fun n i => (key i, g n i)) (key i) = some (g n i)
  := by
  induction l generalizing n g with
  | nil => simp at h
  | cons j l ih =>
    rw [List.map_cons, List.nodup_cons] at hnodup
    rw [List.mapIdx_cons, get]
    cases n with
    | zero =>
      obtain rfl : j = i := by simpa using h
      rw [if_pos rfl]
    | succ n =>
      have hrest : l[n]? = some i := by simpa using h
      have hne : key j ≠ key i := by
        intro heq
        apply hnodup.1
        rw [heq]
        exact List.mem_map_of_mem (List.mem_of_getElem? hrest)
      rw [if_neg hne]
      exact ih (fun n => g (n + 1)) hnodup.2 hrest

/-- The value of a key that is one of different keys of a list. -/
theorem get_map_of_mem {ι : Type} {key : ι → κ} {l : List ι} (hnodup : (l.map key).Nodup)
    (f : ι → α) {i : ι} (hi : i ∈ l) :
  get (l.map fun i => (key i, f i)) (key i) = some (f i)
  := by
  induction l with
  | nil => cases hi
  | cons j l ih =>
    rw [List.map_cons, List.nodup_cons] at hnodup
    rw [List.map_cons, get]
    rcases List.mem_cons.mp hi with rfl | hi
    · exact if_pos rfl
    · have hne : key j ≠ key i := by
        intro heq
        apply hnodup.1
        rw [heq]
        exact List.mem_map_of_mem hi
      rw [if_neg hne]
      exact ih hnodup.2 hi

/-! ### Last values -/

section Last

variable {ι : Type}

omit [DecidableEq κ] in
theorem keys_map_pair (key : ι → κ) (f : ι → α) (l : List ι) :
  keys (l.map fun x => (key x, f x)) = l.map key
  := by
  simp [keys]

/-- The last value of a key is the one that no later entry replaces. -/
theorem last_map_append {key : ι → κ} {x : ι} {back : List ι} (f : ι → α) (front : List ι)
    (h : ∀ y ∈ back, key y ≠ key x) :
  last ((front ++ x :: back).map fun y => (key y, f y)) (key x) = some (f x)
  := by
  induction front with
  | nil =>
    have hnone : last (back.map fun y => (key y, f y)) (key x) = none := by
      rw [last_eq_none_iff, keys_map_pair, List.mem_map]
      rintro ⟨y, hy, heq⟩
      exact h y hy heq
    simp [last, hnone]
  | cons y front ih => rw [List.cons_append, List.map_cons, last, ih, Option.some_or]

/-- A key of a list has a last entry. -/
theorem exists_last_of_mem {key : ι → κ} {k : κ} {l : List ι} (h : k ∈ l.map key) :
  ∃ front x back, l = front ++ x :: back ∧ key x = k ∧ ∀ y ∈ back, key y ≠ key x
  := by
  induction l with
  | nil => cases h
  | cons head l ih =>
    by_cases hk : k ∈ l.map key
    · obtain ⟨front, x, back, rfl, hx⟩ := ih hk
      exact ⟨head :: front, x, back, rfl, hx⟩
    · have hhead : k = key head := by
        rw [List.map_cons, List.mem_cons] at h
        apply h.resolve_right hk
      refine ⟨[], head, l, rfl, hhead.symm, ?_⟩
      intro y hy heq
      apply hk
      rw [hhead, ← heq]
      apply List.mem_map_of_mem hy

/-- Two lists of values for the same keys agree on the last value of every key when they agree on
each value that no later one replaces. -/
theorem last_map_eq_iff (key : ι → κ) (f g : ι → α) (l : List ι) :
  (∀ k, last (l.map fun x => (key x, f x)) k = last (l.map fun x => (key x, g x)) k) ↔
    ∀ front x back, l = front ++ x :: back → (∀ y ∈ back, key y ≠ key x) → f x = g x := by
  constructor
  · intro hlast front x back hl hback
    subst hl
    have hx := hlast (key x)
    rw [last_map_append f front hback, last_map_append g front hback] at hx
    apply Option.some.inj hx
  · intro hagree k
    by_cases hk : k ∈ l.map key
    · obtain ⟨front, x, back, rfl, rfl, hback⟩ := exists_last_of_mem hk
      rw [last_map_append f front hback, last_map_append g front hback,
        hagree front x back rfl hback]
    · have hnone : ∀ h : ι → α, last (l.map fun x => (key x, h x)) k = none := by
        intro h
        rw [last_eq_none_iff, keys_map_pair]
        apply hk
      rw [hnone f, hnone g]

end Last

end Assoc
