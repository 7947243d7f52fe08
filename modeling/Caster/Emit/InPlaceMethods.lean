import Caster.Emit.Collections

/-!
# Methods in place with code that only reads

Code that reads the array and has no effects agrees in place exactly when its values are not
affected by the elements that have been replaced or moved.
-/

namespace Caster

open ForLoop

variable {α ρ β : Type}

/-- Code that has a value for the index and the elements of the array, and no effects. -/
def reading (f : ℕ → List α → β) : MethodCode α ρ β := fun _ i s => some (f i s.contents, i, s)

theorem keepsArray_reading (f : ℕ → List α → β) : KeepsArray (reading f : MethodCode α ρ β) := by
  intro ptr i s value i' s' h
  cases h
  exact ⟨rfl, rfl, rfl, rfl⟩

theorem contents_withBlock (s : Store α ρ) (elems : List α) :
  (s.withBlock s.data elems).contents = elems.take s.len
  := by
  simp [Store.contents]

theorem contents_write (s : Store α ρ) (i : ℕ) (value : α) :
  (s.write (s.data, i) value).contents = s.contents.set i value
  := by
  rw [Store.write, contents_withBlock, Store.contents, List.take_set]

theorem length_contents {s : Store α ρ} (hbounds : s.len ≤ (s.heap s.data).length) :
  s.contents.length = s.len
  := by
  rw [Store.contents, List.length_take, min_eq_left hbounds]

/-- Reading code is unaffected when it has the same value for the other elements. -/
theorem unaffected_reading_iff (f : ℕ → List α → β) (i : ℕ) (s : Store α ρ) (elems : List α) :
  Unaffected (reading f) i s elems ↔ f i (elems.take s.len) = f i s.contents
  := by
  simp [Unaffected, reading, contents_withBlock]

/-! ### Values -/

/-- The values of reading code for the first elements of an array. -/
def valuesBefore (f : ℕ → List α → α) (xs : List α) (i : ℕ) : List α :=
  (List.range i).map fun j => f j xs

theorem valuesBefore_succ (f : ℕ → List α → α) (xs : List α) (i : ℕ) :
  valuesBefore f xs (i + 1) = valuesBefore f xs i ++ [f i xs]
  := by
  simp [valuesBefore, List.range_succ]

/-- The copy has the values of the elements before the index, and the program is as it was. -/
theorem after_updCopy_reading {f : ℕ → List α → α} {s : Store α ρ} {data : Loc} {len : ℕ} {n m : ℕ}
    {c : CopyCursor α} {s' : Store α ρ}
    (h : after (updCopy (reading f) data len) n ⟨m, valuesBefore f s.contents m⟩ s = some (c, s')) :
  c = ⟨m + n, valuesBefore f s.contents (m + n)⟩ ∧ s' = s
  := by
  induction n generalizing m with
  | zero =>
    cases h
    exact ⟨rfl, rfl⟩
  | succ n ih =>
    by_cases hlt : m < len
    · simp only [after, updCopy, copyHeader, hlt, if_true, reading, ← valuesBefore_succ] at h
      have hrest := ih h
      rwa [Nat.add_assoc, Nat.add_comm 1 n] at hrest
    · simp [after, updCopy, copyHeader, hlt] at h

/-- The loop that makes the copy ends with the values of all elements. -/
theorem runs_updCopy_reading (f : ℕ → List α → α) (s : Store α ρ) (data : Loc) {m len : ℕ}
    (hm : m ≤ len) :
  ∃ trace, Runs (updCopy (reading f) data len) ⟨m, valuesBefore f s.contents m⟩ s trace
    (.done ⟨len, valuesBefore f s.contents len⟩ s)
  := by
  induction hk : len - m generalizing m with
  | zero =>
    have heq : m = len := by omega
    rw [heq]
    refine ⟨[], Runs.done ?_⟩
    simp [updCopy, copyHeader]
  | succ k ih =>
    have hlt : m < len := by omega
    obtain ⟨trace, hruns⟩ := ih (m := m + 1) hlt (by omega)
    have hheader : (updCopy (reading f) data len).header ⟨m, valuesBefore f s.contents m⟩ s =
        some (some ((m, s.load (data, m)), (data, m), ⟨m, valuesBefore f s.contents m⟩), s) := by
      simp [updCopy, copyHeader, hlt]
    have hbody : (updCopy (reading f) data len).body (data, m) ⟨m, valuesBefore f s.contents m⟩ s =
        .goesOn (⟨m, valuesBefore f s.contents (m + 1)⟩, s) := by
      simp [updCopy, reading, valuesBefore_succ]
    exact ⟨_, Runs.again hheader hbody hruns⟩

theorem take_set_succ {xs : List α} {i : ℕ} (hi : i < xs.length) (e : α) :
  (xs.set i e).take (i + 1) = xs.take i ++ [e]
  := by
  rw [List.take_set, List.take_succ_eq_append_getElem hi, List.set_append_right _ _ (by simp)]
  simp [min_eq_left (le_of_lt hi)]

/-- What the loop in place leaves at an index is the value for the array whose elements before the
index it has replaced. -/
theorem runs_updInPlace_reading {f : ℕ → List α → α} {c c' : InPlaceCursor} {s s' : Store α ρ}
    {trace : List (ℕ × Option α)} (hlength : s.contents.length = s.len)
    (h : Runs (updInPlace (reading f)) c s trace (.done c' s')) :
  s'.contents.take c.index = s.contents.take c.index ∧
    ∀ i, c.index ≤ i → i < s.len →
      s'.contents[i]? = some (f i (s'.contents.take i ++ s.contents.drop i))
  := by
  generalize ho : End.done c' s' = o at h
  induction h with
  | done hheader =>
    rename_i c s s''
    cases ho
    simp only [updInPlace, inPlaceHeader] at hheader
    split at hheader
    · cases hheader
    · rename_i hge
      cases hheader
      exact ⟨rfl, fun i hi hlt => absurd (lt_of_le_of_lt hi hlt) hge⟩
  | stopped _ => cases ho
  | left _ _ => cases ho
  | again hheader hbody hrest ih =>
    rename_i c c₁ c₂ s s₁ s₂ e x trace o
    simp only [updInPlace, inPlaceHeader] at hheader
    split at hheader
    · rename_i hlt
      cases hheader
      simp only [updInPlace, reading, Completion.goesOn.injEq, Prod.mk.injEq] at hbody
      obtain ⟨rfl, rfl⟩ := hbody
      have hcontents := contents_write s c.index (f c.index s.contents)
      obtain ⟨htake, hvalues⟩ := ih (by rw [hcontents, List.length_set, hlength]; rfl) ho
      rw [hcontents] at htake hvalues
      have hn : c.index < s.contents.length := by rw [hlength]; exact hlt
      have hnext : s'.contents.take (c.index + 1) =
          s.contents.take c.index ++ [f c.index s.contents] := by
        calc s'.contents.take (c.index + 1)
            = (s.contents.set c.index (f c.index s.contents)).take (c.index + 1) := htake
          _ = s.contents.take c.index ++ [f c.index s.contents] := take_set_succ hn _
      have hbefore : s'.contents.take c.index = s.contents.take c.index := by
        have htaken := congrArg (List.take c.index) hnext
        rwa [List.take_take, min_eq_left (Nat.le_succ _), List.take_left' (by simp; omega)] at htaken
      refine ⟨hbefore, fun i hi hlti => ?_⟩
      rcases Nat.eq_or_lt_of_le hi with heq | hlt'
      · have hget := congrArg (fun l : List α => l[c.index]?) hnext
        rw [← heq, hbefore, List.take_append_drop]
        simpa [List.getElem?_take, hn, min_eq_left (le_of_lt hn)] using hget
      · have hvalue := hvalues i hlt' hlti
        rwa [List.drop_set_of_lt hlt'] at hvalue
    · cases hheader

theorem length_valuesBefore (f : ℕ → List α → α) (xs : List α) (i : ℕ) :
  (valuesBefore f xs i).length = i
  := by
  simp [valuesBefore]

theorem take_append_drop_heap {l : List α} {s : Store α ρ} (hle : l.length ≤ s.len) :
  (l ++ (s.heap s.data).drop l.length).take s.len = l ++ s.contents.drop l.length
  := by
  rw [List.take_append, List.take_of_length_le hle, Store.contents, List.drop_take]

/-- In place, reading code agrees exactly when the values that have been written do not affect
it. -/
theorem updAgrees_reading_iff (f : ℕ → List α → α) {s : Store α ρ}
    (hbounds : s.len ≤ (s.heap s.data).length) :
  UpdAgrees (reading f) s ↔
    ∀ i < s.len, f i (valuesBefore f s.contents i ++ s.contents.drop i) = f i s.contents
  := by
  constructor
  · intro h i hi
    obtain ⟨trace, hcopy⟩ := runs_updCopy_reading f s s.data (Nat.zero_le s.len)
    obtain ⟨o', hinPlace, halike⟩ := h trace _ hcopy
    cases halike with
    | done hcontents =>
      rename_i c' s'
      obtain ⟨_, hvalues⟩ := runs_updInPlace_reading (length_contents hbounds) hinPlace
      have hvalue := hvalues i (Nat.zero_le i) hi
      have htake : s'.contents.take i = valuesBefore f s.contents i := by
        rw [hcontents, valuesBefore, ← List.map_take, List.take_range, min_eq_left (le_of_lt hi),
          valuesBefore]
      rw [htake, hcontents, valuesBefore, List.getElem?_map, List.getElem?_range hi] at hvalue
      exact (Option.some.inj hvalue).symm
  · intro h
    apply updAgrees_of_unaffected hbounds (keepsArray_reading f)
    intro n c s' hafter hlt
    obtain ⟨hc, rfl⟩ := after_updCopy_reading (m := 0) hafter
    have hlength := length_valuesBefore f s'.contents n
    have hout : c.out = valuesBefore f s'.contents n := by rw [hc, Nat.zero_add]
    have hshape := take_append_drop_heap (l := valuesBefore f s'.contents n) (s := s')
      (by rw [hlength]; exact le_of_lt hlt)
    rw [hlength] at hshape
    rw [unaffected_reading_iff, hout, hshape]
    exact h n hlt

/-! ### Verdicts -/

/-- The elements that reading code keeps of the first ones of an array. -/
def keptBefore (f : ℕ → List α → Bool) (xs : List α) (i : ℕ) : List α :=
  ((xs.take i).zipIdx.filter fun e => f e.2 xs).map Prod.fst

theorem keptBefore_succ (f : ℕ → List α → Bool) {xs : List α} {i : ℕ} (hi : i < xs.length) :
  keptBefore f xs (i + 1) = keptBefore f xs i ++ if f i xs then [xs[i]] else []
  := by
  have hlength : (xs.take i).length = i := List.length_take_of_le (le_of_lt hi)
  rw [keptBefore, List.take_succ_eq_append_getElem hi, List.zipIdx_append, List.filter_append,
    List.map_append, ← keptBefore, hlength]
  by_cases hf : f i xs <;> simp [hf]

theorem length_keptBefore_le (f : ℕ → List α → Bool) (xs : List α) (i : ℕ) :
  (keptBefore f xs i).length ≤ i
  := by
  rw [keptBefore, List.length_map]
  exact le_trans (List.length_filter_le _ _) (by simp)

/-- Without equal elements, the elements that the code keeps are those it answers true for. -/
theorem mem_keptBefore_iff (f : ℕ → List α → Bool) {xs : List α} (hnodup : xs.Nodup) {n i : ℕ}
    (hi : i < n) (hn : n ≤ xs.length) :
  xs[i] ∈ keptBefore f xs n ↔ f i xs = true
  := by
  simp only [keptBefore, List.mem_map, List.mem_filter, List.mem_zipIdx_iff_getElem?, Prod.exists]
  constructor
  · rintro ⟨e, j, ⟨hj, hf⟩, rfl⟩
    obtain ⟨hlt, hget⟩ := List.getElem?_eq_some_iff.mp hj
    rw [List.getElem_take] at hget
    have heq : j = i := (List.Nodup.getElem_inj_iff hnodup).mp hget
    rwa [← heq]
  · intro hf
    have hget : (xs.take n)[i]? = some xs[i] := by
      rw [List.getElem?_take_of_lt hi]
      exact List.getElem?_eq_getElem _
    exact ⟨xs[i], i, ⟨hget, hf⟩, rfl⟩

theorem load_eq {s : Store α ρ} (hbounds : s.len ≤ (s.heap s.data).length) {i : ℕ}
    (hi : i < s.contents.length) :
  s.load (s.data, i) = some s.contents[i]
  := by
  have hlt : i < s.len := by rwa [length_contents hbounds] at hi
  rw [Store.load, ← List.getElem?_eq_getElem hi, Store.contents, List.getElem?_take_of_lt hlt]

/-- One iteration of the loop that makes the copy. -/
theorem filtCopy_reading_goesOn (f : ℕ → List α → Bool) {s : Store α ρ}
    (hbounds : s.len ≤ (s.heap s.data).length) {m : ℕ} (hlt : m < s.len) :
  (filtCopy (reading f) s.data s.len).body (s.data, m) ⟨m, keptBefore f s.contents m⟩ s =
    .goesOn (⟨m, keptBefore f s.contents (m + 1)⟩, s)
  := by
  have hm : m < s.contents.length := by rwa [length_contents hbounds]
  rw [keptBefore_succ f hm]
  cases hf : f m s.contents <;> simp [filtCopy, reading, hf, load_eq hbounds hm]

theorem after_filtCopy_reading {f : ℕ → List α → Bool} {s : Store α ρ}
    (hbounds : s.len ≤ (s.heap s.data).length) {n m : ℕ} {c : CopyCursor α} {s' : Store α ρ}
    (h : after (filtCopy (reading f) s.data s.len) n ⟨m, keptBefore f s.contents m⟩ s = some (c, s')) :
  c = ⟨m + n, keptBefore f s.contents (m + n)⟩ ∧ s' = s
  := by
  induction n generalizing m with
  | zero =>
    cases h
    exact ⟨rfl, rfl⟩
  | succ n ih =>
    by_cases hlt : m < s.len
    · have hheader : (filtCopy (reading f) s.data s.len).header ⟨m, keptBefore f s.contents m⟩ s =
          some (some ((m, s.load (s.data, m)), (s.data, m), ⟨m, keptBefore f s.contents m⟩), s) := by
        simp [filtCopy, copyHeader, hlt]
      rw [after_succ_goesOn hheader (filtCopy_reading_goesOn f hbounds hlt)] at h
      have hrest := ih h
      rwa [Nat.add_assoc, Nat.add_comm 1 n] at hrest
    · simp [after, filtCopy, copyHeader, hlt] at h

theorem runs_filtCopy_reading (f : ℕ → List α → Bool) {s : Store α ρ}
    (hbounds : s.len ≤ (s.heap s.data).length) {m : ℕ} (hm : m ≤ s.len) :
  ∃ trace, Runs (filtCopy (reading f) s.data s.len) ⟨m, keptBefore f s.contents m⟩ s trace
    (.done ⟨s.len, keptBefore f s.contents s.len⟩ s)
  := by
  induction hk : s.len - m generalizing m with
  | zero =>
    have heq : m = s.len := by omega
    rw [heq]
    refine ⟨[], Runs.done ?_⟩
    simp [filtCopy, copyHeader]
  | succ k ih =>
    have hlt : m < s.len := by omega
    obtain ⟨trace, hruns⟩ := ih (m := m + 1) hlt (by omega)
    have hheader : (filtCopy (reading f) s.data s.len).header ⟨m, keptBefore f s.contents m⟩ s =
        some (some ((m, s.load (s.data, m)), (s.data, m), ⟨m, keptBefore f s.contents m⟩), s) := by
      simp [filtCopy, copyHeader, hlt]
    exact ⟨_, Runs.again hheader (filtCopy_reading_goesOn f hbounds hlt) hruns⟩

theorem drop_take_eq_cons {xs : List α} {index i : ℕ} {e : α} (he : xs[index]? = some e)
    (hi : index < i) :
  (xs.take i).drop index = e :: (xs.take i).drop (index + 1)
  := by
  obtain ⟨hlt, hget⟩ := List.getElem?_eq_some_iff.mp he
  have hsub : i - index = i - (index + 1) + 1 := by omega
  rw [List.drop_take, List.drop_take, List.drop_eq_getElem_cons hlt, hget, hsub, List.take_succ_cons]

theorem not_mem_of_nodup {xs : List α} {index : ℕ} {e : α} (he : xs[index]? = some e)
    (hnodup : (xs.drop index).Nodup) :
  e ∉ xs.drop (index + 1)
  := by
  obtain ⟨hlt, hget⟩ := List.getElem?_eq_some_iff.mp he
  rw [List.drop_eq_getElem_cons hlt, hget] at hnodup
  exact (List.nodup_cons.mp hnodup).1

/-- One iteration in place for an element that is kept. -/
theorem filtInPlace_reading_goesOn {f : ℕ → List α → Bool} {c c₂ : InPlaceCursor} {s s₂ : Store α ρ}
    (hbounds : s.len ≤ (s.heap s.data).length) (hn : c.index < s.contents.length)
    (hf : f c.index s.contents = true)
    (h : (filtInPlace (reading f)).body (s.data, c.index) c s = .goesOn (c₂, s₂)) :
  c₂ = ⟨c.index, c.write + 1⟩ ∧ s₂.contents = s.contents.set c.write s.contents[c.index] ∧
    s₂.data = s.data ∧ s₂.len = s.len ∧ s₂.len ≤ (s₂.heap s₂.data).length
  := by
  by_cases hmoves : c.write = c.index
  · simp only [filtInPlace, reading, hf, hmoves, ne_eq, not_true_eq_false, if_false,
      Completion.goesOn.injEq, Prod.mk.injEq] at h
    obtain ⟨rfl, rfl⟩ := h
    refine ⟨by rw [hmoves], ?_, rfl, rfl, hbounds⟩
    rw [hmoves, List.set_getElem_self]
  · simp only [filtInPlace, reading, hf, hmoves, ne_eq, not_false_eq_true, if_true, load_eq hbounds hn,
      Completion.goesOn.injEq, Prod.mk.injEq] at h
    obtain ⟨rfl, rfl⟩ := h
    refine ⟨rfl, contents_write s c.write _, rfl, rfl, ?_⟩
    simpa [Store.write] using hbounds

/-- The elements that the loop in place, from an index and an index to write on, has in the array
when it comes to an index, where `moved` are those it keeps. -/
def keptInPlace [DecidableEq α] (xs : List α) (write index : ℕ) (moved : List α) (i : ℕ) : List α :=
  xs.take write ++ ((xs.take i).drop index).filter fun e => e ∈ moved

/-- The elements from an index on that are kept are those that the code keeps, reading the array as
it is then. -/
def Keeps [DecidableEq α] (f : ℕ → List α → Bool) (xs : List α) (write index : ℕ) (moved : List α) :
    Prop :=
  ∀ i, index ≤ i → ∀ e, xs[i]? = some e →
    (e ∈ moved ↔ f i (keptInPlace xs write index moved i ++
      xs.drop (keptInPlace xs write index moved i).length))

variable [DecidableEq α]

theorem keptInPlace_self {xs : List α} {write index : ℕ} (moved : List α) :
  keptInPlace xs write index moved index = xs.take write
  := by
  simp [keptInPlace]

theorem keeps_of_true {f : ℕ → List α → Bool} {xs : List α} {write index : ℕ} {moved : List α} {e : α}
    (hwrite : write ≤ index) (he : xs[index]? = some e) (hnodup : (xs.drop index).Nodup)
    (hf : f index xs = true) (hrest : Keeps f (xs.set write e) (write + 1) (index + 1) moved) :
  Keeps f xs write index (e :: moved)
  := by
  have hlt := (List.getElem?_eq_some_iff.mp he).1
  have hnot := not_mem_of_nodup he hnodup
  intro i hi e' he'
  rcases Nat.eq_or_lt_of_le hi with heq | hlt'
  · rw [← heq, he] at he'
    cases he'
    rw [← heq, keptInPlace_self, List.length_take, min_eq_left (by omega), List.take_append_drop, hf]
    simp
  · have htake := take_set_succ (lt_of_le_of_lt hwrite hlt) e
    have hfilter : ((xs.take i).drop (index + 1)).filter (fun e' => e' ∈ e :: moved) =
        ((xs.take i).drop (index + 1)).filter fun e' => e' ∈ moved := by
      apply List.filter_congr
      intro e' hmem
      rw [List.drop_take] at hmem
      have hne : e' ≠ e := by
        rintro rfl
        exact hnot (List.mem_of_mem_take hmem)
      simp [hne]
    have hbefore : keptInPlace xs write index (e :: moved) i =
        keptInPlace (xs.set write e) (write + 1) (index + 1) moved i := by
      rw [keptInPlace, keptInPlace, drop_take_eq_cons he hlt', List.filter_cons_of_pos (by simp),
        hfilter, htake, List.take_set, List.drop_set_of_lt (by omega), List.append_assoc,
        List.singleton_append]
    have hlength : write < (keptInPlace (xs.set write e) (write + 1) (index + 1) moved i).length := by
      rw [keptInPlace, htake]
      simp
      omega
    have hother := hrest i hlt' e' (by rwa [List.getElem?_set_ne (by omega)])
    rw [List.drop_set_of_lt hlength] at hother
    rw [hbefore, ← hother]
    have hmem : e' ∈ xs.drop (index + 1) := by
      apply List.mem_of_getElem? (i := i - (index + 1))
      rw [List.getElem?_drop, ← he']
      congr 1
      omega
    have hne : e' ≠ e := by
      rintro rfl
      exact hnot hmem
    simp [hne]

theorem keeps_of_false {f : ℕ → List α → Bool} {xs : List α} {write index : ℕ} {moved : List α} {e : α}
    (hwrite : write ≤ index) (he : xs[index]? = some e) (hnodup : (xs.drop index).Nodup)
    (hmoved : moved.Sublist (xs.drop (index + 1))) (hf : f index xs = false)
    (hrest : Keeps f xs write (index + 1) moved) :
  Keeps f xs write index moved
  := by
  have hlt := (List.getElem?_eq_some_iff.mp he).1
  have hnot : e ∉ moved := fun hmem => not_mem_of_nodup he hnodup (hmoved.subset hmem)
  intro i hi e' he'
  rcases Nat.eq_or_lt_of_le hi with heq | hlt'
  · rw [← heq, he] at he'
    cases he'
    rw [← heq, keptInPlace_self, List.length_take, min_eq_left (by omega), List.take_append_drop, hf]
    simp [hnot]
  · have hbefore : keptInPlace xs write index moved i = keptInPlace xs write (index + 1) moved i := by
      rw [keptInPlace, drop_take_eq_cons he hlt', List.filter_cons_of_neg (by simpa using hnot),
        keptInPlace]
    rw [hbefore]
    exact hrest i hlt' e' he'

/-- The elements the loop in place leaves are those before the index to write and some of those from
the index on, which its code keeps. -/
theorem runs_filtInPlace_reading {f : ℕ → List α → Bool} {c c' : InPlaceCursor} {s s' : Store α ρ}
    {trace : List (ℕ × Option α)} (hbounds : s.len ≤ (s.heap s.data).length)
    (hwrite : c.write ≤ c.index) (hindex : c.index ≤ s.len) (hnodup : (s.contents.drop c.index).Nodup)
    (h : Runs (filtInPlace (reading f)) c s trace (.done c' s')) :
  ∃ moved, { s' with len := c'.write }.contents = s.contents.take c.write ++ moved ∧
    moved.Sublist (s.contents.drop c.index) ∧ Keeps f s.contents c.write c.index moved
  := by
  generalize ho : End.done c' s' = o at h
  induction h with
  | done hheader =>
    rename_i c s s''
    cases ho
    simp only [filtInPlace, inPlaceHeader] at hheader
    split at hheader
    · cases hheader
    · rename_i hge
      cases hheader
      refine ⟨[], ?_, List.nil_sublist _, ?_⟩
      · simp [Store.contents, List.take_take]
        omega
      · intro i hi e he
        have hlt := (List.getElem?_eq_some_iff.mp he).1
        rw [length_contents hbounds] at hlt
        omega
  | stopped _ => cases ho
  | left _ _ => cases ho
  | again hheader hbody hrest ih =>
    rename_i c c₁ c₂ s s₁ s₂ e x trace o
    simp only [filtInPlace, inPlaceHeader] at hheader
    split at hheader
    · rename_i hlt
      cases hheader
      have hn : c.index < s.contents.length := by rwa [length_contents hbounds]
      have he : s.contents[c.index]? = some s.contents[c.index] := List.getElem?_eq_getElem hn
      have hdrop := List.drop_eq_getElem_cons hn
      have htail : (s.contents.drop (c.index + 1)).Nodup := by
        rw [hdrop] at hnodup
        exact (List.nodup_cons.mp hnodup).2
      cases hf : f c.index s.contents with
      | true =>
        obtain ⟨rfl, hset, hdata, hlen, hbounds'⟩ := filtInPlace_reading_goesOn hbounds hn hf hbody
        have hdrop' : s₂.contents.drop (c.index + 1) = s.contents.drop (c.index + 1) := by
          rw [hset, List.drop_set_of_lt (Nat.lt_succ_of_le hwrite)]
        obtain ⟨moved, hcontents, hsublist, hkeeps⟩ := ih hbounds' (Nat.succ_le_succ hwrite)
          (by rw [hlen]; exact hlt) (by rwa [← hdrop'] at htail) ho
        refine ⟨s.contents[c.index] :: moved, ?_, ?_, ?_⟩
        · have htake := take_set_succ (lt_of_le_of_lt hwrite hn) s.contents[c.index]
          rw [hcontents, hset]
          change (s.contents.set c.write _).take (c.write + 1) ++ moved = _
          rw [htake, List.append_assoc, List.singleton_append]
        · rw [hdrop]
          apply List.Sublist.cons_cons
          rwa [← hdrop']
        · apply keeps_of_true hwrite he hnodup hf
          rwa [← hset]
      | false =>
        simp only [filtInPlace, reading, hf, Completion.goesOn.injEq, Prod.mk.injEq] at hbody
        obtain ⟨rfl, rfl⟩ := hbody
        obtain ⟨moved, hcontents, hsublist, hkeeps⟩ :=
          ih hbounds (Nat.le_succ_of_le hwrite) hlt htail ho
        refine ⟨moved, hcontents, ?_, keeps_of_false hwrite he hnodup hsublist hf hkeeps⟩
        rw [hdrop]
        exact hsublist.cons _
    · cases hheader

/-- In an array without equal elements, the loop in place has kept the elements that the copy has,
when they keep the same ones in the end. -/
theorem keptInPlace_keptBefore (f : ℕ → List α → Bool) {xs : List α} (hnodup : xs.Nodup) {i : ℕ}
    (hi : i ≤ xs.length) :
  keptInPlace xs 0 0 (keptBefore f xs xs.length) i = keptBefore f xs i
  := by
  induction i with
  | zero => simp [keptInPlace, keptBefore]
  | succ i ih =>
    have hmem := mem_keptBefore_iff f hnodup hi (le_refl xs.length)
    have hone : [xs[i]].filter (fun e => e ∈ keptBefore f xs xs.length) =
        if f i xs then [xs[i]] else [] := by
      by_cases hf : f i xs = true <;> simp [hmem, hf]
    rw [keptBefore_succ f hi, ← ih (le_of_lt hi), keptInPlace, keptInPlace,
      List.take_succ_eq_append_getElem hi]
    simp only [List.take_zero, List.nil_append, List.drop_zero, List.filter_append, hone]

/-- In place, reading code agrees on an array without equal elements exactly when the elements that
have been moved do not affect it. -/
theorem filtAgrees_reading_iff (f : ℕ → List α → Bool) {s : Store α ρ}
    (hbounds : s.len ≤ (s.heap s.data).length) (hnodup : s.contents.Nodup) :
  FiltAgrees (reading f) s ↔
    ∀ i < s.len, f i (keptBefore f s.contents i ++
      s.contents.drop (keptBefore f s.contents i).length) = f i s.contents
  := by
  constructor
  · intro h i hi
    obtain ⟨trace, hcopy⟩ := runs_filtCopy_reading f hbounds (Nat.zero_le s.len)
    obtain ⟨o', hinPlace, halike⟩ := h trace _ hcopy
    cases halike with
    | done hcontents =>
      rename_i c' s'
      have hlength := length_contents hbounds
      obtain ⟨moved, hmoved, _, hkeeps⟩ := runs_filtInPlace_reading (c := ⟨0, 0⟩) hbounds (le_refl 0)
        (Nat.zero_le _) hnodup hinPlace
      have heq : moved = keptBefore f s.contents s.contents.length := by
        rw [hlength]
        exact hmoved.symm.trans hcontents
      have hin : i < s.contents.length := by rwa [hlength]
      have hverdict := hkeeps i (Nat.zero_le i) _ (List.getElem?_eq_getElem hin)
      rw [heq, mem_keptBefore_iff f hnodup hin (le_refl _), keptInPlace_keptBefore f hnodup
        (le_of_lt hin)] at hverdict
      exact Bool.eq_iff_iff.mpr hverdict.symm
  · intro h
    apply filtAgrees_of_unaffected hbounds (keepsArray_reading f)
    intro n c s' hafter hlt
    obtain ⟨hc, rfl⟩ := after_filtCopy_reading hbounds (m := 0) hafter
    have hout : c.out = keptBefore f s'.contents n := by rw [hc, Nat.zero_add]
    have hshape := take_append_drop_heap (l := keptBefore f s'.contents n) (s := s')
      (le_trans (length_keptBefore_le f _ n) (le_of_lt hlt))
    rw [unaffected_reading_iff, hout, hshape]
    exact h n hlt

/-- `*xs.upd(p)` and `*xs.filt(p)` do what the assignments of the copies do, for code that leaves the
array alone, when it is not affected by the elements that have been replaced or moved.  For code
that has no effects, and for `filt` on arrays without equal elements, they do so only then. -/
theorem inPlace_agrees (α ρ : Type) [DecidableEq α] (s : Store α ρ)
    (hbounds : s.len ≤ (s.heap s.data).length) :
  (∀ p, KeepsArray p → UpdUnaffected p s → UpdAgrees p s) ∧
    (∀ p, KeepsArray p → FiltUnaffected p s → FiltAgrees p s) ∧
    (∀ f, UpdAgrees (reading f) s ↔
      ∀ i < s.len, f i (valuesBefore f s.contents i ++ s.contents.drop i) = f i s.contents) ∧
    (s.contents.Nodup → ∀ f, FiltAgrees (reading f) s ↔
      ∀ i < s.len, f i (keptBefore f s.contents i ++
        s.contents.drop (keptBefore f s.contents i).length) = f i s.contents)
  := by
  refine ⟨?_, ?_, ?_, ?_⟩
  · intro p hkeeps hunaffected
    exact updAgrees_of_unaffected hbounds hkeeps hunaffected
  · intro p hkeeps hunaffected
    exact filtAgrees_of_unaffected hbounds hkeeps hunaffected
  · intro f
    exact updAgrees_reading_iff f hbounds
  · intro hnodup f
    exact filtAgrees_reading_iff f hbounds hnodup

/-- The array `[1, 2, 3]`. -/
def oneTwoThree : Store ℤ Unit := { heap := fun _ => [1, 2, 3], data := 0, len := 3, rest := () }

/-- On the array `[1, 2, 3]`, `*xs.upd(xs.0 + e)` does not agree, and `*xs.filt(e > 1)` does. -/
theorem inPlace_agrees_oneTwoThree :
  (∀ p, KeepsArray p → UpdUnaffected p oneTwoThree → UpdAgrees p oneTwoThree) ∧
    (∀ p, KeepsArray p → FiltUnaffected p oneTwoThree → FiltAgrees p oneTwoThree) ∧
    ¬ UpdAgrees (reading fun i xs => xs.getD 0 0 + xs.getD i 0) oneTwoThree ∧
    FiltAgrees (reading fun i xs => decide (1 < xs.getD i 0)) oneTwoThree
  := by
  obtain ⟨hupd, hfilt, hupdIff, hfiltIff⟩ := inPlace_agrees ℤ Unit oneTwoThree (by decide)
  refine ⟨hupd, hfilt, ?_, ?_⟩
  · rw [hupdIff]
    decide
  · rw [hfiltIff (by decide)]
    decide

/-- Code that reads another element of the array can have another value in place. -/
theorem not_upd_filt_agree :
  ¬ ∀ (α ρ : Type) (s : Store α ρ), s.len ≤ (s.heap s.data).length →
    (∀ p, UpdAgrees p s) ∧ ∀ p, FiltAgrees p s
  := by
  intro h
  have hagrees := (h ℤ Unit oneTwoThree (by decide)).1 (reading fun i xs => xs.getD 0 0 + xs.getD i 0)
  rw [updAgrees_reading_iff _ (by decide)] at hagrees
  exact absurd (hagrees 1 (by decide)) (by decide)

end Caster
