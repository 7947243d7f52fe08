import Caster.Library.ForLoop
import Caster.Value

/-!
# Collection methods on arrays, in place and copying

The C loops that the methods `upd` and `filt` on an array variable are emitted as: those of the
expressions `xs.upd(p)` and `xs.filt(p)`, which build a new array, and those of the statements
`*xs.upd(p)` and `*xs.filt(p)`, which change the one that `xs` holds.
-/

namespace Caster

open ForLoop

/-- The state of a program around an array variable: the element blocks, the header that the
variable holds, and everything else. -/
structure Store (α ρ : Type) where
  heap : Loc → List α
  data : Loc
  len : ℕ
  rest : ρ

/-- A pointer to an element: the block and the index in it. -/
abbrev ElementPtr := Loc × ℕ

/-- The code of a method argument or of a method body, which ends with a value.  It is given the
element pointer and the index, a variable it may change, and it has no result when it stops the
program. -/
abbrev MethodCode (α ρ β : Type) := ElementPtr → ℕ → Store α ρ → Option (β × ℕ × Store α ρ)

variable {α ρ : Type}

/-- The elements of the array. -/
def Store.contents (s : Store α ρ) : List α := (s.heap s.data).take s.len

/-- The element behind a pointer. -/
def Store.load (s : Store α ρ) (ptr : ElementPtr) : Option α := (s.heap ptr.1)[ptr.2]?

/-- A block is given other elements. -/
def Store.withBlock (s : Store α ρ) (loc : Loc) (elems : List α) : Store α ρ :=
  { s with heap := Function.update s.heap loc elems }

/-- The element behind a pointer is written. -/
def Store.write (s : Store α ρ) (ptr : ElementPtr) (value : α) : Store α ρ :=
  s.withBlock ptr.1 ((s.heap ptr.1).set ptr.2 value)

/-- The variables of a loop that builds a new array: its index and the array. -/
structure CopyCursor (α : Type) where
  index : ℕ
  out : List α

/-- The header of the loop over the array that `source` was initialized with: an index and the
element it is for. -/
def copyHeader (data : Loc) (len : ℕ) (c : CopyCursor α) (s : Store α ρ) :
    Option (Option ((ℕ × Option α) × ElementPtr × CopyCursor α) × Store α ρ) :=
  if c.index < len then
    some (some ((c.index, s.load (data, c.index)), (data, c.index), c), s)
  else some (none, s)

/-- The loop of `xs.upd(p)` in `emit_collection_method`. -/
def updCopy (p : MethodCode α ρ α) (data : Loc) (len : ℕ) :
    Loop (CopyCursor α) ElementPtr (ℕ × Option α) (Store α ρ) where
  header := copyHeader data len
  body ptr c s :=
    match p ptr c.index s with
    | some (value, index, s) => .goesOn (⟨index, c.out ++ [value]⟩, s)
    | none => .left
  advance c := { c with index := c.index + 1 }

/-- The loop of `xs.filt(p)` in `emit_collection_method`. -/
def filtCopy (p : MethodCode α ρ Bool) (data : Loc) (len : ℕ) :
    Loop (CopyCursor α) ElementPtr (ℕ × Option α) (Store α ρ) where
  header := copyHeader data len
  body ptr c s :=
    match p ptr c.index s with
    | some (true, index, s) =>
      match s.load ptr with
      | some e => .goesOn (⟨index, c.out ++ [e]⟩, s)
      | none => .left
    | some (false, index, s) => .goesOn ({ c with index := index }, s)
    | none => .left
  advance c := { c with index := c.index + 1 }

/-- The variables of a loop that changes an array: its index and the next index to write. -/
structure InPlaceCursor where
  index : ℕ
  write : ℕ

/-- The header of the loop over the array that `target` points to. -/
def inPlaceHeader (c : InPlaceCursor) (s : Store α ρ) :
    Option (Option ((ℕ × Option α) × ElementPtr × InPlaceCursor) × Store α ρ) :=
  if c.index < s.len then
    some (some ((c.index, s.load (s.data, c.index)), (s.data, c.index), c), s)
  else some (none, s)

/-- The loop of `*xs.upd(p)` in `emit_mutating_collection_method_stmt_text`. -/
def updInPlace (p : MethodCode α ρ α) :
    Loop InPlaceCursor ElementPtr (ℕ × Option α) (Store α ρ) where
  header := inPlaceHeader
  body ptr c s :=
    match p ptr c.index s with
    | some (value, index, s) => .goesOn ({ c with index := index }, s.write ptr value)
    | none => .left
  advance c := { c with index := c.index + 1 }

/-- The loop of `*xs.filt(p)` in `emit_mutating_collection_method_stmt_text`.  An element that is
kept is moved to the index to write, unless it is there already. -/
def filtInPlace (p : MethodCode α ρ Bool) :
    Loop InPlaceCursor ElementPtr (ℕ × Option α) (Store α ρ) where
  header := inPlaceHeader
  body ptr c s :=
    match p ptr c.index s with
    | some (true, index, s) =>
      if c.write ≠ index then
        match s.load (s.data, index) with
        | some e => .goesOn (⟨index, c.write + 1⟩, s.write (s.data, c.write) e)
        | none => .left
      else .goesOn (⟨index, c.write + 1⟩, s)
    | some (false, index, s) => .goesOn ({ c with index := index }, s)
    | none => .left
  advance c := { c with index := c.index + 1 }

/-- The statement `*xs.upd(p)` evaluates `p` for the same indices and elements as `xs = xs.upd(p)`,
and leaves the same elements in `xs`. -/
def UpdAgrees (p : MethodCode α ρ α) (s : Store α ρ) : Prop :=
  ∀ trace o, Runs (updCopy p s.data s.len) ⟨0, []⟩ s trace o →
    ∃ o', Runs (updInPlace p) ⟨0, 0⟩ s trace o' ∧
      End.Alike (fun c _ _ s' => s'.contents = c.out) o o'

/-- The statement `*xs.filt(p)` evaluates `p` for the same indices and elements as
`xs = xs.filt(p)`, and leaves the same elements in `xs`.  Its last line sets the length of the
array to the index to write. -/
def FiltAgrees (p : MethodCode α ρ Bool) (s : Store α ρ) : Prop :=
  ∀ trace o, Runs (filtCopy p s.data s.len) ⟨0, []⟩ s trace o →
    ∃ o', Runs (filtInPlace p) ⟨0, 0⟩ s trace o' ∧
      End.Alike (fun c _ c' s' => { s' with len := c'.write }.contents = c.out) o o'

/-! ### Code that leaves the array alone -/

/-- The code of a method changes neither the index nor the array. -/
def KeepsArray {β : Type} (p : MethodCode α ρ β) : Prop :=
  ∀ ptr i s value i' s', p ptr i s = some (value, i', s') →
    i' = i ∧ s'.data = s.data ∧ s'.len = s.len ∧ s'.heap s.data = s.heap s.data

/-- The code of a method does the same, for the element at an index, when the block of the array
holds other elements. -/
def Unaffected {β : Type} (p : MethodCode α ρ β) (i : ℕ) (s : Store α ρ) (elems : List α) : Prop :=
  p (s.data, i) i (s.withBlock s.data elems) =
    (p (s.data, i) i s).map fun r => (r.1, r.2.1, r.2.2.withBlock s.data elems)

/-- Whenever `xs.upd(p)` evaluates `p`, it does the same when the elements before the index have
been replaced. -/
def UpdUnaffected (p : MethodCode α ρ α) (s : Store α ρ) : Prop :=
  ∀ n c s', after (updCopy p s.data s.len) n ⟨0, []⟩ s = some (c, s') → n < s.len →
    Unaffected p n s' (c.out ++ (s.heap s.data).drop n)

/-- Whenever `xs.filt(p)` evaluates `p`, it does the same when the elements that have been kept are
at the start of the array. -/
def FiltUnaffected (p : MethodCode α ρ Bool) (s : Store α ρ) : Prop :=
  ∀ n c s', after (filtCopy p s.data s.len) n ⟨0, []⟩ s = some (c, s') → n < s.len →
    Unaffected p n s' (c.out ++ (s.heap s.data).drop c.out.length)

@[simp] theorem heap_withBlock (s : Store α ρ) (loc : Loc) (elems : List α) :
  (s.withBlock loc elems).heap loc = elems
  := by
  simp [Store.withBlock]

@[simp] theorem data_withBlock (s : Store α ρ) (loc : Loc) (elems : List α) :
  (s.withBlock loc elems).data = s.data
  := rfl

@[simp] theorem len_withBlock (s : Store α ρ) (loc : Loc) (elems : List α) :
  (s.withBlock loc elems).len = s.len
  := rfl

@[simp] theorem withBlock_withBlock (s : Store α ρ) (loc : Loc) (elems elems' : List α) :
  (s.withBlock loc elems).withBlock loc elems' = s.withBlock loc elems'
  := by
  simp [Store.withBlock]

/-- One more iteration that goes on. -/
theorem after_snoc {κ φ ε σ : Type} {L : Loop κ φ ε σ} {n : ℕ} {c c₁ c₂ c₃ : κ} {s s₁ s₂ s₃ : σ}
    {e : ε} {x : φ} (h : after L n c s = some (c₁, s₁))
    (hheader : L.header c₁ s₁ = some (some (e, x, c₂), s₂))
    (hbody : L.body x c₂ s₂ = .goesOn (c₃, s₃)) :
  after L (n + 1) c s = some (L.advance c₃, s₃)
  := by
  rw [after_add, h]
  simp only [Option.bind_some]
  rw [after_succ_goesOn hheader hbody, after]

theorem copyHeader_some {data : Loc} {len : ℕ} {c c₁ : CopyCursor α} {s s₁ : Store α ρ}
    {e : ℕ × Option α} {x : ElementPtr} (h : copyHeader data len c s = some (some (e, x, c₁), s₁)) :
  c.index < len ∧ e = (c.index, s.load (data, c.index)) ∧ x = (data, c.index) ∧ c₁ = c ∧ s₁ = s
  := by
  simp only [copyHeader] at h
  split at h
  · rename_i hlt
    cases h
    exact ⟨hlt, rfl, rfl, rfl, rfl⟩
  · cases h

theorem copyHeader_none {data : Loc} {len : ℕ} {c : CopyCursor α} {s s₁ : Store α ρ}
    (h : copyHeader data len c s = some (none, s₁)) :
  len ≤ c.index ∧ s₁ = s
  := by
  simp only [copyHeader] at h
  split at h
  · cases h
  · rename_i hlt
    cases h
    exact ⟨not_lt.mp hlt, rfl⟩

theorem copyHeader_ne_none (data : Loc) (len : ℕ) (c : CopyCursor α) (s : Store α ρ) :
  copyHeader data len c s ≠ none
  := by
  unfold copyHeader
  split <;> simp

/-- The header of the loop in place binds the element that the one of the copy binds. -/
theorem inPlaceHeader_some {c : InPlaceCursor} {s s₁ : Store α ρ} {i : ℕ} (hindex : c.index = i)
    (hlt : i < s.len) (hload : s.load (s.data, i) = s₁.load (s.data, i)) :
  inPlaceHeader c s = some (some ((i, s₁.load (s.data, i)), (s.data, i), c), s)
  := by
  rw [inPlaceHeader, hindex, if_pos hlt, hload]

theorem inPlaceHeader_none {c : InPlaceCursor} {s : Store α ρ} (hle : s.len ≤ c.index) :
  inPlaceHeader c s = some (none, s)
  := by
  rw [inPlaceHeader, if_neg (not_lt.mpr hle)]

theorem set_append_drop {out block : List α} {n : ℕ} (hlength : out.length = n)
    (hn : n < block.length) (value : α) :
  (out ++ block.drop n).set n value = (out ++ [value]) ++ block.drop (n + 1)
  := by
  rw [List.drop_eq_getElem_cons hn, List.set_append_right n value (le_of_eq hlength), hlength,
    Nat.sub_self, List.set_cons_zero, List.append_assoc, List.singleton_append]

/-- The states of the two loops for `upd`: the block of the array in place starts with the values
that the copy has. -/
structure UpdStates (p : MethodCode α ρ α) (s : Store α ρ) (c : CopyCursor α) (s₁ : Store α ρ)
    (c' : InPlaceCursor) (s' : Store α ρ) : Prop where
  reached : after (updCopy p s.data s.len) c.index ⟨0, []⟩ s = some (c, s₁)
  length : c.out.length = c.index
  index : c'.index = c.index
  le : c.index ≤ s.len
  data : s₁.data = s.data
  len : s₁.len = s.len
  block : s₁.heap s.data = s.heap s.data
  states : s' = s₁.withBlock s.data (c.out ++ (s.heap s.data).drop c.index)

theorem UpdStates.header {p : MethodCode α ρ α} {s : Store α ρ} {c : CopyCursor α} {s₁ : Store α ρ}
    {c' : InPlaceCursor} {s' : Store α ρ} (hR : UpdStates p s c s₁ c' s') (hlt : c.index < s.len) :
  inPlaceHeader c' s' =
    some (some ((c.index, s₁.load (s.data, c.index)), (s.data, c.index), c'), s')
  := by
  have hdata : s'.data = s.data := by rw [hR.states, data_withBlock, hR.data]
  have hlen : s'.len = s.len := by rw [hR.states, len_withBlock, hR.len]
  have hload : s'.load (s'.data, c.index) = s₁.load (s'.data, c.index) := by
    rw [hdata, hR.states, Store.load, Store.load, heap_withBlock, hR.block, ← hR.length,
      List.getElem?_append_right (le_refl _), Nat.sub_self, List.getElem?_drop, Nat.add_zero]
  rw [← hdata]
  exact inPlaceHeader_some hR.index (by rw [hlen]; exact hlt) hload

theorem upd_simulates {p : MethodCode α ρ α} {s : Store α ρ} (hbounds : s.len ≤ (s.heap s.data).length)
    (hkeeps : KeepsArray p) (hunaffected : UpdUnaffected p s) :
  Simulates (updCopy p s.data s.len) (updInPlace p) (UpdStates p s)
    fun c _ _ s' => s'.contents = c.out
  := by
  constructor
  case done =>
    intro c s₁ c' s' s₂ hR hheader
    obtain ⟨hle, rfl⟩ := copyHeader_none hheader
    have hlen : s'.len = s.len := by rw [hR.states, len_withBlock, hR.len]
    refine ⟨s', inPlaceHeader_none (by rw [hlen, hR.index]; exact hle), ?_⟩
    have hlength : c.out.length = s.len := by
      rw [hR.length]
      exact le_antisymm hR.le hle
    rw [Store.contents, hlen, hR.states, data_withBlock, hR.data, heap_withBlock, ← hlength,
      List.take_left]
  case stopped =>
    intro c s₁ c' s' hR hheader
    exact absurd hheader (copyHeader_ne_none _ _ _ _)
  case left =>
    intro c s₁ c' s' e x c₁ s₂ hR hheader hbody
    obtain ⟨hlt, rfl, rfl, rfl, rfl⟩ := copyHeader_some hheader
    have hp : p (s.data, c₁.index) c₁.index s₂ = none := by
      cases hp : p (s.data, c₁.index) c₁.index s₂ with
      | none => rfl
      | some r => simp [updCopy, hp] at hbody
    have hp' := hunaffected c₁.index c₁ s₂ hR.reached hlt
    rw [Unaffected, hR.data, hp, ← hR.states] at hp'
    refine ⟨_, _, _, hR.header hlt, ?_⟩
    simp [updInPlace, hR.index, hp']
  case goesOn =>
    intro c s₁ c' s' e x c₁ s₂ c₂ s₃ hR hheader hbody
    have hreached := after_snoc hR.reached hheader hbody
    obtain ⟨hlt, rfl, rfl, rfl, rfl⟩ := copyHeader_some hheader
    cases hp : p (s.data, c₁.index) c₁.index s₂ with
    | none => simp [updCopy, hp] at hbody
    | some r =>
      obtain ⟨value, i, s₄⟩ := r
      obtain ⟨hi, hdata, hlen, hblock⟩ := hkeeps _ _ _ _ _ _ hp
      simp only [updCopy, hp, Completion.goesOn.injEq, Prod.mk.injEq] at hbody
      obtain ⟨rfl, rfl⟩ := hbody
      have hp' := hunaffected c₁.index c₁ s₂ hR.reached hlt
      rw [Unaffected, hR.data, hp, ← hR.states] at hp'
      rw [Option.map_some] at hp'
      have hset := set_append_drop hR.length (lt_of_lt_of_le hlt hbounds) value
      refine ⟨_, _, _, ⟨i, c'.write⟩,
        s₄.withBlock s.data ((c₁.out ++ [value]) ++ (s.heap s.data).drop (c₁.index + 1)),
        hR.header hlt, ?_, ?_⟩
      · simp only [updInPlace, hR.index, hp', Store.write, heap_withBlock, withBlock_withBlock, hset]
      · rw [hR.data] at hblock
        constructor
        case reached => rw [← hreached, hi, updCopy]
        case length => simp [updCopy, hR.length, hi]
        case index => rfl
        case le =>
          change i + 1 ≤ s.len
          rw [hi]
          exact hlt
        case data => rw [hdata, hR.data]
        case len => rw [hlen, hR.len]
        case block => rw [hblock, hR.block]
        case states => simp only [updCopy, hi]

/-- The states of the two loops for `filt`: the block of the array in place starts with the elements
that the copy has. -/
structure FiltStates (p : MethodCode α ρ Bool) (s : Store α ρ) (c : CopyCursor α) (s₁ : Store α ρ)
    (c' : InPlaceCursor) (s' : Store α ρ) : Prop where
  reached : after (filtCopy p s.data s.len) c.index ⟨0, []⟩ s = some (c, s₁)
  length : c.out.length = c'.write
  write : c'.write ≤ c.index
  index : c'.index = c.index
  le : c.index ≤ s.len
  data : s₁.data = s.data
  len : s₁.len = s.len
  block : s₁.heap s.data = s.heap s.data
  states : s' = s₁.withBlock s.data (c.out ++ (s.heap s.data).drop c.out.length)

/-- The elements behind those that have been kept are the ones of the array. -/
theorem getElem?_append_drop {out block : List α} {i : ℕ} (h : out.length ≤ i) :
  (out ++ block.drop out.length)[i]? = block[i]?
  := by
  rw [List.getElem?_append_right h, List.getElem?_drop]
  congr 1
  omega

theorem FiltStates.header {p : MethodCode α ρ Bool} {s : Store α ρ} {c : CopyCursor α}
    {s₁ : Store α ρ} {c' : InPlaceCursor} {s' : Store α ρ} (hR : FiltStates p s c s₁ c' s')
    (hlt : c.index < s.len) :
  inPlaceHeader c' s' =
    some (some ((c.index, s₁.load (s.data, c.index)), (s.data, c.index), c'), s')
  := by
  have hdata : s'.data = s.data := by rw [hR.states, data_withBlock, hR.data]
  have hlen : s'.len = s.len := by rw [hR.states, len_withBlock, hR.len]
  have hle : c.out.length ≤ c.index := by
    rw [hR.length]
    exact hR.write
  have hload : s'.load (s'.data, c.index) = s₁.load (s'.data, c.index) := by
    rw [hdata, hR.states, Store.load, Store.load, heap_withBlock, hR.block, getElem?_append_drop hle]
  rw [← hdata]
  exact inPlaceHeader_some hR.index (by rw [hlen]; exact hlt) hload

/-- An element that is kept is at the index to write afterwards. -/
theorem filtInPlace_body_true {p : MethodCode α ρ Bool} {s s₂ s₄ : Store α ρ} {c : CopyCursor α}
    {c' : InPlaceCursor} {s' : Store α ρ} {x : α} (hR : FiltStates p s c s₂ c' s')
    (hdata : s₄.data = s.data) (hx : (s.heap s.data)[c.index]? = some x)
    (hp : p (s.data, c.index) c.index s' =
      some (true, c.index, s₄.withBlock s.data (c.out ++ (s.heap s.data).drop c.out.length))) :
  (filtInPlace p).body (s.data, c.index) c' s' = .goesOn (⟨c.index, c'.write + 1⟩,
    s₄.withBlock s.data ((c.out ++ [x]) ++ (s.heap s.data).drop (c.out.length + 1)))
  := by
  obtain ⟨hbound, hget⟩ := List.getElem?_eq_some_iff.mp hx
  have hle : c.out.length ≤ c.index := by
    rw [hR.length]
    exact hR.write
  by_cases hmoves : c'.write = c.index
  · have hsame : c.out ++ (s.heap s.data).drop c.out.length =
        (c.out ++ [x]) ++ (s.heap s.data).drop (c.out.length + 1) := by
      rw [hR.length, hmoves, List.drop_eq_getElem_cons hbound, hget, List.append_assoc,
        List.singleton_append]
    simp only [filtInPlace, hR.index, hp, hmoves, ne_eq, not_true_eq_false, if_false, hsame]
  · have hset := set_append_drop (rfl : c.out.length = c.out.length) (lt_of_le_of_lt hle hbound) x
    simp only [filtInPlace, hR.index, hp, hmoves, ne_eq, not_false_eq_true, if_true, Store.load,
      data_withBlock, hdata, heap_withBlock, getElem?_append_drop hle, hx, Store.write,
      withBlock_withBlock]
    rw [← hR.length, hset]

theorem filt_simulates {p : MethodCode α ρ Bool} {s : Store α ρ}
    (hbounds : s.len ≤ (s.heap s.data).length) (hkeeps : KeepsArray p)
    (hunaffected : FiltUnaffected p s) :
  Simulates (filtCopy p s.data s.len) (filtInPlace p) (FiltStates p s)
    fun c _ c' s' => { s' with len := c'.write }.contents = c.out
  := by
  constructor
  case done =>
    intro c s₁ c' s' s₂ hR hheader
    obtain ⟨hle, rfl⟩ := copyHeader_none hheader
    have hlen : s'.len = s.len := by rw [hR.states, len_withBlock, hR.len]
    refine ⟨s', inPlaceHeader_none (by rw [hlen, hR.index]; exact hle), ?_⟩
    rw [Store.contents, ← hR.length]
    simp only [hR.states, data_withBlock, hR.data, heap_withBlock, List.take_left]
  case stopped =>
    intro c s₁ c' s' hR hheader
    exact absurd hheader (copyHeader_ne_none _ _ _ _)
  case left =>
    intro c s₁ c' s' e x c₁ s₂ hR hheader hbody
    obtain ⟨hlt, rfl, rfl, rfl, rfl⟩ := copyHeader_some hheader
    have hp : p (s.data, c₁.index) c₁.index s₂ = none := by
      cases hp : p (s.data, c₁.index) c₁.index s₂ with
      | none => rfl
      | some r =>
        obtain ⟨verdict, i, s₄⟩ := r
        obtain ⟨_, _, _, hblock⟩ := hkeeps _ _ _ _ _ _ hp
        rw [hR.data, hR.block] at hblock
        have hload : s₄.load (s.data, c₁.index) = some (s.heap s.data)[c₁.index] := by
          rw [Store.load, hblock]
          exact List.getElem?_eq_getElem (lt_of_lt_of_le hlt hbounds)
        cases verdict <;> simp [filtCopy, hp, hload] at hbody
    have hp' := hunaffected c₁.index c₁ s₂ hR.reached hlt
    rw [Unaffected, hR.data, hp, ← hR.states] at hp'
    refine ⟨_, _, _, hR.header hlt, ?_⟩
    simp [filtInPlace, hR.index, hp']
  case goesOn =>
    intro c s₁ c' s' e x c₁ s₂ c₂ s₃ hR hheader hbody
    have hreached := after_snoc hR.reached hheader hbody
    obtain ⟨hlt, rfl, rfl, rfl, rfl⟩ := copyHeader_some hheader
    cases hp : p (s.data, c₁.index) c₁.index s₂ with
    | none => simp [filtCopy, hp] at hbody
    | some r =>
      obtain ⟨verdict, i, s₄⟩ := r
      obtain ⟨hi, hdata, hlen, hblock⟩ := hkeeps _ _ _ _ _ _ hp
      rw [hR.data, hR.block] at hblock
      have hx : (s.heap s.data)[c₁.index]? = some (s.heap s.data)[c₁.index] :=
        List.getElem?_eq_getElem (lt_of_lt_of_le hlt hbounds)
      have hp' := hunaffected c₁.index c₁ s₂ hR.reached hlt
      rw [Unaffected, hR.data, hp, ← hR.states, Option.map_some] at hp'
      rw [hi] at hp' hp
      cases verdict with
      | true =>
        have hload : s₄.load (s.data, c₁.index) = some (s.heap s.data)[c₁.index] := by
          rw [Store.load, hblock, hx]
        simp only [filtCopy, hp, hload, Completion.goesOn.injEq, Prod.mk.injEq] at hbody
        obtain ⟨rfl, rfl⟩ := hbody
        refine ⟨_, _, _, _, _, hR.header hlt, filtInPlace_body_true hR (by rw [hdata, hR.data]) hx hp', ?_⟩
        constructor
        case reached => rw [← hreached, filtCopy]
        case length => simp [filtCopy, filtInPlace, hR.length]
        case write => exact Nat.succ_le_succ hR.write
        case index => rfl
        case le => exact hlt
        case data => rw [hdata, hR.data]
        case len => rw [hlen, hR.len]
        case block => exact hblock
        case states => simp [filtCopy]
      | false =>
        simp only [filtCopy, hp, Completion.goesOn.injEq, Prod.mk.injEq] at hbody
        obtain ⟨rfl, rfl⟩ := hbody
        refine ⟨_, _, _, ⟨c₁.index, c'.write⟩,
          s₄.withBlock s.data (c₁.out ++ (s.heap s.data).drop c₁.out.length), hR.header hlt, ?_, ?_⟩
        · simp only [filtInPlace, hR.index, hp']
        · constructor
          case reached => rw [← hreached, filtCopy]
          case length => exact hR.length
          case write => exact Nat.le_succ_of_le hR.write
          case index => rfl
          case le => exact hlt
          case data => rw [hdata, hR.data]
          case len => rw [hlen, hR.len]
          case block => exact hblock
          case states => rfl

/-- `*xs.upd(p)` does what `xs = xs.upd(p)` does when `p` leaves the array alone and is not affected
by the elements that have been replaced. -/
theorem updAgrees_of_unaffected {p : MethodCode α ρ α} {s : Store α ρ}
    (hbounds : s.len ≤ (s.heap s.data).length) (hkeeps : KeepsArray p)
    (hunaffected : UpdUnaffected p s) :
  UpdAgrees p s
  := by
  intro trace o hruns
  apply (upd_simulates hbounds hkeeps hunaffected).runs hruns
  constructor
  case reached => rfl
  case length => rfl
  case index => rfl
  case le => exact Nat.zero_le _
  case data => rfl
  case len => rfl
  case block => rfl
  case states => simp [Store.withBlock]

/-- `*xs.filt(p)` does what `xs = xs.filt(p)` does when `p` leaves the array alone and is not
affected by the elements that have been moved. -/
theorem filtAgrees_of_unaffected {p : MethodCode α ρ Bool} {s : Store α ρ}
    (hbounds : s.len ≤ (s.heap s.data).length) (hkeeps : KeepsArray p)
    (hunaffected : FiltUnaffected p s) :
  FiltAgrees p s
  := by
  intro trace o hruns
  apply (filt_simulates hbounds hkeeps hunaffected).runs hruns
  constructor
  case reached => rfl
  case length => rfl
  case write => exact le_refl 0
  case index => rfl
  case le => exact Nat.zero_le _
  case data => rfl
  case len => rfl
  case block => rfl
  case states => simp [Store.withBlock]

end Caster
