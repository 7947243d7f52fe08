import Caster.Syntax
import Caster.Value
import Caster.Json.Stringify
import Caster.Library.ForLoop

/-!
# Loops over a source

The C loops that `loop` statements over numbers, arrays, strings and maps are emitted as.  Their
headers hold the code of the source, which is executed again for every iteration.
-/

namespace Caster

open ForLoop

/-- The sources a loop goes through. -/
inductive LoopSource where
  | count
  | array
  | str
  /-- A map, open or not. -/
  | map
deriving DecidableEq, Repr

/-- The lowerings that go through a source. -/
def LoopKind.source : LoopKind → Option LoopSource
  | .count => some .count
  | .array => some .array
  | .str => some .str
  | .map | .openMap => some .map
  | .range | .condition => none

/-- The header of an array. -/
structure ArrHeader where
  data : Loc
  len : ℤ
deriving DecidableEq, Repr

/-- What a header binds for its body besides the index: a pointer to an element of a block, a
character, or a pointer to a bucket of a table. -/
inductive Frame where
  | count
  | array (data : Loc) (index : ℤ)
  | str (ch : UInt8)
  | map (raw : Loc) (bucket : ℕ)
deriving DecidableEq, Repr

/-- What the C code around a loop does in a state.  The elements of arrays are of type `α`, the
entries of maps of type `β`.  Code that has no result stops the program. -/
structure Meaning (σ α β : Type) where
  evalInt : Expr → σ → Option (ℤ × σ)
  evalStr : Expr → σ → Option (Bytes × σ)
  evalArr : Expr → σ → Option (ArrHeader × σ)
  /-- The table of a map, unless it is null. -/
  evalMap : Expr → σ → Option (Option Loc × σ)
  /-- The element at an index of a block. -/
  element : σ → Loc → ℤ → Option α
  /-- The buckets of a table, with the entries in them. -/
  buckets : σ → Loc → Option (List (Option β))
  /-- The code of a block, in which the index is a variable. -/
  block : List Stmt → Frame → ℤ → σ → Completion (ℤ × σ)

/-- An index with the element it is for. -/
inductive Bound (α β : Type) where
  | count (i : ℤ)
  | array (i : ℤ) (e : α)
  | str (i : ℤ) (e : UInt8)
  | map (i : ℤ) (entry : β)
deriving DecidableEq, Repr

/-- The variables of a loop that its source is gone through with: the index, and the bucket that
`hashmap_iter` looks at next. -/
structure Cursor where
  index : ℤ
  iter : ℕ
deriving DecidableEq, Repr

/-- The character `flx_str_char_at` returns. -/
def strCharAt (text : Bytes) (index : ℤ) : Option UInt8 :=
  if index < 0 then none else text[index.toNat]?

/-- The first entry of some buckets, with its bucket. -/
def firstEntry {β : Type} : List (Option β) → ℕ → Option (β × ℕ)
  | [], _ => none
  | some entry :: _, bucket => some (entry, bucket)
  | none :: buckets, bucket => firstEntry buckets (bucket + 1)

/-- The entry `hashmap_iter` comes to from a bucket on, with its bucket. -/
def hashmapIter {β : Type} (buckets : List (Option β)) (iter : ℕ) : Option (β × ℕ) :=
  firstEntry (buckets.drop iter) iter

section

variable {σ α β : Type} (M : Meaning σ α β)

/-- The header of the loop that `emit_stmt` prints, with the first lines of its body. -/
def loopHeader : LoopSource → Expr → Cursor → σ → Option (Option (Bound α β × Frame × Cursor) × σ)
  | .count, arg, c, s => do
    let (n, s) ← M.evalInt arg s
    if c.index < n then some (some (.count c.index, .count, c), s)
    else some (none, s)
  | .array, arg, c, s => do
    let (obj, s) ← M.evalArr arg s
    if c.index < obj.len then
      let (obj, s) ← M.evalArr arg s
      let e ← M.element s obj.data c.index
      some (some (.array c.index e, .array obj.data c.index, c), s)
    else some (none, s)
  | .str, arg, c, s => do
    let (obj, s) ← M.evalStr arg s
    if c.index < obj.length then
      let (obj, s) ← M.evalStr arg s
      let e ← strCharAt obj c.index
      some (some (.str c.index e, .str e, c), s)
    else some (none, s)
  | .map, arg, c, s => do
    let (raw, s) ← M.evalMap arg s
    if raw.isSome then
      let (raw, s) ← M.evalMap arg s
      let raw ← raw
      let buckets ← M.buckets s raw
      match hashmapIter buckets c.iter with
      | some (entry, bucket) =>
        some (some (.map c.index entry, .map raw bucket, { c with iter := bucket + 1 }), s)
      | none => some (none, s)
    else some (none, s)

/-- The loop that `emit_stmt` prints. -/
def emitLoop (source : LoopSource) (arg : Expr) (body : List Stmt) : Loop Cursor Frame (Bound α β) σ where
  header := loopHeader M source arg
  body frame c s :=
    match M.block body frame c.index s with
    | .goesOn (i, s) => .goesOn ({ c with index := i }, s)
    | .left => .left
  advance c := { c with index := c.index + 1 }

/-- The iterations that the value of a source determines. -/
def sourceElements : LoopSource → Expr → σ → Option (List (Bound α β))
  | .count, arg, s => do
    let (n, _) ← M.evalInt arg s
    some ((List.range n.toNat).map fun i : ℕ => .count i)
  | .array, arg, s => do
    let (obj, s) ← M.evalArr arg s
    (List.range obj.len.toNat).mapM fun i : ℕ => do
      let e ← M.element s obj.data i
      some (.array i e)
  | .str, arg, s => do
    let (text, _) ← M.evalStr arg s
    some (text.mapIdx fun i e => .str i e)
  | .map, arg, s => do
    let (raw, s) ← M.evalMap arg s
    match raw with
    | some raw =>
      let buckets ← M.buckets s raw
      some ((buckets.filterMap id).mapIdx fun i entry => .map i entry)
    | none => some []

/-- A loop over a source makes exactly the iterations that the value the source has beforehand
determines. -/
def FollowsSource (kind : LoopKind) (arg : Expr) (body : List Stmt) (s : σ) : Prop :=
  ∀ source ∈ kind.source, ∀ elements, sourceElements M source arg s = some elements →
    ForLoop.Follows (emitLoop M source arg body) elements ⟨0, 0⟩ s

/-- The source, when the header reads it again, has a given element next, or none. -/
def Rereads : LoopSource → Expr → Cursor → σ → Option (Bound α β) → Prop
  | .count, arg, c, s, none => ∃ n s', M.evalInt arg s = some (n, s') ∧ n ≤ c.index
  | .count, arg, c, s, some b => ∃ n s', M.evalInt arg s = some (n, s') ∧ c.index < n ∧ .count c.index = b
  | .array, arg, c, s, none => ∃ obj s', M.evalArr arg s = some (obj, s') ∧ obj.len ≤ c.index
  | .array, arg, c, s, some b => ∃ obj s' obj' s'' e, M.evalArr arg s = some (obj, s') ∧
      c.index < obj.len ∧ M.evalArr arg s' = some (obj', s'') ∧
      M.element s'' obj'.data c.index = some e ∧ .array c.index e = b
  | .str, arg, c, s, none => ∃ text s', M.evalStr arg s = some (text, s') ∧ text.length ≤ c.index
  | .str, arg, c, s, some b => ∃ text s' text' s'' e, M.evalStr arg s = some (text, s') ∧
      c.index < text.length ∧ M.evalStr arg s' = some (text', s'') ∧
      strCharAt text' c.index = some e ∧ .str c.index e = b
  | .map, arg, c, s, none => ∃ raw s', M.evalMap arg s = some (raw, s') ∧
      (raw = none ∨ ∃ raw' s'' buckets, raw.isSome ∧ M.evalMap arg s' = some (some raw', s'') ∧
        M.buckets s'' raw' = some buckets ∧ hashmapIter buckets c.iter = none)
  | .map, arg, c, s, some b => ∃ raw s' raw' s'' buckets entry bucket,
      M.evalMap arg s = some (some raw, s') ∧ M.evalMap arg s' = some (some raw', s'') ∧
      M.buckets s'' raw' = some buckets ∧ hashmapIter buckets c.iter = some (entry, bucket) ∧
      .map c.index entry = b

theorem binds_count_iff (arg : Expr) (body : List Stmt) (bound : Option (Bound α β)) (c : Cursor)
    (s : σ) :
  Binds (emitLoop M .count arg body) bound c s ↔ Rereads M .count arg c s bound
  := by
  unfold Binds
  cases hn : M.evalInt arg s with
  | none => cases bound <;> simp [emitLoop, loopHeader, Rereads, hn]
  | some read =>
    obtain ⟨n, s'⟩ := read
    by_cases hlt : c.index < n
    · cases bound <;> simp [emitLoop, loopHeader, Rereads, hn, hlt]
    · have hle := not_lt.mp hlt
      cases bound <;> simp [emitLoop, loopHeader, Rereads, hn, hlt, hle]

theorem binds_array_iff (arg : Expr) (body : List Stmt) (bound : Option (Bound α β)) (c : Cursor)
    (s : σ) :
  Binds (emitLoop M .array arg body) bound c s ↔ Rereads M .array arg c s bound
  := by
  unfold Binds
  cases hobj : M.evalArr arg s with
  | none => cases bound <;> simp [emitLoop, loopHeader, Rereads, hobj]
  | some read =>
    obtain ⟨obj, s'⟩ := read
    by_cases hlt : c.index < obj.len
    · cases hobj' : M.evalArr arg s' with
      | none => cases bound <;> simp [emitLoop, loopHeader, Rereads, hobj, hobj', hlt]
      | some read' =>
        obtain ⟨obj', s''⟩ := read'
        cases he : M.element s'' obj'.data c.index with
        | none => cases bound <;> simp [emitLoop, loopHeader, Rereads, hobj, hobj', he, hlt]
        | some e => cases bound <;> simp [emitLoop, loopHeader, Rereads, hobj, hobj', he, hlt]
    · have hle := not_lt.mp hlt
      cases bound <;> simp [emitLoop, loopHeader, Rereads, hobj, hlt, hle]

theorem binds_str_iff (arg : Expr) (body : List Stmt) (bound : Option (Bound α β)) (c : Cursor)
    (s : σ) :
  Binds (emitLoop M .str arg body) bound c s ↔ Rereads M .str arg c s bound
  := by
  unfold Binds
  cases htext : M.evalStr arg s with
  | none => cases bound <;> simp [emitLoop, loopHeader, Rereads, htext]
  | some read =>
    obtain ⟨text, s'⟩ := read
    by_cases hlt : c.index < text.length
    · cases htext' : M.evalStr arg s' with
      | none => cases bound <;> simp [emitLoop, loopHeader, Rereads, htext, htext', hlt]
      | some read' =>
        obtain ⟨text', s''⟩ := read'
        cases he : strCharAt text' c.index with
        | none => cases bound <;> simp [emitLoop, loopHeader, Rereads, htext, htext', he, hlt]
        | some e => cases bound <;> simp [emitLoop, loopHeader, Rereads, htext, htext', he, hlt]
    · have hle := not_lt.mp hlt
      cases bound <;> simp [emitLoop, loopHeader, Rereads, htext, hlt, hle]

theorem binds_map_iff (arg : Expr) (body : List Stmt) (bound : Option (Bound α β)) (c : Cursor)
    (s : σ) :
  Binds (emitLoop M .map arg body) bound c s ↔ Rereads M .map arg c s bound
  := by
  unfold Binds
  cases hraw : M.evalMap arg s with
  | none => cases bound <;> simp [emitLoop, loopHeader, Rereads, hraw]
  | some read =>
    obtain ⟨raw, s'⟩ := read
    cases raw with
    | none => cases bound <;> simp [emitLoop, loopHeader, Rereads, hraw]
    | some raw =>
      cases hraw' : M.evalMap arg s' with
      | none => cases bound <;> simp [emitLoop, loopHeader, Rereads, hraw, hraw']
      | some read' =>
        obtain ⟨raw', s''⟩ := read'
        cases raw' with
        | none => cases bound <;> simp [emitLoop, loopHeader, Rereads, hraw, hraw']
        | some raw' =>
          cases hbuckets : M.buckets s'' raw' with
          | none => cases bound <;> simp [emitLoop, loopHeader, Rereads, hraw, hraw', hbuckets]
          | some buckets =>
            cases hiter : hashmapIter buckets c.iter with
            | none =>
              cases bound <;> simp [emitLoop, loopHeader, Rereads, hraw, hraw', hbuckets, hiter]
            | some found =>
              obtain ⟨entry, bucket⟩ := found
              cases bound <;> simp [emitLoop, loopHeader, Rereads, hraw, hraw', hbuckets, hiter]

/-- The header binds what the source has next when it is read again. -/
theorem binds_iff (source : LoopSource) (arg : Expr) (body : List Stmt)
    (bound : Option (Bound α β)) (c : Cursor) (s : σ) :
  Binds (emitLoop M source arg body) bound c s ↔ Rereads M source arg c s bound
  := by
  cases source with
  | count => exact binds_count_iff M arg body bound c s
  | array => exact binds_array_iff M arg body bound c s
  | str => exact binds_str_iff M arg body bound c s
  | map => exact binds_map_iff M arg body bound c s

theorem getElem?_of_mapM {ι γ : Type} {f : ι → Option γ} {l : List ι} {l' : List γ}
    (h : l.mapM f = some l') (n : ℕ) :
  l'[n]? = l[n]?.bind f
  := by
  induction l generalizing l' n with
  | nil =>
    cases h
    rfl
  | cons a l ih =>
    rw [List.mapM_cons] at h
    cases hf : f a with
    | none => simp [hf] at h
    | some b =>
      cases hl : l.mapM f with
      | none => simp [hf, hl] at h
      | some bs =>
        have heq : b :: bs = l' := by simpa [hf, hl] using h
        rw [← heq]
        cases n with
        | zero => simp [hf]
        | succ n => simpa using ih hl n

/-- A loop over an array makes its iterations when evaluating the source and running the body leave
the header of the array, its elements and the index alone. -/
theorem followsSource_of_kept (arg : Expr) (body : List Stmt) (obj : ArrHeader) (elems : List α)
    (hlen : obj.len = elems.length) (Kept : σ → Prop)
    (harr : ∀ s, Kept s → ∃ s', M.evalArr arg s = some (obj, s') ∧ Kept s')
    (hload : ∀ s, Kept s → ∀ i : ℕ, M.element s obj.data i = elems[i]?)
    (hbody : ∀ frame i s i' s', Kept s → M.block body frame i s = .goesOn (i', s') → i' = i ∧ Kept s')
    {s : σ} (hs : Kept s) :
  FollowsSource M .array arg body s
  := by
  rintro source hsource elements helements
  cases hsource
  obtain ⟨s₁, heval, hs₁⟩ := harr s hs
  have hnth : ∀ n : ℕ, elements[n]? = elems[n]?.map fun e => Bound.array (n : ℤ) e := by
    simp only [sourceElements, heval, Option.bind_eq_bind, Option.bind_some] at helements
    intro n
    rw [getElem?_of_mapM helements n, hlen, Int.toNat_natCast]
    by_cases hn : n < elems.length
    · simp [hn, hload s₁ hs₁]
    · simp [hn]
  apply follows_of_invariant (fun n c s => c.index = (n : ℤ) ∧ Kept s)
  · rintro n c s ⟨hindex, hkept⟩ _
    obtain ⟨s', heval, hs'⟩ := harr s hkept
    obtain ⟨s'', heval', hs''⟩ := harr s' hs'
    rw [binds_iff, hnth]
    by_cases hn : n < elems.length
    · have he : elems[n]? = some elems[n] := List.getElem?_eq_getElem hn
      rw [he]
      refine ⟨obj, s', obj, s'', elems[n], heval, ?_, heval', ?_, ?_⟩
      · rw [hindex, hlen]
        exact Int.ofNat_lt.mpr hn
      · rw [hindex, hload s'' hs'', he]
      · rw [hindex]
    · have he : elems[n]? = none := List.getElem?_eq_none (not_lt.mp hn)
      rw [he]
      refine ⟨obj, s', heval, ?_⟩
      rw [hindex, hlen]
      exact Int.ofNat_le.mpr (not_lt.mp hn)
  · rintro n c s e x c' s' c'' s'' ⟨hindex, hkept⟩ hheader hgoesOn
    obtain ⟨s₁, heval, hs₁⟩ := harr s hkept
    obtain ⟨s₂, heval', hs₂⟩ := harr s₁ hs₁
    have hbound : c' = c ∧ s' = s₂ := by
      simp only [emitLoop, loopHeader, heval, heval', Option.bind_eq_bind, Option.bind_some]
        at hheader
      split at hheader
      · cases he : M.element s₂ obj.data c.index with
        | none => simp [he] at hheader
        | some e' =>
          simp only [he, Option.bind_some, Option.some.injEq, Prod.mk.injEq] at hheader
          exact ⟨hheader.1.2.2.symm, hheader.2.symm⟩
      · simp at hheader
    rw [hbound.1, hbound.2] at hgoesOn
    cases hblock : M.block body x c.index s₂ with
    | left => simp [emitLoop, hblock] at hgoesOn
    | goesOn next =>
      obtain ⟨i, s₃⟩ := next
      obtain ⟨hi, hs₃⟩ := hbody x c.index s₂ i s₃ hs₂ hblock
      simp only [emitLoop, hblock, Completion.goesOn.injEq, Prod.mk.injEq] at hgoesOn
      obtain ⟨hc, hs⟩ := hgoesOn
      rw [← hc, ← hs]
      constructor
      · simp [emitLoop, hi, hindex]
      · exact hs₃
  · exact ⟨rfl, hs⟩

/-- The meaning of `loop([xs])(*xs + 1)`, where the state is the array `xs`. -/
def appendMeaning : Meaning (List ℤ) ℤ Unit where
  evalInt _ _ := none
  evalStr _ _ := none
  evalArr _ xs := some (⟨0, xs.length⟩, xs)
  evalMap _ _ := none
  element xs _ i := xs[i.toNat]?
  buckets _ _ := none
  block _ _ i xs := .goesOn (i, xs ++ [1])

/-- The body `*xs + 1`. -/
def appendOne : List Stmt :=
  let xs : Expr := .name (Info.ofType (.ARR .INT)) "xs"
  [.exprStmt (.binary (Info.ofType .NUL) .add (.unary (Info.ofType (.ARR .INT)) .deref xs)
    (.int (Info.ofType .INT) 1))]

end

end Caster
