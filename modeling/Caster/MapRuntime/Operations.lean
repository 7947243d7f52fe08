import Mathlib.Data.Finset.Basic
import Caster.Json.ObjMap

/-!
# The runtime of maps with string keys

The functions `emit_map_runtimes` prints for a type `MAP[STR,V]`, where `V` is a scalar type
or `STR`, over a heap.  A table owns a copy of every key it holds, and of every string among
its values.

A function fails, with `none`, where it reads a string after its block was freed or frees a
block twice.  The hash table may read the key of every item it holds.
-/

namespace Caster.MapRuntime

/-- A heap block. -/
abbrev BlockId := ℕ

/-- The blocks that are allocated and not freed.  Blocks are numbered in the order they are
allocated. -/
structure Heap where
  live : Finset BlockId
  next : BlockId

/-- A string with the block that holds its bytes, unless they are static. -/
structure Str where
  block : Option BlockId
  text : Bytes
deriving DecidableEq, Repr

/-- A value of a map, where `α` are the scalars. -/
inductive Value (α : Type) where
  | scalar (value : α)
  | str (value : Str)

/-- An entry of a map. -/
structure Entry (α : Type) where
  key : Str
  value : Value α

/-- The bytes of a string may be read. -/
def Readable (heap : Heap) (text : Str) : Prop := ∀ b ∈ text.block, b ∈ heap.live

instance (heap : Heap) (text : Str) : Decidable (Readable heap text) :=
  inferInstanceAs (Decidable (∀ b ∈ text.block, b ∈ heap.live))

/-! ### Strings -/

/-- A copy of a string in a block of its own. -/
def strCopy (text : Str) (heap : Heap) : Option (Str × Heap) :=
  if Readable heap text then
    some (⟨some heap.next, text.text⟩, ⟨insert heap.next heap.live, heap.next + 1⟩)
  else none

/-- The block of a string is freed. -/
def dropStr (text : Str) (heap : Heap) : Option Heap :=
  match text.block with
  | none => some heap
  | some b => if b ∈ heap.live then some ⟨heap.live.erase b, heap.next⟩ else none

section

variable {α : Type}

/-- The comparison function of a map type. -/
def compare (left right : Entry α) : ℤ := objmapCompare left.key.text right.key.text

/-- Two entries have one key. -/
def SameKey (left right : Entry α) : Prop := compare left right = 0

instance : DecidableRel (@SameKey α) := fun left right =>
  inferInstanceAs (Decidable (compare left right = 0))

/-- The copy of a value that `set_copy` stores. -/
def copyValue (value : Value α) (heap : Heap) : Option (Value α × Heap) :=
  match value with
  | .scalar a => some (.scalar a, heap)
  | .str text => (strCopy text heap).map fun (text, heap) => (.str text, heap)

/-- What is freed of a value. -/
def dropValue (value : Value α) (heap : Heap) : Option Heap :=
  match value with
  | .scalar _ => some heap
  | .str text => dropStr text heap

/-- An entry is freed, with its key and its value. -/
def dropEntry (entry : Entry α) (heap : Heap) : Option Heap := do
  let heap ← dropStr entry.key heap
  dropValue entry.value heap

/-- An entry is freed if there is one. -/
def dropReplaced (entry : Option (Entry α)) (heap : Heap) : Option Heap :=
  match entry with
  | none => some heap
  | some entry => dropEntry entry heap

/-- Entries are freed one after the other. -/
def dropEntries (entries : List (Entry α)) (heap : Heap) : Option Heap :=
  entries.foldlM (fun heap entry => dropEntry entry heap) heap

/-! ### Tables -/

variable (T : KeyedTable (Entry α) SameKey)

/-- A map value: the table, unless it is null. -/
abbrev Handle : Type := Option T.Table

variable {T}

/-- The entries in the order of an iteration over a map. -/
def Handle.entries (map : Handle T) : List (Entry α) :=
  match map with
  | none => []
  | some raw => T.iter raw

/-- The hash table may compare a key with every key of a table. -/
def Comparable (heap : Heap) (raw : T.Table) (key : Str) : Prop :=
  Readable heap key ∧ ∀ entry ∈ T.iter raw, Readable heap entry.key

instance (heap : Heap) (raw : T.Table) (key : Str) : Decidable (Comparable heap raw key) :=
  inferInstanceAs (Decidable (_ ∧ _))

/-- An entry is stored with copies of its strings, and the entry it replaces is freed. -/
def setCopy (raw : T.Table) (key : Str) (value : Value α) (heap : Heap) :
    Option (T.Table × Heap) := do
  let (key, heap) ← strCopy key heap
  let (value, heap) ← copyValue value heap
  if Comparable heap raw key then
    let (raw, replaced) := T.set raw ⟨key, value⟩
    let heap ← dropReplaced replaced heap
    some (raw, heap)
  else none

/-- Entries are stored one after the other. -/
def setCopies (raw : T.Table) (entries : List (Entry α)) (heap : Heap) :
    Option (T.Table × Heap) :=
  entries.foldlM (fun (raw, heap) entry => setCopy raw entry.key entry.value heap) (raw, heap)

/-- The map of a list of entries. -/
def make (T : KeyedTable (Entry α) SameKey) (entries : List (Entry α)) (heap : Heap) :
    Option (T.Table × Heap) :=
  setCopies T.new entries heap

/-- A copy of a map. -/
def clone (src : Handle T) (heap : Heap) : Option (T.Table × Heap) :=
  setCopies T.new src.entries heap

/-- A copy of a map with an entry. -/
def add (src : Handle T) (key : Str) (value : Value α) (heap : Heap) :
    Option (T.Table × Heap) := do
  let (dst, heap) ← clone src heap
  setCopy dst key value heap

/-- A copy of a map with the entries of another. -/
def join (left right : Handle T) (heap : Heap) : Option (T.Table × Heap) := do
  let (dst, heap) ← clone left heap
  setCopies dst right.entries heap

/-- The entry of a key.  A null table has none. -/
def find (src : Handle T) (key : Str) (probe : Value α) (heap : Heap) :
    Option (Option (Entry α)) :=
  match src with
  | none => some none
  | some raw => if Comparable heap raw key then some (T.get raw ⟨key, probe⟩) else none

/-- A copy of a map without a key. -/
def sub (src : Handle T) (key : Str) (probe : Value α) (heap : Heap) :
    Option (T.Table × Heap) := do
  let (dst, heap) ← clone src heap
  if Comparable heap dst key then
    let (dst, removed) := T.delete dst ⟨key, probe⟩
    let heap ← dropReplaced removed heap
    some (dst, heap)
  else none

/-- A map is freed. -/
def drop (value : Handle T) (heap : Heap) : Option Heap := dropEntries value.entries heap

/-- The length of a map. -/
def count (src : Handle T) : ℕ :=
  match src with
  | none => 0
  | some raw => T.count raw

end

end Caster.MapRuntime
