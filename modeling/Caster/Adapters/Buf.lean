import Caster.Json.Stringify
import Caster.Library.SlotTable

/-!
# The runtime of buffers

A buffer value holds a handle, an index into a table of slots, each of which owns a block with
the bytes that were written.  A byte of a block is unknown until it is written.  A function
fails, with `none`, where the program ends with a message, where it reads an unknown byte, and
where it reads or writes outside a block.
-/

namespace Caster.Buf

/-- A slot of the table.  It has no block if its capacity is zero. -/
structure Slot where
  data : List (Option UInt8) := []
  len : ℕ := 0
  cap : ℕ := 0
  alive : Bool := false
deriving DecidableEq

/-- The slots that have been handed out, and the number the table has room for. -/
structure Table where
  slots : List Slot := []
  cap : ℕ := 0

/-! ### Blocks -/

/-- A byte of a block is written. -/
def storeByte (data : List (Option UInt8)) (i : ℕ) (byte : UInt8) : Option (List (Option UInt8)) :=
  if i < data.length then some (data.set i (some byte)) else none

/-- Bytes are copied into a block. -/
def copyInto (data : List (Option UInt8)) (i : ℕ) (bytes : Bytes) : Option (List (Option UInt8)) :=
  if i + bytes.length ≤ data.length then
    some (data.take i ++ bytes.map some ++ data.drop (i + bytes.length))
  else none

/-- Bytes are copied out of a block. -/
def copyFrom (data : List (Option UInt8)) (len : ℕ) : Option Bytes :=
  if len ≤ data.length then (data.take len).mapM id else none

/-- A block of another size, which keeps the bytes there is room for. -/
def realloc (data : List (Option UInt8)) (size : ℕ) : List (Option UInt8) :=
  data.take size ++ List.replicate (size - data.length) none

/-! ### Slots -/

/-- The loop that doubles a capacity up to a needed one. -/
def doubled : ℕ → ℕ → ℕ → ℕ
  | 0, next, _ => next
  | n + 1, next, needed => if next < needed then doubled n (next * 2) needed else next

/-- The storage of a slot grows. -/
def reserve (slot : Slot) (needed : ℕ) : Slot :=
  if needed ≤ slot.cap then slot
  else
    let next := doubled needed (if slot.cap = 0 then 64 else slot.cap) needed
    let data := realloc slot.data (next + 1)
    { slot with data := if slot.len = 0 then data.set 0 (some 0) else data, cap := next }

/-- Bytes are appended to a slot. -/
def appendBytes (slot : Slot) (bytes : Bytes) : Option Slot := do
  if bytes.length = 0 then some slot
  else
    let slot := reserve slot (slot.len + bytes.length)
    let data ← copyInto slot.data slot.len bytes
    let len := slot.len + bytes.length
    let data ← storeByte data len 0
    some { slot with data, len }

/-! ### The table -/

/-- The slot behind the handle of a buffer, which is checked. -/
def bufSlot (table : Table) (handle : ℤ) : Option Slot := SlotTable.slot Slot.alive table.slots handle

theorem bufSlot_empty (handle : ℤ) : bufSlot {} handle = none := by
  unfold bufSlot SlotTable.slot
  split_ifs <;> rfl

/-- The slot behind a handle is written. -/
def setSlot (table : Table) (handle : ℤ) (slot : Slot) : Table :=
  { table with slots := table.slots.set (handle - 1).toNat slot }

/-- A slot is taken that is not in use, or the table grows. -/
def allocSlot (table : Table) : Option (ℤ × Table) :=
  match table.slots.findIdx? fun slot => !slot.alive with
  | some i => some (i + 1, { table with slots := table.slots.set i { alive := true } })
  | none =>
    let cap :=
      if table.slots.length = table.cap then if table.cap = 0 then 16 else table.cap * 2
      else table.cap
    if table.slots.length < cap then
      some (table.slots.length + 1, ⟨table.slots ++ [{ alive := true }], cap⟩)
    else none

/-! ### Operations -/

/-- What `%.17g` prints of the numbers of a type, in fewer bytes than the array it prints to. -/
structure FltFormat (F : Type) where
  text : F → Bytes
  text_lt : ∀ value, (text value).length < 128

/-- A value that is written. -/
inductive Value (F : Type) where
  | str (text : Bytes)
  | int (value : Int64)
  | flt (value : F)
  | bol (value : Bool)

/-- The decimal digits of a number. -/
def digits (n : ℕ) : Bytes := (Nat.toDigits 10 n).map fun c => c.toNat.toUInt8

/-- What `%lld` prints. -/
def intText (value : Int64) : Bytes :=
  if value.toInt < 0 then 45 :: digits value.toInt.natAbs else digits value.toInt.natAbs

/-- The bytes of an array of some size that `snprintf` has printed a text to, as far as it
reports. -/
def printed (size : ℕ) (text : Bytes) : Option Bytes :=
  if text.length ≤ size then some ((text.take (size - 1) ++ [0]).take text.length) else none

section

variable {F : Type} (format : FltFormat F)

/-- A value is written to a slot. -/
def writeValue (slot : Slot) : Value F → Option Slot
  | .str text => appendBytes slot text
  | .int value => do appendBytes slot (← printed 64 (intText value))
  | .flt value => do appendBytes slot (← printed 128 (format.text value))
  | .bol value => appendBytes slot (if value then [116, 114, 117, 101] else [102, 97, 108, 115, 101])

/-- The operations of a program on its buffers. -/
inductive Op (F : Type) where
  | new
  | write (handle : ℤ) (value : Value F)
  | line (handle : ℤ) (value : Value F)
  | clear (handle : ℤ)
  | toStr (handle : ℤ)
  | len (handle : ℤ)
  | free (handle : ℤ)

/-- What an operation returns, or leaves in the variable of a buffer. -/
inductive Result where
  | handle (handle : ℤ)
  | text (text : Bytes)
  | length (n : ℕ)
  | done
deriving DecidableEq

/-- An operation. -/
def step (table : Table) : Op F → Option (Result × Table)
  | .new => do
    let (handle, table) ← allocSlot table
    some (.handle handle, table)
  | .write handle value => do
    let slot ← writeValue format (← bufSlot table handle) value
    some (.done, setSlot table handle slot)
  | .line handle value => do
    let slot ← writeValue format (← bufSlot table handle) value
    let table := setSlot table handle slot
    let slot ← appendBytes (← bufSlot table handle) [10]
    some (.done, setSlot table handle slot)
  | .clear handle => do
    let slot ← bufSlot table handle
    let data ← if slot.data = [] then some slot.data else storeByte slot.data 0 0
    some (.done, setSlot table handle { slot with data, len := 0 })
  | .toStr handle => do
    let slot ← bufSlot table handle
    let text ← if 0 < slot.len then copyFrom slot.data slot.len else some []
    some (.text text, table)
  | .len handle => do
    let slot ← bufSlot table handle
    some (.length slot.len, table)
  | .free handle => do
    let _ ← bufSlot table handle
    some (.handle 0, setSlot table handle {})

end

end Caster.Buf
