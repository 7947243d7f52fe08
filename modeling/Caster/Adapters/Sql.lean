import Caster.Json.Stringify
import Caster.Library.Handles
import Caster.Library.SlotTable

/-!
# The runtime of databases

A value `FLX_SQL_DB` holds a handle, an index into a table of slots with a connection each.  What
SQLite does with a connection is a parameter.
-/

namespace Caster.Sql

/-- What the adapter uses of SQLite.  Each function fails where the program ends with its
message. -/
structure Sqlite (F : Type) where
  Connection : Type
  openV2 : Bytes → Option Connection
  /-- A statement is run with parameters to its end; the rows it changed and the last row
  identifier. -/
  exec : Connection → Bytes → Dyn F → Option ((ℤ × ℤ) × Connection)
  /-- A statement is run with parameters to its end; the rows it yields. -/
  query : Connection → Bytes → Dyn F → Option (List (Dyn F) × Connection)

/-- A slot of the table. -/
structure Slot (C : Type) where
  raw : Option C := none
  alive : Bool := false

/-- The slots that have been handed out, and the number the table has room for. -/
structure Table (C : Type) where
  slots : List (Slot C) := []
  cap : ℕ := 0

section

variable {C : Type}

/-- A slot with a connection that is in use. -/
def Slot.usable (slot : Slot C) : Bool := slot.alive && slot.raw.isSome

/-- The connection behind the handle of a database, which is checked. -/
def sqlSlot (table : Table C) (handle : ℤ) : Option C := do
  let slot ← SlotTable.slot Slot.usable table.slots handle
  slot.raw

/-- The slot behind a handle is written. -/
def setSlot (table : Table C) (handle : ℤ) (slot : Slot C) : Table C :=
  { table with slots := table.slots.set (handle - 1).toNat slot }

/-- A slot is taken that is not in use, or the table grows. -/
def allocSlot (table : Table C) (raw : C) : Option (ℤ × Table C) :=
  match table.slots.findIdx? fun slot => !slot.alive with
  | some i => some (i + 1, { table with slots := table.slots.set i ⟨some raw, true⟩ })
  | none =>
    let cap :=
      if table.slots.length = table.cap then if table.cap = 0 then 16 else table.cap * 2
      else table.cap
    if table.slots.length < cap then
      some (table.slots.length + 1, ⟨table.slots ++ [⟨some raw, true⟩], cap⟩)
    else none

end

section

variable {F : Type} (sqlite : Sqlite F)

/-- `SQL.open`. -/
def sqlOpen (table : Table sqlite.Connection) (path : Bytes) :
    Option (ℤ × Table sqlite.Connection) := do
  allocSlot table (← sqlite.openV2 path)

/-- What a program does with a database. -/
inductive Access (F : Type) where
  | exec (sql : Bytes) (params : Dyn F)
  | query (sql : Bytes) (params : Dyn F)

/-- What an access returns. -/
inductive Result (F : Type) where
  | exec (rows lastId : ℤ)
  | rows (rows : List (Dyn F))

/-- An access to a connection. -/
def run (raw : sqlite.Connection) : Access F → Option (Result F × sqlite.Connection)
  | .exec sql params => (sqlite.exec raw sql params).map fun (out, raw) => (.exec out.1 out.2, raw)
  | .query sql params => (sqlite.query raw sql params).map fun (rows, raw) => (.rows rows, raw)

/-- `SQL.exec` and `SQL.query`. -/
def sqlUse (table : Table sqlite.Connection) (handle : ℤ) (access : Access F) :
    Except HandleTable.Failure (Result F × Table sqlite.Connection) :=
  match sqlSlot table handle with
  | none => .error .invalidHandle
  | some raw =>
    match run sqlite raw access with
    | none => .error .other
    | some (result, raw) => .ok (result, setSlot table handle ⟨some raw, true⟩)

/-- `SQL.close`. -/
def sqlClose {C : Type} (table : Table C) (handle : ℤ) : Except HandleTable.Failure (Table C) :=
  if handle = 0 then .ok table
  else
    match sqlSlot table handle with
    | none => .error .invalidHandle
    | some _ => .ok (setSlot table handle {})

end

/-! ### The table -/

section

variable {C : Type} {table : Table C} {handle : ℤ}

theorem sqlSlot_isSome_iff :
  (sqlSlot table handle).isSome ↔ (SlotTable.slot Slot.usable table.slots handle).isSome
  := by
  unfold sqlSlot
  cases hslot : SlotTable.slot Slot.usable table.slots handle with
  | none => rfl
  | some slot =>
    obtain ⟨_, _, _, husable⟩ := SlotTable.slot_eq_some_iff.mp hslot
    have hraw := ((Bool.and_eq_true _ _).mp husable).2
    simp [hraw]

theorem inUse_setSlot (h : (sqlSlot table handle).isSome) (slot : Slot C) (other : ℤ) :
  (sqlSlot (setSlot table handle slot) other).isSome ↔
    if other = handle then slot.usable = true else (sqlSlot table other).isSome
  := by
  rw [sqlSlot_isSome_iff] at h
  obtain ⟨old, hold⟩ := Option.isSome_iff_exists.mp h
  rw [sqlSlot_isSome_iff, setSlot, SlotTable.slot_set_of_some hold]
  split_ifs with heq
  · cases husable : slot.usable <;> simp [Option.filter, husable]
  · rw [sqlSlot_isSome_iff]

theorem allocSlot_eq {table' : Table C} {raw : C}
    (h : allocSlot table raw = some (handle, table')) :
  handle = SlotTable.next Slot.alive table.slots ∧
    table'.slots = SlotTable.taken Slot.alive table.slots ⟨some raw, true⟩
  := by
  unfold allocSlot at h
  unfold SlotTable.next SlotTable.taken
  cases hfind : table.slots.findIdx? fun slot => !slot.alive with
  | some i =>
    rw [hfind] at h
    cases h
    exact ⟨rfl, rfl⟩
  | none =>
    rw [hfind] at h
    dsimp only at h
    split_ifs at h <;> cases h <;> exact ⟨rfl, rfl⟩

theorem alive_of_usable (slot : Slot C) (h : slot.usable = true) : slot.alive = true :=
  ((Bool.and_eq_true _ _).mp h).1

theorem sqlSlot_empty (handle : ℤ) : sqlSlot ({} : Table C) handle = none := by
  unfold sqlSlot SlotTable.slot
  split_ifs <;> rfl

end

variable {F : Type} (sqlite : Sqlite F)

/-- The table of connections. -/
def sqlTable : HandleTable Bytes (Access F) (Result F) where
  Table := Table sqlite.Connection
  empty := {}
  inUse table handle := (sqlSlot table handle).isSome
  next table := SlotTable.next Slot.alive table.slots
  make table path := sqlOpen sqlite table path
  use table handle access := sqlUse sqlite table handle access
  free table handle := sqlClose table handle
  not_inUse_empty handle := by simp [sqlSlot_empty]
  not_inUse_next table := by simp [sqlSlot_isSome_iff, SlotTable.slot_next alive_of_usable]
  next_ne_zero table := (SlotTable.next_pos Slot.alive table.slots).ne'
  make_handle table path handle table' h := by
    obtain ⟨raw, -, halloc⟩ := Option.bind_eq_some_iff.mp h
    obtain ⟨rfl, hslots⟩ := allocSlot_eq halloc
    refine ⟨rfl, fun other => ?_⟩
    rw [sqlSlot_isSome_iff, hslots, SlotTable.slot_taken, sqlSlot_isSome_iff]
    by_cases heq : other = SlotTable.next Slot.alive table.slots
    · simp [heq, Option.filter, Slot.usable]
    · simp [heq]
  use_invalid table handle access := by
    unfold sqlUse
    cases hslot : sqlSlot table handle with
    | none => simp
    | some raw =>
      dsimp only
      cases hrun : run sqlite raw access <;> simp
  use_inUse table handle access result table' h other := by
    unfold sqlUse at h
    cases hslot : sqlSlot table handle with
    | none => simp [hslot] at h
    | some raw =>
      have hused : (sqlSlot table handle).isSome := by rw [hslot]; rfl
      rw [hslot] at h
      dsimp only at h
      cases hrun : run sqlite raw access with
      | none => simp [hrun] at h
      | some out =>
        rw [hrun] at h
        cases h
        rw [inUse_setSlot hused]
        split_ifs with heq
        · rw [heq]
          simp [Slot.usable, hused]
        · rfl
  free_zero table table' h := by
    rw [sqlClose, if_pos rfl] at h
    exact (Except.ok.inj h).symm
  free_invalid table handle hne := by
    rw [sqlClose, if_neg hne]
    cases hslot : sqlSlot table handle <;> simp
  free_inUse table handle table' hne h other := by
    rw [sqlClose, if_neg hne] at h
    cases hslot : sqlSlot table handle with
    | none => simp [hslot] at h
    | some raw =>
      have hused : (sqlSlot table handle).isSome := by rw [hslot]; rfl
      rw [hslot] at h
      cases h
      rw [inUse_setSlot hused]
      by_cases heq : other = handle
      · simp [heq, Slot.usable]
      · simp [heq]

end Caster.Sql
