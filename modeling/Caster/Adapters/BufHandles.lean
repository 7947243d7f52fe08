import Caster.Adapters.Buf
import Caster.Library.Handles

/-!
# The table of buffers

The slots of buffers are a table of objects behind handles.  Each access starts with the check of
`flx_buf_slot`.
-/

namespace Caster.Buf

/-- What a program does with a buffer. -/
inductive Access (F : Type) where
  | write (value : Value F)
  | line (value : Value F)
  | clear
  | toStr
  | len

/-- An access through a handle. -/
def Access.op {F : Type} (handle : ℤ) : Access F → Op F
  | .write value => .write handle value
  | .line value => .line handle value
  | .clear => .clear handle
  | .toStr => .toStr handle
  | .len => .len handle

/-- A call that starts with the check of `flx_buf_slot`. -/
def checked {α : Type} (table : Table) (handle : ℤ) (call : Option α) :
    Except HandleTable.Failure α :=
  match bufSlot table handle with
  | none => .error .invalidHandle
  | some _ =>
    match call with
    | none => .error .other
    | some result => .ok result

theorem checked_invalid_iff {α : Type} (table : Table) (handle : ℤ) (call : Option α) :
  checked table handle call = .error .invalidHandle ↔ ¬ (bufSlot table handle).isSome
  := by
  unfold checked
  cases hslot : bufSlot table handle with
  | none => simp
  | some slot => cases call <;> simp

theorem checked_ok_iff {α : Type} {table : Table} {handle : ℤ} {call : Option α} {result : α} :
  checked table handle call = .ok result ↔ (bufSlot table handle).isSome ∧ call = some result
  := by
  unfold checked
  cases hslot : bufSlot table handle with
  | none => simp
  | some slot => cases call <;> simp

theorem reserve_alive (slot : Slot) (needed : ℕ) : (reserve slot needed).alive = slot.alive := by
  unfold reserve
  split_ifs <;> rfl

theorem appendBytes_alive {slot slot' : Slot} {bytes : Bytes}
    (h : appendBytes slot bytes = some slot') :
  slot'.alive = slot.alive
  := by
  unfold appendBytes at h
  split_ifs at h
  · rw [Option.some.inj h]
  · simp only [Option.bind_eq_bind, Option.bind_eq_some_iff, Option.some.injEq] at h
    obtain ⟨data, -, data', -, rfl⟩ := h
    exact reserve_alive slot _

variable {F : Type} (format : FltFormat F)

theorem writeValue_alive {slot slot' : Slot} {value : Value F}
    (h : writeValue format slot value = some slot') :
  slot'.alive = slot.alive
  := by
  cases value with
  | str text => exact appendBytes_alive h
  | int value =>
    obtain ⟨text, -, happend⟩ := Option.bind_eq_some_iff.mp h
    exact appendBytes_alive happend
  | flt value =>
    obtain ⟨text, -, happend⟩ := Option.bind_eq_some_iff.mp h
    exact appendBytes_alive happend
  | bol value => exact appendBytes_alive h

/-- A slot in use is written and stays in use. -/
theorem inUse_setSlot {table : Table} {handle : ℤ} {slot slot' : Slot}
    (hslot : bufSlot table handle = some slot) (halive : slot'.alive = slot.alive) (other : ℤ) :
  (bufSlot (setSlot table handle slot') other).isSome ↔ (bufSlot table other).isSome
  := by
  obtain ⟨_, _, _, hused⟩ := SlotTable.slot_eq_some_iff.mp hslot
  rw [bufSlot, setSlot, SlotTable.slot_set_of_some hslot]
  split_ifs with heq
  · rw [heq, hslot, Option.filter_some, if_pos (halive.trans hused)]
    exact iff_of_true rfl rfl
  · rfl

/-- An access leaves the slots in use that are. -/
theorem inUse_step {table table' : Table} {handle : ℤ} {access : Access F} {result : Result}
    (h : step format table (access.op handle) = some (result, table')) (other : ℤ) :
  (bufSlot table' other).isSome ↔ (bufSlot table other).isSome
  := by
  cases access with
  | write value =>
    simp only [Access.op, step, Option.bind_eq_bind, Option.bind_eq_some_iff, Option.some.injEq,
      Prod.mk.injEq] at h
    obtain ⟨slot, hslot, slot', hwrite, -, rfl⟩ := h
    exact inUse_setSlot hslot (writeValue_alive format hwrite) other
  | line value =>
    simp only [Access.op, step, Option.bind_eq_bind, Option.bind_eq_some_iff, Option.some.injEq,
      Prod.mk.injEq] at h
    obtain ⟨slot, hslot, slot', hwrite, slot₁, hslot₁, slot₁', happend, -, rfl⟩ := h
    rw [inUse_setSlot hslot₁ (appendBytes_alive happend)]
    exact inUse_setSlot hslot (writeValue_alive format hwrite) other
  | clear =>
    obtain ⟨slot, hslot, h⟩ := Option.bind_eq_some_iff.mp h
    split_ifs at h
    · obtain ⟨-, rfl⟩ := Prod.mk.inj (Option.some.inj h)
      apply inUse_setSlot hslot
      rfl
    · obtain ⟨data, -, hdata⟩ := Option.bind_eq_some_iff.mp h
      obtain ⟨-, rfl⟩ := Prod.mk.inj (Option.some.inj hdata)
      apply inUse_setSlot hslot
      rfl
  | toStr =>
    obtain ⟨slot, -, h⟩ := Option.bind_eq_some_iff.mp h
    split_ifs at h
    · obtain ⟨text, -, htext⟩ := Option.bind_eq_some_iff.mp h
      obtain ⟨-, rfl⟩ := Prod.mk.inj (Option.some.inj htext)
      rfl
    · obtain ⟨-, rfl⟩ := Prod.mk.inj (Option.some.inj h)
      rfl
  | len =>
    simp only [Access.op, step, Option.bind_eq_bind, Option.bind_eq_some_iff, Option.some.injEq,
      Prod.mk.injEq] at h
    obtain ⟨slot, -, -, rfl⟩ := h
    rfl

theorem allocSlot_eq {table table' : Table} {handle : ℤ}
    (h : allocSlot table = some (handle, table')) :
  handle = SlotTable.next Slot.alive table.slots ∧
    table'.slots = SlotTable.taken Slot.alive table.slots { alive := true }
  := by
  unfold allocSlot at h
  unfold SlotTable.next SlotTable.taken
  cases hfind : table.slots.findIdx? fun slot => !slot.alive with
  | some i =>
    rw [hfind] at h
    cases h
    exact ⟨rfl, rfl⟩
  | none =>
    rw [hfind] at h
    dsimp only at h
    split_ifs at h <;> cases h <;> exact ⟨rfl, rfl⟩

/-- The table of buffers. -/
def bufTable : HandleTable Unit (Access F) Result where
  Table := Table
  empty := {}
  inUse table handle := (bufSlot table handle).isSome
  next table := SlotTable.next Slot.alive table.slots
  make table _ := allocSlot table
  use table handle access := checked table handle (step format table (access.op handle))
  free table handle := checked table handle ((step format table (.free handle)).map Prod.snd)
  not_inUse_empty handle := by simp [bufSlot_empty]
  not_inUse_next table := by simp [bufSlot, SlotTable.slot_next fun _ h => h]
  next_ne_zero table := (SlotTable.next_pos Slot.alive table.slots).ne'
  make_handle table _ handle table' h := by
    obtain ⟨rfl, hslots⟩ := allocSlot_eq h
    refine ⟨rfl, fun other => ?_⟩
    rw [bufSlot, hslots, SlotTable.slot_taken]
    by_cases heq : other = SlotTable.next Slot.alive table.slots
    · simp [heq]
    · simp [heq, bufSlot]
  use_invalid table handle access := checked_invalid_iff table handle _
  use_inUse table handle access result table' h := inUse_step format (checked_ok_iff.mp h).2
  free_zero table table' h := by
    obtain ⟨hused, -⟩ := checked_ok_iff.mp h
    cases hused
  free_invalid table handle _ := checked_invalid_iff table handle _
  free_inUse table handle table' _ h other := by
    obtain ⟨hused, hstep⟩ := checked_ok_iff.mp h
    obtain ⟨slot, hslot⟩ := Option.isSome_iff_exists.mp hused
    simp only [step, hslot, Option.bind_eq_bind, Option.bind_some, Option.map_some,
      Option.some.injEq] at hstep
    rw [← hstep, bufSlot, setSlot, SlotTable.slot_set_of_some hslot]
    by_cases heq : other = handle
    · simp [heq]
    · simp [heq, bufSlot]

end Caster.Buf
