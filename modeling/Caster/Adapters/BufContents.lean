import Caster.Adapters.Buf

/-!
# Buffers are texts

A run of operations on buffers, each on a handle that was returned and not freed since, does
not fail.  What it reads of a buffer is what was written to it, and a handle is not returned
again before it is freed.
-/

namespace Caster.Buf

/-! ### Blocks -/

theorem take_copied {data : List (Option UInt8)} {i : ℕ} (bytes : Bytes) (hi : i ≤ data.length) :
  (data.take i ++ bytes.map some ++ data.drop (i + bytes.length)).take (i + bytes.length) =
    data.take i ++ bytes.map some
  := by
  have hlength : (data.take i ++ bytes.map some).length = i + bytes.length := by
    rw [List.length_append, List.length_take, List.length_map, Nat.min_eq_left hi]
  rw [List.take_append_of_le_length hlength.ge, List.take_of_length_le hlength.le]

theorem take_set_of_le {data : List (Option UInt8)} {i n : ℕ} (h : n ≤ i) (byte : Option UInt8) :
  (data.set i byte).take n = data.take n
  := by
  rw [List.take_set, List.set_eq_of_length_le]
  rw [List.length_take]
  omega

theorem mapM_map_some (bytes : Bytes) : (bytes.map some).mapM id = some bytes := by
  induction bytes with
  | nil => rfl
  | cons byte bytes ih => simp [List.mapM_cons, ih]

theorem length_realloc (data : List (Option UInt8)) (size : ℕ) : (realloc data size).length = size := by
  simp only [realloc, List.length_append, List.length_take, List.length_replicate]
  omega

theorem take_realloc {data : List (Option UInt8)} {size n : ℕ} (hdata : n ≤ data.length) (hsize : n ≤ size) :
  (realloc data size).take n = data.take n
  := by
  rw [realloc, List.take_append_of_le_length (by rw [List.length_take]; omega), List.take_take,
    Nat.min_eq_left hsize]

/-! ### Slots -/

/-- A slot holds a text. -/
structure Slot.Holds (slot : Slot) (text : Bytes) : Prop where
  len_eq : slot.len = text.length
  len_le : slot.len ≤ slot.cap
  block : slot.data.length = if slot.cap = 0 then 0 else slot.cap + 1
  bytes : slot.data.take slot.len = text.map some

theorem holds_empty (alive : Bool) : Slot.Holds { alive } [] := ⟨rfl, le_rfl, rfl, rfl⟩

theorem le_doubled {n next needed : ℕ} (hpos : 0 < next) (h : needed ≤ n + next) :
  next ≤ doubled n next needed ∧ needed ≤ doubled n next needed
  := by
  induction n generalizing next with
  | zero => exact ⟨le_rfl, by simpa [doubled] using h⟩
  | succ n ih =>
    unfold doubled
    split_ifs with hlt
    · obtain ⟨hle, hneeded⟩ := ih (show 0 < next * 2 by omega) (by omega)
      exact ⟨by omega, hneeded⟩
    · exact ⟨le_rfl, Nat.le_of_not_lt hlt⟩

/-- A slot with the storage it needs holds the same text. -/
theorem reserve_holds {slot : Slot} {text : Bytes} (h : slot.Holds text) (needed : ℕ) :
  (reserve slot needed).Holds text ∧ needed ≤ (reserve slot needed).cap ∧
    (reserve slot needed).len = slot.len ∧ (reserve slot needed).alive = slot.alive
  := by
  unfold reserve
  by_cases hle : needed ≤ slot.cap
  · rw [if_pos hle]
    exact ⟨h, hle, rfl, rfl⟩
  rw [if_neg hle]
  dsimp only
  have hstart : 0 < if slot.cap = 0 then 64 else slot.cap := by split_ifs <;> omega
  have hcap : slot.cap ≤ if slot.cap = 0 then 64 else slot.cap := by split_ifs <;> omega
  obtain ⟨hnext, hneeded⟩ := le_doubled hstart (Nat.le_add_right needed _)
  generalize doubled needed (if slot.cap = 0 then 64 else slot.cap) needed = next at *
  have hroom : slot.len ≤ next := (h.len_le.trans hcap).trans hnext
  have hdata : slot.len ≤ slot.data.length := by
    rw [h.block]
    have := h.len_le
    split_ifs <;> omega
  refine ⟨⟨h.len_eq, hroom, ?_, ?_⟩, hneeded, rfl, rfl⟩
  · dsimp only
    rw [if_neg (show next ≠ 0 by omega)]
    split_ifs
    · rw [List.length_set, length_realloc]
    · rw [length_realloc]
  · dsimp only
    split_ifs with hzero
    · rw [← h.bytes, hzero, List.take_zero, List.take_zero]
    · rw [take_realloc hdata (hroom.trans (Nat.le_succ _)), h.bytes]

theorem appendBytes_holds {slot : Slot} {text : Bytes} (h : slot.Holds text) (bytes : Bytes) :
  ∃ slot', appendBytes slot bytes = some slot' ∧ slot'.Holds (text ++ bytes) ∧ slot'.alive = slot.alive
  := by
  unfold appendBytes
  split_ifs with hnil
  · rw [List.length_eq_zero_iff.mp hnil, List.append_nil]
    exact ⟨slot, rfl, h, rfl⟩
  · obtain ⟨hholds, hroom, hlen, halive⟩ := reserve_holds h (slot.len + bytes.length)
    dsimp only
    generalize reserve slot (slot.len + bytes.length) = slot₁ at *
    rw [← hlen] at hroom
    have hblock : slot₁.data.length = slot₁.cap + 1 := by rw [hholds.block, if_neg (by omega)]
    have hcopy : copyInto slot₁.data slot₁.len bytes =
        some (slot₁.data.take slot₁.len ++ bytes.map some ++ slot₁.data.drop (slot₁.len + bytes.length)) :=
      if_pos (by omega)
    have htake := take_copied bytes (show slot₁.len ≤ slot₁.data.length by omega)
    have hlength : (slot₁.data.take slot₁.len ++ bytes.map some ++
        slot₁.data.drop (slot₁.len + bytes.length)).length = slot₁.cap + 1 := by
      simp only [List.length_append, List.length_take, List.length_map, List.length_drop]
      omega
    rw [hcopy, Option.bind_eq_bind, Option.bind_some]
    generalize slot₁.data.take slot₁.len ++ bytes.map some ++
      slot₁.data.drop (slot₁.len + bytes.length) = data at *
    rw [storeByte, if_pos (by omega), Option.bind_some]
    refine ⟨_, rfl, ⟨?_, hroom, ?_, ?_⟩, halive⟩
    · rw [List.length_append, ← hholds.len_eq]
    · dsimp only
      rw [List.length_set, hlength, if_neg (by omega)]
    · dsimp only
      rw [take_set_of_le le_rfl, htake, hholds.bytes, List.map_append]

/-! ### Values -/

theorem printed_eq {size : ℕ} {text : Bytes} (h : text.length < size) : printed size text = some text := by
  have htake : text.take (size - 1) = text := List.take_of_length_le (by omega)
  rw [printed, if_pos h.le, htake, List.take_left]

theorem intText_lt (value : Int64) : (intText value).length < 64 := by
  have hdigits : (digits value.toInt.natAbs).length ≤ 20 := by
    rw [digits, List.length_map]
    apply Nat.toDigits_length 10 _ _ (by omega)
    have hlt := value.toInt_lt
    have hle := value.le_toInt
    omega
  unfold intText
  split_ifs
  · rw [List.length_cons]
    omega
  · omega

variable {F : Type} (format : FltFormat F)

/-- The text of a value. -/
def Value.text : Value F → Bytes
  | .str text => text
  | .int value => intText value
  | .flt value => format.text value
  | .bol value => if value then [116, 114, 117, 101] else [102, 97, 108, 115, 101]

theorem writeValue_eq (slot : Slot) (value : Value F) :
  writeValue format slot value = appendBytes slot (value.text format)
  := by
  cases value with
  | str text => rfl
  | int value => simp [writeValue, Value.text, printed_eq (intText_lt value)]
  | flt value => simp [writeValue, Value.text, printed_eq (format.text_lt value)]
  | bol value => rfl

/-! ### Runs -/

/-- The handle an operation is applied to. -/
def Op.handle : Op F → Option ℤ
  | .new => none
  | .write handle _ => some handle
  | .line handle _ => some handle
  | .clear handle => some handle
  | .toStr handle => some handle
  | .len handle => some handle
  | .free handle => some handle

/-- What an operation that is done makes of the texts of the live handles. -/
def after (texts : ℤ → Option Bytes) : Op F × Result → ℤ → Option Bytes
  | (.new, .handle handle) => Function.update texts handle (some [])
  | (.write handle value, _) =>
    Function.update texts handle ((texts handle).map (· ++ value.text format))
  | (.line handle value, _) =>
    Function.update texts handle ((texts handle).map (· ++ value.text format ++ [10]))
  | (.clear handle, _) => Function.update texts handle ((texts handle).map fun _ => [])
  | (.free handle, _) => Function.update texts handle none
  | _ => texts

/-- The texts of the live handles behind some operations: for each handle that was returned and
not freed since, what was written to it since it was returned or cleared. -/
def texts (trace : List (Op F × Result)) : ℤ → Option Bytes := trace.foldl (after format) fun _ => none

/-- An operation is applied to no handle or to a live one. -/
def Op.OnLive (op : Op F) (texts : ℤ → Option Bytes) : Prop :=
  ∀ handle ∈ op.handle, (texts handle).isSome = true

/-- A run of operations on live handles. -/
inductive Runs : List (Op F × Result) → Table → Prop
  | start : Runs [] {}
  | step {trace : List (Op F × Result)} {table table' : Table} {op : Op F} {result : Result}
      (hrun : Runs trace table) (hlive : op.OnLive (texts format trace))
      (hstep : step format table op = some (result, table')) : Runs (trace ++ [(op, result)]) table'

/-- What an operation returns, given the texts of the live handles. -/
def Op.Returns (texts : ℤ → Option Bytes) : Op F → Result → Prop
  | .new, result => ∃ handle, result = .handle handle ∧ texts handle = none
  | .toStr handle, result => ∃ text, texts handle = some text ∧ result = .text text
  | .len handle, result => ∃ text, texts handle = some text ∧ result = .length text.length
  | .free _, result => result = .handle 0
  | _, result => result = .done

/-! ### The table holds the texts -/

/-- The slots in use hold the texts of the live handles. -/
structure Refines (texts : ℤ → Option Bytes) (table : Table) : Prop where
  room : table.slots.length ≤ table.cap
  slots : ∀ handle, Option.Rel Slot.Holds (bufSlot table handle) (texts handle)

variable {format} {table : Table} {m : ℤ → Option Bytes} {handle : ℤ}

theorem Refines.slot (h : Refines m table) {text : Bytes} (htext : m handle = some text) :
  ∃ slot, bufSlot table handle = some slot ∧ slot.Holds text ∧ slot.alive = true
  := by
  have hslot := h.slots handle
  rw [htext] at hslot
  cases hfound : bufSlot table handle with
  | none =>
    rw [hfound] at hslot
    cases hslot
  | some slot =>
    rw [hfound] at hslot
    cases hslot with
    | some hholds =>
      obtain ⟨_, _, _, halive⟩ := SlotTable.slot_eq_some_iff.mp hfound
      exact ⟨slot, rfl, hholds, halive⟩

/-- A slot in use is written. -/
theorem Refines.setSlot (h : Refines m table) {slot slot' : Slot} (hslot : bufSlot table handle = some slot)
    {text : Option Bytes} (hrel : Option.Rel Slot.Holds ((some slot').filter Slot.alive) text) :
  Refines (Function.update m handle text) (setSlot table handle slot') ∧
    bufSlot (Buf.setSlot table handle slot') handle = (some slot').filter Slot.alive
  := by
  have hset (other : ℤ) : bufSlot (Buf.setSlot table handle slot') other =
      if other = handle then (some slot').filter Slot.alive else bufSlot table other :=
    SlotTable.slot_set_of_some hslot other
  refine ⟨⟨?_, fun other => ?_⟩, by rw [hset, if_pos rfl]⟩
  · rw [Buf.setSlot, List.length_set]
    exact h.room
  · rw [hset]
    by_cases heq : other = handle
    · rw [if_pos heq, heq, Function.update_self]
      exact hrel
    · rw [if_neg heq, Function.update_of_ne heq]
      exact h.slots other

/-- A live handle is written to. -/
theorem Refines.append (h : Refines m table) {text : Bytes} (htext : m handle = some text) (bytes : Bytes) :
  ∃ slot slot', bufSlot table handle = some slot ∧ appendBytes slot bytes = some slot' ∧
    Refines (Function.update m handle (some (text ++ bytes))) (Buf.setSlot table handle slot')
  := by
  obtain ⟨slot, hslot, hholds, halive⟩ := h.slot htext
  obtain ⟨slot', happend, hholds', halive'⟩ := appendBytes_holds hholds bytes
  refine ⟨slot, slot', hslot, happend, (h.setSlot hslot ?_).1⟩
  rw [Option.filter_some, if_pos (halive'.trans halive)]
  exact .some hholds'

/-- A new handle is none that is live. -/
theorem Refines.alloc (h : Refines m table) :
  ∃ handle table', allocSlot table = some (handle, table') ∧ m handle = none ∧
    Refines (Function.update m handle (some [])) table'
  := by
  have hnone {handle : ℤ} (hslot : bufSlot table handle = none) : m handle = none := by
    have hrel := h.slots handle
    rw [hslot] at hrel
    cases htext : m handle with
    | none => rfl
    | some text =>
      rw [htext] at hrel
      cases hrel
  have hfresh : Option.Rel Slot.Holds ((some { alive := true }).filter Slot.alive) (some []) :=
    .some (holds_empty true)
  have hroom := h.room
  unfold allocSlot
  cases hfind : table.slots.findIdx? fun slot => !slot.alive with
  | some i =>
    obtain ⟨hi, hdead⟩ := SlotTable.slot_findIdx hfind
    refine ⟨_, _, rfl, hnone hdead, ?_, fun other => ?_⟩
    · dsimp only
      rwa [List.length_set]
    · rw [bufSlot, SlotTable.slot_set hi]
      by_cases heq : other = i + 1
      · rw [if_pos heq, heq, Function.update_self]
        exact hfresh
      · rw [if_neg heq, Function.update_of_ne heq]
        exact h.slots other
  | none =>
    dsimp only
    have hgrown : table.slots.length < if table.slots.length = table.cap then
        if table.cap = 0 then 16 else table.cap * 2 else table.cap := by
      split_ifs <;> omega
    rw [if_pos hgrown]
    refine ⟨_, _, rfl, hnone SlotTable.slot_behind, ?_, fun other => ?_⟩
    · dsimp only
      rw [List.length_append, List.length_singleton]
      exact hgrown
    · rw [bufSlot, SlotTable.slot_append]
      by_cases heq : other = table.slots.length + 1
      · rw [if_pos heq, heq, Function.update_self]
        exact hfresh
      · rw [if_neg heq, Function.update_of_ne heq]
        exact h.slots other

/-- The text of a live handle is read. -/
theorem Refines.read (h : Refines m table) {text : Bytes} (htext : m handle = some text) :
  Buf.step format table (.toStr handle) = some (.text text, table)
  := by
  obtain ⟨slot, hslot, hholds, -⟩ := h.slot htext
  by_cases hpos : 0 < slot.len
  · have hle : slot.len ≤ slot.data.length := by
      rw [hholds.block]
      have := hholds.len_le
      split_ifs <;> omega
    have hread : copyFrom slot.data slot.len = some text := by
      rw [copyFrom, if_pos hle, hholds.bytes, mapM_map_some]
    simp only [Buf.step, hslot, hread, Option.bind_eq_bind, Option.bind_some, if_pos hpos]
  · have hnil : text = [] := List.length_eq_zero_iff.mp (by rw [← hholds.len_eq]; omega)
    simp only [Buf.step, hslot, hnil, Option.bind_eq_bind, Option.bind_some, if_neg hpos]

/-- An operation on live handles does not fail, returns what it should and keeps the other
texts. -/
theorem Refines.step (h : Refines m table) {op : Op F} (hlive : op.OnLive m) :
  ∃ result table', Buf.step format table op = some (result, table') ∧ op.Returns m result ∧
    Refines (after format m (op, result)) table'
  := by
  have htext {handle : ℤ} (hmem : handle ∈ op.handle) : ∃ text, m handle = some text :=
    Option.isSome_iff_exists.mp (hlive handle hmem)
  cases op with
  | new =>
    obtain ⟨handle, table', halloc, hnone, hrefines⟩ := h.alloc
    refine ⟨.handle handle, table', ?_, ⟨handle, rfl, hnone⟩, hrefines⟩
    simp only [Buf.step, halloc, Option.bind_eq_bind, Option.bind_some]
  | write handle value =>
    obtain ⟨text, htext⟩ := htext rfl
    obtain ⟨slot, slot', hslot, happend, hrefines⟩ := h.append htext (value.text format)
    refine ⟨.done, Buf.setSlot table handle slot', ?_, rfl, ?_⟩
    · simp only [Buf.step, hslot, writeValue_eq, happend, Option.bind_eq_bind, Option.bind_some]
    · rw [after, htext, Option.map_some]
      exact hrefines
  | line handle value =>
    obtain ⟨text, htext⟩ := htext rfl
    obtain ⟨slot, slot', hslot, happend, hrefines⟩ := h.append htext (value.text format)
    obtain ⟨slot₁, slot₁', hslot₁, happend₁, hrefines₁⟩ :=
      hrefines.append (Function.update_self handle _ m) [10]
    refine ⟨.done, Buf.setSlot (Buf.setSlot table handle slot') handle slot₁', ?_, rfl, ?_⟩
    · simp only [Buf.step, hslot, writeValue_eq, happend, hslot₁, happend₁, Option.bind_eq_bind,
        Option.bind_some]
    · rw [after, htext, Option.map_some]
      rw [Function.update_idem] at hrefines₁
      exact hrefines₁
  | clear handle =>
    obtain ⟨text, htext⟩ := htext rfl
    obtain ⟨slot, hslot, hholds, halive⟩ := h.slot htext
    obtain ⟨data, hstep, hlength⟩ : ∃ data,
        Buf.step format table (.clear handle) =
          some (.done, Buf.setSlot table handle { slot with data, len := 0 }) ∧
        data.length = slot.data.length := by
      by_cases hnil : slot.data = []
      · refine ⟨slot.data, ?_, rfl⟩
        simp only [Buf.step, hslot, Option.bind_eq_bind, Option.bind_some, if_pos hnil]
      · have hpos : 0 < slot.data.length := List.length_pos_iff.mpr hnil
        refine ⟨slot.data.set 0 (some 0), ?_, List.length_set⟩
        simp only [Buf.step, hslot, storeByte, Option.bind_eq_bind, Option.bind_some, if_neg hnil,
          if_pos hpos]
    refine ⟨.done, _, hstep, rfl, ?_⟩
    rw [after, htext, Option.map_some]
    apply (h.setSlot hslot _).1
    rw [Option.filter_some, if_pos halive]
    exact .some ⟨rfl, Nat.zero_le _, hlength.trans hholds.block, rfl⟩
  | toStr handle =>
    obtain ⟨text, htext⟩ := htext rfl
    exact ⟨.text text, table, h.read htext, ⟨text, htext, rfl⟩, h⟩
  | len handle =>
    obtain ⟨text, htext⟩ := htext rfl
    obtain ⟨slot, hslot, hholds, -⟩ := h.slot htext
    refine ⟨.length slot.len, table, ?_, ⟨text, htext, by rw [hholds.len_eq]⟩, h⟩
    simp only [Buf.step, hslot, Option.bind_eq_bind, Option.bind_some]
  | free handle =>
    obtain ⟨text, htext⟩ := htext rfl
    obtain ⟨slot, hslot, -, -⟩ := h.slot htext
    refine ⟨.handle 0, Buf.setSlot table handle {}, ?_, rfl, (h.setSlot hslot .none).1⟩
    simp only [Buf.step, hslot, Option.bind_eq_bind, Option.bind_some]

theorem refines_start : Refines (fun _ => none) {} := by
  constructor
  · exact le_rfl
  · intro handle
    rw [bufSlot_empty]
    exact .none

/-- The induction is on the run: each of its operations keeps the invariant. -/
theorem Runs.refines {trace : List (Op F × Result)} (h : Runs format trace table) :
  Refines (texts format trace) table
  := by
  induction h with
  | start => exact refines_start
  | step hrun hlive hstep ih =>
    obtain ⟨result, table', hstep', -, hrefines⟩ := @Refines.step F format _ _ ih _ hlive
    rw [hstep, Option.some.injEq, Prod.mk.injEq] at hstep'
    obtain ⟨rfl, rfl⟩ := hstep'
    rw [texts, List.foldl_append]
    exact hrefines

/-- An operation changes the text of no other live handle. -/
theorem after_of_ne {op : Op F} {result : Result} (hreturns : op.Returns m result)
    (hlive : (m handle).isSome = true) (hne : handle ∉ op.handle) :
  after format m (op, result) handle = m handle
  := by
  have hother {other : ℤ} (hop : op.handle = some other) : handle ≠ other := by
    rintro rfl
    exact hne hop
  cases op with
  | new =>
    obtain ⟨fresh, rfl, hnone⟩ := hreturns
    apply Function.update_of_ne
    rintro rfl
    simp [hnone] at hlive
  | write other value => exact Function.update_of_ne (hother rfl) _ _
  | line other value => exact Function.update_of_ne (hother rfl) _ _
  | clear other => exact Function.update_of_ne (hother rfl) _ _
  | toStr other => rfl
  | len other => rfl
  | free other => exact Function.update_of_ne (hother rfl) _ _

/-- Behind a run on live handles every operation on live handles succeeds.  What it reads of a
handle is what was written to it since it was returned or cleared, a new handle is none that is
live, and what is read of another live handle afterwards is what would have been read before. -/
theorem buffers_hold_texts {trace : List (Op F × Result)} (h : Runs format trace table) (op : Op F)
    (hlive : op.OnLive (texts format trace)) :
  ∃ result table', step format table op = some (result, table') ∧ op.Returns (texts format trace) result ∧
    ∀ handle text, texts format trace handle = some text → handle ∉ op.handle →
      step format table' (.toStr handle) = some (.text text, table')
  := by
  obtain ⟨result, table', hstep, hreturns, hrefines⟩ := @Refines.step F format _ _ h.refines _ hlive
  refine ⟨result, table', hstep, hreturns, fun handle text htext hne => ?_⟩
  apply hrefines.read
  rw [after_of_ne hreturns (by rw [htext]; rfl) hne, htext]

/-- The format of a type whose only number is zero. -/
def zeroFormat : FltFormat Unit := ⟨fun _ => [48], fun _ => by decide⟩

/-- One of two buffers is written to, then the other one. -/
theorem buffers_hold_texts_two :
  ∃ table result table',
    Runs zeroFormat [(.new, .handle 1), (.new, .handle 2), (.write 1 (.bol true), .done)] table ∧
    step zeroFormat table (.write 2 (.int (-7))) = some (result, table') ∧
    step zeroFormat table' (.toStr 1) = some (.text [116, 114, 117, 101], table')
  := by
  have hlive {trace : List (Op Unit × Result)} {handle : ℤ} {value : Value Unit}
      (h : (texts zeroFormat trace handle).isSome = true) :
      (Op.write handle value).OnLive (texts zeroFormat trace) := by
    intro other hother
    rwa [← Option.some.inj hother]
  have hnew {trace : List (Op Unit × Result)} : (Op.new : Op Unit).OnLive (texts zeroFormat trace) :=
    fun _ hmem => absurd hmem (by simp [Op.handle])
  have hruns : Runs zeroFormat [(.new, .handle 1), (.new, .handle 2), (.write 1 (.bol true), .done)] _ :=
    .step (.step (.step .start hnew rfl) hnew rfl) (hlive rfl) rfl
  obtain ⟨result, table', hstep, -, hothers⟩ :=
    buffers_hold_texts hruns (.write 2 (.int (-7))) (hlive rfl)
  refine ⟨_, result, table', hruns, hstep, ?_⟩
  apply hothers 1 _ rfl
  intro hmem
  cases hmem

end Caster.Buf
