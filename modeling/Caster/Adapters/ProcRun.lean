import Caster.Adapters.BufContents
import Caster.Library.Pipe
import Caster.Library.StepRuns

/-!
# Commands

`PROC.run` starts a command with a pipe for its standard output and one for its standard error.  It
reads both in turn until both have ended and the command has.  The command, and whatever it has
started, writes to the pipes and ends at any time meanwhile.
-/

namespace Caster.Proc

open Buf (copyInto copyFrom storeByte realloc doubled)
open Pipes (Pipe Got)

/-! ### Captures -/

/-- What was read of a pipe, in a block that grows, and whether the pipe is open. -/
structure Capture where
  data : List (Option UInt8)
  len : ℕ
  cap : ℕ
  isOpen : Bool
deriving DecidableEq

/-- The capture `PROC_run` starts with. -/
def Capture.new : Capture :=
  { data := List.replicate 4096 (some 0), len := 0, cap := 4096, isOpen := true }

/-- Bytes that were read are appended.  There is no result when they are written outside the
block. -/
def Capture.append (c : Capture) (bytes : Bytes) : Option Capture := do
  let needed := c.len + bytes.length + 1
  let cap := doubled needed c.cap needed
  let data ← copyInto (if c.cap < needed then realloc c.data cap else c.data) c.len bytes
  let len := c.len + bytes.length
  let data ← storeByte data len 0
  some { c with data, len, cap }

/-- A pipe of the command, with what was read of it. -/
structure Channel where
  pipe : Pipe UInt8
  capture : Capture
deriving DecidableEq

/-- A pipe through which nothing was written. -/
def Channel.new : Channel := { pipe := .new, capture := .new }

/-- A pass of the loop of `flx_proc_append_read`, in which `read` returns `count` bytes when there are
some.  The loop goes on when there were. -/
def Channel.appendRead (count : ℕ) (ch : Channel) : Option (Bool × Channel) :=
  match ch.pipe.read 4096 count with
  | none => none
  | some (.nothing, _) => some (false, ch)
  | some (.ended, _) => some (false, { ch with capture := { ch.capture with isOpen := false } })
  | some (.values bytes, pipe) =>
    (ch.capture.append bytes).map fun capture => (true, { pipe, capture })

/-! ### Commands and the loop -/

/-- How a process has ended. -/
inductive WaitStatus where
  | exited (code : UInt8)
  | signaled (signal : ℕ)
  | other
deriving DecidableEq

/-- The code that `PROC_run` makes of it. -/
def WaitStatus.code : WaitStatus → ℤ
  | exited code => code.toNat
  | signaled signal => 128 + signal
  | other => -1

inductive Stream where
  | out | err
deriving DecidableEq

/-- The places in the loop of `PROC_run`. -/
inductive Place where
  | head | readOut | readErr | wait | pause | lastOut | lastErr | done
deriving DecidableEq

/-- The state of the loop and of the command, with the status that was waited for. -/
structure World where
  place : Place
  out : Channel
  err : Channel
  exited : Option WaitStatus
  status : Option WaitStatus
deriving DecidableEq

/-- The command has started. -/
def World.start : World :=
  { place := .head, out := .new, err := .new, exited := none, status := none }

namespace World

def channel (w : World) : Stream → Channel
  | .out => w.out
  | .err => w.err

def setChannel (w : World) : Stream → Channel → World
  | .out, ch => { w with out := ch }
  | .err, ch => { w with err := ch }

/-- One of the pipes is open. -/
def anyOpen (w : World) : Bool := w.out.capture.isOpen || w.err.capture.isOpen

/-- A pipe is read when it is open, until there is nothing to read. -/
def reads (w : World) (s : Stream) (next : Place) (count : ℕ) : Option World :=
  if (w.channel s).capture.isOpen then
    ((w.channel s).appendRead count).map fun r =>
      { w.setChannel s r.2 with place := if r.1 then w.place else next }
  else some { w with place := next }

/-- A step of the loop, in which `read` returns `count` bytes. -/
def parent (w : World) (count : ℕ) : Option World :=
  match w.place with
  | .head =>
    some { w with place := if w.anyOpen ∨ w.status = none then .readOut else .done }
  | .readOut => w.reads .out .readErr count
  | .readErr => w.reads .err .wait count
  | .wait => some { w with status := if w.status = none then w.exited else w.status, place := .pause }
  | .pause => some { w with place := if w.status = none then .head else .lastOut }
  | .lastOut => w.reads .out .lastErr count
  | .lastErr => w.reads .err .head count
  | .done => none

end World

/-- What the command does, and whatever it has started. -/
inductive ChildAction where
  | write (s : Stream) (bytes : Bytes)
  | close (s : Stream)
  | exit (status : WaitStatus)

/-- A step of the command.  Each pipe has room for `capacity` bytes. -/
def World.child (capacity : ℕ) (w : World) : ChildAction → Option World
  | .write s bytes =>
    ((w.channel s).pipe.write capacity bytes).map fun pipe =>
      w.setChannel s { w.channel s with pipe }
  | .close s =>
    (w.channel s).pipe.close.map fun pipe => w.setChannel s { w.channel s with pipe }
  | .exit status => if w.exited = none then some { w with exited := some status } else none

inductive Action where
  | child (act : ChildAction)
  | parent (count : ℕ)

/-- A step of the system. -/
def step (capacity : ℕ) (w : World) : Action → Option World
  | .child act => w.child capacity act
  | .parent count => w.parent count

/-- What `PROC.run` returns. -/
structure ProcResult where
  code : ℤ
  out : Bytes
  err : Bytes
deriving DecidableEq

/-- The result behind the loop.  There is none when it is taken from outside the blocks. -/
def World.result (w : World) : Option ProcResult := do
  let status ← w.status
  let out ← copyFrom w.out.capture.data w.out.capture.len
  let err ← copyFrom w.err.capture.data w.err.capture.len
  some { code := status.code, out, err }

/-- What the command writes to a stream in a step. -/
def Action.written (s : Stream) : Action → Bytes
  | .child (.write s' bytes) => if s' = s then bytes else []
  | _ => []

/-! ### Appending -/

/-- A capture holds bytes, with the zero behind them inside its block. -/
structure Capture.Holds (c : Capture) (bytes : Bytes) : Prop where
  len_eq : c.len = bytes.length
  room : c.len + 1 ≤ c.cap
  block : c.data.length = c.cap
  data : c.data.take c.len = bytes.map some

theorem Capture.holds_new : Capture.new.Holds [] where
  len_eq := rfl
  room := by decide
  block := List.length_replicate
  data := rfl

theorem Capture.Holds.append {c : Capture} {text : Bytes} (h : c.Holds text) (bytes : Bytes) :
  ∃ c', c.append bytes = some c' ∧ c'.Holds (text ++ bytes) ∧ c'.isOpen = c.isOpen
  := by
  obtain ⟨hlen, hroom, hblock, hdata⟩ := h
  have hpos : 0 < c.cap := by omega
  obtain ⟨hle, hneeded⟩ := Buf.le_doubled hpos (Nat.le_add_right (c.len + bytes.length + 1) c.cap)
  generalize hcap : doubled (c.len + bytes.length + 1) c.cap (c.len + bytes.length + 1) = cap at *
  -- the block that the bytes are copied into, grown or not
  obtain ⟨block, hgrown, hlength, htake⟩ : ∃ block,
      (if c.cap < c.len + bytes.length + 1 then realloc c.data cap else c.data) = block ∧
        block.length = cap ∧ block.take c.len = c.data.take c.len := by
    by_cases hlt : c.cap < c.len + bytes.length + 1
    · rw [if_pos hlt]
      exact ⟨_, rfl, Buf.length_realloc _ _, Buf.take_realloc (by omega) (by omega)⟩
    · rw [if_neg hlt]
      refine ⟨_, rfl, ?_, rfl⟩
      rw [hblock, ← hcap]
      unfold doubled
      rw [if_neg hlt]
  have hcopy : copyInto block c.len bytes =
      some (block.take c.len ++ bytes.map some ++ block.drop (c.len + bytes.length)) :=
    if_pos (by omega)
  have hcopied : (block.take c.len ++ bytes.map some ++
      block.drop (c.len + bytes.length)).length = cap := by
    simp only [List.length_append, List.length_take, List.length_map, List.length_drop]
    omega
  have hprefix := Buf.take_copied bytes (show c.len ≤ block.length by omega)
  unfold Capture.append
  dsimp only
  rw [hcap, hgrown, hcopy, Option.bind_eq_bind, Option.bind_some, storeByte, if_pos (by omega)]
  refine ⟨_, rfl, ⟨?_, hneeded, ?_, ?_⟩, rfl⟩
  · rw [List.length_append, ← hlen]
  · rw [List.length_set, hcopied]
  · dsimp only
    rw [Buf.take_set_of_le le_rfl, hprefix, htake, hdata, List.map_append]

theorem Capture.Holds.copyFrom {c : Capture} {text : Bytes} (h : c.Holds text) :
  Buf.copyFrom c.data c.len = some text
  := by
  have hle : c.len ≤ c.data.length := by
    have := h.room
    rw [h.block]
    omega
  rw [Buf.copyFrom, if_pos hle, h.data, Buf.mapM_map_some]

/-! ### What a channel keeps -/

/-- What was read of a pipe is in its capture, and the capture is closed only behind the end of the
pipe. -/
structure Channel.Kept (ch : Channel) : Prop where
  sound : ch.pipe.Sound
  holds : ch.capture.Holds (ch.pipe.sent.take ch.pipe.taken)
  ended : ch.capture.isOpen = false → ch.pipe.closed = true ∧ ch.pipe.pending = []

theorem Channel.kept_new : Channel.new.Kept where
  sound := Pipe.sound_new
  holds := Capture.holds_new
  ended h := by cases h

variable {ch ch' : Channel} {capacity : ℕ}

theorem Channel.Kept.write (h : ch.Kept) {bytes : Bytes} {pipe : Pipe UInt8}
    (hwrite : ch.pipe.write capacity bytes = some pipe) :
  Channel.Kept { ch with pipe }
  := by
  refine ⟨h.sound.write hwrite, ?_, ?_⟩
  · dsimp only
    rw [Pipe.take_taken_write h.sound hwrite]
    exact h.holds
  · intro hclosed
    have hopen := (Pipe.write_eq_some hwrite).1
    rw [(h.ended hclosed).1] at hopen
    cases hopen

theorem Channel.Kept.close (h : ch.Kept) {pipe : Pipe UInt8} (hclose : ch.pipe.close = some pipe) :
  Channel.Kept { ch with pipe }
  := by
  obtain ⟨hopen, rfl⟩ := Pipe.close_eq_some hclose
  refine ⟨h.sound, h.holds, fun hclosed => ?_⟩
  rw [(h.ended hclosed).1] at hopen
  cases hopen

/-- What a pass of the loop of `flx_proc_append_read` does. -/
inductive Channel.Pass (ch : Channel) : Bool → Channel → Prop where
  | nothing (hempty : ch.pipe.pending = []) (hopen : ch.pipe.closed = false) : Pass ch false ch
  | ended (hempty : ch.pipe.pending = []) (hclosed : ch.pipe.closed = true) :
    Pass ch false { ch with capture := { ch.capture with isOpen := false } }
  | values {count : ℕ} {capture : Capture} (hpos : 0 < count) (hle : count ≤ ch.pipe.pending.length)
      (happend : ch.capture.append (ch.pipe.pending.take count) = some capture) :
    Pass ch true { pipe := { ch.pipe with taken := ch.pipe.taken + count }, capture }

theorem Channel.pass_of_appendRead {count : ℕ} {goesOn : Bool}
    (h : ch.appendRead count = some (goesOn, ch')) :
  ch.Pass goesOn ch'
  := by
  unfold appendRead at h
  split at h
  · cases h
  · rename_i hread
    cases h
    obtain ⟨hempty, hopen, -⟩ | ⟨-, -, hgot, -⟩ | ⟨-, -, hgot, -⟩ := Pipe.read_eq_some hread
    · exact .nothing hempty hopen
    · cases hgot
    · cases hgot
  · rename_i hread
    cases h
    obtain ⟨-, -, hgot, -⟩ | ⟨hempty, hclosed, -⟩ | ⟨-, -, hgot, -⟩ := Pipe.read_eq_some hread
    · cases hgot
    · exact .ended hempty hclosed
    · cases hgot
  · rename_i hread
    obtain ⟨-, -, hgot, -⟩ | ⟨-, -, hgot, -⟩ | ⟨hpos, hle, hgot, rfl⟩ := Pipe.read_eq_some hread
    · cases hgot
    · cases hgot
    · cases hgot
      obtain ⟨capture, happend, hresult⟩ := Option.map_eq_some_iff.mp h
      cases hresult
      exact .values hpos hle happend

/-- There is always a number of bytes for `read` to return, and the bytes fit in the block. -/
theorem Channel.Kept.exists_appendRead (h : ch.Kept) : ∃ count r, ch.appendRead count = some r := by
  have hsize : 0 < 4096 := by decide
  obtain ⟨count, ⟨got, pipe⟩, hread⟩ := Pipe.exists_read hsize ch.pipe
  use count
  unfold appendRead
  rw [hread]
  cases got with
  | nothing => exact ⟨_, rfl⟩
  | ended => exact ⟨_, rfl⟩
  | values bytes =>
    obtain ⟨capture, happend, -⟩ := h.holds.append bytes
    exact ⟨(true, { pipe, capture }), by simp only [happend, Option.map_some]⟩

theorem Channel.Kept.pass (h : ch.Kept) {goesOn : Bool} (hpass : ch.Pass goesOn ch') :
  ch'.Kept
  := by
  cases hpass with
  | nothing => exact h
  | ended hempty hclosed =>
    exact ⟨h.sound, ⟨h.holds.len_eq, h.holds.room, h.holds.block, h.holds.data⟩,
      fun _ => ⟨hclosed, hempty⟩⟩
  | @values count capture hpos hle happend =>
    obtain ⟨capture', happend', hholds, hopen⟩ := h.holds.append (ch.pipe.pending.take count)
    rw [happend] at happend'
    cases happend'
    refine ⟨?_, ?_, ?_⟩
    · have hlength := ch.pipe.length_pending
      have hsound := h.sound
      unfold Pipe.Sound at hsound ⊢
      dsimp only
      omega
    · dsimp only
      rw [Pipe.take_taken_values]
      exact hholds
    · intro hclosed
      dsimp only at hclosed
      rw [hopen] at hclosed
      have hempty := (h.ended hclosed).2
      rw [hempty, List.length_nil] at hle
      omega

/-! ### What a run keeps -/

/-- What was read of both pipes is in the captures, and the loop ends only behind the end of both and
of the command. -/
structure World.Kept (w : World) : Prop where
  out : w.out.Kept
  err : w.err.Kept
  status : ∀ status, w.status = some status → w.exited = some status
  done : w.place = .done → w.anyOpen = false ∧ w.status ≠ none

namespace World

theorem kept_start : World.start.Kept where
  out := Channel.kept_new
  err := Channel.kept_new
  status _ h := by cases h
  done h := by cases h

variable {w w' : World} {s : Stream}

theorem Kept.channel (h : w.Kept) (s : Stream) : (w.channel s).Kept := by
  cases s with
  | out => exact h.out
  | err => exact h.err

/-- A channel is changed, and its capture is not, or the loop is at another place. -/
theorem Kept.setChannel (h : w.Kept) (s : Stream) {ch : Channel} (hch : ch.Kept)
    (hopen : ch.capture.isOpen = (w.channel s).capture.isOpen) :
  (w.setChannel s ch).Kept
  := by
  cases s with
  | out =>
    refine ⟨hch, h.err, h.status, fun hdone => ?_⟩
    have hany := h.done hdone
    rwa [anyOpen, show w.out.capture.isOpen = ch.capture.isOpen from hopen.symm] at hany
  | err =>
    refine ⟨h.out, hch, h.status, fun hdone => ?_⟩
    have hany := h.done hdone
    rwa [anyOpen, show w.err.capture.isOpen = ch.capture.isOpen from hopen.symm] at hany

theorem Kept.child (h : w.Kept) {act : ChildAction} (hstep : w.child capacity act = some w') :
  w'.Kept
  := by
  cases act with
  | write s bytes =>
    obtain ⟨pipe, hwrite, rfl⟩ := Option.map_eq_some_iff.mp hstep
    exact h.setChannel s ((h.channel s).write hwrite) rfl
  | close s =>
    obtain ⟨pipe, hclose, rfl⟩ := Option.map_eq_some_iff.mp hstep
    exact h.setChannel s ((h.channel s).close hclose) rfl
  | exit status =>
    unfold World.child at hstep
    split_ifs at hstep with hnone
    cases hstep
    refine ⟨h.out, h.err, fun status' hstatus => ?_, h.done⟩
    rw [h.status status' hstatus] at hnone
    cases hnone

/-- What a step of the loop that reads a pipe does. -/
theorem reads_eq_some {next : Place} {count : ℕ} (h : w.reads s next count = some w') :
  ((w.channel s).capture.isOpen = false ∧ w' = { w with place := next }) ∨
    ((w.channel s).capture.isOpen = true ∧ ∃ goesOn ch, (w.channel s).Pass goesOn ch ∧
      w' = { w.setChannel s ch with place := if goesOn then w.place else next })
  := by
  unfold reads at h
  split_ifs at h with hopen
  · obtain ⟨⟨goesOn, ch⟩, hread, rfl⟩ := Option.map_eq_some_iff.mp h
    exact .inr ⟨hopen, goesOn, ch, Channel.pass_of_appendRead hread, rfl⟩
  · cases h
    exact .inl ⟨Bool.eq_false_iff.mpr hopen, rfl⟩

/-- A step of the loop that reads no pipe. -/
inductive Moves (w : World) : World → Prop where
  | head (hplace : w.place = .head) (h : w.anyOpen = true ∨ w.status = none) :
    Moves w { w with place := .readOut }
  | leave (hplace : w.place = .head) (hopen : w.anyOpen = false) (hstatus : w.status ≠ none) :
    Moves w { w with place := .done }
  | wait (hplace : w.place = .wait) :
    Moves w { w with status := if w.status = none then w.exited else w.status, place := .pause }
  | pause (hplace : w.place = .pause) :
    Moves w { w with place := if w.status = none then .head else .lastOut }

/-- A pipe is read at a place, and another place is next behind it. -/
inductive ReadsAt : Place → Stream → Place → Prop where
  | readOut : ReadsAt .readOut .out .readErr
  | readErr : ReadsAt .readErr .err .wait
  | lastOut : ReadsAt .lastOut .out .lastErr
  | lastErr : ReadsAt .lastErr .err .head

theorem ReadsAt.ne_done {p next : Place} (h : ReadsAt p s next) : p ≠ .done ∧ next ≠ .done := by
  cases h <;> decide

/-- What a step of the loop does. -/
theorem parent_cases {count : ℕ} (h : w.parent count = some w') :
  w.Moves w' ∨ ∃ s next, ReadsAt w.place s next ∧ w.reads s next count = some w'
  := by
  unfold World.parent at h
  cases hplace : w.place with
  | head =>
    simp only [hplace] at h
    cases h
    left
    split_ifs with hgoes
    · exact .head hplace hgoes
    · rw [not_or, Bool.not_eq_true] at hgoes
      exact .leave hplace hgoes.1 hgoes.2
  | readOut =>
    simp only [hplace] at h
    exact .inr ⟨_, _, .readOut, h⟩
  | readErr =>
    simp only [hplace] at h
    exact .inr ⟨_, _, .readErr, h⟩
  | wait =>
    simp only [hplace] at h
    cases h
    exact .inl (.wait hplace)
  | pause =>
    simp only [hplace] at h
    cases h
    exact .inl (.pause hplace)
  | lastOut =>
    simp only [hplace] at h
    exact .inr ⟨_, _, .lastOut, h⟩
  | lastErr =>
    simp only [hplace] at h
    exact .inr ⟨_, _, .lastErr, h⟩
  | done =>
    simp only [hplace] at h
    cases h

theorem Kept.reads (h : w.Kept) {next : Place} {count : ℕ} (hplace : w.place ≠ .done)
    (hnext : next ≠ .done) (hreads : w.reads s next count = some w') :
  w'.Kept
  := by
  obtain ⟨-, rfl⟩ | ⟨-, goesOn, ch, hpass, rfl⟩ := reads_eq_some hreads
  · exact ⟨h.out, h.err, h.status, fun hdone => absurd hdone hnext⟩
  · have hch := (h.channel s).pass hpass
    have hlive : (if goesOn then w.place else next) ≠ .done := by
      split_ifs
      · exact hplace
      · exact hnext
    cases s with
    | out => exact ⟨hch, h.err, h.status, fun hdone => absurd hdone hlive⟩
    | err => exact ⟨h.out, hch, h.status, fun hdone => absurd hdone hlive⟩

theorem Kept.moves (h : w.Kept) (hmoves : w.Moves w') : w'.Kept := by
  cases hmoves with
  | head => exact ⟨h.out, h.err, h.status, by simp⟩
  | leave _ hopen hstatus => exact ⟨h.out, h.err, h.status, fun _ => ⟨hopen, hstatus⟩⟩
  | wait =>
    refine ⟨h.out, h.err, fun status hstatus => ?_, by simp⟩
    dsimp only at hstatus
    split_ifs at hstatus
    · exact hstatus
    · exact h.status status hstatus
  | pause =>
    refine ⟨h.out, h.err, h.status, fun hdone => ?_⟩
    dsimp only at hdone
    split_ifs at hdone

theorem Kept.parent (h : w.Kept) {count : ℕ} (hstep : w.parent count = some w') :
  w'.Kept
  := by
  obtain hmoves | ⟨s, next, hat, hreads⟩ := parent_cases hstep
  · exact h.moves hmoves
  · exact h.reads hat.ne_done.1 hat.ne_done.2 hreads

theorem Kept.step (h : w.Kept) {a : Action} (hstep : step capacity w a = some w') : w'.Kept := by
  cases a with
  | child act => exact h.child hstep
  | parent count => exact h.parent hstep

end World

/-- A run of the system from its start. -/
def Runs (capacity : ℕ) (actions : List Action) (w : World) : Prop :=
  StepRuns.run (step capacity) .start actions = some w

theorem Runs.kept {actions : List Action} {w : World} (h : Runs capacity actions w) : w.Kept :=
  StepRuns.run_invariant h World.kept_start fun _ _ _ hm hstep => hm.step hstep

/-! ### What is captured -/

/-- What the command has written to a stream. -/
def written (s : Stream) (actions : List Action) : Bytes := actions.flatMap (Action.written s)

namespace World

variable {w w' : World} {s : Stream}

@[simp] theorem channel_setChannel (w : World) (s : Stream) (ch : Channel) :
  (w.setChannel s ch).channel s = ch
  := by
  cases s <;> rfl

theorem channel_setChannel_of_ne {s s' : Stream} (h : s' ≠ s) (w : World) (ch : Channel) :
  (w.setChannel s' ch).channel s = w.channel s
  := by
  cases s <;> cases s'
  · exact absurd rfl h
  · rfl
  · rfl
  · exact absurd rfl h

theorem channel_place (w : World) (place : Place) (s : Stream) :
  channel { w with place } s = w.channel s
  := by
  cases s <;> rfl

/-- Reading a pipe sends nothing. -/
theorem sent_reads {s' : Stream} {next : Place} {count : ℕ}
    (h : w.reads s' next count = some w') (s : Stream) :
  (w'.channel s).pipe.sent = (w.channel s).pipe.sent ∧
    (w'.channel s).pipe.closed = (w.channel s).pipe.closed
  := by
  obtain ⟨-, rfl⟩ | ⟨-, goesOn, ch, hpass, rfl⟩ := reads_eq_some h
  · rw [channel_place]
    exact ⟨rfl, rfl⟩
  · rw [channel_place]
    by_cases hs : s' = s
    · subst hs
      rw [channel_setChannel]
      cases hpass <;> exact ⟨rfl, rfl⟩
    · rw [channel_setChannel_of_ne hs]
      exact ⟨rfl, rfl⟩

/-- The loop sends nothing. -/
theorem sent_parent {count : ℕ} (h : w.parent count = some w') (s : Stream) :
  (w'.channel s).pipe.sent = (w.channel s).pipe.sent ∧
    (w'.channel s).pipe.closed = (w.channel s).pipe.closed
  := by
  obtain hmoves | ⟨s', next, -, hreads⟩ := parent_cases h
  · cases hmoves <;> cases s <;> exact ⟨rfl, rfl⟩
  · exact sent_reads hreads s

theorem sent_step {a : Action} (h : step capacity w a = some w') (s : Stream) :
  (w'.channel s).pipe.sent = (w.channel s).pipe.sent ++ a.written s
  := by
  cases a with
  | parent count =>
    have hnone : (Action.parent count).written s = [] := rfl
    rw [(sent_parent h s).1, hnone, List.append_nil]
  | child act =>
    cases act with
    | write s' bytes =>
      obtain ⟨pipe, hwrite, rfl⟩ := Option.map_eq_some_iff.mp h
      obtain ⟨-, rfl⟩ := Pipe.write_eq_some hwrite
      by_cases hs : s' = s
      · subst hs
        rw [channel_setChannel, Action.written, if_pos rfl]
      · rw [channel_setChannel_of_ne hs, Action.written, if_neg hs, List.append_nil]
    | close s' =>
      obtain ⟨pipe, hclose, rfl⟩ := Option.map_eq_some_iff.mp h
      obtain ⟨-, rfl⟩ := Pipe.close_eq_some hclose
      have hnone : (Action.child (.close s')).written s = [] := rfl
      rw [hnone, List.append_nil]
      by_cases hs : s' = s
      · subst hs
        rw [channel_setChannel]
      · rw [channel_setChannel_of_ne hs]
    | exit status =>
      unfold step World.child at h
      dsimp only at h
      split_ifs at h
      cases h
      have hnone : (Action.child (.exit status)).written s = [] := rfl
      rw [hnone, List.append_nil]
      cases s <;> rfl

end World

variable {actions : List Action} {w : World}

theorem Runs.sent (h : Runs capacity actions w) (s : Stream) :
  (w.channel s).pipe.sent = written s actions
  := by
  apply StepRuns.run_induction (P := fun actions m => (m.channel s).pipe.sent = written s actions) h
  · cases s <;> rfl
  · intro before m a m' hm hstep
    rw [World.sent_step hstep, hm, written, written, List.flatMap_append, List.flatMap_singleton]

/-- In whatever order the command writes, closes its pipes and ends, and the loop reads, the result
behind the loop is all that the command has written to both pipes and the code of its end, and nothing
can be written any more. -/
theorem result_of_done (h : Runs capacity actions w) (hdone : w.place = .done) :
  w.out.pipe.closed = true ∧ w.err.pipe.closed = true ∧ ∃ status, w.exited = some status ∧
    w.result = some {
      code := status.code, out := written .out actions, err := written .err actions }
  := by
  have hkept := h.kept
  obtain ⟨hopen, hstatus⟩ := hkept.done hdone
  obtain ⟨hout, herr⟩ := Bool.or_eq_false_iff.mp hopen
  obtain ⟨hclosed, hpending⟩ := hkept.out.ended hout
  obtain ⟨hclosed', hpending'⟩ := hkept.err.ended herr
  obtain ⟨status, hstatus⟩ := Option.ne_none_iff_exists'.mp hstatus
  refine ⟨hclosed, hclosed', status, hkept.status status hstatus, ?_⟩
  have hsent := h.sent .out
  have hsent' := h.sent .err
  dsimp only [World.channel] at hsent hsent'
  rw [World.result, hstatus, hkept.out.holds.copyFrom, hkept.err.holds.copyFrom,
    Pipe.take_taken_of_pending hpending, Pipe.take_taken_of_pending hpending', hsent, hsent']
  rfl

/-- A command that writes `hi` and `no` and exits with 3 while both are read. -/
def greeting : List Action :=
  [.parent 0, .child (.write .out [104, 105]), .parent 1, .parent 1, .parent 0,
    .child (.write .err [110, 111]), .child (.close .out), .parent 2, .parent 0, .parent 0,
    .parent 0, .parent 0, .parent 0, .child (.exit (.exited 3)), .child (.close .err), .parent 0,
    .parent 0, .parent 0, .parent 0, .parent 0, .parent 0]

theorem result_of_greeting :
  ∃ w, Runs 8 greeting w ∧ w.result = some { code := 3, out := [104, 105], err := [110, 111] }
  := by
  have hruns : (StepRuns.run (step 8) .start greeting).any
      (fun w => w.place = .done ∧ w.exited = some (.exited 3)) = true := by decide +kernel
  obtain ⟨w, hrun, hend⟩ := Option.any_eq_true _ _ |>.mp hruns
  obtain ⟨hdone, hexited⟩ := of_decide_eq_true hend
  obtain ⟨-, -, status, hstatus, hresult⟩ := result_of_done hrun hdone
  rw [hexited] at hstatus
  cases hstatus
  exact ⟨w, hrun, hresult⟩

end Caster.Proc
