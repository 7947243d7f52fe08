import Caster.Adapters.ProcRun

/-!
# Commands end

The loop of `PROC.run` empties both pipes again and again, so a command that waits for room in one of
them gets it, whichever of the two it fills.  Behind the end of the command, the loop ends.
-/

namespace Caster.Proc

open Pipes (Pipe)

variable {capacity : ℕ} {actions : List Action} {w : World}

/-! ### Distances in the loop -/

/-- The steps of the loop from a place to the next one that reads the standard output. -/
def Place.toOut : Place → ℕ
  | readOut | lastOut | done => 0
  | head => 1
  | pause | lastErr => 2
  | wait => 3
  | readErr => 4

/-- The steps to the next place that reads the standard error. -/
def Place.toErr : Place → ℕ
  | readErr | lastErr | done => 0
  | readOut | lastOut => 1
  | head => 2
  | pause => 3
  | wait => 4

/-- The steps to the next wait for the command. -/
def Place.toWait : Place → ℕ
  | wait | done => 0
  | readErr => 1
  | readOut => 2
  | head => 3
  | lastErr | pause => 4
  | lastOut => 5

/-- The steps to the end of the loop. -/
def Place.toDone : Place → ℕ
  | done => 0
  | head => 1
  | lastErr => 2
  | lastOut => 3
  | pause => 4
  | wait => 5
  | readErr => 6
  | readOut => 7

namespace World

/-- How many bytes wait in the pipes. -/
def pending (w : World) : ℕ := w.out.pipe.pending.length + w.err.pipe.pending.length

/-- A bound on the steps of the loop until both pipes are empty. -/
def drainRank (w : World) : ℕ :=
  5 * w.pending +
    if w.out.pipe.pending ≠ [] then w.place.toOut
    else if w.err.pipe.pending ≠ [] then w.place.toErr
    else 0

/-- A bound on the steps of the loop until its end, when the command is over. -/
def finishRank (w : World) : ℕ :=
  8 * (w.pending + w.out.capture.isOpen.toNat + w.err.capture.isOpen.toNat + w.status.isNone.toNat) +
    if w.out.capture.isOpen then w.place.toOut
    else if w.err.capture.isOpen then w.place.toErr
    else if w.status = none then w.place.toWait
    else w.place.toDone

variable {w w' : World} {s : Stream}

/-- Behind a pipe, the loop comes closer to the other one, to the wait and to its end. -/
theorem ReadsAt.closer {p next : Place} (h : ReadsAt p s next) :
  (s = .out → next.toErr < p.toErr) ∧ (s = .err → next.toOut < p.toOut) ∧
    next.toWait < p.toWait ∧ next.toDone < p.toDone
  := by
  cases h <;> decide

/-- A step that reads a pipe takes some bytes of it, or finds it empty. -/
theorem Kept.reads_cases (h : w.Kept) {next : Place} {count : ℕ}
    (hreads : w.reads s next count = some w') :
  (w'.place = w.place ∧ w'.status = w.status ∧
      (w'.channel s).pipe.pending.length < (w.channel s).pipe.pending.length ∧
      (w'.channel s).capture.isOpen = (w.channel s).capture.isOpen ∧
      ∀ s', s' ≠ s → w'.channel s' = w.channel s') ∨
    (w'.place = next ∧ w'.status = w.status ∧ (w.channel s).pipe.pending = [] ∧
      (w'.channel s).pipe = (w.channel s).pipe ∧
      (w'.channel s).capture.isOpen =
        ((w.channel s).capture.isOpen && !(w.channel s).pipe.closed) ∧
      ∀ s', s' ≠ s → w'.channel s' = w.channel s')
  := by
  have hother : ∀ (ch : Channel) (place : Place) (s' : Stream), s' ≠ s →
      World.channel { w.setChannel s ch with place } s' = w.channel s' := by
    intro ch place s' hne
    rw [channel_place, channel_setChannel_of_ne hne.symm]
  have hstatus : ∀ ch : Channel, (w.setChannel s ch).status = w.status := by
    intro ch
    cases s <;> rfl
  obtain ⟨hclosed, rfl⟩ | ⟨hopen, goesOn, ch, hpass, rfl⟩ := reads_eq_some hreads
  · right
    refine ⟨rfl, rfl, ((h.channel s).ended hclosed).2, ?_, ?_, fun s' _ => channel_place w next s'⟩
    · rw [channel_place]
    · rw [channel_place, hclosed, Bool.false_and]
  · cases hpass with
    | nothing hempty hclosed =>
      right
      refine ⟨rfl, hstatus _, hempty, ?_, ?_, hother _ _⟩
      · rw [channel_place, channel_setChannel]
      · rw [channel_place, channel_setChannel, hclosed, Bool.not_false, Bool.and_true]
    | ended hempty hclosed =>
      right
      refine ⟨rfl, hstatus _, hempty, ?_, ?_, hother _ _⟩
      · rw [channel_place, channel_setChannel]
      · rw [channel_place, channel_setChannel, hclosed, Bool.not_true, Bool.and_false]
    | @values count capture hpos hle happend =>
      left
      obtain ⟨capture', happend', -, hsame⟩ :=
        (h.channel s).holds.append ((w.channel s).pipe.pending.take count)
      rw [happend] at happend'
      cases happend'
      refine ⟨rfl, hstatus _, ?_, ?_, hother _ _⟩
      · rw [channel_place, channel_setChannel]
        have hlength := (w.channel s).pipe.length_pending
        rw [Pipe.length_pending]
        dsimp only
        omega
      · rw [channel_place, channel_setChannel]
        exact hsame

/-- The loop can go on until its end. -/
theorem Kept.exists_parent (h : w.Kept) (hplace : w.place ≠ .done) :
  ∃ count w', w.parent count = some w'
  := by
  have hreads : ∀ s next, ∃ count w', w.reads s next count = some w' := by
    intro s next
    unfold World.reads
    split_ifs
    · obtain ⟨count, r, hread⟩ := (h.channel s).exists_appendRead
      exact ⟨count, _, by rw [hread, Option.map_some]⟩
    · exact ⟨0, _, rfl⟩
  unfold World.parent
  cases hw : w.place with
  | head => exact ⟨0, _, rfl⟩
  | readOut => exact hreads .out .readErr
  | readErr => exact hreads .err .wait
  | wait => exact ⟨0, _, rfl⟩
  | pause => exact ⟨0, _, rfl⟩
  | lastOut => exact hreads .out .lastErr
  | lastErr => exact hreads .err .head
  | done => exact absurd hw hplace

/-- Both pipes are empty. -/
def Drained (w : World) : Prop := w.out.pipe.pending = [] ∧ w.err.pipe.pending = []

theorem Moves.closer (h : w.Moves w') :
  w'.out = w.out ∧ w'.err = w.err ∧ w'.place.toOut < w.place.toOut ∧ w'.place.toErr < w.place.toErr
  := by
  cases h with
  | head hplace | leave hplace | wait hplace =>
    rw [hplace]
    refine ⟨rfl, rfl, ?_, ?_⟩ <;> simp only [Place.toOut, Place.toErr] <;> omega
  | pause hplace =>
    rw [hplace]
    dsimp only
    split_ifs <;> refine ⟨rfl, rfl, ?_, ?_⟩ <;> simp only [Place.toOut, Place.toErr] <;> omega

theorem toOut_le (p : Place) : p.toOut ≤ 4 := by cases p <;> decide

theorem toErr_le (p : Place) : p.toErr ≤ 4 := by cases p <;> decide

/-- Fewer bytes wait when fewer wait in one of the pipes. -/
theorem pending_lt
    (hlt : (w'.channel s).pipe.pending.length < (w.channel s).pipe.pending.length)
    (hother : ∀ s', s' ≠ s → w'.channel s' = w.channel s') :
  w'.pending < w.pending
  := by
  unfold World.pending
  cases s with
  | out =>
    have herr : w'.err = w.err := hother .err (by decide)
    rw [herr]
    exact Nat.add_lt_add_right hlt _
  | err =>
    have hout : w'.out = w.out := hother .out (by decide)
    rw [hout]
    exact Nat.add_lt_add_left hlt _

/-- While the command does nothing, the loop comes closer to two empty pipes, or leaves them empty. -/
theorem Kept.drainRank_lt (h : w.Kept) {count : ℕ} (hstep : w.parent count = some w') :
  w'.Drained ∨ ¬ w.Drained ∧ w'.drainRank < w.drainRank
  := by
  have hrank : w'.drainRank ≤ 5 * w'.pending + 4 := by
    unfold drainRank
    split_ifs
    · exact Nat.add_le_add_left (toOut_le _) _
    · exact Nat.add_le_add_left (toErr_le _) _
    · omega
  have hpending : 5 * w.pending ≤ w.drainRank := Nat.le_add_right _ _
  obtain hmoves | ⟨s, next, hat, hreads⟩ := parent_cases hstep
  · obtain ⟨hout, herr, htoOut, htoErr⟩ := hmoves.closer
    unfold Drained drainRank World.pending
    rw [hout, herr]
    by_cases hempty : w.out.pipe.pending = []
    · by_cases hempty' : w.err.pipe.pending = []
      · exact .inl ⟨hempty, hempty'⟩
      · simp only [hempty, hempty', ne_eq, not_true, not_false_eq_true, if_true, if_false, and_false,
          true_and]
        omega
    · simp only [hempty, ne_eq, not_false_eq_true, if_true, false_and, true_and]
      omega
  · obtain ⟨hplace, -, hlt, -, hother⟩ | ⟨hplace, -, hempty, hpipe, -, hother⟩ := h.reads_cases hreads
    · right
      have hless := pending_lt hlt hother
      constructor
      · rintro ⟨hout, herr⟩
        cases s with
        | out => exact absurd hlt (by simp [World.channel, hout])
        | err => exact absurd hlt (by simp [World.channel, herr])
      · omega
    · obtain ⟨htoErr, htoOut, -, -⟩ := hat.closer
      unfold Drained drainRank World.pending
      rw [hplace]
      cases s with
      | out =>
        have herr : w'.err = w.err := hother .err (by decide)
        have hout : w'.out.pipe = w.out.pipe := hpipe
        have hempty : w.out.pipe.pending = [] := hempty
        rw [herr, hout]
        by_cases hempty' : w.err.pipe.pending = []
        · exact .inl ⟨hempty, hempty'⟩
        · simp only [hempty, hempty', ne_eq, not_true, not_false_eq_true, if_true, if_false, and_false,
            true_and]
          have := htoErr rfl
          omega
      | err =>
        have hout : w'.out = w.out := hother .out (by decide)
        have herr : w'.err.pipe = w.err.pipe := hpipe
        have hempty : w.err.pipe.pending = [] := hempty
        rw [hout, herr]
        by_cases hempty' : w.out.pipe.pending = []
        · exact .inl ⟨hempty', hempty⟩
        · simp only [hempty', ne_eq, not_false_eq_true, if_true, false_and, true_and]
          have := htoOut rfl
          omega

theorem toWait_le (p : Place) : p.toWait ≤ 7 := by cases p <;> decide

theorem toDone_le (p : Place) : p.toDone ≤ 7 := by cases p <;> decide

/-- The command is over: it has ended, and nothing can be written to its pipes. -/
structure Over (w : World) : Prop where
  exited : w.exited ≠ none
  out : w.out.pipe.closed = true
  err : w.err.pipe.closed = true

/-- Behind the end of the command, every step of the loop comes closer to the end of the loop. -/
theorem Kept.finishRank_lt (h : w.Kept) (hover : w.Over) {count : ℕ}
    (hstep : w.parent count = some w') :
  w'.finishRank < w.finishRank
  := by
  have htail : ∀ v : World, v.finishRank ≤ 8 * (v.pending + v.out.capture.isOpen.toNat +
      v.err.capture.isOpen.toNat + v.status.isNone.toNat) + 7 := by
    intro v
    unfold finishRank
    apply Nat.add_le_add_left
    split_ifs
    · exact (toOut_le _).trans (by decide)
    · exact (toErr_le _).trans (by decide)
    · exact toWait_le _
    · exact toDone_le _
  obtain hmoves | ⟨s, next, hat, hreads⟩ := parent_cases hstep
  · clear htail
    unfold finishRank World.pending
    cases hmoves with
    | head hplace hgoes =>
      rw [hplace]
      dsimp only
      split_ifs with hout herr hstatus
      · simp only [Place.toOut]
        omega
      · simp only [Place.toErr]
        omega
      · simp only [Place.toWait]
        omega
      · simp only [anyOpen, hout, herr, Bool.or_false, hstatus, Bool.false_eq_true, or_self] at hgoes
    | leave hplace hopen hstatus =>
      obtain ⟨hout, herr⟩ := Bool.or_eq_false_iff.mp hopen
      simp only [hplace, hout, herr, hstatus, Bool.false_eq_true, if_false, Place.toDone]
      omega
    | wait hplace =>
      rw [hplace]
      dsimp only
      by_cases hstatus : w.status = none
      · -- the command has ended, so the wait learns its status
        obtain ⟨status, hexited⟩ := Option.ne_none_iff_exists'.mp hover.exited
        simp only [hstatus, if_true, hexited, Option.isNone_none, Option.isNone_some, Bool.toNat_true,
          Bool.toNat_false, Place.toOut, Place.toErr, Place.toWait, Place.toDone]
        split_ifs <;> omega
      · simp only [hstatus, if_false, Place.toOut, Place.toErr, Place.toDone]
        split_ifs <;> omega
    | pause hplace =>
      rw [hplace]
      dsimp only
      by_cases hstatus : w.status = none
      · simp only [hstatus, if_true, Place.toOut, Place.toErr, Place.toWait]
        split_ifs <;> omega
      · simp only [hstatus, if_false, Place.toOut, Place.toErr, Place.toDone]
        split_ifs <;> omega
  · have hclosed : (w.channel s).pipe.closed = true := by
      cases s with
      | out => exact hover.out
      | err => exact hover.err
    have hle : 8 * (w.pending + w.out.capture.isOpen.toNat + w.err.capture.isOpen.toNat +
        w.status.isNone.toNat) ≤ w.finishRank := Nat.le_add_right _ _
    have htail' := htail w'
    obtain ⟨-, hstatus, hlt, hopen, hother⟩ | ⟨hplace, hstatus, -, hpipe, hopen, hother⟩ :=
      h.reads_cases hreads
    · have hless := pending_lt hlt hother
      have hsame : w'.out.capture.isOpen = w.out.capture.isOpen ∧
          w'.err.capture.isOpen = w.err.capture.isOpen := by
        cases s with
        | out => exact ⟨hopen, by rw [show w'.err = w.err from hother .err (by decide)]⟩
        | err => exact ⟨by rw [show w'.out = w.out from hother .out (by decide)], hopen⟩
      rw [hsame.1, hsame.2, hstatus] at htail'
      omega
    · obtain ⟨htoErr, htoOut, htoWait, htoDone⟩ := hat.closer
      rw [hclosed, Bool.not_true, Bool.and_false] at hopen
      cases s with
      | out =>
        have herr : w'.err = w.err := hother .err (by decide)
        have hout : w'.out.pipe = w.out.pipe := hpipe
        have hopen : w'.out.capture.isOpen = false := hopen
        have hpending : w'.pending = w.pending := by rw [World.pending, World.pending, hout, herr]
        by_cases hwas : w.out.capture.isOpen = true
        · rw [hpending, herr, hopen, hstatus] at htail'
          rw [hwas] at hle
          simp only [Bool.toNat_true, Bool.toNat_false] at hle htail'
          omega
        · have := htoErr rfl
          unfold finishRank
          rw [hpending, herr, hopen, hstatus, hplace]
          simp only [hwas, Bool.false_eq_true, if_false]
          split_ifs <;> omega
      | err =>
        have hout : w'.out = w.out := hother .out (by decide)
        have herr : w'.err.pipe = w.err.pipe := hpipe
        have hopen : w'.err.capture.isOpen = false := hopen
        have hpending : w'.pending = w.pending := by rw [World.pending, World.pending, hout, herr]
        by_cases hwas : w.err.capture.isOpen = true
        · rw [hpending, hout, hopen, hstatus] at htail'
          rw [hwas] at hle
          simp only [Bool.toNat_true, Bool.toNat_false] at hle htail'
          omega
        · have := htoOut rfl
          unfold finishRank
          rw [hpending, hout, hopen, hstatus, hplace]
          simp only [hwas, Bool.false_eq_true, if_false]
          split_ifs <;> omega

theorem Over.parent (h : w.Over) {count : ℕ} (hstep : w.parent count = some w') : w'.Over := by
  have hexited : w'.exited = w.exited := by
    obtain hmoves | ⟨s, next, -, hreads⟩ := parent_cases hstep
    · cases hmoves <;> rfl
    · obtain ⟨-, rfl⟩ | ⟨-, goesOn, ch, -, rfl⟩ := reads_eq_some hreads
      · rfl
      · cases s <;> rfl
  refine ⟨?_, ?_, ?_⟩
  · rw [hexited]
    exact h.exited
  · exact (sent_parent hstep .out).2.trans h.out
  · exact (sent_parent hstep .err).2.trans h.err

end World

/-- Behind the end of the command the loop ends: it goes on until it is done, and there is a bound on
the steps it can take. -/
theorem loop_ends (h : Runs capacity actions w) (hover : w.Over) :
  ∃ n, ∀ counts w', StepRuns.run World.parent w counts = some w' →
    counts.length ≤ n ∧ (w'.place = .done ∨ ∃ count w'', w'.parent count = some w'')
  := by
  use w.finishRank
  intro counts w' hrun
  have hkept : ∀ (m : World) count m', (m.Kept ∧ m.Over) → m.parent count = some m' →
      (m'.Kept ∧ m'.Over) ∧ m'.finishRank < m.finishRank := by
    rintro m count m' ⟨hm, hover⟩ hstep
    exact ⟨⟨hm.parent hstep, hover.parent hstep⟩, hm.finishRank_lt hover hstep⟩
  constructor
  · have hle := StepRuns.length_le_rank hrun ⟨h.kept, hover⟩ hkept
    omega
  · have hw' := StepRuns.run_invariant hrun ⟨h.kept, hover⟩ fun m count m' hm hstep =>
      (hkept m count m' hm hstep).1
    by_cases hdone : w'.place = .done
    · exact .inl hdone
    · exact .inr (hw'.1.exists_parent hdone)

/-- A command that writes a byte and exits before anything is read. -/
theorem loop_ends_of_exit :
  ∃ w, Runs 8 [.child (.write .err [33]), .child (.close .out), .child (.close .err),
      .child (.exit (.exited 0))] w ∧
    ∃ n, ∀ counts w', StepRuns.run World.parent w counts = some w' →
      counts.length ≤ n ∧ (w'.place = .done ∨ ∃ count w'', w'.parent count = some w'')
  := by
  let out : Pipe UInt8 := { sent := [], taken := 0, closed := true }
  let err : Pipe UInt8 := { sent := [33], taken := 0, closed := true }
  let w : World := { World.start with
    out := { Channel.new with pipe := out }, err := { Channel.new with pipe := err },
    exited := some (.exited 0) }
  have hrun : Runs 8 [.child (.write .err [33]), .child (.close .out), .child (.close .err),
      .child (.exit (.exited 0))] w := rfl
  exact ⟨w, hrun, loop_ends hrun ⟨by simp [w], rfl, rfl⟩⟩

end Caster.Proc
