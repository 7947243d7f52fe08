import Mathlib.Data.List.TakeDrop

/-!
# Pipes

A pipe keeps what its writers have sent until its reader takes it.  The reader takes at most so many
values at a time and never waits: when there are none, it learns whether more can come.
-/

namespace Pipes

/-- What was sent through a pipe so far, how much of it the reader has taken, and whether no writer is
left. -/
structure Pipe (α : Type) where
  sent : List α
  taken : ℕ
  closed : Bool
deriving DecidableEq

variable {α : Type}

/-- What a reader gets. -/
inductive Got (α : Type) where
  | values (vs : List α)
  | nothing
  | ended
deriving DecidableEq

namespace Pipe

/-- A pipe with a writer, through which nothing was sent. -/
def new : Pipe α := { sent := [], taken := 0, closed := false }

/-- What was sent and not taken. -/
def pending (p : Pipe α) : List α := p.sent.drop p.taken

/-- A writer sends values, when there is room for them. -/
def write (capacity : ℕ) (p : Pipe α) (vs : List α) : Option (Pipe α) :=
  if p.closed = false ∧ p.pending.length + vs.length ≤ capacity then
    some { p with sent := p.sent ++ vs }
  else none

/-- The last writer leaves. -/
def close (p : Pipe α) : Option (Pipe α) :=
  if p.closed then none else some { p with closed := true }

/-- The reader asks for at most `size` values.  Of those that are there it gets some, `count`. -/
def read (size count : ℕ) (p : Pipe α) : Option (Got α × Pipe α) :=
  if p.pending = [] then some (if p.closed then .ended else .nothing, p)
  else if 0 < count ∧ count ≤ size ∧ count ≤ p.pending.length then
    some (.values (p.pending.take count), { p with taken := p.taken + count })
  else none

/-- No more was taken than was sent. -/
def Sound (p : Pipe α) : Prop := p.taken ≤ p.sent.length

variable {p p' : Pipe α}

theorem sound_new : (new : Pipe α).Sound := Nat.le_refl 0

theorem length_pending (p : Pipe α) : p.pending.length = p.sent.length - p.taken :=
  List.length_drop

/-- Everything was taken from a pipe where nothing is pending. -/
theorem take_taken_of_pending (h : p.pending = []) : p.sent.take p.taken = p.sent := by
  conv_rhs => rw [← List.take_append_drop p.taken p.sent]
  rw [show p.sent.drop p.taken = [] from h, List.append_nil]

theorem write_eq_some {capacity : ℕ} {vs : List α} (h : p.write capacity vs = some p') :
    p.closed = false ∧ p' = { p with sent := p.sent ++ vs } := by
  unfold write at h
  split_ifs at h with hopen
  exact ⟨hopen.1, (Option.some.inj h).symm⟩

theorem close_eq_some (h : p.close = some p') :
    p.closed = false ∧ p' = { p with closed := true } := by
  unfold close at h
  split_ifs at h with hopen
  exact ⟨Bool.eq_false_iff.mpr hopen, (Option.some.inj h).symm⟩

theorem Sound.write {capacity : ℕ} {vs : List α} (h : p.Sound)
    (hwrite : p.write capacity vs = some p') : p'.Sound := by
  obtain ⟨_, rfl⟩ := write_eq_some hwrite
  unfold Sound at h ⊢
  simp only [List.length_append]
  omega

theorem Sound.close (h : p.Sound) (hclose : p.close = some p') : p'.Sound := by
  obtain ⟨_, rfl⟩ := close_eq_some hclose
  exact h

/-- What was taken stays what it is when more is sent. -/
theorem take_taken_write {capacity : ℕ} {vs : List α} (h : p.Sound)
    (hwrite : p.write capacity vs = some p') : p'.sent.take p'.taken = p.sent.take p.taken := by
  obtain ⟨_, rfl⟩ := write_eq_some hwrite
  exact List.take_append_of_le_length h

/-- What a read does. -/
theorem read_eq_some {size count : ℕ} {got : Got α} (h : p.read size count = some (got, p')) :
    (p.pending = [] ∧ p.closed = false ∧ got = .nothing ∧ p' = p) ∨
      (p.pending = [] ∧ p.closed = true ∧ got = .ended ∧ p' = p) ∨
      (0 < count ∧ count ≤ p.pending.length ∧ got = .values (p.pending.take count) ∧
        p' = { p with taken := p.taken + count }) := by
  unfold read at h
  split_ifs at h with hempty hclosed hcount
  · cases h
    exact .inr (.inl ⟨hempty, hclosed, rfl, rfl⟩)
  · cases h
    exact .inl ⟨hempty, Bool.eq_false_iff.mpr hclosed, rfl, rfl⟩
  · cases h
    exact .inr (.inr ⟨hcount.1, hcount.2.2, rfl, rfl⟩)

/-- A reader that asks for something always gets an answer. -/
theorem exists_read {size : ℕ} (hsize : 0 < size) (p : Pipe α) :
    ∃ count r, p.read size count = some r := by
  by_cases hempty : p.pending = []
  · exact ⟨0, _, if_pos hempty⟩
  · have hpos := List.length_pos_iff.mpr hempty
    exact ⟨1, _, (if_neg hempty).trans (if_pos ⟨Nat.one_pos, hsize, hpos⟩)⟩

/-- The values that a read gets are the next ones that were sent. -/
theorem take_taken_values (p : Pipe α) (count : ℕ) :
    p.sent.take (p.taken + count) = p.sent.take p.taken ++ p.pending.take count := by
  rw [pending, List.take_add]

end Pipe

end Pipes
