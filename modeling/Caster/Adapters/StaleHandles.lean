import Caster.Adapters.BufContents
import Caster.Adapters.BufHandles
import Caster.Adapters.Sql

/-!
# Copies of the handles of freed objects

A freed slot is handed out again by the next call that needs one.  As long as no copy of its handle
is left then, every call with a copy of the handle of a freed object is rejected.
-/

namespace Caster

/-- In a run in which no handle is handed out that another variable holds, every call with a copy of
the handle of a freed object ends the program with the message of an invalid handle.  It is the same
behind a further step that makes an object if and only if that does not hand out such a handle. -/
def RejectsStale {Make Use Result : Type} (H : HandleTable Make Use Result) (V : Type)
    [DecidableEq V] : Prop :=
  ∀ s : H.State V, HandleTable.Runs s → HandleTable.Rejects s ∧
    ∀ (target : V) (made : Make) (s' : H.State V),
      HandleTable.Step s (.make target made) s' →
        (HandleTable.Rejects s' ↔
          HandleTable.Unheld s (.make target made : HandleTable.Action V Make Use))

theorem rejectsStale {Make Use Result : Type} (H : HandleTable Make Use Result) (V : Type)
    [DecidableEq V] :
  RejectsStale H V
  := by
  intro s h
  constructor
  · exact h.separate.rejects
  · intro target made s' hstep
    exact h.separate.rejects_make_iff hstep

/-- Buffers and databases reject the copies of the handles of freed objects in these runs. -/
theorem stale_copies_rejected {F V : Type} [DecidableEq V] (format : Buf.FltFormat F)
    (sqlite : Sql.Sqlite F) :
  RejectsStale (Buf.bufTable format) V ∧ RejectsStale (Sql.sqlTable sqlite) V
  := by
  constructor
  · exact rejectsStale _ V
  · exact rejectsStale _ V

/-- A copy of the handle of a freed buffer leads to the buffer that is made next. -/
theorem not_stale_copies_rejected :
  ¬ ∀ s : (Buf.bufTable Buf.zeroFormat).State (Fin 3),
    HandleTable.Reached s → HandleTable.Rejects s
  := by
  intro h
  have hreached : HandleTable.Reached (H := Buf.bufTable Buf.zeroFormat) (V := Fin 3) _ :=
    .step (.step (.step (.step .start (.make 0 () rfl)) (.copy 0 1)) (.free 0 rfl rfl))
      (.make 2 () rfl)
  obtain ⟨huse, -⟩ := h _ hreached 1 ⟨1, 0⟩ rfl rfl
  cases huse .len

end Caster
