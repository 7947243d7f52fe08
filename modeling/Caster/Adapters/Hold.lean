import Caster.Adapters.ResponseDecoding
import Caster.Library.StepRuns

/-!
# Holding tasks

A task of a request has a worker, which works on a response, stores its result and marks the task as
done.  The program holds one task or a list of them: it looks at their status again and again until
all are done, and takes their results.  Workers go on at any time meanwhile.
-/

namespace Caster.Hold

open Driver (Text)
open Req (HttpRes HttpResponse flxHttpTaskAppendBody flxHttpTaskFinish flxHttpTaskSetError)

/-! ### Tasks -/

inductive TaskStatus where
  | pending | running | done | cancelled
deriving DecidableEq

/-- How far the worker of a task is. -/
inductive Worker where
  | none | running | stored | ended
deriving DecidableEq

/-- A task with the response its worker is at. -/
structure FlxTask where
  status : TaskStatus
  result : Option HttpRes
  http : HttpResponse
  worker : Worker

/-- The task that `REQ_request` makes. -/
def FlxTask.new : FlxTask := { status := .pending, result := none, http := {}, worker := .none }

/-- The result of a task is stored, unless the task is over. -/
def FlxTask.store (t : FlxTask) : FlxTask :=
  if t.status = .done ∨ t.status = .cancelled then t
  else { t with result := some (flxHttpTaskFinish t.http) }

def threadFailed : Text := "request thread creation failed".toList

/-- The function `flx_http_task_start`.  A thread for the worker is there, or it is not. -/
def flxHttpTaskStart (thread : Bool) (t : FlxTask) : FlxTask :=
  if t.status ≠ .pending then t
  else if thread then { t with status := .running, worker := .running }
  else
    let t := { t with status := .running, http := flxHttpTaskSetError t.http threadFailed }
    { t.store with status := .done }

/-- What a worker does. -/
inductive WorkerAction where
  | setError (message : Text)
  | appendBody (data : Text)
  | setStatus (status : Int32)
  /-- It stores the result, the first half of `flx_http_task_finish`. -/
  | store
  /-- It marks the task as done. -/
  | finish

def FlxTask.work (t : FlxTask) : WorkerAction → Option FlxTask
  | .setError message =>
    if t.worker = .running then some { t with http := flxHttpTaskSetError t.http message } else none
  | .appendBody data =>
    if t.worker = .running then some { t with http := flxHttpTaskAppendBody t.http data } else none
  | .setStatus status =>
    if t.worker = .running then some { t with http := { t.http with status } } else none
  | .store => if t.worker = .running then some { t.store with worker := .stored } else none
  | .finish =>
    if t.worker = .stored then some { t with status := .done, worker := .ended } else none

/-! ### The program -/

/-- Where the program is. -/
inductive Place where
  | ready
  | hold (task : Option ℕ)
  | startAll (tasks : List (Option ℕ)) (i : ℕ)
  | check (tasks : List (Option ℕ)) (i : ℕ)
  | held (task : Option ℕ) (res : HttpRes)
  | heldAll (tasks : List (Option ℕ)) (ress : List HttpRes)

/-- The tasks by their addresses, and how many addresses were used so far. -/
structure World where
  tasks : ℕ → Option FlxTask
  next : ℕ
  place : Place

def World.start : World := { tasks := fun _ => none, next := 0, place := .ready }

/-- What `flx_hold_httpres` answers for no task. -/
def taskFailed : HttpRes := { status := 0, body := "task failed".toList }

namespace World

def setTask (w : World) (loc : ℕ) (t : Option FlxTask) : World :=
  { w with tasks := Function.update w.tasks loc t }

/-- The function `flx_task_is_finished`. -/
def isFinished (w : World) : Option ℕ → Option Bool
  | none => some true
  | some loc => (w.tasks loc).map fun t => t.status = .done ∨ t.status = .cancelled

/-- The function `flx_task_start_if_needed`. -/
def startIfNeeded (w : World) (thread : Bool) : Option ℕ → Option World
  | none => some w
  | some loc => (w.tasks loc).map fun t => w.setTask loc (some (flxHttpTaskStart thread t))

/-- The result behind a task, which is read without a look at whether it is there. -/
def resultOf (w : World) : Option ℕ → Option HttpRes
  | none => none
  | some loc => (w.tasks loc).bind FlxTask.result

/-- The results of the loop of `flx_hold_all_httpres`, in the order of the tasks. -/
def results (w : World) : List (Option ℕ) → Option (List HttpRes)
  | [] => some []
  | task :: tasks => do
    let res ← w.resultOf task
    let ress ← results w tasks
    some (res :: ress)

/-- What `flx_hold_httpres` answers with for a task that is finished. -/
def answer (w : World) : Option ℕ → Option HttpRes
  | none => some taskFailed
  | some loc => (w.tasks loc).map fun t => t.result.getD taskFailed

/-- The program goes on with the statement it is at. -/
def go (w : World) (thread : Bool) : Option World :=
  match w.place with
  | .ready => none
  | .hold task => do
    if ← w.isFinished task then some { w with place := .held task (← w.answer task) }
    else some w
  | .startAll tasks i =>
    if h : i < tasks.length then do
      some { ← w.startIfNeeded thread tasks[i] with place := .startAll tasks (i + 1) }
    else some { w with place := .check tasks 0 }
  | .check tasks i =>
    if h : i < tasks.length then do
      if ← w.isFinished tasks[i] then some { w with place := .check tasks (i + 1) }
      else some { w with place := .check tasks 0 }
    else do
      some { w with place := .heldAll tasks (← w.results tasks) }
  | .held _ _ => some { w with place := .ready }
  | .heldAll _ _ => some { w with place := .ready }

end World

/-- A step of the system. -/
inductive Action where
  /-- `REQ` is called. -/
  | request (thread : Bool)
  | hold (task : Option ℕ) (thread : Bool)
  | holdAll (tasks : List (Option ℕ))
  /-- A task is released, which waits for the end of its worker. -/
  | drop (task : Option ℕ)
  | go (thread : Bool)
  | worker (loc : ℕ) (act : WorkerAction)

/-- A step.  There is none where the program reads a task that is not there. -/
def step (w : World) : Action → Option World
  | .request thread =>
    match w.place with
    | .ready => some { w.setTask w.next (some (flxHttpTaskStart thread .new)) with
        next := w.next + 1 }
    | _ => none
  | .hold task thread =>
    match w.place with
    | .ready => (w.startIfNeeded thread task).map fun w => { w with place := .hold task }
    | _ => none
  | .holdAll tasks =>
    match w.place with
    | .ready => some { w with place := .startAll tasks 0 }
    | _ => none
  | .drop task =>
    match w.place, task with
    | .ready, none => some w
    | .ready, some loc =>
      (w.tasks loc).bind fun t =>
        if t.worker = .none ∨ t.worker = .ended then some (w.setTask loc none) else none
    | _, _ => none
  | .go thread => w.go thread
  | .worker loc act =>
    (w.tasks loc).bind fun t => (t.work act).map fun t => w.setTask loc (some t)

/-- A run of the system. -/
def Runs (actions : List Action) (w : World) : Prop :=
  StepRuns.run step .start actions = some w

/-! ### What tasks keep -/

/-- The result of a task is there before the task is marked as done, and stays as it is. -/
structure FlxTask.Kept (t : FlxTask) : Prop where
  running : t.worker = .running → t.status = .running ∧ t.result = none
  stored : t.worker = .stored → t.status = .running ∧ t.result = some (flxHttpTaskFinish t.http)
  gone : t.worker = .none ∨ t.worker = .ended →
    t.status = .done ∧ t.result = some (flxHttpTaskFinish t.http)

variable {t t' : FlxTask}

theorem FlxTask.kept_start (thread : Bool) : (flxHttpTaskStart thread .new).Kept := by
  cases thread with
  | true => exact ⟨fun _ => ⟨rfl, rfl⟩, by decide, by decide⟩
  | false => exact ⟨by decide, by decide, fun _ => ⟨rfl, rfl⟩⟩

theorem FlxTask.Kept.status (h : t.Kept) : t.status = .running ∨ t.status = .done := by
  cases hworker : t.worker with
  | none => exact .inr (h.gone (.inl hworker)).1
  | running => exact .inl (h.running hworker).1
  | stored => exact .inl (h.stored hworker).1
  | ended => exact .inr (h.gone (.inr hworker)).1

/-- A task that was started is not started again. -/
theorem FlxTask.Kept.start_eq (h : t.Kept) (thread : Bool) : flxHttpTaskStart thread t = t := by
  apply if_pos
  intro hpending
  obtain hstatus | hstatus := h.status
  · rw [hpending] at hstatus
    cases hstatus
  · rw [hpending] at hstatus
    cases hstatus

theorem FlxTask.Kept.result (h : t.Kept) (hdone : t.status = .done) :
  t.result = some (flxHttpTaskFinish t.http) ∧ (t.worker = .none ∨ t.worker = .ended)
  := by
  cases hworker : t.worker with
  | none => exact ⟨(h.gone (.inl hworker)).2, .inl rfl⟩
  | running =>
    rw [(h.running hworker).1] at hdone
    cases hdone
  | stored =>
    rw [(h.stored hworker).1] at hdone
    cases hdone
  | ended => exact ⟨(h.gone (.inr hworker)).2, .inr rfl⟩

/-- A worker works on a task that is not done, and keeps a result that is stored. -/
theorem FlxTask.Kept.work (h : t.Kept) {act : WorkerAction} (hwork : t.work act = some t') :
  t'.Kept ∧ t.status ≠ .done ∧ ∀ res, t.result = some res → t'.result = some res
  := by
  cases act with
  | setError _ | appendBody _ | setStatus _ =>
    unfold FlxTask.work at hwork
    dsimp only at hwork
    split_ifs at hwork with hworker
    cases hwork
    obtain ⟨hstatus, hresult⟩ := h.running hworker
    refine ⟨⟨fun _ => ⟨hstatus, hresult⟩, ?_, ?_⟩, ?_, fun _ => id⟩
    · simp [hworker]
    · simp [hworker]
    · simp [hstatus]
  | store =>
    unfold FlxTask.work at hwork
    dsimp only at hwork
    split_ifs at hwork with hworker
    cases hwork
    obtain ⟨hstatus, hresult⟩ := h.running hworker
    refine ⟨⟨by simp, fun _ => ?_, by simp⟩, by simp [hstatus], by simp [hresult]⟩
    simp [FlxTask.store, hstatus]
  | finish =>
    unfold FlxTask.work at hwork
    dsimp only at hwork
    split_ifs at hwork with hworker
    cases hwork
    obtain ⟨hstatus, hresult⟩ := h.stored hworker
    exact ⟨⟨by simp, by simp, fun _ => ⟨rfl, hresult⟩⟩, by simp [hstatus], fun _ => id⟩

/-! ### What a run keeps -/

namespace World

variable {w w' : World} {loc : ℕ} {task : Option ℕ}

@[simp] theorem tasks_setTask_self (w : World) (loc : ℕ) (t : Option FlxTask) :
  (w.setTask loc t).tasks loc = t
  := Function.update_self _ _ _

theorem tasks_setTask_of_ne {other loc : ℕ} (h : other ≠ loc) (w : World) (t : Option FlxTask) :
  (w.setTask loc t).tasks other = w.tasks other
  := Function.update_of_ne h _ _

/-- A task is there, is done, and has a response as its result. -/
def Answered (w : World) (loc : ℕ) (res : HttpRes) : Prop :=
  ∃ t, w.tasks loc = some t ∧ t.status = .done ∧ res = flxHttpTaskFinish t.http

/-- There is no task, or it is done. -/
def Finished (w : World) (task : Option ℕ) : Prop := ∀ loc ∈ task, ∃ res, w.Answered loc res

/-- What the program knows of the tasks at a place. -/
def Knows (w : World) : Place → Prop
  | .check tasks i => ∀ task ∈ tasks.take i, w.Finished task
  | .held none res => res = taskFailed
  | .held (some loc) res => w.Answered loc res
  | .heldAll tasks ress =>
    List.Forall₂ (fun task res => ∃ loc, task = some loc ∧ w.Answered loc res) tasks ress
  | _ => True

/-- Every task is kept and has an address that is in use, and the program is right. -/
structure Kept (w : World) : Prop where
  task : ∀ loc t, w.tasks loc = some t → t.Kept ∧ loc < w.next
  knows : w.Knows w.place

theorem kept_start : World.start.Kept where
  task _ _ h := by cases h
  knows := trivial

theorem Knows.mono (h : ∀ loc res, w.Answered loc res → w'.Answered loc res) {place : Place}
    (hknows : w.Knows place) :
  w'.Knows place
  := by
  cases place with
  | ready | hold | startAll => trivial
  | check tasks i =>
    intro task htask loc hloc
    obtain ⟨res, hres⟩ := hknows task htask loc hloc
    exact ⟨res, h loc res hres⟩
  | held task res =>
    cases task with
    | none => exact hknows
    | some loc => exact h loc res hknows
  | heldAll tasks ress =>
    apply List.Forall₂.imp _ hknows
    rintro task res ⟨loc, htask, hres⟩
    exact ⟨loc, htask, h loc res hres⟩

/-- The work on a task that is not done leaves the others. -/
theorem Answered.setTask {t t' : FlxTask} (htask : w.tasks loc = some t) (hstatus : t.status ≠ .done)
    {other : ℕ} {res : HttpRes} (h : w.Answered other res) :
  (w.setTask loc (some t')).Answered other res
  := by
  obtain ⟨u, hu, hdone, hres⟩ := h
  have hne : other ≠ loc := by
    rintro rfl
    rw [htask] at hu
    cases hu
    exact hstatus hdone
  exact ⟨u, (tasks_setTask_of_ne hne w _).trans hu, hdone, hres⟩

/-- A task that is started again is the same. -/
theorem Kept.startIfNeeded (h : w.Kept) {thread : Bool}
    (hstart : w.startIfNeeded thread task = some w') :
  w' = w ∧ ∀ loc ∈ task, (w.tasks loc).isSome
  := by
  cases task with
  | none =>
    cases hstart
    exact ⟨rfl, by simp⟩
  | some loc =>
    obtain ⟨t, ht, rfl⟩ := Option.map_eq_some_iff.mp hstart
    rw [(h.task loc t ht).1.start_eq]
    refine ⟨?_, by simp [ht]⟩
    unfold World.setTask
    rw [← ht, Function.update_eq_self]

theorem Kept.isFinished (h : w.Kept) (hfinished : w.isFinished task = some true) :
  w.Finished task
  := by
  rintro loc rfl
  obtain ⟨t, ht, hstatus⟩ := Option.map_eq_some_iff.mp hfinished
  have hdone : t.status = .done := by
    obtain hrunning | hdone := (h.task loc t ht).1.status
    · simp [hrunning] at hstatus
    · exact hdone
  exact ⟨_, t, ht, hdone, rfl⟩

/-- The result of a task that is done is read. -/
theorem Kept.resultOf (h : w.Kept) (hfinished : w.Finished task) {res : HttpRes}
    (hres : w.resultOf task = some res) :
  ∃ loc, task = some loc ∧ w.Answered loc res
  := by
  cases task with
  | none => cases hres
  | some loc =>
    obtain ⟨_, t, ht, hdone, -⟩ := hfinished loc rfl
    obtain ⟨t', ht', hresult⟩ := Option.bind_eq_some_iff.mp hres
    rw [ht] at ht'
    cases ht'
    rw [((h.task loc t ht).1.result hdone).1] at hresult
    cases hresult
    exact ⟨loc, rfl, t, ht, hdone, rfl⟩

/-- The results of tasks that are done are read. -/
theorem Kept.results (h : w.Kept) {tasks : List (Option ℕ)} {ress : List HttpRes}
    (hfinished : ∀ task ∈ tasks, w.Finished task) (hress : w.results tasks = some ress) :
  List.Forall₂ (fun task res => ∃ loc, task = some loc ∧ w.Answered loc res) tasks ress
  := by
  induction tasks generalizing ress with
  | nil =>
    cases hress
    exact .nil
  | cons task tasks ih =>
    obtain ⟨res, hres, hrest⟩ := Option.bind_eq_some_iff.mp hress
    obtain ⟨ress', hress', hend⟩ := Option.bind_eq_some_iff.mp hrest
    cases hend
    apply List.Forall₂.cons
    · exact h.resultOf (hfinished task List.mem_cons_self) hres
    · exact ih (fun task' htask => hfinished task' (List.mem_cons_of_mem _ htask)) hress'

/-- A step of the program leaves the tasks, and the program knows what it should where it goes. -/
theorem Kept.go_cases (h : w.Kept) {thread : Bool} (hgo : w.go thread = some w') :
  ∃ place, w' = { w with place } ∧ w.Knows place
  := by
  have hknows := h.knows
  unfold World.go at hgo
  cases hplace : w.place with
  | ready =>
    simp only [hplace] at hgo
    cases hgo
  | hold task =>
    simp only [hplace] at hgo
    obtain ⟨finished, hfinished, hgo⟩ := Option.bind_eq_some_iff.mp hgo
    cases finished with
    | false =>
      cases hgo
      exact ⟨w.place, rfl, hknows⟩
    | true =>
      obtain ⟨res, hres, hgo⟩ := Option.bind_eq_some_iff.mp hgo
      cases hgo
      refine ⟨.held task res, rfl, ?_⟩
      cases task with
      | none =>
        cases hres
        rfl
      | some loc =>
        obtain ⟨_, t, ht, hdone, -⟩ := h.isFinished hfinished loc rfl
        obtain ⟨t', ht', hresult⟩ := Option.map_eq_some_iff.mp hres
        rw [ht] at ht'
        cases ht'
        rw [((h.task loc t ht).1.result hdone).1] at hresult
        exact ⟨t, ht, hdone, hresult.symm⟩
  | startAll tasks i =>
    simp only [hplace] at hgo
    split_ifs at hgo with hi
    · obtain ⟨w₁, hstart, hgo⟩ := Option.bind_eq_some_iff.mp hgo
      cases hgo
      obtain ⟨rfl, -⟩ := h.startIfNeeded hstart
      exact ⟨.startAll tasks (i + 1), rfl, trivial⟩
    · cases hgo
      exact ⟨.check tasks 0, rfl, by simp [Knows]⟩
  | check tasks i =>
    rw [hplace] at hknows
    simp only [hplace] at hgo
    split_ifs at hgo with hi
    · obtain ⟨finished, hfinished, hgo⟩ := Option.bind_eq_some_iff.mp hgo
      cases finished with
      | false =>
        cases hgo
        exact ⟨.check tasks 0, rfl, by simp [Knows]⟩
      | true =>
        cases hgo
        refine ⟨.check tasks (i + 1), rfl, fun task htask => ?_⟩
        rw [List.take_succ_eq_append_getElem hi, List.mem_append, List.mem_singleton] at htask
        obtain htask | rfl := htask
        · exact hknows task htask
        · exact h.isFinished hfinished
    · obtain ⟨ress, hress, hgo⟩ := Option.bind_eq_some_iff.mp hgo
      cases hgo
      have hall : ∀ task ∈ tasks, w.Finished task := by
        intro task htask
        apply hknows
        rwa [List.take_of_length_le (by omega)]
      exact ⟨.heldAll tasks ress, rfl, h.results hall hress⟩
  | held | heldAll =>
    simp only [hplace] at hgo
    cases hgo
    exact ⟨.ready, rfl, trivial⟩

/-- What a step does. -/
inductive Stepped (w : World) : World → Prop where
  | place (place : Place) (hknows : w.Knows place) : Stepped w { w with place }
  | request (thread : Bool) (hplace : w.place = .ready) :
    Stepped w { w.setTask w.next (some (flxHttpTaskStart thread .new)) with
      next := w.next + 1 }
  | drop (loc : ℕ) (hplace : w.place = .ready) : Stepped w (w.setTask loc none)
  | work {loc : ℕ} {t t' : FlxTask} {act : WorkerAction} (ht : w.tasks loc = some t)
    (hwork : t.work act = some t') : Stepped w (w.setTask loc (some t'))

theorem Kept.step_cases (h : w.Kept) {a : Action} (hstep : step w a = some w') : w.Stepped w' := by
  cases a with
  | request thread =>
    unfold Hold.step at hstep
    cases hplace : w.place <;> simp only [hplace] at hstep
    case ready =>
      cases hstep
      exact .request thread hplace
    all_goals cases hstep
  | hold task thread =>
    unfold Hold.step at hstep
    cases hplace : w.place <;> simp only [hplace] at hstep
    case ready =>
      obtain ⟨w₁, hstart, rfl⟩ := Option.map_eq_some_iff.mp hstep
      obtain ⟨rfl, -⟩ := h.startIfNeeded hstart
      exact .place _ trivial
    all_goals cases hstep
  | holdAll tasks =>
    unfold Hold.step at hstep
    cases hplace : w.place <;> simp only [hplace] at hstep
    case ready =>
      cases hstep
      exact .place _ trivial
    all_goals cases hstep
  | drop task =>
    unfold Hold.step at hstep
    cases hplace : w.place <;> cases task <;> simp only [hplace] at hstep
    case ready.none =>
      cases hstep
      exact .place w.place h.knows
    case ready.some loc =>
      obtain ⟨t, ht, hstep⟩ := Option.bind_eq_some_iff.mp hstep
      split_ifs at hstep
      cases hstep
      exact .drop loc hplace
    all_goals cases hstep
  | go thread =>
    obtain ⟨place, rfl, hknows⟩ := h.go_cases hstep
    exact .place place hknows
  | worker loc act =>
    obtain ⟨t, ht, hstep⟩ := Option.bind_eq_some_iff.mp hstep
    obtain ⟨t', hwork, rfl⟩ := Option.map_eq_some_iff.mp hstep
    exact .work ht hwork

theorem Kept.stepped (h : w.Kept) (hstep : w.Stepped w') : w'.Kept := by
  cases hstep with
  | place place hknows => exact ⟨h.task, hknows.mono fun _ _ => id⟩
  | request thread hplace =>
    refine ⟨fun other u hu => ?_, by simp [World.setTask, hplace, Knows]⟩
    by_cases hne : other = w.next
    · subst hne
      have hnew := (tasks_setTask_self w w.next _).symm.trans hu
      cases hnew
      exact ⟨FlxTask.kept_start thread, Nat.lt_succ_self _⟩
    · obtain ⟨hu, hlt⟩ := h.task other u ((tasks_setTask_of_ne hne w _).symm.trans hu)
      exact ⟨hu, Nat.lt_succ_of_lt hlt⟩
  | drop loc hplace =>
    refine ⟨fun other u hu => ?_, by simp [World.setTask, hplace, Knows]⟩
    by_cases hne : other = loc
    · subst hne
      rw [tasks_setTask_self] at hu
      cases hu
    · exact h.task other u ((tasks_setTask_of_ne hne w _).symm.trans hu)
  | @work loc t t' act ht hwork =>
    obtain ⟨hkept, hlt⟩ := h.task loc t ht
    obtain ⟨hkept', hstatus, -⟩ := hkept.work hwork
    refine ⟨fun other u hu => ?_, h.knows.mono fun other res => Answered.setTask ht hstatus⟩
    by_cases hne : other = loc
    · subst hne
      rw [tasks_setTask_self] at hu
      cases hu
      exact ⟨hkept', hlt⟩
    · exact h.task other u ((tasks_setTask_of_ne hne w _).symm.trans hu)

/-- An address has a task that is done with a response, or its task was released. -/
def Settled (w : World) (loc : ℕ) (res : HttpRes) : Prop :=
  loc < w.next ∧ ∀ t, w.tasks loc = some t → t.status = .done ∧ res = flxHttpTaskFinish t.http

/-- A step releases a task that is done, or leaves it, and its address is not used again. -/
theorem Kept.settled (h : w.Kept) (hstep : w.Stepped w') {loc : ℕ} {res : HttpRes}
    (hsettled : w.Settled loc res) :
  w'.Settled loc res
  := by
  obtain ⟨hlt, htask⟩ := hsettled
  cases hstep with
  | place => exact ⟨hlt, htask⟩
  | request thread hplace =>
    refine ⟨Nat.lt_succ_of_lt hlt, fun t ht => htask t ?_⟩
    exact (tasks_setTask_of_ne hlt.ne w _).symm.trans ht
  | drop other hplace =>
    refine ⟨hlt, fun t ht => ?_⟩
    by_cases hne : loc = other
    · subst hne
      rw [tasks_setTask_self] at ht
      cases ht
    · exact htask t ((tasks_setTask_of_ne hne w _).symm.trans ht)
  | @work other u u' act hu hwork =>
    obtain ⟨-, hstatus, -⟩ := (h.task other u hu).1.work hwork
    have hne : loc ≠ other := by
      rintro rfl
      exact hstatus (htask u hu).1
    refine ⟨hlt, fun t ht => htask t ?_⟩
    exact (tasks_setTask_of_ne hne w _).symm.trans ht

/-- The program is given a response for a task. -/
def Answers (w : World) (loc : ℕ) (res : HttpRes) : Prop :=
  w.place = .held (some loc) res ∨
    ∃ tasks ress, w.place = .heldAll tasks ress ∧ (some loc, res) ∈ tasks.zip ress

theorem Kept.answered (h : w.Kept) {loc : ℕ} {res : HttpRes} (hanswers : w.Answers loc res) :
  w.Answered loc res
  := by
  have hknows := h.knows
  obtain hplace | ⟨tasks, ress, hplace, hmem⟩ := hanswers
  · rw [hplace] at hknows
    exact hknows
  · rw [hplace] at hknows
    obtain ⟨loc', hloc, hres⟩ := (List.forall₂_iff_zip.mp hknows).2 hmem
    cases hloc
    exact hres

end World

variable {actions later : List Action} {w w' : World}

theorem Runs.kept (h : Runs actions w) : w.Kept :=
  StepRuns.run_invariant h World.kept_start fun _ _ _ hm hstep => hm.stepped (hm.step_cases hstep)

/-- Whatever the workers do meanwhile, a hold of a task answers with what its worker has made of the
response, and only when the worker is done; a hold of several answers with their responses in the order
of the tasks. -/
theorem hold_answers (h : Runs actions w) :
  (∀ loc res, w.place = .held (some loc) res → w.Answered loc res) ∧
    ∀ tasks ress, w.place = .heldAll tasks ress →
      List.Forall₂ (fun task res => ∃ loc, task = some loc ∧ w.Answered loc res) tasks ress
  := by
  have hknows := h.kept.knows
  constructor
  · intro loc res hplace
    rw [hplace] at hknows
    exact hknows
  · intro tasks ress hplace
    rw [hplace] at hknows
    exact hknows

/-- A task that is held while its worker is at work. -/
def holdOne : List Action :=
  [.request true, .worker 0 (.appendBody ['h', 'i']), .hold (some 0) true, .go true,
    .worker 0 (.setStatus 200), .worker 0 .store, .go true, .worker 0 .finish, .go true]

theorem hold_answers_one :
  ∃ w, Runs holdOne w ∧ w.Answered 0 { status := 200, body := ['h', 'i'] }
  := by
  obtain ⟨w, hrun, hplace⟩ : ∃ w, Runs holdOne w ∧
      w.place = .held (some 0) { status := 200, body := ['h', 'i'] } := ⟨_, rfl, rfl⟩
  exact ⟨w, hrun, (hold_answers hrun).1 0 _ hplace⟩

/-- A task is answered with the same response whenever it is held, alone or with others. -/
theorem same_answer {loc : ℕ} {res res' : HttpRes} (h : Runs actions w) (hanswers : w.Answers loc res)
    (hlater : StepRuns.run step w later = some w') (hanswers' : w'.Answers loc res') :
  res' = res
  := by
  obtain ⟨t, ht, hdone, hres⟩ := h.kept.answered hanswers
  have hsettled : w.Settled loc res := by
    refine ⟨(h.kept.task loc t ht).2, fun u hu => ?_⟩
    rw [ht] at hu
    cases hu
    exact ⟨hdone, hres⟩
  obtain ⟨hkept', hsettled'⟩ : w'.Kept ∧ w'.Settled loc res := by
    apply StepRuns.run_invariant hlater ⟨h.kept, hsettled⟩
    rintro m a m' ⟨hm, hsettled⟩ hstep
    have hstep := hm.step_cases hstep
    exact ⟨hm.stepped hstep, hm.settled hstep hsettled⟩
  obtain ⟨t', ht', -, hres'⟩ := hkept'.answered hanswers'
  rw [hres', (hsettled'.2 t' ht').2]

/-- A task that is held, and then held again with another one that failed. -/
def holdAgain : List Action :=
  [.go true, .request false, .holdAll [some 1, some 0], .go true, .go true, .go true, .go true,
    .go true, .go true]

theorem same_answer_again :
  ∃ w w', Runs holdOne w ∧ StepRuns.run step w holdAgain = some w' ∧
    ∀ res, w'.Answers 0 res → res = { status := 200, body := ['h', 'i'] }
  := by
  obtain ⟨w, w', hrun, hplace, hlater⟩ : ∃ w w', Runs holdOne w ∧
      w.place = .held (some 0) { status := 200, body := ['h', 'i'] } ∧
      StepRuns.run step w holdAgain = some w' := ⟨_, _, rfl, rfl, rfl⟩
  exact ⟨w, w', hrun, hlater, fun res hres => same_answer hrun (.inl hplace) hlater hres⟩

/-! ### The end of a hold -/

namespace World

theorem results_place (w : World) (place : Place) (tasks : List (Option ℕ)) :
  results { w with place } tasks = w.results tasks
  := by
  induction tasks with
  | nil => rfl
  | cons task tasks ih =>
    rw [results, ih, results]
    cases task <;> rfl

/-- A pass over tasks that are done comes to its end. -/
theorem run_check {tasks : List (Option ℕ)} (hfinished : ∀ task ∈ tasks, w.Finished task)
    {ress : List HttpRes} (hress : w.results tasks = some ress) (n i : ℕ) (hn : tasks.length - i = n) :
  StepRuns.run go { w with place := .check tasks i } (List.replicate (n + 1) true) =
    some { w with place := .heldAll tasks ress }
  := by
  induction n generalizing i with
  | zero =>
    have hi : ¬ i < tasks.length := by omega
    have hgo : go { w with place := .check tasks i } true =
        some { w with place := .heldAll tasks ress } := by
      simp only [World.go, hi, dif_neg, not_false_eq_true]
      exact Option.bind_eq_some_iff.mpr ⟨ress, (results_place w _ tasks).trans hress, rfl⟩
    exact StepRuns.run_cons.mpr ⟨_, hgo, rfl⟩
  | succ n ih =>
    have hi : i < tasks.length := by omega
    have hdone : w.isFinished tasks[i] = some true := by
      have htask := hfinished tasks[i] (List.getElem_mem hi)
      cases hi' : tasks[i] with
      | none => rfl
      | some loc =>
        rw [hi'] at htask
        obtain ⟨_, t, ht, hstatus, -⟩ := htask loc rfl
        simp [World.isFinished, ht, hstatus]
    have hgo : go { w with place := .check tasks i } true =
        some { w with place := .check tasks (i + 1) } := by
      simp only [World.go, hi, dif_pos]
      exact Option.bind_eq_some_iff.mpr ⟨true, hdone, rfl⟩
    exact StepRuns.run_cons.mpr ⟨_, hgo, ih (i + 1) (by omega)⟩

/-- Tasks that are done are not started again. -/
theorem run_startAll (h : w.Kept) {tasks : List (Option ℕ)}
    (hfinished : ∀ task ∈ tasks, w.Finished task) (n i : ℕ) (hn : tasks.length - i = n) :
  StepRuns.run go { w with place := .startAll tasks i } (List.replicate (n + 1) true) =
    some { w with place := .check tasks 0 }
  := by
  induction n generalizing i with
  | zero =>
    have hi : ¬ i < tasks.length := by omega
    have hgo : go { w with place := .startAll tasks i } true =
        some { w with place := .check tasks 0 } := by
      simp only [World.go, hi, dif_neg, not_false_eq_true]
    exact StepRuns.run_cons.mpr ⟨_, hgo, rfl⟩
  | succ n ih =>
    have hi : i < tasks.length := by omega
    have hstart : ∃ w₁, World.startIfNeeded { w with place := .startAll tasks i } true tasks[i] =
        some w₁ := by
      have htask := hfinished tasks[i] (List.getElem_mem hi)
      cases hi' : tasks[i] with
      | none => exact ⟨_, rfl⟩
      | some loc =>
        rw [hi'] at htask
        obtain ⟨_, t, ht, -⟩ := htask loc rfl
        exact ⟨_, Option.map_eq_some_iff.mpr ⟨t, ht, rfl⟩⟩
    obtain ⟨w₁, hstart⟩ := hstart
    have hkept : Kept { w with place := .startAll tasks i } := ⟨h.task, trivial⟩
    obtain ⟨rfl, -⟩ := hkept.startIfNeeded hstart
    have hgo : go { w with place := .startAll tasks i } true =
        some { w with place := .startAll tasks (i + 1) } := by
      simp only [World.go, hi, dif_pos]
      exact Option.bind_eq_some_iff.mpr ⟨_, hstart, rfl⟩
    exact StepRuns.run_cons.mpr ⟨_, hgo, ih (i + 1) (by omega)⟩

/-- The results of tasks that are done are there, unless one of them is no task. -/
theorem Kept.exists_results (h : w.Kept) {tasks : List (Option ℕ)}
    (hfinished : ∀ task ∈ tasks, w.Finished task) (hnone : none ∉ tasks) :
  ∃ ress, w.results tasks = some ress
  := by
  induction tasks with
  | nil => exact ⟨[], rfl⟩
  | cons task tasks ih =>
    obtain ⟨ress, hress⟩ := ih (fun task' htask => hfinished task' (List.mem_cons_of_mem _ htask))
      fun htask => hnone (List.mem_cons_of_mem _ htask)
    cases task with
    | none => exact absurd List.mem_cons_self hnone
    | some loc =>
      obtain ⟨_, t, ht, hdone, -⟩ := hfinished (some loc) List.mem_cons_self loc rfl
      have hres : w.resultOf (some loc) = some (flxHttpTaskFinish t.http) :=
        Option.bind_eq_some_iff.mpr ⟨t, ht, ((h.task loc t ht).1.result hdone).1⟩
      exact ⟨_, Option.bind_eq_some_iff.mpr ⟨_, hres, Option.bind_eq_some_iff.mpr ⟨ress, hress, rfl⟩⟩⟩

end World

/-- When all tasks are done, a hold of them comes to an answer exactly when each of them is a task: the
program reads the result of no task, where a hold of it alone would answer that it failed. -/
theorem holdAll_returns_iff (h : Runs actions w) {tasks : List (Option ℕ)}
    (hplace : w.place = .startAll tasks 0) (hfinished : ∀ task ∈ tasks, w.Finished task) :
  (∃ threads w' ress, StepRuns.run World.go w threads = some w' ∧ w'.place = .heldAll tasks ress) ↔
    none ∉ tasks
  := by
  constructor
  · rintro ⟨threads, w', ress, hrun, hheld⟩ hnone
    have hkept' : w'.Kept := StepRuns.run_invariant hrun h.kept fun _ thread _ hm hstep =>
      hm.stepped (hm.step_cases (a := .go thread) hstep)
    have hknows := hkept'.knows
    rw [hheld] at hknows
    obtain ⟨i, hi, hget⟩ := List.getElem_of_mem hnone
    have hlength := hknows.length_eq
    obtain ⟨loc, hloc, -⟩ := (List.forall₂_iff_get.mp hknows).2 i hi (by omega)
    rw [List.get_eq_getElem, hget] at hloc
    cases hloc
  · intro hnone
    obtain ⟨ress, hress⟩ := h.kept.exists_results hfinished hnone
    have hstarted := World.run_startAll h.kept hfinished tasks.length 0 rfl
    rw [← hplace] at hstarted
    exact ⟨_, _, ress, StepRuns.run_append.mpr
      ⟨_, hstarted, World.run_check hfinished hress tasks.length 0 rfl⟩, rfl⟩

/-- A hold of a task that failed and of no task has no answer. -/
theorem not_holdAll_returns :
  ∃ w, Runs [.request false, .holdAll [some 0, none]] w ∧
    ¬ ∃ threads w' ress, StepRuns.run World.go w threads = some w' ∧
      w'.place = .heldAll [some 0, none] ress
  := by
  obtain ⟨w, hrun, hplace, htask⟩ : ∃ w, Runs [.request false, .holdAll [some 0, none]] w ∧
      w.place = .startAll [some 0, none] 0 ∧ w.tasks 0 = some (flxHttpTaskStart false .new) :=
    ⟨_, rfl, rfl, rfl⟩
  refine ⟨w, hrun, fun hreturns => ?_⟩
  apply (holdAll_returns_iff hrun hplace ?_).mp hreturns
  · simp
  · intro task hmem loc hloc
    have hzero : loc = 0 := by
      cases hloc
      simpa using hmem
    rw [hzero]
    exact ⟨_, _, htask, rfl, rfl⟩

end Caster.Hold
