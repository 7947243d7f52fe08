import Caster.Adapters.Request
import Caster.Emit.Drop

/-!
# The task of a request

A call of `REQ` starts a worker, which copies the URL and then the body of the request at some later
time.  The task holds the strings of the caller, no copies, so the caller may free their blocks
before the worker has come to them.
-/

namespace Caster.Req

open Driver (Text)

/-! ### Strings and tasks -/

/-- A string of the emitted program, with the block it owns unless it is a literal. -/
structure FlxStr where
  buffer : Option Loc
  text : Text
deriving DecidableEq

/-- The empty literal. -/
def FlxStr.empty : FlxStr := { buffer := none, text := [] }

/-- How far the worker of a task is. -/
inductive Stage where
  | started
  | parsed (url : UrlParts)
  | built
  | finished
deriving DecidableEq

/-- A task of a request, with the bytes that its worker has built. -/
structure HttpTask where
  method : Method
  url : FlxStr
  body : FlxStr
  stage : Stage
  request : Option Text

/-- The blocks that the worker has yet to read. -/
def HttpTask.unread (task : HttpTask) : List Loc :=
  match task.stage with
  | .started => task.url.buffer.toList ++ task.body.buffer.toList
  | .parsed _ => task.body.buffer.toList
  | _ => []

/-- The body `REQ.get`, `REQ.delete`, `REQ.post` and `REQ.put` pass on. -/
def requestBody (body : FlxStr) : Method → FlxStr
  | .get => .empty
  | .delete => .empty
  | .post => body
  | .put => body

/-- The task `REQ_request` makes. -/
def reqRequest (method : Method) (url body : FlxStr) : HttpTask :=
  { method, url, body := requestBody body method, stage := .started, request := none }

/-- The bytes of a string in memory.  Those of a freed block are any. -/
def Reads (freed : List Loc) (str : FlxStr) (bytes : Text) : Prop :=
  bytes.length = str.text.length ∧ ((∀ loc ∈ str.buffer, loc ∉ freed) → bytes = str.text)

instance (freed : List Loc) (str : FlxStr) (bytes : Text) : Decidable (Reads freed str bytes) :=
  inferInstanceAs (Decidable (_ ∧ _))

/-! ### Releases -/

/-- The zero value of a type that `FREE` releases. -/
def zeroValue (types : TypeTable) : Ty → Val
  | .STR => .str none ""
  | .OPEN => .objmap none []
  | .ARR _ => .arr none []
  | .MAP _ _ => .map none []
  | .TSK _ => .tsk none
  | .REF _ => .refNull
  | type =>
    match structOf types type with
    | some (_, true) => .objmap none []
    | _ => .nul

/-- The blocks that the drop statement of a local releases, in their order. -/
def dropStmt (types : TypeTable) (type : Ty) (v : Val) : List Loc :=
  match type with
  | .REF target =>
    match v with
    | .ref _ loc pointee =>
      (if typeHasDropHelper types target ∧ ¬ isRefType target then dropVal types target pointee
        else []) ++ [loc]
    | _ => []
  | type => dropVal types type v

/-- The blocks that the drops of the owned locals release at the exit of a function: the locals in
the reverse order, without the one that is returned. -/
def ownedLocalDrops (types : TypeTable) (owned : List (String × Ty)) (skip : Option String)
    (frame : String → Val) : List Loc :=
  (owned.reverse.filter fun l => some l.1 ≠ skip).flatMap fun l => dropStmt types l.2 (frame l.1)

/-! ### Workers -/

/-- What the worker of a task does. -/
inductive WorkerAction where
  /-- It copies the URL and takes it apart. -/
  | read (bytes : Text)
  /-- It copies the body and builds the request. -/
  | build (bytes : Text)
  /-- It sets the result, behind a response or an error. -/
  | finish

/-- The worker goes on with what it has copied of the URL. -/
def HttpTask.read (task : HttpTask) (bytes : Text) : HttpTask :=
  match flxParseUrl (cString bytes) with
  | .ok url => { task with stage := .parsed url }
  | .error _ => { task with stage := .finished }

def HttpTask.step (freed : List Loc) (task : HttpTask) : WorkerAction → Option HttpTask
  | .read bytes =>
    if task.stage = .started ∧ Reads freed task.url bytes then some (task.read bytes) else none
  | .build bytes =>
    match task.stage with
    | .parsed url =>
      if Reads freed task.body bytes then
        some { task with
          stage := .built, request := flxHttpBuildRequest task.method.text bytes url }
      else none
    | _ => none
  | .finish => some { task with stage := .finished }

/-! ### Programs -/

/-- A state of a program: the variables of its functions by the depth of the call, the blocks that
the statement at hand has yet to release, and the tasks by their blocks.  A block that is allocated
where one was freed has a new number. -/
structure World where
  vars : ℕ → String → Val
  depth : ℕ
  todo : List Loc
  freed : List Loc
  tasks : Loc → Option HttpTask

/-- The statements of a program, as far as strings and tasks are concerned. -/
inductive Statement where
  /-- A value is stored, and nothing is released. -/
  | store (depth : ℕ) (name : String) (v : Val)
  /-- `REQ` is called, and the task is stored. -/
  | request (name : String) (task : Loc) (method : Method) (url body : FlxStr)
  | hold (task : Loc)
  | free (name : String) (type : Ty)
  /-- The drop helper of a type is called for a value elsewhere. -/
  | drop (type : Ty) (v : Val)
  | enter
  | ret (owned : List (String × Ty)) (skip : Option String)

namespace World

def setVar (w : World) (depth : ℕ) (name : String) (v : Val) : World :=
  { w with vars := Function.update w.vars depth (Function.update (w.vars depth) name v) }

def setTask (w : World) (loc : Loc) (task : HttpTask) : World :=
  { w with tasks := Function.update w.tasks loc (some task) }

/-- There is a task at a block whose worker has not finished. -/
def isRunning (w : World) (loc : Loc) : Bool :=
  (w.tasks loc).any fun task => task.stage ≠ .finished

def statement (types : TypeTable) (w : World) : Statement → Option World
  | .store depth name v => some (w.setVar depth name v)
  | .request name loc method url body =>
    if (w.tasks loc).isNone then
      some ((w.setTask loc (reqRequest method url body)).setVar w.depth name (.tsk (some loc)))
    else none
  | .hold loc => if w.isRunning loc then none else some w
  | .free name type =>
    some { w.setVar w.depth name (zeroValue types type) with
      todo := dropStmt types type (w.vars w.depth name) }
  | .drop type v => some { w with todo := dropVal types type v }
  | .enter => some { w with depth := w.depth + 1 }
  | .ret owned skip =>
    some { w with
      depth := w.depth - 1, todo := ownedLocalDrops types owned skip (w.vars w.depth) }

/-- The next block of the statement at hand is released.  `flx_http_task_destroy` waits for the
worker of a task. -/
def release (w : World) : Option World :=
  match w.todo with
  | [] => none
  | loc :: todo =>
    if w.isRunning loc then none else some { w with todo, freed := loc :: w.freed }

end World

/-- What happens in a step. -/
inductive Action where
  | statement (st : Statement)
  | release
  | worker (task : Loc) (act : WorkerAction)

def step (types : TypeTable) (w : World) : Action → Option World
  | .statement st => if w.todo = [] then w.statement types st else none
  | .release => w.release
  | .worker loc act =>
    (w.tasks loc).bind fun task => (task.step w.freed act).map (w.setTask loc)

/-- A program starts without tasks. -/
def World.start (vars : ℕ → String → Val) : World :=
  { vars, depth := 0, todo := [], freed := [], tasks := fun _ => none }

/-- The states that are reached by steps that are allowed. -/
inductive Reaches (types : TypeTable) (allowed : World → Action → Prop) : World → Prop where
  | start (vars : ℕ → String → Val) : Reaches types allowed (.start vars)
  | step {w w' : World} (action : Action) (h : Reaches types allowed w)
      (hallowed : allowed w action) (hstep : step types w action = some w') :
      Reaches types allowed w'

/-! ### Requests as they were asked for -/

/-- The bytes are the request for the URL and the body that the task was started with. -/
def HttpTask.Asked (task : HttpTask) (bytes : Text) : Prop :=
  ∃ url, flxParseUrl (cString task.url.text) = .ok url ∧
    flxHttpBuildRequest task.method.text task.body.text url = some bytes

/-- Every request that is built is the one that was asked for. -/
def World.Asked (w : World) : Prop :=
  ∀ loc task bytes, w.tasks loc = some task → task.request = some bytes → task.Asked bytes

/-- No block is released that a worker has yet to read, and `REQ` is not called with a string that
was freed. -/
def Waits (w : World) : Action → Prop
  | .statement (.request _ _ method url body) =>
    ∀ loc ∈ (reqRequest method url body).unread, loc ∉ w.freed
  | .release =>
    ∀ loc ∈ w.todo.head?, ∀ other task, w.tasks other = some task → loc ∉ task.unread
  | _ => True

/-- What a worker has yet to read is there, and what it has read is what was asked for. -/
structure HttpTask.Kept (freed : List Loc) (task : HttpTask) : Prop where
  unread : ∀ loc ∈ task.unread, loc ∉ freed
  parsed : ∀ url, task.stage = .parsed url → flxParseUrl (cString task.url.text) = .ok url
  asked : ∀ bytes, task.request = some bytes → task.Asked bytes

section

variable {freed : List Loc} {task task' : HttpTask}

theorem Reads.eq {str : FlxStr} {bytes : Text} (h : Reads freed str bytes)
    (hlive : ∀ loc ∈ str.buffer, loc ∉ freed) :
  bytes = str.text
  := h.2 hlive

theorem HttpTask.Kept.read (h : task.Kept freed) (hstage : task.stage = .started) {bytes : Text}
    (hreads : Reads freed task.url bytes) :
  (task.read bytes).Kept freed
  := by
  have hunread := h.unread
  rw [HttpTask.unread, hstage] at hunread
  obtain rfl := hreads.eq fun loc hloc =>
    hunread loc (List.mem_append_left _ (Option.mem_toList.mpr hloc))
  unfold HttpTask.read
  cases hparse : flxParseUrl (cString task.url.text) with
  | ok url =>
    refine ⟨fun loc hloc => hunread loc (List.mem_append_right _ hloc), ?_, h.asked⟩
    intro url' hurl
    obtain rfl := Stage.parsed.inj hurl
    exact hparse
  | error _ =>
    exact ⟨fun loc hloc => absurd hloc List.not_mem_nil, fun _ hurl => Stage.noConfusion hurl,
      h.asked⟩

theorem HttpTask.Kept.build (h : task.Kept freed) {url : UrlParts}
    (hstage : task.stage = .parsed url) {bytes : Text} (hreads : Reads freed task.body bytes) :
  HttpTask.Kept freed { task with
    stage := .built, request := flxHttpBuildRequest task.method.text bytes url }
  := by
  have hunread := h.unread
  rw [HttpTask.unread, hstage] at hunread
  obtain rfl := hreads.eq fun loc hloc => hunread loc (Option.mem_toList.mpr hloc)
  refine ⟨fun loc hloc => absurd hloc List.not_mem_nil, fun _ hurl => Stage.noConfusion hurl, ?_⟩
  intro bytes hbytes
  exact ⟨url, h.parsed url hstage, hbytes⟩

/-- A step of a worker keeps to what was asked for. -/
theorem HttpTask.Kept.step (h : task.Kept freed) {act : WorkerAction}
    (hstep : task.step freed act = some task') :
  task'.Kept freed
  := by
  cases act with
  | read bytes =>
    rw [HttpTask.step] at hstep
    split_ifs at hstep with hread
    obtain rfl := Option.some.inj hstep
    exact h.read hread.1 hread.2
  | build bytes =>
    rw [HttpTask.step] at hstep
    cases hstage : task.stage with
    | parsed url =>
      rw [hstage] at hstep
      dsimp only at hstep
      split_ifs at hstep with hreads
      obtain rfl := Option.some.inj hstep
      exact h.build hstage hreads
    | started | built | finished =>
      rw [hstage] at hstep
      cases hstep
  | finish =>
    obtain rfl := Option.some.inj hstep
    exact ⟨fun loc hloc => absurd hloc List.not_mem_nil, fun _ hurl => Stage.noConfusion hurl,
      h.asked⟩

end

/-! ### Runs -/

/-- All tasks keep to what was asked for. -/
def World.Kept (w : World) : Prop := ∀ loc task, w.tasks loc = some task → task.Kept w.freed

section

variable {types : TypeTable} {w w' : World}

theorem World.Kept.setTask (h : w.Kept) {loc : Loc} {task : HttpTask} (htask : task.Kept w.freed) :
  (w.setTask loc task).Kept
  := by
  intro other task' htask'
  by_cases heq : other = loc
  · subst heq
    obtain rfl : task = task' := by simpa [World.setTask] using htask'
    exact htask
  · apply h other task'
    simpa [World.setTask, heq] using htask'

/-- A statement starts a task, or it leaves the tasks as they are. -/
theorem World.Kept.statement (h : w.Kept) {st : Statement} (hwaits : Waits w (.statement st))
    (hstep : w.statement types st = some w') :
  w'.Kept
  := by
  cases st with
  | request name loc method url body =>
    rw [World.statement] at hstep
    split_ifs at hstep
    obtain rfl := Option.some.inj hstep
    have hnew : (reqRequest method url body).Kept w.freed :=
      ⟨hwaits, fun _ hurl => Stage.noConfusion hurl, fun _ hbytes => by cases hbytes⟩
    exact h.setTask hnew
  | hold loc =>
    rw [World.statement] at hstep
    split_ifs at hstep
    obtain rfl := Option.some.inj hstep
    exact h
  | store depth name v =>
    obtain rfl := Option.some.inj hstep
    exact h
  | free name type =>
    obtain rfl := Option.some.inj hstep
    exact h
  | drop type v =>
    obtain rfl := Option.some.inj hstep
    exact h
  | enter =>
    obtain rfl := Option.some.inj hstep
    exact h
  | ret owned skip =>
    obtain rfl := Option.some.inj hstep
    exact h

/-- A block is released that no worker has yet to read. -/
theorem World.Kept.release (h : w.Kept) (hwaits : Waits w .release) (hstep : w.release = some w') :
  w'.Kept
  := by
  unfold World.release at hstep
  cases htodo : w.todo with
  | nil =>
    rw [htodo] at hstep
    cases hstep
  | cons loc todo =>
    rw [htodo] at hstep
    dsimp only at hstep
    split_ifs at hstep
    obtain rfl := Option.some.inj hstep
    intro other task htask
    have hunread : loc ∉ task.unread := hwaits loc (by rw [htodo]; rfl) other task htask
    obtain ⟨hlive, hparsed, hasked⟩ := h other task htask
    refine ⟨?_, hparsed, hasked⟩
    intro loc' hloc' hfreed
    rcases List.mem_cons.mp hfreed with rfl | hfreed
    · exact hunread hloc'
    · exact hlive loc' hloc' hfreed

theorem World.Kept.step (h : w.Kept) {action : Action} (hwaits : Waits w action)
    (hstep : Req.step types w action = some w') :
  w'.Kept
  := by
  cases action with
  | statement st =>
    rw [Req.step] at hstep
    split_ifs at hstep
    exact h.statement hwaits hstep
  | release => exact h.release hwaits hstep
  | worker loc act =>
    obtain ⟨task, htask, hstep⟩ := Option.bind_eq_some_iff.mp hstep
    obtain ⟨task', htask', rfl⟩ := Option.map_eq_some_iff.mp hstep
    exact h.setTask ((h loc task htask).step htask')

theorem Reaches.kept (h : Reaches types Waits w) : w.Kept := by
  induction h with
  | start vars => exact fun loc task htask => by cases htask
  | step _ _ hwaits hstep ih => exact ih.step hwaits hstep

end

/-- Every request is the one that was asked for when its task was started, if no block is released
that a worker has yet to read. -/
theorem requests_asked {types : TypeTable} {w : World} (h : Reaches types Waits w) : w.Asked
  := fun loc task bytes htask hbytes => (h.kept loc task htask).asked bytes hbytes

/-- The text `http://a/`. -/
def aSlash : Text := ['h', 't', 't', 'p', ':', '/', '/', 'a', '/']

/-- The text `http://b/`. -/
def bSlash : Text := ['h', 't', 't', 'p', ':', '/', '/', 'b', '/']

/-- The URL is a literal, and the request is built. -/
theorem requests_asked_literal :
  ∃ w : World, w.Asked ∧ ((w.tasks 0).bind HttpTask.request).isSome
  := by
  have hcalled : Reaches [] Waits _ :=
    .step (.statement (.request "task" 0 .get ⟨none, aSlash⟩ .empty)) (.start fun _ _ => .nul)
      (fun _ hloc => by cases hloc) rfl
  have hbuilt : Reaches [] Waits _ :=
    .step (.worker 0 (.build [])) (.step (.worker 0 (.read aSlash)) hcalled trivial rfl) trivial rfl
  exact ⟨_, requests_asked hbuilt, rfl⟩

/-- A function returns the task of a request for `http://a/`.  The URL is in a local, the block of
which is released before the worker has come to it. -/
theorem not_requests_asked :
  ¬ ∀ (types : TypeTable) (w : World), Reaches types (fun _ _ => True) w → w.Asked
  := by
  intro h
  have hstored : Reaches [] (fun _ _ => True) _ :=
    .step (.statement (.store 1 "url" (.str (some 0) "http://a/")))
      (.step (.statement .enter) (.start fun _ _ => .nul) trivial rfl) trivial rfl
  have hcalled : Reaches [] (fun _ _ => True) _ :=
    .step (.statement (.request "flx_return_value_0" 1 .get ⟨some 0, aSlash⟩ .empty)) hstored
      trivial rfl
  have hreturned : Reaches [] (fun _ _ => True) _ :=
    .step .release (.step (.statement (.ret [("url", .STR)] none)) hcalled trivial rfl) trivial rfl
  have hbuilt : Reaches [] (fun _ _ => True) _ :=
    .step (.worker 1 (.build [])) (.step (.worker 1 (.read bSlash)) hreturned trivial rfl)
      trivial rfl
  obtain ⟨url, hurl, hbytes⟩ := h _ _ hbuilt 1 _ _ rfl rfl
  obtain rfl := Except.ok.inj hurl
  exact absurd hbytes (by decide)

end Caster.Req
