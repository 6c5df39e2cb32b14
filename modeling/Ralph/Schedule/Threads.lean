import Ralph.Program
import Ralph.Schedule.Workers

namespace Ralph.Schedule
open Worker

/-- `POLL`, in nanoseconds. -/
def poll : ℕ := 500000000

structure WatchSpec where
  id : String
  command : String
  followUp : Option String
  persistent : Bool
  timeout : Option ℕ
  limit : Option ℕ
  deriving DecidableEq

structure WatchRequest where
  id : String
  command : String
  followUp : String
  persistent : Bool
  timeoutSecs : Option ℕ
  deriving DecidableEq

def WatchRequest.intoSpec (request : WatchRequest) : WatchSpec :=
  ⟨request.id, request.command, some request.followUp, request.persistent, request.timeoutSecs,
    request.timeoutSecs⟩

/-- What a chat reads from outside: report stamps, and the time of day where the person is. -/
structure Env extends Clock where
  timeOfDay : Nanos → String

def followUp (env : Env) (task : Task) (now : Nanos) : Option String :=
  if task.late then
    let notice := s!"Ran late: due {env.timeOfDay task.at_}, started {env.timeOfDay now}."
    some <| match task.followUp with
      | some text => notice ++ "\n" ++ text
      | none => notice
  else task.followUp

def toWatchSpec (env : Env) (task : Task) (now : Nanos) : Option WatchSpec :=
  match task.kind with
  | .worker _ => none
  | .command command => some ⟨watchId task.id, command, followUp env task now, false,
      task.timeoutSecs, task.timeoutSecs⟩

/-- The watches to start, and the ids of the requests that are turned down. -/
def planQueued : (requests : List WatchRequest) → (taken : List String) → List WatchSpec × List String
  | [], _ => ([], [])
  | request :: requests, taken =>
    if request.id ∈ taken then
      let (start, rejected) := planQueued requests taken
      (start, request.id :: rejected)
    else
      let (start, rejected) := planQueued requests (request.id :: taken)
      (request.intoSpec :: start, rejected)

inductive StopAction
  | killRunning
  | removeSaved
  | unknown
  deriving DecidableEq

def decideStop (id : String) (running saved : List String) : StopAction :=
  if id ∈ running then .killRunning else if id ∈ saved then .removeSaved else .unknown

inductive CancelStop
  | watch (id : String)
  | worker (id : String)
  deriving DecidableEq

inductive CancelPlan
  | remove (id : String) (stop : Option CancelStop)
  | unknown (id : String)
  deriving DecidableEq

def Task.cancelStop (task : Task) : Option CancelStop :=
  if task.status = .running then
    some (if task.isWorker then .worker (workerId task.id) else .watch (watchId task.id))
  else none

def planCancel (id : String) (tasks : List Task) : CancelPlan :=
  match tasks.find? (·.id = id) with
  | some task => .remove task.id task.cancelStop
  | none => .unknown id

def isStillRunning (tasks : List Task) (id : String) : Bool :=
  tasks.any fun task => task.id = id && task.isRunning

inductive StopReason
  | requested
  | shutdown
  deriving DecidableEq

inductive WatchError
  | duplicate (id : String)
  | spawn (error : String)
  deriving DecidableEq

/-- What the threads of a chat ask of what they share. A report is known by its name only. -/
inductive Op
  | load
  | save (task : Task)
  | remove (id : String)
  | cancel (id : String) (stop : Option CancelStop)
  | listActive
  | listSaved
  | isClosing
  | now
  | post (name : String)
  | takeRequests
  | start (spec : WatchSpec)
  | takeOut (id : String)
  | removeSaved (id : String)
  | requestStop (child : ℕ) (reason : StopReason)
  | join (child : ℕ)
  | setClosing
  | drain
  | alive
  | reports
  | close (worker : String)
  | stopHarness (worker : String)
  | fork (task : Task)
  | awaitJob (me : ℕ)
  | spawn (me : ℕ) (worker : String)
  | loadAgain (me : ℕ) (id : String)
  | stopOrphan (me : ℕ) (worker : String)

abbrev Op.Answer : Op → Type
  | load => List Task
  | save _ | remove _ | cancel _ _ | post _ | removeSaved _ | requestStop _ _ | join _ | setClosing
  | stopHarness _ | fork _ | stopOrphan _ _ => Unit
  | listActive | listSaved | alive => List String
  | isClosing => Bool
  | now => Nanos
  | takeRequests => List WatchRequest
  | start _ => Except WatchError Unit
  | takeOut _ => Option ℕ
  | drain => List ℕ
  | reports => List Report
  | close _ | spawn _ _ => Except String Unit
  | awaitJob _ => Task
  | loadAgain _ _ => List Task

abbrev Thread (α : Type) := Program Op Op.Answer α

def ask (o : Op) : Thread o.Answer := Program.op o

def startQueued : Thread Unit := do
  let requests ← ask .takeRequests
  let active ← ask .listActive
  let saved ← ask .listSaved
  let (start, rejected) := planQueued requests (active ++ saved)
  Program.each (fun id => ask (.post id)) rejected
  Program.each (fun spec => do
    match ← ask (.start spec) with
    | .ok () => pure ()
    | .error _ => ask (.post spec.id)) start

def fire (env : Env) (now : Nanos) (task : Task) : Thread Unit :=
  match toWatchSpec env task now with
  | none => pure ()
  | some spec => do
    match ← ask (.start spec) with
    | .ok () => ask (.save { task with status := .running })
    | .error _ =>
      ask (.post (watchId task.id))
      ask (.remove task.id)

def fireDue (env : Env) : Thread Unit := do
  let tasks ← ask .load
  if tasks.isEmpty then pure ()
  else
    let active ← ask .listActive
    if ← ask .isClosing then pure ()
    else
      let now ← ask .now
      let plan := planTick tasks active now
      Program.each (fun task => ask (.remove task.id)) plan.finished
      Program.each (fire env now) plan.fire

def settleDone (worker : String) : Thread Unit := do
  match ← ask (.close worker) with
  | .ok () => pure ()
  | .error _ => ask (.stopHarness worker)

def endTask : Task × WorkerEnd → Thread Unit := fun (task, why) => do
  match why with
  | .done => settleDone (workerId task.id)
  | .attention => pure ()
  | .timedOut =>
    ask (.stopHarness (workerId task.id))
    ask (.post (watchId task.id))
  | .vanished => ask (.post (watchId task.id))
  ask (.remove task.id)

def startTask (now : Nanos) (fire : WorkerFire) : Thread Unit :=
  match fire.task.kind with
  | .command _ => pure ()
  | .worker _ => do
    ask (.save (startedTask fire now))
    ask (.fork (startedTask fire now))

def tickWorkers (env : Env) : Thread Unit := do
  let tasks ← ask .load
  if !tasks.any Task.isWorker then pure ()
  else if ← ask .isClosing then pure ()
  else
    let alive ← if tasks.any fun task => task.isWorker && task.isRunning then ask .alive else pure []
    let reports ← ask .reports
    let now ← ask .now
    let plan := planWorkerTick env.toClock tasks reports alive now poll
    Program.each endTask plan.ended
    Program.each (startTask now) plan.fire

/-- The thread that `start_task` spawns, the one after `me` others. -/
def starter (me : ℕ) : Thread Unit := do
  let task ← ask (.awaitJob me)
  if isStillRunning (← ask .load) task.id then
    let spawned ← ask (.spawn me (workerId task.id))
    let wanted := isStillRunning (← ask (.loadAgain me task.id)) task.id
    match spawned, wanted with
    | .ok (), false => ask (.stopOrphan me (workerId task.id))
    | .error _, false | .ok (), true => pure ()
    | .error _, true =>
      ask (.post (watchId task.id))
      ask (.remove task.id)
  else pure ()

/-- `Watches::end`. -/
def endWatch (reason : StopReason) (child : ℕ) : Thread Unit := do
  ask (.requestStop child reason)
  ask (.join child)

/-- `Watches::stop`. -/
def stopWatch (id : String) : Thread Unit := do
  let running ← ask .listActive
  let saved ← ask .listSaved
  match decideStop id running saved with
  | .killRunning =>
    match ← ask (.takeOut id) with
    | some child => endWatch .requested child
    | none => pure ()
  | .removeSaved => ask (.removeSaved id)
  | .unknown => pure ()

def cancelTask (id : String) : Thread CancelPlan := do
  let plan := planCancel id (← ask .load)
  match plan with
  | .remove id stop =>
    ask (.cancel id stop)
    match stop with
    | some (.watch watch) => stopWatch watch
    | some (.worker worker) => ask (.stopHarness worker)
    | none => pure ()
  | .unknown _ => pure ()
  pure plan

def killAll : Thread Unit := do
  ask .setClosing
  let entries ← ask .drain
  Program.each (endWatch .shutdown) entries

/-- Where a command of a watch and its waiter thread are. -/
inductive Phase
  | running
  | exited
  | stopped
  | reported
  | over
  deriving DecidableEq

structure Child where
  id : String
  persistent : Bool
  stop : Option StopReason
  phase : Phase
  deriving DecidableEq

/-- The state of a chat: the watches that are registered by id, every watch that was ever started,
and the jobs that were given to starter threads. Beside it what has happened: whether `kill_all`
has taken the watches out, the ids of the watches whose command ended by itself, and the starters
that spawned a worker and have not looked again. -/
structure Shared where
  store : Store
  active : List (String × ℕ)
  children : List Child
  saved : List String
  closing : Bool
  workers : List String
  jobs : List Task
  drained : Bool
  ended : List String
  unchecked : List ℕ

namespace Shared

def activeIds (s : Shared) : List String := s.active.map Prod.fst

def launch (s : Shared) (spec : WatchSpec) : Shared :=
  { s with
    saved := if spec.persistent then s.saved.filter (· ≠ spec.id) ++ [spec.id] else s.saved
    children := s.children ++ [⟨spec.id, spec.persistent, none, .running⟩]
    active := s.active ++ [(spec.id, s.children.length)] }

/-- The record of a persistent watch is removed again when its command was not spawned. -/
def unsaved (s : Shared) (spec : WatchSpec) : Shared :=
  { s with saved := if spec.persistent then s.saved.filter (· ≠ spec.id) else s.saved }

def withChild (s : Shared) (child : ℕ) (f : Child → Child) : Shared :=
  { s with children := s.children.modify child f }

end Shared

/-- Some tasks and some active watches; a running task that no watch is left of has ended. -/
def Shared.start (store : Store) (watches : List (String × Bool)) (saved : List String) : Shared where
  store := store
  active := (watches.map Prod.fst).zipIdx
  children := watches.map fun (id, persistent) => ⟨id, persistent, none, .running⟩
  saved := saved
  closing := false
  workers := []
  jobs := []
  drained := false
  ended := ((store.tasks.filter Task.isRunning).map (watchId ·.id)).filter (· ∉ watches.map Prod.fst)
  unchecked := []

/-- One operation. -/
def Does (o : Op) (s : Shared) (r : o.Answer) (s' : Shared) : Prop :=
  match o with
  | .load => s' = s ∧ ∃ listing, r = s.store.loadAll listing
  | .save task => s' = { s with store := s.store.save task }
  | .remove id => s' = { s with store := s.store.remove id }
  | .cancel id _ => s' = { s with store := s.store.remove id }
  | .listActive => s' = s ∧ r.Perm s.activeIds
  | .listSaved => s' = s ∧ r.Perm s.saved
  | .isClosing => s' = s ∧ r = s.closing
  | .now => s' = s
  | .post _ => s' = s
  | .takeRequests => s' = s
  | .start spec =>
    (spec.id ∈ s.activeIds ∧ r = .error (.duplicate spec.id) ∧ s' = s) ∨
      spec.id ∉ s.activeIds ∧ (r = .ok () ∧ s' = s.launch spec ∨
        -- the record was not written, or the command not spawned
        (∃ error, r = .error (.spawn error)) ∧ (s' = s ∨ s' = s.unsaved spec))
  | .takeOut id => r = s.active.lookup id ∧ s' = { s with active := s.active.filter (·.1 ≠ id) }
  | .removeSaved id => s' = { s with saved := s.saved.filter (· ≠ id) }
  | .requestStop child reason =>
    s' = s.withChild child fun c => { c with stop := c.stop.or (some reason) }
  | .join child => s' = s ∧ ∃ c, s.children[child]? = some c ∧ c.phase = .over
  | .setClosing => s' = { s with closing := true }
  | .drain => r.Perm (s.active.map Prod.snd) ∧ s' = { s with active := [], drained := true }
  | .alive => s' = s
  | .reports => s' = s
  | .close worker =>
    (r = .ok () ∧ s' = { s with workers := s.workers.filter (· ≠ worker) }) ∨
      (∃ e, r = .error e) ∧ s' = s
  | .stopHarness worker => s' = { s with workers := s.workers.filter (· ≠ worker) }
  | .fork task => s' = { s with jobs := s.jobs ++ [task] }
  | .awaitJob me => s' = s ∧ s.jobs[me]? = some r
  | .spawn me worker =>
    (worker ∈ s.workers ∧ (∃ e, r = .error e) ∧ s' = s) ∨
      worker ∉ s.workers ∧ r = .ok () ∧
        s' = { s with workers := s.workers ++ [worker], unchecked := s.unchecked ++ [me] }
  | .loadAgain me id => (∃ listing, r = s.store.loadAll listing) ∧
      s' = if isStillRunning r id then { s with unchecked := s.unchecked.filter (· ≠ me) } else s
  | .stopOrphan me worker => s' = { s with
      workers := s.workers.filter (· ≠ worker), unchecked := s.unchecked.filter (· ≠ me) }

/-- A step of a watch: its command ends by itself or is stopped, and then its waiter reports and
leaves. -/
inductive Waits (s : Shared) : Shared → Prop
  | exit {child : ℕ} {c : Child} (h : s.children[child]? = some c) (hphase : c.phase = .running) :
      Waits s { s.withChild child ({ · with phase := .exited }) with ended := s.ended ++ [c.id] }
  | kill {child : ℕ} {c : Child} (h : s.children[child]? = some c) (hphase : c.phase = .running)
      (hstop : c.stop.isSome) : Waits s (s.withChild child ({ · with phase := .stopped }))
  | report {child : ℕ} {c : Child} (h : s.children[child]? = some c)
      (hphase : c.phase = .exited ∨ c.phase = .stopped) :
      Waits s { s.withChild child ({ · with phase := .reported }) with
        saved := if c.persistent ∧ (c.phase = .exited ∨ c.stop = some .requested) then
          s.saved.filter (· ≠ c.id) else s.saved }
  | leave {child : ℕ} {c : Child} (h : s.children[child]? = some c) (hphase : c.phase = .reported) :
      Waits s { s.withChild child ({ · with phase := .over }) with
        active := s.active.filter (· ≠ (c.id, child)) }

/-- The command of a watch runs. -/
def RunningAt (s : Shared) (i : ℕ) : Prop := ∃ c, s.children[i]? = some c ∧ c.phase = .running

section Children

variable {s : Shared} {child : ℕ} {f : Child → Child}

theorem getElem?_withChild (i : ℕ) : (s.withChild child f).children[i]? =
    if child = i then s.children[i]?.map f else s.children[i]? := by
  rw [Shared.withChild, List.getElem?_modify]
  split_ifs <;> simp

theorem mem_withChild {c' : Child} (h : c' ∈ (s.withChild child f).children) :
    c' ∈ s.children ∨ ∃ c, s.children[child]? = some c ∧ f c = c' := by
  obtain ⟨i, hi⟩ := List.mem_iff_getElem?.1 h
  rw [getElem?_withChild] at hi
  split_ifs at hi with heq
  · exact .inr (heq ▸ Option.map_eq_some_iff.1 hi)
  · exact .inl (List.mem_of_getElem? hi)

/-- Where a watch moves on, nothing runs that did not. -/
theorem runningAt_withChild (hphase : ∀ c, (f c).phase = .running → c.phase = .running) {i : ℕ}
    (hi : RunningAt (s.withChild child f) i) : RunningAt s i := by
  obtain ⟨c', hc', hrunning⟩ := hi
  rw [getElem?_withChild] at hc'
  split_ifs at hc'
  · obtain ⟨c, hc, rfl⟩ := Option.map_eq_some_iff.1 hc'
    exact ⟨c, hc, hphase c hrunning⟩
  · exact ⟨c', hc', hrunning⟩

theorem getElem?_launch {spec : WatchSpec} {i : ℕ} {c : Child}
    (h : (s.launch spec).children[i]? = some c) : s.children[i]? = some c ∨
      i = s.children.length ∧ c = ⟨spec.id, spec.persistent, none, .running⟩ := by
  rw [Shared.launch, List.getElem?_append] at h
  split_ifs at h with hlt
  · exact .inl h
  · rw [List.getElem?_singleton] at h
    split_ifs at h with hi
    exact .inr ⟨by omega, (Option.some.inj h).symm⟩

end Children

section Launch

variable {s s' : Shared} {spec : WatchSpec}

theorem launched_of_ok (h : Does (.start spec) s (.ok ()) s') :
    spec.id ∉ s.activeIds ∧ s' = s.launch spec := by
  obtain ⟨-, hr, -⟩ | ⟨hnew, ⟨-, hs'⟩ | ⟨⟨_, hr⟩, -⟩⟩ := h
  · cases hr
  · exact ⟨hnew, hs'⟩
  · cases hr

/-- A start that fails changes no more than the saved watches. -/
theorem failed_of_error {e : WatchError} (h : Does (.start spec) s (.error e) s') :
    (spec.id ∈ s.activeIds ∨ ∃ error, e = .spawn error) ∧ ∃ saved, s' = { s with saved } := by
  obtain ⟨hactive, -, hs'⟩ | ⟨-, ⟨hr, -⟩ | ⟨⟨error, hr⟩, hs'⟩⟩ := h
  · exact ⟨.inl hactive, s.saved, hs'⟩
  · cases hr
  · refine ⟨.inr ⟨error, Except.error.inj hr⟩, ?_⟩
    obtain hs' | hs' := hs'
    · exact ⟨s.saved, hs'⟩
    · exact ⟨_, hs'⟩

end Launch

section Start

variable {store : Store} {watches : List (String × Bool)} {saved : List String}

theorem activeIds_start :
    (Shared.start store watches saved).activeIds = watches.map Prod.fst := List.zipIdx_map_fst 0 _

theorem mem_active_start {i : ℕ} {c : Child}
    (hc : (Shared.start store watches saved).children[i]? = some c) :
    (c.id, i) ∈ (Shared.start store watches saved).active := by
  rw [Shared.start, List.getElem?_map] at hc
  obtain ⟨watch, hwatch, rfl⟩ := Option.map_eq_some_iff.1 hc
  refine List.mk_mem_zipIdx_iff_getElem?.2 ?_
  rw [List.getElem?_map, hwatch]
  rfl

end Start

/-- For a task that is due. -/
def demoEnv : Env := { parseRfc3339 := fun _ => none, timeOfDay := fun _ => "09:00" }

def demoTask : Task := ⟨"t", .command "true", none, 0, none, .pending, false, none, nofun⟩

def demoSpec : WatchSpec := ⟨"schedule:t", "true", none, false, none, none⟩

def demoStore : Store := Store.empty.save demoTask

end Ralph.Schedule
