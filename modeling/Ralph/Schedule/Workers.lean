import Ralph.Machine
import Ralph.Schedule.Basic

namespace Ralph.Schedule
open Worker

inductive WorkerEnd
  | done
  | attention
  | timedOut
  | vanished
  deriving DecidableEq, Repr

structure WorkerFire where
  task : Task
  late : Bool
  deriving DecidableEq

structure WorkerTickPlan where
  ended : List (Task × WorkerEnd)
  fire : List WorkerFire
  deriving DecidableEq

/-- The reader of a report's RFC 3339 stamp. -/
structure Clock where
  parseRfc3339 : String → Option Nanos

/-- `TimeDelta::MAX`. -/
def maxSpan : Nanos := (2 ^ 63 - 1) * 1000000

def timeoutOf (task : Task) : Nanos :=
  seconds (min ((task.timeoutSecs.getD workerDefaultTimeoutSecs : ℕ) : ℤ) (2 ^ 63 - 1))

/-- `Duration::seconds` does not panic on a worker's task. -/
theorem timeoutOf_le_maxSpan {task : Task} (h : task.isWorker) : timeoutOf task ≤ maxSpan := by
  have hspans : ∃ brief, task.kind = .worker brief := by
    unfold Task.isWorker at h
    split at h
    · exact ⟨_, by assumption⟩
    · cases h
  obtain ⟨brief, hbrief⟩ := hspans
  have hsecs : ((task.timeoutSecs.getD workerDefaultTimeoutSecs : ℕ) : ℤ) ≤ maxSpanSecs :=
    Int.ofNat_le.2 (task.spans brief hbrief)
  calc timeoutOf task ≤ seconds maxSpanSecs :=
        mul_le_mul_of_nonneg_right ((min_le_left _ _).trans hsecs) (by norm_num)
    _ ≤ maxSpan := by decide

def workerDeadline (task : Task) (now : Nanos) : Nanos :=
  (checkedAdd now (timeoutOf task)).getD now

def startedAt (task : Task) : Nanos :=
  (task.deadline.bind fun deadline => checkedAdd deadline (-timeoutOf task)).getD task.at_

/-- A report of the task's own worker since the task started, with the end that its status means. -/
def reportStatusEnd (clock : Clock) (task : Task) (report : Report) : Option WorkerEnd :=
  if report.worker = workerId task.id ∧
      (clock.parseRfc3339 report.at_).any (startedAt task ≤ ·) then
    if report.status = "done" then some .done
    else if report.status = "blocked" ∨ report.status = "question" then some .attention
    else none
  else none

def reportEnd (clock : Clock) (task : Task) (reports : List Report) : Option WorkerEnd :=
  (reports.filterMap (reportStatusEnd clock task)).getLast?

def runningEnd (clock : Clock) (task : Task) (reports : List Report) (alive : List String)
    (now : Nanos) : Option WorkerEnd :=
  match task.deadline.or (checkedAdd (startedAt task) (timeoutOf task)) with
  | none => none
  | some deadline =>
    (reportEnd clock task reports).or <|
      if deadline ≤ now then some .timedOut
      else if workerId task.id ∉ alive ∧ startedAt task + seconds startupGraceSecs ≤ now then
        some .vanished
      else none

/-- The order of `by_time`. -/
def timeLe (a b : Task) : Bool := a.at_ < b.at_ || (a.at_ = b.at_ && a.id ≤ b.id)

def byTime (tasks : List Task) : List Task := tasks.mergeSort timeLe

def planWorkerTick (clock : Clock) (tasks : List Task) (reports : List Report)
    (alive : List String) (now : Nanos) (tick : ℕ) : WorkerTickPlan :=
  let running := byTime (tasks.filter fun task => task.isWorker && task.isRunning)
  let ends := running.map fun task => (task, runningEnd clock task reports alive now)
  let still := ends.filter fun (_, why) => why.isNone
  let due := byTime ((tasks.filter fun task => task.isWorker && task.status == .pending).filter
    fun task => task.at_ ≤ now)
  let slots := workerCap - still.length
  let grace : Nanos := min tick maxSpan
  { ended := ends.filterMap fun (task, why) => why.map fun why => (task, why),
    fire := (due.take slots).map fun task =>
      { task, late := task.late || now - task.at_ > grace } }

/-- The record that `start_task` saves. -/
def startedTask (fire : WorkerFire) (now : Nanos) : Task :=
  { fire.task with
    status := .running, late := fire.late, deadline := some (workerDeadline fire.task now) }

inductive Call
  | restore (now : Nanos) (alive : List String)
  | tick (listing : Listing) (reports : List Report) (alive : List String) (now : Nanos) (tick : ℕ)

namespace Store

/-- `restore_schedule`. -/
def restore (store : Store) (now : Nanos) (alive : List String) : Store :=
  ⟨planRestore store.tasks now alive, by
    rw [map_id_planRestore]
    exact store.distinct⟩

/-- The records after a tick: the ended tasks are removed, and the fired ones are saved. -/
def ticked (store : Store) (plan : WorkerTickPlan) (now : Nanos) : Store :=
  plan.fire.foldl (fun store fire => store.save (startedTask fire now))
    (plan.ended.foldl (fun store ended => store.remove ended.1.id) store)

end Store

def step (clock : Clock) (store : Store) : Call → Store × List WorkerTickPlan
  | .restore now alive => (store.restore now alive, [])
  | .tick listing reports alive now tick =>
    let plan := planWorkerTick clock (store.loadAll listing) reports alive now tick
    (store.ticked plan now, [plan])

end Ralph.Schedule
