import Mathlib.Data.List.Nodup
import Mathlib.Tactic
import Ralph.Worker.Report

namespace Ralph.Schedule
open Worker

def scheduleIdPrefix : String := "schedule:"
def workerIdPrefix : String := "sched-"
def workerDefaultTimeoutSecs : ℕ := 2 * 3600
def workerCap : ℕ := 2
def startupGraceSecs : ℤ := 60

/-- A point in time or a span of it, in nanoseconds. -/
abbrev Nanos := ℤ

def seconds (n : ℤ) : Nanos := n * 1000000000

/-- `DateTime::MIN_UTC` and `DateTime::MAX_UTC`. -/
def minMoment : Nanos := seconds (-8334601228800)
def maxMoment : Nanos := seconds 8210266876799 + 999999999

/-- `checked_add_signed` on a point in time. -/
def checkedAdd (moment span : Nanos) : Option Nanos :=
  if minMoment ≤ moment + span ∧ moment + span ≤ maxMoment then some (moment + span) else none

inductive TaskKind
  | command (command : String)
  | worker (brief : String)
  deriving DecidableEq, Repr

inductive TaskStatus
  | proposed
  | pending
  | running
  deriving DecidableEq, Repr

/-- `TimeDelta::MAX` in whole seconds: `Duration::seconds` panics on more. -/
def maxSpanSecs : ℕ := (2 ^ 63 - 1) / 1000

/-- A request for a worker is refused beyond 8 hours; a worker's task from a file whose timeout is
no span of time makes the tick panic. -/
structure Task where
  id : String
  kind : TaskKind
  followUp : Option String
  at_ : Nanos
  timeoutSecs : Option ℕ
  status : TaskStatus
  late : Bool
  deadline : Option Nanos
  spans : ∀ brief, kind = .worker brief →
    timeoutSecs.getD workerDefaultTimeoutSecs ≤ maxSpanSecs
  deriving DecidableEq, Repr

def watchId (id : String) : String := scheduleIdPrefix ++ id

def workerId (id : String) : String := workerIdPrefix ++ id

def Task.isWorker (task : Task) : Bool :=
  match task.kind with
  | .worker _ => true
  | .command _ => false

def Task.isRunning (task : Task) : Bool := task.status == .running

def due (tasks : List Task) (now : Nanos) : List Task :=
  tasks.filter fun task => task.status == .pending && task.at_ ≤ now

def planRestore (tasks : List Task) (now : Nanos) (aliveWorkers : List String) : List Task :=
  tasks.map fun task =>
    match task.status with
    | .running =>
      if task.isWorker ∧ workerId task.id ∈ aliveWorkers then task
      else { task with status := .pending, late := task.late || task.at_ < now, deadline := none }
    | .pending => { task with late := task.late || task.at_ < now }
    | .proposed => task

theorem map_id_planRestore (tasks : List Task) (now : Nanos) (alive : List String) :
    (planRestore tasks now alive).map Task.id = tasks.map Task.id := by
  simp only [planRestore, List.map_map]
  refine List.map_congr_left fun task _ => ?_
  simp only [Function.comp_apply]
  split
  · split_ifs <;> rfl
  · rfl
  · rfl

structure TickPlan where
  fire : List Task
  finished : List Task
  deriving DecidableEq

def planTick (tasks : List Task) (activeWatchIds : List String) (now : Nanos) : TickPlan where
  fire := (due tasks now).filter fun task => !task.isWorker
  finished := ((tasks.filter fun task => !task.isWorker).filter Task.isRunning).filter
    fun task => !activeWatchIds.contains (watchId task.id)

/-- One record an id. -/
structure Store where
  tasks : List Task
  distinct : (tasks.map Task.id).Nodup

namespace Store

def empty : Store := ⟨[], .nil⟩

def remove (store : Store) (id : String) : Store :=
  ⟨store.tasks.filter (·.id ≠ id), store.distinct.sublist (List.filter_sublist.map _)⟩

def save (store : Store) (task : Task) : Store :=
  ⟨(store.remove task.id).tasks ++ [task], by
    rw [List.map_append, List.nodup_append]
    refine ⟨(store.remove task.id).distinct, by simp, ?_⟩
    simp only [remove, List.map_cons, List.map_nil, List.mem_map, List.mem_filter, decide_eq_true_eq,
      List.mem_singleton]
    rintro _ ⟨other, ⟨-, hother⟩, rfl⟩ _ rfl
    exact hother⟩

@[simp] theorem mem_remove {store : Store} {id : String} {task : Task} :
    task ∈ (store.remove id).tasks ↔ task ∈ store.tasks ∧ task.id ≠ id := by
  simp [remove]

@[simp] theorem mem_save {store : Store} {task task' : Task} :
    task' ∈ (store.save task).tasks ↔ task' ∈ store.tasks ∧ task'.id ≠ task.id ∨ task' = task := by
  simp [save]

/-- Two records of one id are one record. -/
theorem eq_of_id {store : Store} {task task' : Task} (h : task ∈ store.tasks)
    (h' : task' ∈ store.tasks) (hid : task.id = task'.id) : task = task' :=
  List.inj_on_of_nodup_map store.distinct h h' hid

end Store

/-- The order in which a directory lists its files. -/
structure Listing where
  order : List Task → List Task
  perm : ∀ tasks, (order tasks).Perm tasks

/-- `load_all`. -/
def Store.loadAll (store : Store) (listing : Listing) : List Task := listing.order store.tasks

@[simp] theorem Store.mem_loadAll {store : Store} {listing : Listing} {task : Task} :
    task ∈ store.loadAll listing ↔ task ∈ store.tasks := (listing.perm store.tasks).mem_iff

theorem Store.nodup_loadAll (store : Store) (listing : Listing) :
    ((store.loadAll listing).map Task.id).Nodup :=
  ((listing.perm store.tasks).map Task.id).nodup_iff.2 store.distinct

end Ralph.Schedule
