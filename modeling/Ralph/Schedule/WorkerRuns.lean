import Mathlib.Data.String.Basic
import Ralph.Schedule.Workers

namespace Ralph.Schedule
open Worker

/-- An armed worker task whose time has come. -/
def Task.Waits (task : Task) (now : Nanos) : Prop :=
  task.isWorker ∧ task.status = .pending ∧ task.at_ ≤ now

def Task.runsWorker (task : Task) : Bool := task.isWorker && task.isRunning

/-- The running worker tasks of a store. -/
def Store.running (store : Store) : ℕ := store.tasks.countP Task.runsWorker

/-- A report of the task's own worker, stamped no earlier than the start of the task. -/
def OwnReport (clock : Clock) (task : Task) (report : Report) : Prop :=
  report.worker = workerId task.id ∧
    ∃ stamp, clock.parseRfc3339 report.at_ = some stamp ∧ startedAt task ≤ stamp

/-- Why a running task ends so. -/
def EndsFor (clock : Clock) (task : Task) (reports : List Report) (alive : List String)
    (now : Nanos) : WorkerEnd → Prop
  | .done => ∃ report ∈ reports, OwnReport clock task report ∧ report.status = "done"
  | .attention => ∃ report ∈ reports, OwnReport clock task report ∧
      (report.status = "blocked" ∨ report.status = "question")
  | .timedOut => ∃ deadline, task.deadline.or (checkedAdd (startedAt task) (timeoutOf task)) =
      some deadline ∧ deadline ≤ now
  | .vanished => workerId task.id ∉ alive ∧ startedAt task + seconds startupGraceSecs ≤ now

def WorkerTickPlan.fired (plan : WorkerTickPlan) : List Task := plan.fire.map WorkerFire.task

def WorkerTickPlan.endedIds (plan : WorkerTickPlan) : List String :=
  plan.ended.map fun ended => ended.1.id

theorem timeLe_iff {a b : Task} : timeLe a b ↔ a.at_ < b.at_ ∨ a.at_ = b.at_ ∧ a.id ≤ b.id := by
  simp [timeLe]

theorem timeLe_trans (a b c : Task) (hab : timeLe a b) (hbc : timeLe b c) : timeLe a c := by
  rw [timeLe_iff] at *
  obtain hab | ⟨hab, hab'⟩ := hab
  · obtain hbc | ⟨hbc, -⟩ := hbc
    · exact .inl (hab.trans hbc)
    · exact .inl (hbc ▸ hab)
  · obtain hbc | ⟨hbc, hbc'⟩ := hbc
    · exact .inl (hab ▸ hbc)
    · exact .inr ⟨hab.trans hbc, hab'.trans hbc'⟩

theorem timeLe_total (a b : Task) : timeLe a b || timeLe b a := by
  rw [Bool.or_eq_true, timeLe_iff, timeLe_iff]
  obtain h | h | h := lt_trichotomy a.at_ b.at_
  · exact .inl (.inl h)
  · obtain hid | hid := le_total a.id b.id
    · exact .inl (.inr ⟨h, hid⟩)
    · exact .inr (.inr ⟨h.symm, hid⟩)
  · exact .inr (.inl h)

theorem byTime_perm (tasks : List Task) : (byTime tasks).Perm tasks := List.mergeSort_perm _ _

@[simp] theorem mem_byTime {tasks : List Task} {task : Task} :
    task ∈ byTime tasks ↔ task ∈ tasks := (byTime_perm tasks).mem_iff

/-- What is taken from the front comes no later than what is left. -/
theorem timeLe_of_taken {tasks : List Task} {n : ℕ} {taken left : Task}
    (htaken : taken ∈ (byTime tasks).take n) (hleft : left ∈ tasks)
    (hnot : left ∉ (byTime tasks).take n) : timeLe taken left := by
  have hsorted := List.pairwise_mergeSort timeLe_trans timeLe_total tasks
  change (byTime tasks).Pairwise _ at hsorted
  rw [← List.take_append_drop n (byTime tasks), List.pairwise_append] at hsorted
  have hmem : left ∈ (byTime tasks).take n ++ (byTime tasks).drop n := by
    rwa [List.take_append_drop, mem_byTime]
  exact hsorted.2.2 taken htaken left ((List.mem_append.1 hmem).resolve_left hnot)

section Plan

variable {clock : Clock} {tasks : List Task} {reports : List Report} {alive : List String}
  {now : Nanos} {tick : ℕ}

theorem endsFor_of_reportEnd {task : Task} {why : WorkerEnd}
    (h : reportEnd clock task reports = some why) : EndsFor clock task reports alive now why := by
  obtain ⟨report, hmem, hend⟩ := List.mem_filterMap.1 (List.mem_of_getLast? h)
  unfold reportStatusEnd at hend
  split_ifs at hend with hown hdone hattention
  · rw [Option.any_eq_true] at hown
    obtain ⟨hworker, stamp, hstamp, hle⟩ := hown
    cases hend
    exact ⟨report, hmem, ⟨hworker, stamp, hstamp, by simpa using hle⟩, hdone⟩
  · rw [Option.any_eq_true] at hown
    obtain ⟨hworker, stamp, hstamp, hle⟩ := hown
    cases hend
    exact ⟨report, hmem, ⟨hworker, stamp, hstamp, by simpa using hle⟩, hattention⟩

theorem endsFor_of_runningEnd {task : Task} {why : WorkerEnd}
    (h : runningEnd clock task reports alive now = some why) :
    EndsFor clock task reports alive now why := by
  unfold runningEnd at h
  split at h
  · cases h
  · next deadline hdeadline =>
    cases hreport : reportEnd clock task reports with
    | some _ =>
      rw [hreport, Option.some_or] at h
      exact endsFor_of_reportEnd (hreport.trans h)
    | none =>
      rw [hreport, Option.none_or] at h
      split_ifs at h with hpast hgone
      · cases h
        exact ⟨deadline, hdeadline, hpast⟩
      · cases h
        exact hgone

theorem mem_ended {task : Task} {why : WorkerEnd} :
    (task, why) ∈ (planWorkerTick clock tasks reports alive now tick).ended ↔
      task ∈ tasks ∧ task.runsWorker ∧ runningEnd clock task reports alive now = some why := by
  simp only [planWorkerTick, List.filterMap_map, List.mem_filterMap, Function.comp_apply,
    Option.map_eq_some_iff, Prod.mk.injEq, mem_byTime, List.mem_filter, Task.runsWorker]
  constructor
  · rintro ⟨_, ⟨hmem, hruns⟩, _, hend, rfl, rfl⟩
    exact ⟨hmem, hruns, hend⟩
  · rintro ⟨hmem, hruns, hend⟩
    exact ⟨task, ⟨hmem, hruns⟩, why, hend, rfl, rfl⟩

/-- The start of a fired task comes back from the deadline that it is saved with. -/
theorem startedAt_startedTask {fire : WorkerFire} (hmin : minMoment ≤ now)
    (hmax : now + timeoutOf fire.task ≤ maxMoment) : startedAt (startedTask fire now) = now := by
  have htimeout : timeoutOf (startedTask fire now) = timeoutOf fire.task := rfl
  have hnonneg : 0 ≤ timeoutOf fire.task :=
    mul_nonneg (le_min (Int.natCast_nonneg _) (by norm_num)) (by norm_num)
  have hdeadline : workerDeadline fire.task now = now + timeoutOf fire.task := by
    rw [workerDeadline, checkedAdd, if_pos ⟨by linarith, hmax⟩, Option.getD_some]
  rw [startedAt, htimeout, startedTask, Option.bind_some, hdeadline, checkedAdd,
    add_neg_cancel_right, if_pos ⟨hmin, by linarith⟩, Option.getD_some]

/-- The running worker tasks that go on after this tick. -/
def stillRunning (clock : Clock) (tasks : List Task) (reports : List Report) (alive : List String)
    (now : Nanos) : ℕ :=
  tasks.countP fun task =>
    task.runsWorker && (runningEnd clock task reports alive now).isNone

/-- The tasks that are fired: the first due ones, as many as there are slots. -/
theorem fired_eq :
    (planWorkerTick clock tasks reports alive now tick).fired =
      (byTime ((tasks.filter fun task => task.isWorker && task.status == .pending).filter
        fun task => task.at_ ≤ now)).take
          (workerCap - stillRunning clock tasks reports alive now) := by
  have hid : WorkerFire.task ∘ (fun task : Task =>
      (⟨task, task.late || now - task.at_ > min (tick : Nanos) maxSpan⟩ : WorkerFire)) = id := rfl
  simp only [WorkerTickPlan.fired, planWorkerTick, List.map_map, stillRunning]
  rw [hid, List.map_id]
  congr 2
  rw [List.filter_map, List.length_map, ← List.countP_eq_length_filter, (byTime_perm _).countP_eq,
    List.countP_filter]
  refine List.countP_congr fun task _ => ?_
  simp [Task.runsWorker, and_comm]

theorem mem_waiting {task : Task} :
    task ∈ (tasks.filter fun task => task.isWorker && task.status == .pending).filter
      (fun task => task.at_ ≤ now) ↔ task ∈ tasks ∧ task.Waits now := by
  simp only [List.mem_filter, Bool.and_eq_true, beq_iff_eq, decide_eq_true_eq, Task.Waits,
    and_assoc]

theorem mem_fired {task : Task}
    (h : task ∈ (planWorkerTick clock tasks reports alive now tick).fired) :
    task ∈ tasks ∧ task.Waits now := by
  rw [fired_eq] at h
  exact mem_waiting.1 (mem_byTime.1 (List.mem_of_mem_take h))

theorem nodup_fired (hids : (tasks.map Task.id).Nodup) :
    ((planWorkerTick clock tasks reports alive now tick).fired.map Task.id).Nodup := by
  rw [fired_eq]
  refine .sublist ((List.take_sublist _ _).map _) (((byTime_perm _).map _).nodup_iff.2 ?_)
  exact hids.sublist ((List.filter_sublist.trans List.filter_sublist).map _)

/-- With no slot filled the fired tasks are all the due ones. -/
@[simp] theorem length_fired (plan : WorkerTickPlan) : plan.fired.length = plan.fire.length :=
  List.length_map _

/-- A due task that is not fired leaves no slot. -/
theorem fired_full {task : Task} (hmem : task ∈ tasks) (hwaits : task.Waits now)
    (h : task ∉ (planWorkerTick clock tasks reports alive now tick).fired) :
    (planWorkerTick clock tasks reports alive now tick).fire.length =
      workerCap - stillRunning clock tasks reports alive now := by
  rw [fired_eq] at h
  rw [← length_fired, fired_eq, List.length_take, Nat.min_eq_left]
  refine le_of_not_gt fun hlt => h ?_
  rw [List.take_of_length_le hlt.le, mem_byTime]
  exact mem_waiting.2 ⟨hmem, hwaits⟩

theorem fired_fits : (planWorkerTick clock tasks reports alive now tick).fire.length ≤
    workerCap - stillRunning clock tasks reports alive now := by
  rw [← length_fired, fired_eq]
  exact List.length_take_le _ _

end Plan

section Tick

variable {clock : Clock} {store : Store} {listing : Listing} {reports : List Report}
  {alive : List String} {now : Nanos} {tick : ℕ}

theorem tasks_foldl_remove (ended : List (Task × WorkerEnd)) (store : Store) :
    (ended.foldl (fun store ended => store.remove ended.1.id) store).tasks =
      store.tasks.filter fun task => task.id ∉ ended.map fun ended => ended.1.id := by
  induction ended generalizing store with
  | nil => simp
  | cons first ended ih =>
    rw [List.foldl_cons, ih, Store.remove, List.filter_filter]
    refine List.filter_congr fun task _ => ?_
    rw [← Bool.decide_and, decide_eq_decide, List.map_cons, List.mem_cons, not_or, and_comm]

theorem tasks_foldl_save (fires : List WorkerFire) (store : Store)
    (h : (fires.map fun fire => fire.task.id).Nodup) :
    (fires.foldl (fun store fire => store.save (startedTask fire now)) store).tasks =
      store.tasks.filter (fun task => task.id ∉ fires.map fun fire => fire.task.id) ++
        fires.map (startedTask · now) := by
  induction fires generalizing store with
  | nil => simp
  | cons fire fires ih =>
    rw [List.map_cons, List.nodup_cons] at h
    have hkept : (startedTask fire now).id ∉ fires.map fun fire => fire.task.id := h.1
    rw [List.foldl_cons, ih _ h.2, Store.save, List.filter_append, Store.remove, List.filter_filter,
      List.filter_singleton, decide_eq_true hkept, cond_true, List.append_assoc,
      List.singleton_append, List.map_cons]
    congr 1
    refine List.filter_congr fun task _ => ?_
    rw [← Bool.decide_and, decide_eq_decide, List.mem_cons, not_or, and_comm]
    rfl

/-- The plan of a tick on a store. -/
abbrev planOf (clock : Clock) (store : Store) (listing : Listing) (reports : List Report)
    (alive : List String) (now : Nanos) (tick : ℕ) : WorkerTickPlan :=
  planWorkerTick clock (store.loadAll listing) reports alive now tick

theorem tasks_ticked :
    (store.ticked (planOf clock store listing reports alive now tick) now).tasks =
      (store.tasks.filter fun task =>
        task.id ∉ (planOf clock store listing reports alive now tick).endedIds ∧
        task.id ∉ (planOf clock store listing reports alive now tick).fired.map Task.id) ++
      (planOf clock store listing reports alive now tick).fire.map (startedTask · now) := by
  have hids : ((planOf clock store listing reports alive now tick).fired.map Task.id).Nodup :=
    nodup_fired (store.nodup_loadAll listing)
  rw [WorkerTickPlan.fired, List.map_map] at hids ⊢
  rw [Store.ticked, tasks_foldl_save _ _ hids, tasks_foldl_remove, List.filter_filter]
  congr 1
  refine List.filter_congr fun task _ => ?_
  rw [← Bool.decide_and, decide_eq_decide, and_comm]
  rfl

theorem mem_endedIds {task : Task} (hmem : task ∈ store.tasks) :
    task.id ∈ (planOf clock store listing reports alive now tick).endedIds ↔
      task.runsWorker ∧ (runningEnd clock task reports alive now).isSome := by
  simp only [WorkerTickPlan.endedIds, List.mem_map, Prod.exists, mem_ended, Store.mem_loadAll,
    Option.isSome_iff_exists]
  constructor
  · rintro ⟨other, why, ⟨hother, hruns, hend⟩, hid⟩
    obtain rfl := Store.eq_of_id hother hmem hid
    exact ⟨hruns, why, hend⟩
  · rintro ⟨hruns, why, hend⟩
    exact ⟨task, why, ⟨hmem, hruns, hend⟩, rfl⟩

theorem mem_firedIds {task : Task} (hmem : task ∈ store.tasks) :
    task.id ∈ (planOf clock store listing reports alive now tick).fired.map Task.id ↔
      task ∈ (planOf clock store listing reports alive now tick).fired := by
  refine ⟨fun h => ?_, List.mem_map_of_mem⟩
  obtain ⟨other, hother, hid⟩ := List.mem_map.1 h
  rwa [← Store.eq_of_id (Store.mem_loadAll.1 (mem_fired hother).1) hmem hid]

theorem not_waits_of_runs {task : Task} (h : task.runsWorker) : ¬task.Waits now := by
  rintro ⟨-, hpending, -⟩
  simp [Task.runsWorker, Task.isRunning, hpending] at h

/-- After a tick the workers run that went on and those that were fired. -/
theorem running_ticked :
    (store.ticked (planOf clock store listing reports alive now tick) now).running =
      stillRunning clock (store.loadAll listing) reports alive now +
        (planOf clock store listing reports alive now tick).fire.length := by
  rw [Store.running, tasks_ticked, List.countP_append]
  congr 1
  · rw [stillRunning, Store.loadAll, (listing.perm _).countP_eq, List.countP_filter]
    refine List.countP_congr fun task hmem => ?_
    simp only [Bool.and_eq_true, decide_eq_true_eq, mem_endedIds hmem, mem_firedIds hmem,
      Option.isNone_iff_eq_none, Option.isSome_iff_ne_none]
    constructor
    · rintro ⟨hruns, hend, -⟩
      exact ⟨hruns, by simpa [hruns] using hend⟩
    · rintro ⟨hruns, hend⟩
      exact ⟨hruns, by simp [hend], fun hfired => not_waits_of_runs hruns (mem_fired hfired).2⟩
  · have hlength : ((planOf clock store listing reports alive now tick).fire.map
        (startedTask · now)).length = (planOf clock store listing reports alive now tick).fire.length :=
      List.length_map _
    rw [← hlength]
    refine List.countP_eq_length.2 fun task hmem => ?_
    obtain ⟨fire, hfire, rfl⟩ := List.mem_map.1 hmem
    have hworker := (mem_fired (List.mem_map_of_mem hfire)).2.1
    simpa [Task.runsWorker, Task.isRunning, startedTask, Task.isWorker] using hworker

/-- What a tick gives: the fired tasks are the earliest of the due ones that fit, the ended ones
ran and have a reason, and a due task is left only where no slot is free. -/
structure Ticked (clock : Clock) (store : Store) (reports : List Report) (alive : List String)
    (now : Nanos) (plan : WorkerTickPlan) (next : Store) : Prop where
  fired : ∀ task ∈ plan.fired, task ∈ store.tasks ∧ task.Waits now
  earliest : ∀ task ∈ plan.fired, ∀ other ∈ store.tasks, other.Waits now → other ∉ plan.fired →
    timeLe task other
  fits : plan.fired ≠ [] → next.running ≤ workerCap
  capped : store.running ≤ workerCap → next.running ≤ workerCap
  full : ∀ task ∈ store.tasks, task.Waits now → task ∉ plan.fired → workerCap ≤ next.running
  ended : ∀ task why, (task, why) ∈ plan.ended →
    task ∈ store.tasks ∧ task.runsWorker ∧ EndsFor clock task reports alive now why

theorem stillRunning_le : stillRunning clock (store.loadAll listing) reports alive now ≤
    store.running := by
  rw [stillRunning, Store.loadAll, (listing.perm _).countP_eq]
  exact List.countP_mono_left fun task _ h => (Bool.and_eq_true_iff.1 h).1

theorem ticked_of_plan :
    Ticked clock store reports alive now (planOf clock store listing reports alive now tick)
      (store.ticked (planOf clock store listing reports alive now tick) now) where
  fired task h := (mem_fired h).imp_left Store.mem_loadAll.1
  earliest task hfired other hmem hwaits hnot := by
    rw [fired_eq] at hfired hnot
    exact timeLe_of_taken hfired (mem_waiting.2 ⟨Store.mem_loadAll.2 hmem, hwaits⟩) hnot
  fits hsome := by
    have hfits : (planOf clock store listing reports alive now tick).fire.length ≤ _ := fired_fits
    have hpos := List.length_pos_iff.2 hsome
    rw [length_fired] at hpos
    rw [running_ticked]
    omega
  capped h := by
    have hfits : (planOf clock store listing reports alive now tick).fire.length ≤ _ := fired_fits
    have hstill : stillRunning clock (store.loadAll listing) reports alive now ≤ workerCap :=
      stillRunning_le.trans h
    rw [running_ticked]
    omega
  full task hmem hwaits hnot := by
    rw [running_ticked, fired_full (Store.mem_loadAll.2 hmem) hwaits hnot]
    omega
  ended task why h := by
    obtain ⟨hmem, hruns, hend⟩ := mem_ended.1 h
    exact ⟨Store.mem_loadAll.1 hmem, hruns, endsFor_of_runningEnd hend⟩

end Tick

section Run

variable {clock : Clock} {store : Store}

def Store.ids (store : Store) : List String := store.tasks.map Task.id

theorem map_id_ends (f : Task → Option WorkerEnd) (tasks : List Task) :
    (((tasks.map fun task => (task, f task)).filterMap fun ended =>
      ended.2.map fun why => (ended.1, why)).map fun ended => ended.1.id) =
        (tasks.filter fun task => (f task).isSome).map Task.id := by
  induction tasks with
  | nil => rfl
  | cons task tasks ih =>
    cases hf : f task with
    | none => simpa [hf] using ih
    | some why => simpa [hf] using ih

theorem endedIds_nodup {listing : Listing} {reports : List Report} {alive : List String}
    {now : Nanos} {tick : ℕ} :
    (planOf clock store listing reports alive now tick).endedIds.Nodup := by
  have hids : (planOf clock store listing reports alive now tick).endedIds = _ :=
    map_id_ends (fun task => runningEnd clock task reports alive now)
      (byTime ((store.loadAll listing).filter fun task => task.isWorker && task.isRunning))
  rw [hids]
  refine .sublist (List.filter_sublist.map _) (((byTime_perm _).map _).nodup_iff.2 ?_)
  exact (store.nodup_loadAll listing).sublist (List.filter_sublist.map _)

theorem ids_restore {now : Nanos} {alive : List String} :
    (store.restore now alive).ids = store.ids := map_id_planRestore _ _ _

theorem mem_ids_ticked {listing : Listing} {reports : List Report} {alive : List String}
    {now : Nanos} {tick : ℕ} {id : String}
    (h : id ∈ (store.ticked (planOf clock store listing reports alive now tick) now).ids) :
    id ∈ store.ids ∧ id ∉ (planOf clock store listing reports alive now tick).endedIds := by
  rw [Store.ids, tasks_ticked] at h
  obtain ⟨task, hmem, rfl⟩ := List.mem_map.1 h
  obtain hkept | hfired := List.mem_append.1 hmem
  · obtain ⟨hmem, hnot⟩ := List.mem_filter.1 hkept
    exact ⟨List.mem_map_of_mem hmem, (of_decide_eq_true hnot).1⟩
  · obtain ⟨fire, hfire, rfl⟩ := List.mem_map.1 hfired
    obtain ⟨hload, hwaits⟩ := mem_fired (List.mem_map_of_mem hfire)
    have hmem := Store.mem_loadAll.1 hload
    refine ⟨List.mem_map.2 ⟨_, hmem, rfl⟩, fun hended => ?_⟩
    exact not_waits_of_runs ((mem_endedIds hmem).1 hended).1 hwaits

/-- The ids that have ended in a run. -/
def endedIn (clock : Clock) (store : Store) (calls : List Call) : List String :=
  (Machine.outputs (step clock) store calls).flatMap WorkerTickPlan.endedIds

theorem endedIn_once (calls : List Call) :
    (endedIn clock store calls).Nodup ∧ ∀ id ∈ endedIn clock store calls, id ∈ store.ids := by
  induction calls generalizing store with
  | nil => exact ⟨.nil, by rintro _ ⟨⟩⟩
  | cons call calls ih =>
    cases call with
    | restore now alive =>
      obtain ⟨hnodup, hids⟩ := @ih (store.restore now alive)
      rw [ids_restore] at hids
      exact ⟨hnodup, hids⟩
    | tick listing reports alive now tick =>
      obtain ⟨hnodup, hids⟩ :=
        @ih (store.ticked (planOf clock store listing reports alive now tick) now)
      have hsplit : endedIn clock store (.tick listing reports alive now tick :: calls) =
          (planOf clock store listing reports alive now tick).endedIds ++ endedIn clock
            (store.ticked (planOf clock store listing reports alive now tick) now) calls := rfl
      rw [hsplit]
      refine ⟨List.nodup_append'.2 ⟨endedIds_nodup, hnodup, fun id hended hlater =>
        (mem_ids_ticked (hids id hlater)).2 hended⟩, fun id hmem => ?_⟩
      obtain hended | hlater := List.mem_append.1 hmem
      · obtain ⟨⟨task, why⟩, hpair, rfl⟩ := List.mem_map.1 hended
        exact List.mem_map_of_mem (Store.mem_loadAll.1 (mem_ended.1 hpair).1)
      · exact (mem_ids_ticked (hids id hlater)).1

theorem running_restore_le {now : Nanos} {alive : List String} :
    (store.restore now alive).running ≤ store.running := by
  simp only [Store.running, Store.restore, planRestore, List.countP_map]
  refine List.countP_mono_left fun task _ h => ?_
  simp only [Function.comp_apply] at h
  split at h
  · split_ifs at h
    · exact h
    · simp [Task.runsWorker, Task.isRunning] at h
  · simpa [Task.runsWorker, Task.isRunning, Task.isWorker] using h
  · exact h

/-- Over every run of restores and ticks each tick fires the earliest due tasks that fit and ends
tasks with a reason, the cap holds on, and no task ends twice. -/
theorem workers_capped_and_ended (calls : List Call) (listing : Listing) (reports : List Report)
    (alive : List String) (now : Nanos) (tick : ℕ) :
    Ticked clock (Machine.after (step clock) store calls) reports alive now
      (planOf clock (Machine.after (step clock) store calls) listing reports alive now tick)
      (Machine.after (step clock) store (calls ++ [.tick listing reports alive now tick])) ∧
    (store.running ≤ workerCap → (Machine.after (step clock) store calls).running ≤ workerCap) ∧
    (endedIn clock store calls).Nodup := by
  refine ⟨?_, fun h => ?_, (endedIn_once calls).1⟩
  · rw [Machine.after_concat]
    exact ticked_of_plan
  · refine Machine.invariant (I := fun store : Store => store.running ≤ workerCap) h
      (fun store call h => ?_) calls
    cases call with
    | restore now alive => exact running_restore_le.trans h
    | tick listing reports alive now tick =>
      have hticked : Ticked clock store reports alive now
        (planOf clock store listing reports alive now tick) _ := ticked_of_plan
      exact hticked.capped h

end Run

end Ralph.Schedule
