import Ralph.Schedule.Threads
import Ralph.Schedule.WorkerRuns

namespace Ralph.Schedule.Cancelling
open Worker

/-- The thread that cancels a task, the one that ticks, and those that start workers. -/
inductive Party
  | chat
  | monitor
  | starter (me : ℕ)
  deriving DecidableEq

def ticks (env : Env) : ℕ → Thread Unit
  | 0 => pure ()
  | n + 1 => do
    fireDue env
    tickWorkers env
    ticks env n

def Party.thread (env : Env) (x : String) (n : ℕ) : Party → Thread (Option CancelPlan)
  | .chat => do
    let plan ← cancelTask x
    pure (some plan)
  | .monitor => do
    ticks env n
    pure none
  | .starter me => do
    Schedule.starter me
    pure none

def Gone (x : String) (s : Shared) : Prop := ∀ task ∈ s.store.tasks, task.id ≠ x

/-- No command of the task runs. -/
def Quiet (x : String) (s : Shared) : Prop := ∀ c ∈ s.children, c.id = watchId x → c.phase ≠ .running

/-- A worker of the task runs only where the thread that spawned it is going to look again. -/
def Checked (x : String) (s : Shared) : Prop :=
  workerId x ∈ s.workers → ∃ n ∈ s.unchecked, ∃ task, s.jobs[n]? = some task ∧ task.id = x

/-- Neither the command of the task runs nor a worker that nobody is going to look at. -/
def Idle (store : Store) (x : String) (s : Shared) : Prop :=
  ∀ task ∈ store.tasks, task.id = x → if task.isWorker then Checked x s else Quiet x s

/-- Neither the task nor a record of it is left. -/
structure Cancelled (store : Store) (x : String) (s : Shared) : Prop where
  gone : Gone x s
  stopped : ∀ task ∈ store.tasks, task.id = x →
    if task.isWorker then workerId x ∉ s.workers else Quiet x s

/-- A task is started and saved only where its record still is, and what is cancelled with nothing
to stop is idle. -/
def Current (store : Store) : Op → Shared → Prop
  | .start spec, s => ∀ id, spec.id = watchId id → ¬Gone id s
  | .save task, s => ¬Gone task.id s
  | .cancel id none, s => Idle store id s
  | _, _ => True

/-- An operation that meets the condition. -/
def Timely (store : Store) (o : Op) (s : Shared) (r : o.Answer) (s' : Shared) : Prop :=
  Does o s r s' ∧ Current store o s

/-- A record is of the kind that its task has from the beginning. -/
def KindOf (store : Store) (task : Task) : Prop :=
  ∃ first ∈ store.tasks, first.id = task.id ∧ first.kind = task.kind

def Kinds (store : Store) (s : Shared) : Prop := ∀ task ∈ s.store.tasks, KindOf store task

/-- The watches are known by id, and every command that runs is registered. -/
structure Registered (s : Shared) : Prop where
  distinct : s.activeIds.Nodup
  running : ∀ i c, s.children[i]? = some c → c.phase = .running → (c.id, i) ∈ s.active

def CommandAt (x : String) (s : Shared) (i : ℕ) : Prop :=
  ∃ c, s.children[i]? = some c ∧ c.id = watchId x ∧ c.phase = .running

/-- Of a task without a record nothing starts. -/
structure ChatRelies (x : String) (s s' : Shared) : Prop where
  gone : Gone x s → Gone x s'
  registered : Registered s → Registered s'
  quiet : Gone x s → ∀ i, CommandAt x s' i → CommandAt x s i
  checked : Gone x s → Checked x s → Checked x s'

/-- The job of a starter stays, and nobody else says that it has to look again. -/
structure StarterRelies (me : ℕ) (s s' : Shared) : Prop where
  job : ∀ task, s.jobs[me]? = some task → s'.jobs[me]? = some task
  unchecked : me ∈ s'.unchecked → me ∈ s.unchecked

def Party.Relies (x : String) : Party → Shared → Shared → Prop
  | .chat => ChatRelies x
  | .monitor => fun _ _ => True
  | .starter me => StarterRelies me

variable {x : String}

theorem ChatRelies.refl (s : Shared) : ChatRelies x s s := ⟨id, id, fun _ _ => id, fun _ => id⟩

theorem ChatRelies.trans {s s' s'' : Shared} (h : ChatRelies x s s') (h' : ChatRelies x s' s'') :
    ChatRelies x s s'' where
  gone hgone := h'.gone (h.gone hgone)
  registered hreg := h'.registered (h.registered hreg)
  quiet hgone i hi := h.quiet hgone i (h'.quiet (h.gone hgone) i hi)
  checked hgone hchecked := h'.checked (h.gone hgone) (h.checked hgone hchecked)

theorem Party.Relies.refl (p : Party) (s : Shared) : p.Relies x s s := by
  cases p with
  | chat => exact ChatRelies.refl s
  | monitor => trivial
  | starter me => exact ⟨fun _ => id, id⟩

theorem Party.Relies.trans (p : Party) (s s' s'' : Shared) (h : p.Relies x s s')
    (h' : p.Relies x s' s'') : p.Relies x s s'' := by
  cases p with
  | chat => exact ChatRelies.trans h h'
  | monitor => trivial
  | starter me => exact ⟨fun task htask => h'.job task (h.job task htask),
      fun hme => h.unchecked (h'.unchecked hme)⟩

theorem quiet_iff {s : Shared} : Quiet x s ↔ ∀ i, ¬CommandAt x s i := by
  refine ⟨fun h i ⟨c, hc, hid, hrunning⟩ => h c (List.mem_of_getElem? hc) hid hrunning,
    fun h c hc hid hrunning => ?_⟩
  obtain ⟨i, hi⟩ := List.mem_iff_getElem?.1 hc
  exact h i ⟨c, hi, hid, hrunning⟩

/-- No watch moves, no record comes back, no worker starts, and no thread looks again. -/
structure Calm (s s' : Shared) : Prop where
  store : ∀ id, Gone id s → Gone id s'
  children : s'.children = s.children
  active : s'.active = s.active
  workers : s'.workers ⊆ s.workers
  jobs : s.jobs <+: s'.jobs
  unchecked : s'.unchecked = s.unchecked

section Calm

variable {s s' : Shared}

theorem Calm.refl (s : Shared) : Calm s s :=
  ⟨fun _ => id, rfl, rfl, List.Subset.refl _, List.prefix_rfl, rfl⟩

theorem job_of_prefix (hjobs : s.jobs <+: s'.jobs) {n : ℕ} {task : Task}
    (h : s.jobs[n]? = some task) : s'.jobs[n]? = some task := by
  obtain ⟨jobs, hjobs⟩ := hjobs
  rw [← hjobs, List.getElem?_append_left (List.getElem?_eq_some_iff.1 h).1]
  exact h

theorem Calm.relies (h : Calm s s') (p : Party) : p.Relies x s s' := by
  cases p with
  | chat =>
    refine ⟨h.store x, fun hreg => ⟨?_, ?_⟩, fun _ i => ?_, fun _ hchecked hworker => ?_⟩
    · rw [Shared.activeIds, h.active]
      exact hreg.distinct
    · rw [h.children, h.active]
      exact hreg.running
    · rw [CommandAt, h.children]
      exact id
    · obtain ⟨n, hn, task, htask, hid⟩ := hchecked (h.workers hworker)
      exact ⟨n, h.unchecked ▸ hn, task, job_of_prefix h.jobs htask, hid⟩
  | monitor => trivial
  | starter me => exact ⟨fun _ => job_of_prefix h.jobs, fun hme => h.unchecked ▸ hme⟩

end Calm

section Watches

variable {store : Store} {s s' : Shared} {child : ℕ}

theorem commandAt_withChild {f : Child → Child} {i : ℕ} (h : CommandAt x (s.withChild child f) i)
    (hid : ∀ c, (f c).id = c.id) (hphase : ∀ c, (f c).phase = .running → c.phase = .running) :
    CommandAt x s i := by
  obtain ⟨c', hc', hid', hrunning⟩ := h
  rw [getElem?_withChild] at hc'
  split_ifs at hc'
  · obtain ⟨c, hc, rfl⟩ := Option.map_eq_some_iff.1 hc'
    exact ⟨c, hc, (hid c).symm.trans hid', hphase c hrunning⟩
  · exact ⟨c', hc', hid', hrunning⟩

/-- A watch whose command has ended moves on, and leaves at the end. -/
theorem moved_relies (phase : Phase) (hphase : phase ≠ .running)
    {ended saved : List String} {active : List (String × ℕ)} (hsub : active.Sublist s.active)
    (hactive : ∀ entry ∈ s.active, entry ∈ active ∨ entry.2 = child)
    (hs' : s' = { s.withChild child ({ · with phase := phase }) with ended, active, saved })
    (p : Party) : p.Relies x s s' := by
  subst hs'
  cases p with
  | chat =>
    refine ⟨id, fun hreg => ⟨hreg.distinct.sublist (hsub.map _), fun i c' hc' hrunning => ?_⟩,
      fun _ i hi => commandAt_withChild hi (fun _ => rfl) fun _ h => absurd h hphase, fun _ => id⟩
    rw [getElem?_withChild] at hc'
    split_ifs at hc' with heq
    · obtain ⟨c₀, -, rfl⟩ := Option.map_eq_some_iff.1 hc'
      exact absurd hrunning hphase
    · exact (hactive _ (hreg.running i c' hc' hrunning)).resolve_right fun h => heq h.symm
  | monitor => trivial
  | starter me => exact ⟨fun _ => id, id⟩

theorem waits_keeps (h : Kinds store s) (hwaits : Waits s s') :
    Kinds store s' ∧ ∀ p : Party, p.Relies x s s' := by
  cases hwaits with
  | exit hc hphase => exact ⟨h, moved_relies .exited nofun (.refl _) (fun _ => .inl) rfl⟩
  | kill hc hphase hstop => exact ⟨h, moved_relies .stopped nofun (.refl _) (fun _ => .inl) rfl⟩
  | report hc hphase => exact ⟨h, moved_relies .reported nofun (.refl _) (fun _ => .inl) rfl⟩
  | @leave child c hc hphase =>
    refine ⟨h, moved_relies .over nofun List.filter_sublist (fun entry hentry => ?_) rfl⟩
    by_cases heq : entry = (c.id, child)
    · exact .inr (congrArg Prod.snd heq)
    · exact .inl (List.mem_filter.2 ⟨hentry, decide_eq_true heq⟩)

theorem launch_relies {spec : WatchSpec} (hnew : spec.id ∉ s.activeIds)
    (hrecord : spec.id = watchId x → ¬Gone x s) (p : Party) : p.Relies x s (s.launch spec) := by
  cases p with
  | chat =>
    refine ⟨id, fun hreg => ⟨?_, fun i c hc hrunning => ?_⟩, fun hgone i hi => ?_, fun _ => id⟩
    · rw [Shared.activeIds, Shared.launch, List.map_append, List.nodup_append]
      refine ⟨hreg.distinct, List.nodup_singleton _, ?_⟩
      rintro id hid _ hid' rfl
      obtain rfl : id = spec.id := List.mem_singleton.1 hid'
      exact hnew hid
    · obtain hc | ⟨hi, rfl⟩ := getElem?_launch hc
      · exact List.mem_append_left _ (hreg.running i c hc hrunning)
      · exact List.mem_append_right _ (List.mem_singleton.2 (by rw [hi]))
    · obtain ⟨c, hc, hid, hrunning⟩ := hi
      obtain hc | ⟨-, rfl⟩ := getElem?_launch hc
      · exact ⟨c, hc, hid, hrunning⟩
      · exact absurd hgone (hrecord hid)
  | monitor => trivial
  | starter me => exact ⟨fun _ => id, id⟩

end Watches

section Threads

variable {store : Store} {s : Shared}

/-- A thread beside the other ones. -/
abbrev Keeps (store : Store) (x : String) (p : Party) {α : Type} (thread : Thread α)
    (Q : α → Shared → Prop) (s : Shared) : Prop :=
  Program.Holds (Timely store) (Kinds store) (p.Relies x) (fun s s' => ∀ p', p' ≠ p → p'.Relies x s s')
    thread Q s

theorem calm_keeps {p : Party} {α : Type} {o : Op} {f : o.Answer → Thread α}
    {Q : α → Shared → Prop}
    (hcalm : ∀ s r s', Does o s r s' → Calm s s' ∧ s'.store.tasks ⊆ s.store.tasks)
    (h : ∀ r u v, p.Relies x s u → Kinds store u → Does o u r v → Current store o u →
      Keeps store x p (f r) Q v) :
    Keeps store x p (ask o >>= f) Q s := by
  rintro u hu hinv r v ⟨hdoes, hcurrent⟩
  obtain ⟨hrel, hsub⟩ := hcalm u r v hdoes
  exact ⟨fun task htask => hinv task (hsub htask), fun p' _ => hrel.relies p',
    h r u v hu hinv hdoes hcurrent⟩

theorem Calm.of_eq {s s' : Shared} (h : s' = s) : Calm s s' ∧ s'.store.tasks ⊆ s.store.tasks := by
  subst h
  exact ⟨.refl _, List.Subset.refl _⟩

theorem Calm.remove {s s' : Shared} {id : String} (h : s' = { s with store := s.store.remove id }) :
    Calm s s' ∧ s'.store.tasks ⊆ s.store.tasks := by
  subst h
  refine ⟨⟨fun _ hgone task htask => hgone task (Store.mem_remove.1 htask).1, rfl, rfl,
    List.Subset.refl _, List.prefix_rfl, rfl⟩, fun task htask => (Store.mem_remove.1 htask).1⟩

theorem Calm.unworked {s s' : Shared} {worker : String}
    (h : s' = { s with workers := s.workers.filter (· ≠ worker) }) :
    Calm s s' ∧ s'.store.tasks ⊆ s.store.tasks := by
  subst h
  exact ⟨⟨fun _ => id, rfl, rfl, List.filter_sublist.subset, List.prefix_rfl, rfl⟩, List.Subset.refl _⟩

theorem save_keeps {p : Party} {task : Task} (hkind : KindOf store task) :
    Keeps store x p (ask (.save task)) (fun _ _ => True) s := by
  rintro u - hinv _ v ⟨hdoes, hrecord⟩
  have hmem {task' : Task} (h : task' ∈ v.store.tasks) : task' ∈ u.store.tasks ∨ task' = task := by
    rw [hdoes] at h
    exact (Store.mem_save.1 h).imp_left And.left
  have hcalm : Calm u v := by
    subst hdoes
    refine ⟨fun id hgone task' htask' => ?_, rfl, rfl, List.Subset.refl _, List.prefix_rfl, rfl⟩
    obtain hold | rfl := hmem htask'
    · exact hgone task' hold
    · rintro rfl
      exact hrecord hgone
  refine ⟨fun task' htask' => ?_, fun p' _ => hcalm.relies p', fun _ _ _ => trivial⟩
  obtain hold | rfl := hmem htask'
  · exact hinv task' hold
  · exact hkind

theorem startWatch_keeps {env : Env} {now : Nanos} {task : Task} (hkind : KindOf store task) :
    Keeps store x .monitor (fire env now task) (fun _ _ => True) s := by
  obtain ⟨id, kind, followUp, at_, timeoutSecs, status, late, deadline, spans⟩ := task
  cases kind with
  | worker brief => exact fun _ _ _ => trivial
  | command command =>
    rintro u - hinv r v ⟨hdoes, hrecord⟩
    cases r with
    | error e =>
      obtain ⟨-, saved, rfl⟩ := failed_of_error hdoes
      have hcalm : Calm u { u with saved } :=
        ⟨fun _ hgone => hgone, rfl, rfl, List.Subset.refl _, List.prefix_rfl, rfl⟩
      refine ⟨hinv, fun p' _ => hcalm.relies p', ?_⟩
      refine calm_keeps (fun _ _ _ => Calm.of_eq) fun _ _ _ _ _ _ _ => ?_
      exact calm_keeps (fun _ _ _ => Calm.remove) fun _ _ _ _ _ _ _ => fun _ _ _ => trivial
    | ok _ =>
      obtain ⟨hnew, rfl⟩ := launched_of_ok hdoes
      exact ⟨hinv, fun p' _ => launch_relies hnew (hrecord x) p', save_keeps hkind⟩

theorem fireDue_keeps {env : Env} : Keeps store x .monitor (fireDue env) (fun _ _ => True) s := by
  have hrefl := Party.Relies.refl (x := x) .monitor
  refine calm_keeps (fun _ _ _ h => Calm.of_eq h.1) fun tasks u _ _ hkinds hload _ => ?_
  obtain ⟨-, listing, rfl⟩ := hload
  split_ifs
  · exact fun _ _ _ => trivial
  refine calm_keeps (fun _ _ _ h => Calm.of_eq h.1) fun active _ _ _ _ _ _ => ?_
  refine calm_keeps (fun _ _ _ h => Calm.of_eq h.1) fun closing _ _ _ _ _ _ => ?_
  split_ifs
  · exact fun _ _ _ => trivial
  refine calm_keeps (fun _ _ _ => Calm.of_eq) fun now _ _ _ _ _ _ => ?_
  refine Program.Holds.bind hrefl ((Program.Holds.each (J := fun _ _ => True) hrefl
    (fun _ => id) (fun _ => ?_) trivial).mono fun _ _ _ => ?_)
  · exact calm_keeps (fun _ _ _ => Calm.remove) fun _ _ _ _ _ _ _ => fun _ _ _ => trivial
  refine (Program.Holds.each (J := fun tasks _ => ∀ task ∈ tasks, KindOf store task) hrefl
    (fun _ => id) (fun hall => ?_) fun task htask => ?_).mono fun _ _ _ => trivial
  · exact (startWatch_keeps (hall _ List.mem_cons_self)).mono fun _ _ _ task htask =>
      hall task (List.mem_cons_of_mem _ htask)
  · exact hkinds task (Store.mem_loadAll.1 (List.mem_of_mem_filter (List.mem_of_mem_filter htask)))

theorem settleDone_keeps {worker : String} :
    Keeps store x .monitor (settleDone worker) (fun _ _ => True) s := by
  refine calm_keeps (fun _ r _ h => ?_) fun r _ _ _ _ _ _ => ?_
  · obtain ⟨-, h⟩ | ⟨-, h⟩ := h
    · exact Calm.unworked h
    · exact Calm.of_eq h
  · cases r with
    | ok _ => exact fun _ _ _ => trivial
    | error _ => exact calm_keeps (fun _ _ _ => Calm.unworked) fun _ _ _ _ _ _ _ => fun _ _ _ => trivial

theorem endTask_keeps {ended : Task × WorkerEnd} :
    Keeps store x .monitor (endTask ended) (fun _ _ => True) s := by
  have hrefl := Party.Relies.refl (x := x) .monitor
  obtain ⟨task, why⟩ := ended
  have hremove : ∀ s, Keeps store x .monitor (ask (.remove task.id)) (fun _ _ => True) s := fun s =>
    calm_keeps (fun _ _ _ => Calm.remove) fun _ _ _ _ _ _ _ => fun _ _ _ => trivial
  cases why with
  | done => exact Program.Holds.bind hrefl (settleDone_keeps.mono fun _ s _ => hremove s)
  | attention => exact hremove s
  | timedOut =>
    refine calm_keeps (fun _ _ _ => Calm.unworked) fun _ _ _ _ _ _ _ => ?_
    exact calm_keeps (fun _ _ _ => Calm.of_eq) fun _ _ v _ _ _ _ => hremove v
  | vanished => exact calm_keeps (fun _ _ _ => Calm.of_eq) fun _ _ v _ _ _ _ => hremove v

theorem startTask_keeps {now : Nanos} {fire : WorkerFire} (hkind : KindOf store fire.task) :
    Keeps store x .monitor (startTask now fire) (fun _ _ => True) s := by
  rw [startTask]
  split
  · exact fun _ _ _ => trivial
  have hsaved : KindOf store (startedTask fire now) := hkind
  refine Program.Holds.bind (Party.Relies.refl .monitor) ((save_keeps hsaved).mono fun _ u _ => ?_)
  refine calm_keeps (fun _ _ _ h => ?_) fun _ _ _ _ _ _ _ => fun _ _ _ => trivial
  subst h
  exact ⟨⟨fun _ => id, rfl, rfl, List.Subset.refl _, List.prefix_append _ _, rfl⟩,
    List.Subset.refl _⟩

theorem tickWorkers_keeps {env : Env} :
    Keeps store x .monitor (tickWorkers env) (fun _ _ => True) s := by
  have hrefl := Party.Relies.refl (x := x) .monitor
  refine calm_keeps (fun _ _ _ h => Calm.of_eq h.1) fun tasks u _ _ hkinds hload _ => ?_
  obtain ⟨-, listing, rfl⟩ := hload
  split
  · exact fun _ _ _ => trivial
  refine calm_keeps (fun _ _ _ h => Calm.of_eq h.1) fun closing _ v _ _ _ _ => ?_
  split
  · exact fun _ _ _ => trivial
  have hplan (alive : List String) (s : Shared) : Keeps store x .monitor (do
      let reports ← ask .reports
      let now ← ask .now
      let plan := planWorkerTick env.toClock (u.store.loadAll listing) reports alive now poll
      Program.each endTask plan.ended
      Program.each (startTask now) plan.fire) (fun _ _ => True) s := by
    refine calm_keeps (fun _ _ _ => Calm.of_eq) fun reports _ _ _ _ _ _ => ?_
    refine calm_keeps (fun _ _ _ => Calm.of_eq) fun now _ _ _ _ _ _ => ?_
    refine Program.Holds.bind hrefl ((Program.Holds.each (J := fun _ _ => True) hrefl
      (fun _ => id) (fun _ => endTask_keeps) trivial).mono fun _ _ _ => ?_)
    refine (Program.Holds.each (J := fun fires _ => ∀ fire ∈ fires, KindOf store fire.task) hrefl
      (fun _ => id) (fun hall => ?_) fun fire hfire => ?_).mono fun _ _ _ => trivial
    · exact (startTask_keeps (hall _ List.mem_cons_self)).mono fun _ _ _ fire hfire =>
        hall fire (List.mem_cons_of_mem _ hfire)
    · exact hkinds fire.task (Store.mem_loadAll.1 (mem_fired (List.mem_map_of_mem hfire)).1)
  split
  · exact calm_keeps (fun _ _ _ => Calm.of_eq) fun alive _ v _ _ _ _ => hplan alive v
  · exact hplan [] v

theorem ticks_keeps {env : Env} (n : ℕ) :
    Keeps store x .monitor (ticks env n) (fun _ _ => True) s := by
  have hrefl := Party.Relies.refl (x := x) .monitor
  induction n generalizing s with
  | zero => exact fun _ _ _ => trivial
  | succ n ih =>
    refine Program.Holds.bind hrefl (fireDue_keeps.mono fun _ _ _ => ?_)
    exact Program.Holds.bind hrefl (tickWorkers_keeps.mono fun _ _ _ => ih)

theorem workerId_inj {id id' : String} (h : workerId id = workerId id') : id = id' :=
  (String.append_right_inj workerIdPrefix).1 h

theorem rework_relies {me : ℕ} {workers : List String} {unchecked : List ℕ} {s' : Shared}
    (hs' : s' = { s with workers, unchecked }) (hothers : ∀ n, n ≠ me → n ∈ unchecked → n ∈ s.unchecked)
    (hchecked : Gone x s → Checked x s → Checked x s') (p : Party) (hp : p ≠ .starter me) :
    p.Relies x s s' := by
  subst hs'
  cases p with
  | chat => exact ⟨id, fun hreg => ⟨hreg.distinct, hreg.running⟩, fun _ _ => id, hchecked⟩
  | monitor => trivial
  | starter n => exact ⟨fun _ => id, hothers n fun heq => hp (congrArg Party.starter heq)⟩

/-- A starter that has looked does not keep another task from being looked at. -/
theorem unchecked_filter {me : ℕ} {task : Task} (hjob : s.jobs[me]? = some task) (hne : task.id ≠ x)
    (h : ∃ n ∈ s.unchecked, ∃ task, s.jobs[n]? = some task ∧ task.id = x) :
    ∃ n ∈ s.unchecked.filter (· ≠ me), ∃ task, s.jobs[n]? = some task ∧ task.id = x := by
  obtain ⟨n, hn, other, hother, hid⟩ := h
  refine ⟨n, List.mem_filter.2 ⟨hn, decide_eq_true ?_⟩, other, hother, hid⟩
  rintro rfl
  obtain rfl := Option.some.inj (hjob.symm.trans hother)
  exact hne hid

theorem not_mem_filter {me : ℕ} : me ∉ s.unchecked.filter (· ≠ me) := fun h =>
  of_decide_eq_true (List.mem_filter.1 h).2 rfl

theorem stopOrphan_keeps {me : ℕ} {task : Task} (hjob : s.jobs[me]? = some task) :
    Keeps store x (.starter me) (ask (.stopOrphan me (workerId task.id)))
      (fun _ s' => me ∉ s'.unchecked) s := by
  rintro u hu hinv - v ⟨rfl, -⟩
  refine ⟨hinv, rework_relies rfl (fun n _ hn => List.mem_of_mem_filter hn) fun _ hchecked hworker => ?_,
    fun w hw _ hmem => not_mem_filter (hw.unchecked hmem)⟩
  obtain ⟨hold, hne⟩ := List.mem_filter.1 hworker
  refine unchecked_filter (hu.job task hjob) (fun hid => ?_) (hchecked hold)
  exact of_decide_eq_true hne (congrArg workerId hid.symm)

theorem loadAgain_keeps {me : ℕ} {task : Task} {α : Type} {f : List Task → Thread α}
    {Q : α → Shared → Prop} (hjob : s.jobs[me]? = some task)
    (h : ∀ tasks v, v.jobs[me]? = some task → (me ∈ v.unchecked → me ∈ s.unchecked) →
      (isStillRunning tasks task.id → me ∉ v.unchecked) → Keeps store x (.starter me) (f tasks) Q v) :
    Keeps store x (.starter me) (ask (.loadAgain me task.id) >>= f) Q s := by
  rintro u hu hinv tasks v ⟨⟨⟨listing, rfl⟩, hv⟩, -⟩
  have hjob := hu.job task hjob
  split_ifs at hv with hrunning
  · subst hv
    refine ⟨hinv, rework_relies rfl (fun n _ hn => List.mem_of_mem_filter hn)
      fun hgone hchecked hworker => ?_, h _ _ hjob (fun hmem => (not_mem_filter hmem).elim)
        fun _ => not_mem_filter⟩
    refine unchecked_filter hjob (fun hid => ?_) (hchecked hworker)
    obtain ⟨other, hother, hwanted⟩ := List.any_eq_true.1 hrunning
    rw [Bool.and_eq_true, decide_eq_true_eq] at hwanted
    exact hgone other (Store.mem_loadAll.1 hother) (hwanted.1.trans hid)
  · subst hv
    exact ⟨hinv, fun p' _ => Party.Relies.refl p' v, h _ _ hjob hu.unchecked fun hwanted =>
      absurd hwanted hrunning⟩

theorem starter_keeps {me : ℕ} (hme : me ∉ s.unchecked) :
    Keeps store x (.starter me) (starter me) (fun _ s' => me ∉ s'.unchecked) s := by
  refine calm_keeps (fun _ _ _ h => Calm.of_eq h.1) fun task u v hu _ hawait _ => ?_
  obtain ⟨rfl, hjob⟩ := hawait
  have hme := fun hmem => hme (hu.unchecked hmem)
  refine calm_keeps (fun _ _ _ h => Calm.of_eq h.1) fun tasks u' v' hu' _ hload _ => ?_
  obtain ⟨rfl, -⟩ := hload
  have hme := fun hmem => hme (hu'.unchecked hmem)
  have hjob := hu'.job task hjob
  split
  swap
  · exact fun w hw _ hmem => hme (hw.unchecked hmem)
  rintro w hw hinv r v ⟨⟨-, ⟨e, rfl⟩, rfl⟩ | ⟨hnew, rfl, rfl⟩, -⟩
  · have hme := fun hmem => hme (hw.unchecked hmem)
    refine ⟨hinv, fun p' _ => Party.Relies.refl p' v,
      loadAgain_keeps (hw.job task hjob) fun tasks t _ ht _ => ?_⟩
    have hme := fun hmem => hme (ht hmem)
    cases isStillRunning tasks task.id with
    | false => exact fun w' hw' _ hmem => hme (hw'.unchecked hmem)
    | true =>
      refine calm_keeps (fun _ _ _ => Calm.of_eq) fun _ a b ha _ hpost _ => ?_
      obtain rfl : b = a := hpost
      have hme := fun hmem => hme (ha.unchecked hmem)
      refine calm_keeps (fun _ _ _ => Calm.remove) fun _ a' b' ha' _ hremove _ => ?_
      obtain rfl : b' = _ := hremove
      exact fun w' hw' _ hmem => hme (ha'.unchecked (hw'.unchecked hmem))
  · have hjob := hw.job task hjob
    refine ⟨hinv, rework_relies rfl (fun n hne hn => ?_) fun _ hchecked hworker => ?_,
      loadAgain_keeps hjob fun tasks t ht _ hlooked => ?_⟩
    · exact (List.mem_append.1 hn).resolve_right fun hn => hne (List.mem_singleton.1 hn)
    · obtain hold | hnew := List.mem_append.1 hworker
      · obtain ⟨n, hn, hother⟩ := hchecked hold
        exact ⟨n, List.mem_append_left _ hn, hother⟩
      · exact ⟨me, List.mem_append_right _ (List.mem_singleton_self _), task, hjob,
          (workerId_inj (List.mem_singleton.1 hnew)).symm⟩
    · cases hwanted : isStillRunning tasks task.id with
      | false => exact stopOrphan_keeps ht
      | true => exact fun w' hw' _ hmem => hlooked hwanted (hw'.unchecked hmem)

/-- The record is gone, and no command of the task runs but that of one watch. -/
def Only (x : String) (child : ℕ) (s : Shared) : Prop := Gone x s ∧ ∀ i, CommandAt x s i → i = child

theorem Only.stable {child : ℕ} {s s' : Shared} (hr : ChatRelies x s s') (h : Only x child s) :
    Only x child s' :=
  ⟨hr.gone h.1, fun i hi => h.2 i (hr.quiet h.1 i hi)⟩

theorem quiet_stable {s s' : Shared} (hr : ChatRelies x s s') (h : Gone x s ∧ Quiet x s) :
    Gone x s' ∧ Quiet x s' :=
  ⟨hr.gone h.1, quiet_iff.2 fun i hi => quiet_iff.1 h.2 i (hr.quiet h.1 i hi)⟩

theorem quiet_of_unregistered (hreg : Registered s) (h : watchId x ∉ s.activeIds) : Quiet x s := by
  rintro c hc hid hrunning
  obtain ⟨i, hi⟩ := List.mem_iff_getElem?.1 hc
  refine h (hid ▸ ?_)
  exact List.mem_map_of_mem (f := Prod.fst) (hreg.running i c hi hrunning)

theorem only_of_lookup (hgone : Gone x s) (hreg : Registered s) {child : ℕ}
    (h : s.active.lookup (watchId x) = some child) : Only x child s := by
  obtain ⟨before, after, heq, -⟩ := List.lookup_eq_some_iff.1 h
  have hmem : (watchId x, child) ∈ s.active := by
    rw [heq]
    exact List.mem_append_right _ List.mem_cons_self
  refine ⟨hgone, fun i ⟨c, hc, hid, hrunning⟩ => ?_⟩
  have hmem' := hreg.running i c hc hrunning
  exact congrArg Prod.snd (List.inj_on_of_nodup_map hreg.distinct hmem' hmem hid)

theorem endWatch_keeps {child : ℕ} {reason : StopReason} (h : Only x child s) :
    Keeps store x .chat (endWatch reason child) (fun _ s' => Gone x s' ∧ Quiet x s') s := by
  rintro u hu hinv - v ⟨rfl, -⟩
  have honly : Only x child
      (u.withChild child fun c => { c with stop := c.stop.or (some reason) }) := by
    obtain ⟨hgone, hall⟩ := h.stable hu
    exact ⟨hgone, fun i hi => hall i (commandAt_withChild hi (fun _ => rfl) fun _ => id)⟩
  refine ⟨hinv, fun p' hp' => ?_, ?_⟩
  · cases p' with
    | chat => exact absurd rfl hp'
    | monitor => trivial
    | starter me => exact ⟨fun _ => id, id⟩
  refine calm_keeps (o := .join child) (fun _ _ _ h => Calm.of_eq h.1) fun _ w w' hw _ hjoin _ => ?_
  obtain ⟨rfl, c, hc, hover⟩ := hjoin
  have honly : Only x child w' := honly.stable hw
  refine fun y hy _ => quiet_stable hy ⟨honly.1, quiet_iff.2 fun i hi => ?_⟩
  obtain rfl := honly.2 i hi
  obtain ⟨c', hc', -, hrunning⟩ := hi
  obtain rfl := Option.some.inj (hc.symm.trans hc')
  rw [hover] at hrunning
  cases hrunning

theorem stopWatch_keeps (hgone : Gone x s) (hreg : Registered s) :
    Keeps store x .chat (stopWatch (watchId x)) (fun _ s' => Gone x s' ∧ Quiet x s') s := by
  refine calm_keeps (fun _ _ _ h => Calm.of_eq h.1) fun running u u' hu _ hlist _ => ?_
  obtain ⟨rfl, hperm⟩ := hlist
  have hreg := hu.registered hreg
  have hgone := hu.gone hgone
  refine calm_keeps (fun _ _ _ h => Calm.of_eq h.1) fun saved v v' hv _ hsaved _ => ?_
  obtain ⟨rfl, -⟩ := hsaved
  -- a watch that was listed may end by itself before it is taken out
  by_cases hactive : watchId x ∈ running
  · rw [decideStop, if_pos hactive]
    rintro w hw hinv r w' ⟨⟨rfl, rfl⟩, -⟩
    have hreg := hw.registered (hv.registered hreg)
    have hgone := hw.gone (hv.gone hgone)
    refine ⟨hinv, fun p' hp' => ?_, ?_⟩
    · cases p' with
      | chat => exact absurd rfl hp'
      | monitor => trivial
      | starter me => exact ⟨fun _ => id, id⟩
    cases hchild : w.active.lookup (watchId x) with
    | none =>
      have hquiet : Quiet x w := quiet_of_unregistered hreg fun hid => by
        obtain ⟨entry, hentry, heq⟩ := List.mem_map.1 hid
        have hne := List.lookup_eq_none_iff.1 hchild entry hentry
        exact bne_iff_ne.1 hne heq.symm
      exact fun y hy _ => quiet_stable hy ⟨hgone, hquiet⟩
    | some child =>
      have honly : Only x child w := only_of_lookup hgone hreg hchild
      exact endWatch_keeps honly
  · have hquiet : Gone x u' ∧ Quiet x u' :=
      ⟨hgone, quiet_of_unregistered hreg fun hid => hactive (hperm.mem_iff.2 hid)⟩
    have hquiet := quiet_stable hv hquiet
    rw [decideStop, if_neg hactive]
    split_ifs
    · refine calm_keeps (o := .removeSaved (watchId x)) (fun _ _ _ h => ?_) fun _ w w' hw _ hremove _ => ?_
      · subst h
        exact ⟨⟨fun _ => id, rfl, rfl, List.Subset.refl _, List.prefix_rfl, rfl⟩, List.Subset.refl _⟩
      · have hquiet := quiet_stable hw hquiet
        obtain rfl : w' = _ := hremove
        exact fun y hy _ => quiet_stable hy hquiet
    · exact fun y hy _ => quiet_stable hy hquiet

theorem idle_stable {s s' : Shared} (hr : ChatRelies x s s') (h : Gone x s ∧ Idle store x s) :
    Gone x s' ∧ Idle store x s' := by
  refine ⟨hr.gone h.1, fun task htask hid => ?_⟩
  have hidle := h.2 task htask hid
  split_ifs at hidle ⊢
  · exact hr.checked h.1 hidle
  · exact (quiet_stable hr ⟨h.1, hidle⟩).2

theorem planCancel_cases (x : String) (tasks : List Task) :
    (∃ task ∈ tasks, task.id = x ∧ planCancel x tasks = .remove x task.cancelStop) ∨
      planCancel x tasks = .unknown x := by
  rw [planCancel]
  cases hfind : tasks.find? (·.id = x) with
  | none => exact .inr rfl
  | some task =>
    have hid : task.id = x := by simpa using List.find?_some hfind
    exact .inl ⟨task, List.mem_of_find?_eq_some hfind, hid,
      congrArg (CancelPlan.remove · task.cancelStop) hid⟩

/-- The record that the cancel has read says of which kind the task is. -/
theorem isWorker_of_kindOf {task first : Task} (hkind : KindOf store task)
    (hfirst : first ∈ store.tasks) (hid : first.id = task.id) : first.isWorker = task.isWorker := by
  obtain ⟨other, hother, hid', hkind'⟩ := hkind
  obtain rfl := Store.eq_of_id hfirst hother (hid.trans hid'.symm)
  rw [Task.isWorker, Task.isWorker, hkind']

theorem cancelStop_cases (task : Task) : task.cancelStop = none ∨
    (task.isWorker = true ∧ task.cancelStop = some (.worker (workerId task.id))) ∨
    (task.isWorker = false ∧ task.cancelStop = some (.watch (watchId task.id))) := by
  rw [Task.cancelStop]
  split_ifs with hrunning hworker
  · exact .inr (.inl ⟨hworker, rfl⟩)
  · exact .inr (.inr ⟨Bool.eq_false_iff.2 hworker, rfl⟩)
  · exact .inl rfl

theorem cancelTask_keeps (hreg : Registered s) : Keeps store x .chat (cancelTask x)
    (fun plan s' => ∀ stop, plan = .remove x stop → Gone x s' ∧ Idle store x s') s := by
  refine calm_keeps (fun _ _ _ h => Calm.of_eq h.1) fun tasks u u' hu hkinds hload _ => ?_
  obtain ⟨rfl, listing, rfl⟩ := hload
  have hreg := hu.registered hreg
  obtain ⟨task, htask, rfl, hplan⟩ | hplan := planCancel_cases x (u'.store.loadAll listing)
  swap
  · rw [hplan]
    exact fun _ _ _ _ hstop => CancelPlan.noConfusion hstop
  have hfirst {first : Task} (hfirst : first ∈ store.tasks) (hid : first.id = task.id) :
      first.isWorker = task.isWorker :=
    isWorker_of_kindOf (hkinds task (Store.mem_loadAll.1 htask)) hfirst hid
  have hgone (v : Shared) : Gone task.id { v with store := v.store.remove task.id } :=
    fun other hother => (Store.mem_remove.1 hother).2
  rw [hplan]
  refine calm_keeps (o := .cancel task.id task.cancelStop) (fun _ _ _ => Calm.remove)
    fun _ v w hv _ hcancel hcurrent => ?_
  obtain rfl : w = _ := hcancel
  obtain hstop | ⟨hkind, hstop⟩ | ⟨hkind, hstop⟩ := cancelStop_cases task
  · rw [hstop] at hcurrent ⊢
    exact fun y hy _ _ _ => idle_stable hy ⟨hgone v, hcurrent⟩
  · rw [hstop]
    refine calm_keeps (o := .stopHarness (workerId task.id)) (fun _ _ _ => Calm.unworked)
      fun _ t t' ht _ hstopped _ => ?_
    obtain rfl : t' = _ := hstopped
    refine fun y hy _ _ _ => idle_stable hy ⟨ht.gone (hgone v), fun first hmem hid => ?_⟩
    rw [hfirst hmem hid, if_pos hkind]
    exact fun hworker => absurd rfl (of_decide_eq_true (List.mem_filter.1 hworker).2)
  · rw [hstop]
    have hreg : Registered { v with store := v.store.remove task.id } :=
      ⟨(hv.registered hreg).distinct, (hv.registered hreg).running⟩
    refine Program.Holds.bind (Party.Relies.refl .chat)
      ((stopWatch_keeps (hgone v) hreg).mono fun _ t ht => ?_)
    refine fun y hy _ _ _ => idle_stable hy ⟨ht.1, fun first hmem hid => ?_⟩
    rw [hfirst hmem hid, if_neg (Bool.eq_false_iff.1 hkind)]
    exact ht.2

end Threads

section Runs

variable {store : Store} {watches : List (String × Bool)} {saved workers : List String}

theorem kinds_start : Kinds store { Shared.start store watches saved with workers } :=
  fun task htask => ⟨task, htask, rfl, rfl⟩

variable (store saved) in
theorem registered_start (hwatches : (watches.map Prod.fst).Nodup) :
    Registered (Shared.start store watches saved) where
  distinct := by
    rw [activeIds_start]
    exact hwatches
  running _ _ hc _ := mem_active_start hc

/-- As long as no task starts or is saved that has no record, and the cancel finds the task running
by its record if it runs. -/
theorem cancelled_stays {env : Env} {n : ℕ} (hwatches : (watches.map Prod.fst).Nodup)
    {w : Interleaving.World Party Shared (Thread (Option CancelPlan))}
    (hrun : Interleaving.Run (Program.Moves (Timely store)) Waits
      ⟨{ Shared.start store watches saved with workers }, Party.thread env x n⟩ w)
    {stop : Option CancelStop} (hchat : w.party .chat = .done (some (.remove x stop)))
    (hstarters : ∀ me < w.shared.jobs.length, w.party (.starter me) = .done none) :
    Cancelled store x w.shared := by
  let Q (p : Party) (answer : Option CancelPlan) (s : Shared) : Prop :=
    match p with
    | .chat => ∀ stop, answer = some (.remove x stop) → Gone x s ∧ Idle store x s
    | .monitor => True
    | .starter me => me ∉ s.unchecked
  have hprotocol := Program.protocol (Timely store) (Kinds store) (Party.Relies x) Waits (Q := Q)
    Party.Relies.trans waits_keeps Party.Relies.refl
  have hstart (p : Party) : Keeps store x p (p.thread env x n) (Q p)
      { Shared.start store watches saved with workers } := by
    cases p with
    | chat =>
      have hreg : Registered { Shared.start store watches saved with workers } :=
        ⟨(registered_start store saved hwatches).distinct, (registered_start store saved hwatches).running⟩
      refine Program.Holds.bind (Party.Relies.refl .chat)
        ((Program.Holds.later (Party.Relies.trans .chat) (cancelTask_keeps hreg)).mono fun plan s h => ?_)
      exact fun s' hs' hinv stop heq => h s' hs' hinv stop (Option.some.inj heq)
    | monitor =>
      exact Program.Holds.bind (Party.Relies.refl .monitor)
        ((ticks_keeps n).mono fun _ _ _ => fun _ _ _ => trivial)
    | starter me =>
      refine Program.Holds.bind (Party.Relies.refl (.starter me))
        ((starter_keeps (List.not_mem_nil)).mono fun _ s h => ?_)
      exact fun s' hs' _ hmem => h (hs'.unchecked hmem)
  obtain ⟨hinv, hown⟩ := hprotocol.run kinds_start hstart hrun
  obtain ⟨hgone, hidle⟩ : Gone x w.shared ∧ Idle store x w.shared := by
    have hleft := hown .chat
    rw [hchat] at hleft
    exact Program.Holds.result (Party.Relies.refl .chat) hinv hleft stop rfl
  refine ⟨hgone, fun task htask hid => ?_⟩
  have hidle := hidle task htask hid
  split_ifs at hidle ⊢
  · intro hworker
    obtain ⟨me, hme, other, hjob, -⟩ := hidle hworker
    have hleft := hown (.starter me)
    rw [hstarters me (List.getElem?_eq_some_iff.1 hjob).1] at hleft
    exact Program.Holds.result (Party.Relies.refl (.starter me)) hinv hleft hme
  · exact hidle

end Runs

section Demo

def demoStart : Shared := { Shared.start demoStore [] [] with workers := [] }

/-- A task fires, and then it is cancelled. -/
theorem demo_cancelled : ∃ s : Shared,
    s.children = [⟨"schedule:t", false, some .requested, .over⟩] ∧ Cancelled demoStore "t" s := by
  have h0 : Interleaving.Run (Program.Moves (Timely demoStore)) Waits
      ⟨demoStart, Party.thread demoEnv "t" 1⟩ _ := .refl
  have h1 := h0.tail (.move .monitor ⟨.load, _, [demoTask], rfl,
    ⟨⟨rfl, ⟨id, fun _ => .rfl⟩, rfl⟩, trivial⟩, rfl⟩)
  have h2 := h1.tail (.move .monitor ⟨.listActive, _, [], rfl, ⟨⟨rfl, .rfl⟩, trivial⟩, rfl⟩)
  have h3 := h2.tail (.move .monitor ⟨.isClosing, _, false, rfl, ⟨⟨rfl, rfl⟩, trivial⟩, rfl⟩)
  have h4 := h3.tail (.move .monitor ⟨.now, _, (0 : ℤ), rfl, ⟨rfl, trivial⟩, rfl⟩)
  have h5 := h4.tail (.move .monitor ⟨.start demoSpec, _, .ok (), rfl,
    ⟨.inr ⟨List.not_mem_nil, .inl ⟨rfl, rfl⟩⟩, fun id hid hgone => hgone demoTask (List.mem_singleton_self _)
      ((String.append_right_inj "schedule:").1 hid)⟩, rfl⟩)
  have h6 := h5.tail (.move .monitor ⟨.save { demoTask with status := .running }, _, (), rfl,
    ⟨rfl, fun hgone => hgone demoTask (List.mem_singleton_self _) rfl⟩, rfl⟩)
  have h7 := h6.tail (.move .chat ⟨.load, _, [{ demoTask with status := .running }], rfl,
    ⟨⟨rfl, ⟨id, fun _ => .rfl⟩, rfl⟩, trivial⟩, rfl⟩)
  have h8 := h7.tail (.move .chat ⟨.cancel "t" (some (.watch "schedule:t")), _, (), rfl,
    ⟨rfl, trivial⟩, rfl⟩)
  have h9 := h8.tail (.move .chat ⟨.listActive, _, ["schedule:t"], rfl, ⟨⟨rfl, .rfl⟩, trivial⟩, rfl⟩)
  have h10 := h9.tail (.move .chat ⟨.listSaved, _, [], rfl, ⟨⟨rfl, .rfl⟩, trivial⟩, rfl⟩)
  have h11 := h10.tail (.move .chat ⟨.takeOut "schedule:t", _, some 0, rfl, ⟨⟨rfl, rfl⟩, trivial⟩, rfl⟩)
  have h12 := h11.tail (.move .chat ⟨.requestStop 0 .requested, _, (), rfl, ⟨rfl, trivial⟩, rfl⟩)
  have h13 := h12.tail (.outside (@Waits.kill _ 0 _ rfl rfl rfl))
  have h14 := h13.tail (.outside (@Waits.report _ 0 _ rfl (.inr rfl)))
  have h15 := h14.tail (.outside (@Waits.leave _ 0 _ rfl rfl))
  have h16 := h15.tail (.move .chat ⟨.join 0, _, (), rfl, ⟨⟨rfl, _, rfl, rfl⟩, trivial⟩, rfl⟩)
  exact ⟨_, rfl, cancelled_stays (by exact .nil) h16 rfl fun _ h => absurd h (Nat.not_lt_zero _)⟩

/-- A tick that loaded the task before it was cancelled starts it, and saves its record again. -/
theorem late_fire_runs :
    ¬∀ w : Interleaving.World Party Shared (Thread (Option CancelPlan)),
      Interleaving.Run (Program.Moves Does) Waits ⟨demoStart, Party.thread demoEnv "t" 1⟩ w →
      w.party .chat = .done (some (.remove "t" none)) → w.party .monitor = .done none →
      (∀ me < w.shared.jobs.length, w.party (.starter me) = .done none) →
      Cancelled demoStore "t" w.shared := by
  intro h
  have h0 : Interleaving.Run (Program.Moves Does) Waits
      ⟨demoStart, Party.thread demoEnv "t" 1⟩ _ := .refl
  have h1 := h0.tail (.move .monitor ⟨.load, _, [demoTask], rfl,
    ⟨rfl, ⟨id, fun _ => .rfl⟩, rfl⟩, rfl⟩)
  have h2 := h1.tail (.move .monitor ⟨.listActive, _, [], rfl, ⟨rfl, .rfl⟩, rfl⟩)
  have h3 := h2.tail (.move .monitor ⟨.isClosing, _, false, rfl, ⟨rfl, rfl⟩, rfl⟩)
  have h4 := h3.tail (.move .monitor ⟨.now, _, (0 : ℤ), rfl, rfl, rfl⟩)
  have h5 := h4.tail (.move .chat ⟨.load, _, [demoTask], rfl,
    ⟨rfl, ⟨id, fun _ => .rfl⟩, rfl⟩, rfl⟩)
  have h6 := h5.tail (.move .chat ⟨.cancel "t" none, _, (), rfl, rfl, rfl⟩)
  have h7 := h6.tail (.move .monitor ⟨.start demoSpec, _, .ok (), rfl,
    .inr ⟨List.not_mem_nil, .inl ⟨rfl, rfl⟩⟩, rfl⟩)
  have h8 := h7.tail (.move .monitor ⟨.save { demoTask with status := .running }, _, (), rfl, rfl, rfl⟩)
  have h9 := h8.tail (.move .monitor ⟨.load, _, [{ demoTask with status := .running }], rfl,
    ⟨rfl, ⟨id, fun _ => .rfl⟩, rfl⟩, rfl⟩)
  have hquiet : Quiet "t" _ := (h _ h9 rfl rfl fun _ h => absurd h (Nat.not_lt_zero _)).stopped
    demoTask (List.mem_singleton_self _) rfl
  exact hquiet _ (List.mem_singleton_self _) rfl rfl

end Demo

end Ralph.Schedule.Cancelling
