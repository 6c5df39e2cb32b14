import Ralph.Schedule.Threads

namespace Ralph.Schedule.Closing

/-- The thread that closes the chat, and the one that ticks. -/
inductive Party
  | closer
  | monitor
  deriving DecidableEq

def watchTicks (env : Env) : ℕ → Thread Unit
  | 0 => pure ()
  | n + 1 => do
    startQueued
    fireDue env
    watchTicks env n

def Party.thread (env : Env) (ticks : ℕ) : Party → Thread Unit
  | .closer => killAll
  | .monitor => watchTicks env ticks

/-- A command task that is to run, or runs. -/
def Armed (task : Task) : Prop :=
  task.isWorker = false ∧ (task.status = .pending ∨ task.status = .running)

/-- The store still has the task. -/
def Held (store : Store) (task : Task) : Prop :=
  task ∈ store.tasks ∨ { task with status := .running } ∈ store.tasks

/-- No command runs, and the next chat restores every task whose command had not ended. -/
structure Closed (store : Store) (s : Shared) : Prop where
  silent : ∀ c ∈ s.children, c.phase ≠ .running
  held : ∀ task ∈ store.tasks, Armed task → watchId task.id ∉ s.ended → Held s.store task
  restored : ∀ task ∈ store.tasks, Armed task → watchId task.id ∉ s.ended → ∀ now alive,
    ∃ task' ∈ (s.store.restore now alive).tasks, task'.id = task.id ∧ task'.kind = task.kind ∧
      task'.at_ = task.at_ ∧ task'.status = .pending

/-- A watch starts before `kill_all` takes the watches out, and that of a task is asked for only
where no watch of the task is active and its command can be spawned. -/
def StartsInTime : (o : Op) → Shared → o.Answer → Prop
  | .start spec, s, r => (r = .ok () → s.drained = false) ∧
      ((spec.id ∈ s.activeIds ∨ ∃ error, r = .error (.spawn error)) → ∀ id, spec.id ≠ watchId id)
  | _, _, _ => True

/-- An operation that meets the condition. -/
def Timely (o : Op) (s : Shared) (r : o.Answer) (s' : Shared) : Prop :=
  Does o s r s' ∧ StartsInTime o s r

structure Watching (store : Store) (s : Shared) : Prop where
  closing : s.drained → s.closing
  registered : s.drained = false → ∀ i c, s.children[i]? = some c → c.phase = .running →
    (c.id, i) ∈ s.active
  unstopped : s.drained = false → ∀ c ∈ s.children, c.stop = none ∧
    (c.phase ≠ .running → c.id ∈ s.ended)
  watched : s.drained = false → ∀ task ∈ s.store.tasks, task.isWorker = false →
    task.status = .running → watchId task.id ∈ s.activeIds ∨ watchId task.id ∈ s.ended
  held : ∀ task ∈ store.tasks, Armed task → watchId task.id ∈ s.ended ∨ Held s.store task

/-- Nobody else writes the store, and a watch leaves when its command has ended or `kill_all`
takes it out. -/
structure MonitorRelies (s s' : Shared) : Prop where
  store : s'.store = s.store
  closing : s.closing → s'.closing
  drained : s.drained → s'.drained
  ended : s.ended ⊆ s'.ended
  active : s'.drained = false → ∀ id ∈ s.activeIds, id ∈ s'.activeIds ∨ id ∈ s'.ended

/-- Nobody else takes the watches out, and none starts afterwards. -/
structure CloserRelies (s s' : Shared) : Prop where
  drained : s'.drained = s.drained
  closing : s.closing → s'.closing
  running : s.drained → ∀ i, RunningAt s' i → RunningAt s i

def Party.Relies : Party → Shared → Shared → Prop
  | .closer => CloserRelies
  | .monitor => MonitorRelies

theorem MonitorRelies.refl (s : Shared) : MonitorRelies s s :=
  ⟨rfl, id, id, List.Subset.refl _, fun _ _ => .inl⟩

theorem MonitorRelies.trans {s s' s'' : Shared} (h : MonitorRelies s s') (h' : MonitorRelies s' s'') :
    MonitorRelies s s'' where
  store := h'.store.trans h.store
  closing hc := h'.closing (h.closing hc)
  drained hd := h'.drained (h.drained hd)
  ended _ hid := h'.ended (h.ended hid)
  active hd id hid := by
    have hd' : s'.drained = false := Bool.eq_false_iff.2 fun hd' => by
      rw [h'.drained hd'] at hd
      cases hd
    obtain hactive | hended := h.active hd' id hid
    · exact h'.active hd id hactive
    · exact .inr (h'.ended hended)

theorem CloserRelies.refl (s : Shared) : CloserRelies s s := ⟨rfl, id, fun _ _ => id⟩

theorem CloserRelies.trans {s s' s'' : Shared} (h : CloserRelies s s') (h' : CloserRelies s' s'') :
    CloserRelies s s'' where
  drained := h'.drained.trans h.drained
  closing hc := h'.closing (h.closing hc)
  running hd i hi := h.running hd i (h'.running (h.drained ▸ hd) i hi)

theorem Party.Relies.refl (p : Party) (s : Shared) : p.Relies s s := by
  cases p with
  | closer => exact CloserRelies.refl s
  | monitor => exact MonitorRelies.refl s

theorem Party.Relies.trans (p : Party) (s s' s'' : Shared) (h : p.Relies s s')
    (h' : p.Relies s' s'') : p.Relies s s'' := by
  cases p with
  | closer => exact CloserRelies.trans h h'
  | monitor => exact MonitorRelies.trans h h'

section Watches

variable {store : Store} {s s' : Shared} {child : ℕ} {c : Child} {phase : Phase}

theorem not_runningAt (hphase : phase ≠ .running) :
    ¬RunningAt (s.withChild child ({ · with phase := phase })) child := by
  rintro ⟨c', hc', hrunning⟩
  rw [getElem?_withChild, if_pos rfl] at hc'
  obtain ⟨c, -, rfl⟩ := Option.map_eq_some_iff.1 hc'
  exact hphase hrunning

theorem runningAt_moved (hphase : phase ≠ .running) {i : ℕ}
    (h : RunningAt (s.withChild child ({ · with phase := phase })) i) : RunningAt s i :=
  runningAt_withChild (fun _ hrunning => absurd hrunning hphase) h

/-- A watch whose command has ended moves on, and leaves at the end. -/
theorem moved_keeps (h : Watching store s) (hc : s.children[child]? = some c) (phase : Phase)
    (hphase : phase ≠ .running) {ended saved : List String} {active : List (String × ℕ)}
    (hsub : s.ended ⊆ ended) (hended : s.drained = false → c.id ∈ ended)
    (hactive : ∀ entry ∈ s.active, entry ∈ active ∨ entry = (c.id, child))
    (hs' : s' = { s.withChild child ({ · with phase := phase }) with ended, active, saved }) :
    Watching store s' ∧ ∀ p : Party, p.Relies s s' := by
  subst hs'
  have hids (hd : s.drained = false) {id : String} (hid : id ∈ s.activeIds) :
      id ∈ active.map Prod.fst ∨ id ∈ ended := by
    obtain ⟨entry, hentry, rfl⟩ := List.mem_map.1 hid
    obtain hkept | rfl := hactive entry hentry
    · exact .inl (List.mem_map_of_mem hkept)
    · exact .inr (hended hd)
  refine ⟨⟨h.closing, fun hd i c' hc' hrunning => ?_, fun hd c' hc' => ?_,
    fun hd task htask hkind hstatus => ?_, fun task htask harmed =>
      (h.held task htask harmed).imp_left fun hid => hsub hid⟩, fun p => ?_⟩
  · have hat : RunningAt (s.withChild child ({ · with phase := phase })) i := ⟨c', hc', hrunning⟩
    have hne : i ≠ child := by
      rintro rfl
      exact not_runningAt hphase hat
    rw [getElem?_withChild, if_neg hne.symm] at hc'
    refine (hactive _ (h.registered hd i c' hc' hrunning)).resolve_right fun heq => hne ?_
    exact congrArg Prod.snd heq
  · obtain hold | ⟨c₀, hc₀, rfl⟩ := mem_withChild hc'
    · exact (h.unstopped hd c' hold).imp_right fun hid hne => hsub (hid hne)
    · obtain rfl := Option.some.inj (hc.symm.trans hc₀)
      exact ⟨(h.unstopped hd c (List.mem_of_getElem? hc)).1, fun _ => hended hd⟩
  · obtain hid | hid := h.watched hd task htask hkind hstatus
    · exact hids hd hid
    · exact .inr (hsub hid)
  · cases p with
    | closer => exact ⟨rfl, id, fun _ i => runningAt_moved hphase⟩
    | monitor => exact ⟨rfl, id, id, hsub, fun hd _ => hids hd⟩

theorem waits_keeps (h : Watching store s) (hwaits : Waits s s') :
    Watching store s' ∧ ∀ p : Party, p.Relies s s' := by
  cases hwaits with
  | exit hc hphase =>
    refine moved_keeps h hc .exited nofun (List.subset_append_left _ _)
      (fun _ => List.mem_append_right _ (List.mem_singleton_self _)) (fun _ => .inl) rfl
  | @kill child c hc hphase hstop =>
    refine moved_keeps h hc .stopped nofun (List.Subset.refl _) (fun hd => ?_)
      (fun _ => .inl) rfl
    rw [(h.unstopped hd c (List.mem_of_getElem? hc)).1] at hstop
    cases hstop
  | @report child c hc hphase =>
    refine moved_keeps h hc .reported nofun (List.Subset.refl _) (fun hd => ?_)
      (fun _ => .inl) rfl
    refine (h.unstopped hd c (List.mem_of_getElem? hc)).2 ?_
    obtain hphase | hphase := hphase <;> rw [hphase] <;> nofun
  | @leave child c hc hphase =>
    refine moved_keeps h hc .over nofun (List.Subset.refl _) (fun hd => ?_)
      (fun entry hentry => ?_) rfl
    · exact (h.unstopped hd c (List.mem_of_getElem? hc)).2 (by rw [hphase]; nofun)
    · by_cases heq : entry = (c.id, child)
      · exact .inr heq
      · exact .inl (List.mem_filter.2 ⟨hentry, decide_eq_true heq⟩)

end Watches

section Threads

variable {store : Store} {s : Shared}

/-- A thread beside the other one. -/
abbrev Keeps (store : Store) (p : Party) {α : Type} (thread : Thread α) (Q : α → Shared → Prop)
    (s : Shared) : Prop :=
  Program.Holds Timely (Watching store) p.Relies (fun s s' => ∀ p', p' ≠ p → p'.Relies s s') thread Q s

theorem idle_keeps {p : Party} {α : Type} {o : Op} {f : o.Answer → Thread α}
    {Q : α → Shared → Prop} (hidle : ∀ s r s', Does o s r s' → s' = s)
    (h : ∀ r u, p.Relies s u → Watching store u → Does o u r u → Keeps store p (f r) Q u) :
    Keeps store p (ask o >>= f) Q s := by
  rintro u hu hinv r v ⟨hdoes, -⟩
  obtain rfl := hidle u r v hdoes
  exact ⟨hinv, fun p' _ => Party.Relies.refl p' v, h r v hu hinv hdoes⟩

/-- Of the watches that `kill_all` took out only these may still run. -/
def Left (items : List ℕ) (s : Shared) : Prop := s.drained ∧ ∀ i, RunningAt s i → i ∈ items

theorem Left.stable {items : List ℕ} {s s' : Shared} (hr : CloserRelies s s') (h : Left items s) :
    Left items s' :=
  ⟨hr.drained ▸ h.1, fun i hi => h.2 i (hr.running h.1 i hi)⟩

theorem withChild_keeps (child : ℕ) {f : Child → Child} (hinv : Watching store s) (hd : s.drained)
    (hphase : ∀ c, (f c).phase = c.phase) :
    Watching store (s.withChild child f) ∧ ∀ p : Party, p.Relies s (s.withChild child f) := by
  have hfalse {P : Prop} (hd' : s.drained = false) : P := by
    rw [hd] at hd'
    cases hd'
  refine ⟨⟨hinv.closing, hfalse, hfalse, hfalse, hinv.held⟩, fun p => ?_⟩
  cases p with
  | closer =>
    exact ⟨rfl, id, fun _ i => runningAt_withChild fun c hrunning => (hphase c).symm.trans hrunning⟩
  | monitor => exact ⟨rfl, id, id, List.Subset.refl _, hfalse⟩

theorem endWatch_keeps {child : ℕ} {items : List ℕ} (h : Left (child :: items) s) :
    Keeps store .closer (endWatch .shutdown child) (fun _ s' => Left items s') s := by
  rintro u hu hinv - v ⟨rfl, -⟩
  have hleft := h.stable hu
  obtain ⟨hinv', hothers⟩ := withChild_keeps child
    (f := fun c => { c with stop := c.stop.or (some .shutdown) }) hinv hleft.1 fun _ => rfl
  refine ⟨hinv', fun p' _ => hothers p', ?_⟩
  rintro w hw hinv - x ⟨⟨rfl, c, hc, hover⟩, -⟩
  refine ⟨hinv, fun p' _ => Party.Relies.refl p' x, fun y hy _ => Left.stable hy ?_⟩
  have hleft' := (hleft.stable (hothers .closer)).stable hw
  refine ⟨hleft'.1, fun i hi => (List.mem_cons.1 (hleft'.2 i hi)).resolve_left ?_⟩
  rintro rfl
  obtain ⟨c', hc', hrunning⟩ := hi
  obtain rfl := Option.some.inj (hc.symm.trans hc')
  rw [hover] at hrunning
  cases hrunning

theorem killAll_keeps (hd : s.drained = false) :
    Keeps store .closer killAll (fun _ s' => Left [] s') s := by
  rintro u hu hinv - v ⟨rfl, -⟩
  have hd : u.drained = false := hu.drained.trans hd
  refine ⟨⟨fun _ => rfl, hinv.registered, hinv.unstopped, hinv.watched, hinv.held⟩, fun p' hp' => ?_, ?_⟩
  · cases p' with
    | closer => exact absurd rfl hp'
    | monitor => exact ⟨rfl, fun _ => rfl, id, List.Subset.refl _, fun _ _ => .inl⟩
  rintro w hw hinv entries x ⟨⟨hperm, rfl⟩, -⟩
  have hd : w.drained = false := hw.drained.trans hd
  refine ⟨⟨fun _ => hw.closing rfl, nofun, nofun, nofun, hinv.held⟩, fun p' hp' => ?_, ?_⟩
  · cases p' with
    | closer => exact absurd rfl hp'
    | monitor => exact ⟨rfl, id, fun _ => rfl, List.Subset.refl _, nofun⟩
  refine Program.Holds.each (J := Left) CloserRelies.refl Left.stable endWatch_keeps ⟨rfl, ?_⟩
  rintro i ⟨c, hc, hrunning⟩
  exact hperm.mem_iff.2 (List.mem_map_of_mem (f := Prod.snd) (hinv.registered hd i c hc hrunning))

/-- Tasks that the tick is going to start are still as it loaded them. -/
def Awaited (tasks : List Task) (s : Shared) : Prop :=
  (tasks.map Task.id).Nodup ∧
    ∀ task ∈ tasks, task ∈ s.store.tasks ∧ task.isWorker = false ∧ task.status = .pending

theorem Awaited.stable {tasks : List Task} {s s' : Shared} (hr : MonitorRelies s s')
    (h : Awaited tasks s) : Awaited tasks s' := by
  rw [Awaited, hr.store]
  exact h

theorem launch_keeps (spec : WatchSpec) (hinv : Watching store s) (hd : s.drained = false) :
    Watching store (s.launch spec) ∧ CloserRelies s (s.launch spec) := by
  have hactive {entry : String × ℕ} (h : entry ∈ s.active) : entry ∈ (s.launch spec).active :=
    List.mem_append_left _ h
  refine ⟨⟨hinv.closing, fun _ i c hc hrunning => ?_, fun _ c hc => ?_,
    fun _ task htask hkind hstatus => ?_, hinv.held⟩, rfl, id, fun hd' => ?_⟩
  · obtain hc | ⟨hi, rfl⟩ := getElem?_launch hc
    · exact hactive (hinv.registered hd i c hc hrunning)
    · exact List.mem_append_right _ (List.mem_singleton.2 (by rw [hi]))
  · obtain hc | hc := List.mem_append.1 hc
    · exact hinv.unstopped hd c hc
    · obtain rfl := List.mem_singleton.1 hc
      exact ⟨rfl, fun hne => absurd rfl hne⟩
  · refine (hinv.watched hd task htask hkind hstatus).imp_left fun hid => ?_
    exact List.map_subset _ (List.subset_append_left _ _) hid
  · rw [hd] at hd'
    cases hd'

theorem mem_activeIds_launch {spec : WatchSpec} : spec.id ∈ (s.launch spec).activeIds :=
  List.mem_map.2 ⟨_, List.mem_append_right _ (List.mem_singleton_self _), rfl⟩

/-- A start that fails touches nothing that the threads rely on. -/
theorem unsaved_keeps (hinv : Watching store s) (saved : List String) :
    Watching store { s with saved } ∧ CloserRelies s { s with saved } :=
  ⟨⟨hinv.closing, hinv.registered, hinv.unstopped, hinv.watched, hinv.held⟩, rfl, id, fun _ _ => id⟩

theorem startQueued_keeps : Keeps store .monitor startQueued (fun _ _ => True) s := by
  have hrefl := Party.Relies.refl .monitor
  refine idle_keeps (fun _ _ _ h => h) fun requests _ _ _ _ => ?_
  refine idle_keeps (fun _ _ _ h => h.1) fun active _ _ _ _ => ?_
  refine idle_keeps (fun _ _ _ h => h.1) fun saved _ _ _ _ => ?_
  refine Program.Holds.bind hrefl ((Program.Holds.each (J := fun _ _ => True) hrefl
    (fun _ => id) (fun _ => ?_) trivial).mono fun _ u _ => ?_)
  · exact idle_keeps (fun _ _ _ h => h) fun _ _ _ _ _ => fun _ _ _ => trivial
  refine Program.Holds.each (J := fun _ _ => True) hrefl (fun _ => id) (fun _ => ?_) trivial
  rintro u - hinv r v ⟨hdoes, hd, -⟩
  cases r with
  | error e =>
    obtain ⟨-, saved, rfl⟩ := failed_of_error hdoes
    obtain ⟨hinv', hcloser⟩ := unsaved_keeps hinv saved
    refine ⟨hinv', fun p' hp' => ?_, ?_⟩
    · cases p' with
      | closer => exact hcloser
      | monitor => exact absurd rfl hp'
    · exact idle_keeps (fun _ _ _ h => h) fun _ _ _ _ _ => fun _ _ _ => trivial
  | ok _ =>
    obtain ⟨-, rfl⟩ := launched_of_ok hdoes
    obtain ⟨hinv', hcloser⟩ := launch_keeps _ hinv (hd rfl)
    refine ⟨hinv', fun p' hp' => ?_, fun _ _ _ => trivial⟩
    cases p' with
    | closer => exact hcloser
    | monitor => exact absurd rfl hp'

theorem save_keeps {task : Task} {tasks : List Task} (hinv : Watching store s)
    (h : Awaited (task :: tasks) s)
    (hwatch : s.drained = false → watchId task.id ∈ s.activeIds ∨ watchId task.id ∈ s.ended)
    {s' : Shared} (hs' : s' = { s with store := s.store.save { task with status := .running } }) :
    Watching store s' ∧ CloserRelies s s' ∧ Awaited tasks s' := by
  subst hs'
  obtain ⟨hmem, -, hpending⟩ := h.2 task List.mem_cons_self
  refine ⟨⟨hinv.closing, hinv.registered, hinv.unstopped, fun hd other hother hkind hstatus => ?_,
    fun other hother harmed => (hinv.held other hother harmed).imp_right ?_⟩, ⟨rfl, id, fun _ _ => id⟩,
    (List.nodup_cons.1 h.1).2, fun other hother => ?_⟩
  · obtain ⟨hother, -⟩ | rfl := Store.mem_save.1 hother
    · exact hinv.watched hd other hother hkind hstatus
    · exact hwatch hd
  · rintro (hother' | hother')
    · by_cases hid : other.id = task.id
      · obtain rfl := Store.eq_of_id hother' hmem hid
        exact .inr (Store.mem_save.2 (.inr rfl))
      · exact .inl (Store.mem_save.2 (.inl ⟨hother', hid⟩))
    · refine .inr (Store.mem_save.2 (.inl ⟨hother', fun hid => ?_⟩))
      have heq := Store.eq_of_id hother' hmem hid
      rw [← heq] at hpending
      cases hpending
  · obtain ⟨hother', hrest⟩ := h.2 other (List.mem_cons_of_mem _ hother)
    refine ⟨Store.mem_save.2 (.inl ⟨hother', fun hid => ?_⟩), hrest⟩
    exact (List.nodup_cons.1 h.1).1 (hid ▸ List.mem_map_of_mem hother)

theorem fire_keeps {env : Env} {now : Nanos} {task : Task} {tasks : List Task}
    (h : Awaited (task :: tasks) s) :
    Keeps store .monitor (fire env now task) (fun _ s' => Awaited tasks s') s := by
  obtain ⟨id, kind, followUp, at_, timeoutSecs, status, late, deadline, spans⟩ := task
  cases kind with
  | worker brief => exact absurd (h.2 _ List.mem_cons_self).2.1 nofun
  | command command =>
    rintro u hu hinv r v ⟨hdoes, hd, hfree⟩
    cases r with
    | error e =>
      obtain ⟨hfails, -⟩ := failed_of_error hdoes
      exact absurd rfl (hfree (hfails.imp_right fun ⟨error, he⟩ => ⟨error, congrArg _ he⟩) id)
    | ok _ =>
      obtain ⟨-, rfl⟩ := launched_of_ok hdoes
      have hawaited := h.stable hu
      obtain ⟨hinv', hcloser⟩ := launch_keeps ⟨watchId id, command,
        Schedule.followUp env _ now, false, timeoutSecs, timeoutSecs⟩ hinv (hd rfl)
      refine ⟨hinv', fun p' hp' => ?_, ?_⟩
      · cases p' with
        | closer => exact hcloser
        | monitor => exact absurd rfl hp'
      rintro w hw hinv - x ⟨rfl, -⟩
      have hawaited' : Awaited _ w := Awaited.stable hw hawaited
      obtain ⟨hinv', hcloser, hrest⟩ := save_keeps hinv hawaited'
        (fun hd => hw.active hd _ mem_activeIds_launch) rfl
      refine ⟨hinv', fun p' hp' => ?_, fun y hy _ => hrest.stable hy⟩
      cases p' with
      | closer => exact hcloser
      | monitor => exact absurd rfl hp'

/-- The tasks that the tick is going to forget have ended. -/
def Finished (tasks fire : List Task) (s : Shared) : Prop :=
  Awaited fire s ∧ ∀ task ∈ tasks, watchId task.id ∈ s.ended ∧ task.id ∉ fire.map Task.id

theorem Finished.stable {tasks fire : List Task} {s s' : Shared} (hr : MonitorRelies s s')
    (h : Finished tasks fire s) : Finished tasks fire s' :=
  ⟨h.1.stable hr, fun task htask => ⟨hr.ended (h.2 task htask).1, (h.2 task htask).2⟩⟩

theorem remove_keeps {task : Task} {tasks fire : List Task} (h : Finished (task :: tasks) fire s) :
    Keeps store .monitor (ask (.remove task.id)) (fun _ s' => Finished tasks fire s') s := by
  rintro u hu hinv - v ⟨rfl, -⟩
  obtain ⟨hawaited, hended⟩ := h.stable hu
  obtain ⟨htask, hnot⟩ := hended task List.mem_cons_self
  refine ⟨⟨hinv.closing, hinv.registered, hinv.unstopped, fun hd other hother => ?_,
    fun other hother harmed => ?_⟩, fun p' hp' => ?_, fun w hw _ => Finished.stable hw ⟨⟨hawaited.1,
      fun other hother => ?_⟩, fun other hother => hended other (List.mem_cons_of_mem _ hother)⟩⟩
  · exact hinv.watched hd other (Store.mem_remove.1 hother).1
  · by_cases hid : other.id = task.id
    · exact .inl (hid ▸ htask)
    · exact (hinv.held other hother harmed).imp_right fun hheld => hheld.imp
        (fun hmem => Store.mem_remove.2 ⟨hmem, hid⟩) fun hmem => Store.mem_remove.2 ⟨hmem, hid⟩
  · cases p' with
    | closer => exact ⟨rfl, id, fun _ _ => id⟩
    | monitor => exact absurd rfl hp'
  · obtain ⟨hmem, hrest⟩ := hawaited.2 other hother
    refine ⟨Store.mem_remove.2 ⟨hmem, fun hid => ?_⟩, hrest⟩
    exact hnot (hid ▸ List.mem_map_of_mem hother)

/-- What the tick knows of the tasks that it loaded: unless the chat closes, a command that runs by
its record and is not listed has ended. -/
def Listed (tasks : List Task) (active : List String) (s : Shared) : Prop :=
  s.closing ∨ ∀ task ∈ tasks, task.isWorker = false → task.status = .running →
    watchId task.id ∉ active → watchId task.id ∈ s.ended

theorem Listed.stable {tasks : List Task} {active : List String} {s s' : Shared}
    (hr : MonitorRelies s s') (h : Listed tasks active s) : Listed tasks active s' :=
  h.imp hr.closing fun hended task htask hkind hstatus hnot =>
    hr.ended (hended task htask hkind hstatus hnot)

theorem finished_planTick {listing : Listing} {active : List String} (now : Nanos)
    (hopen : s.closing = false) (hlisted : Listed (s.store.loadAll listing) active s) :
    Finished (planTick (s.store.loadAll listing) active now).finished
      (planTick (s.store.loadAll listing) active now).fire s := by
  have hended := hlisted.resolve_left (by rw [hopen]; nofun)
  have hsub : (planTick (s.store.loadAll listing) active now).fire.Sublist (s.store.loadAll listing) :=
    List.filter_sublist.trans List.filter_sublist
  have hpending : ∀ task ∈ (planTick (s.store.loadAll listing) active now).fire,
      task ∈ s.store.tasks ∧ task.isWorker = false ∧ task.status = .pending := by
    intro task htask
    obtain ⟨hdue, hkind⟩ := List.mem_filter.1 htask
    obtain ⟨hmem, hstatus⟩ := List.mem_filter.1 hdue
    rw [Bool.and_eq_true, beq_iff_eq] at hstatus
    exact ⟨Store.mem_loadAll.1 hmem, by simpa using hkind, hstatus.1⟩
  refine ⟨⟨(s.store.nodup_loadAll listing).sublist (hsub.map _), hpending⟩, fun task htask => ?_⟩
  obtain ⟨hrunning, hnot⟩ := List.mem_filter.1 htask
  obtain ⟨hcommand, hstatus⟩ := List.mem_filter.1 hrunning
  obtain ⟨hmem, hkind⟩ := List.mem_filter.1 hcommand
  have hstatus : task.status = .running := beq_iff_eq.1 hstatus
  refine ⟨hended task hmem (by simpa using hkind) hstatus (by simpa using hnot), fun hid => ?_⟩
  obtain ⟨other, hother, heq⟩ := List.mem_map.1 hid
  obtain ⟨hmem', -, hpending'⟩ := hpending other hother
  rw [Store.eq_of_id hmem' (Store.mem_loadAll.1 hmem) heq, hstatus] at hpending'
  cases hpending'

theorem fireDue_keeps {env : Env} : Keeps store .monitor (fireDue env) (fun _ _ => True) s := by
  have hrefl := Party.Relies.refl .monitor
  refine idle_keeps (fun _ _ _ h => h.1) fun tasks s₁ _ _ hload => ?_
  obtain ⟨-, listing, rfl⟩ := hload
  split_ifs
  · exact fun _ _ _ => trivial
  refine idle_keeps (fun _ _ _ h => h.1) fun active s₂ h₂ hinv hlist => ?_
  have hlisted : Listed (s₁.store.loadAll listing) active s₂ := by
    by_cases hd : s₂.drained
    · exact .inl (hinv.closing hd)
    refine .inr fun task htask hkind hstatus hnot => ?_
    rw [Store.mem_loadAll, ← h₂.store] at htask
    refine (hinv.watched (Bool.eq_false_iff.2 hd) task htask hkind hstatus).resolve_left ?_
    exact fun hactive => hnot (hlist.2.mem_iff.2 hactive)
  refine idle_keeps (fun _ _ _ h => h.1) fun closing s₃ h₃ _ hclosing => ?_
  split_ifs with hopen
  · exact fun _ _ _ => trivial
  have hopen : s₃.closing = false := hclosing.2 ▸ Bool.eq_false_iff.2 hopen
  have hstore : s₁.store = s₃.store := h₂.store.symm.trans h₃.store.symm
  rw [hstore] at hlisted ⊢
  have hfinished := fun now => finished_planTick now hopen (hlisted.stable h₃)
  refine idle_keeps (fun _ _ _ h => h) fun now s₄ h₄ _ _ => ?_
  refine Program.Holds.bind hrefl ((Program.Holds.each (J := fun tasks => Finished tasks _) hrefl
    Finished.stable remove_keeps ((hfinished now).stable h₄)).mono fun _ s₅ h₅ => ?_)
  exact (Program.Holds.each (J := Awaited) hrefl Awaited.stable fire_keeps h₅.1).mono fun _ _ _ => trivial

theorem watchTicks_keeps {env : Env} (n : ℕ) :
    Keeps store .monitor (watchTicks env n) (fun _ _ => True) s := by
  have hrefl := Party.Relies.refl .monitor
  induction n generalizing s with
  | zero => exact fun _ _ _ => trivial
  | succ n ih =>
    refine Program.Holds.bind hrefl (startQueued_keeps.mono fun _ _ _ => ?_)
    exact Program.Holds.bind hrefl (fireDue_keeps.mono fun _ _ _ => ih)

end Threads

section Runs

variable {store : Store} {watches : List (String × Bool)} {saved : List String}

theorem watching_start : Watching store (Shared.start store watches saved) where
  closing := nofun
  registered := fun _ _ _ hc _ => mem_active_start hc
  unstopped := by
    rintro - c hc
    obtain ⟨watch, -, rfl⟩ := List.mem_map.1 hc
    exact ⟨rfl, fun hne => absurd rfl hne⟩
  watched := by
    rintro - task htask hkind hstatus
    rw [activeIds_start]
    by_cases hid : watchId task.id ∈ watches.map Prod.fst
    · exact .inl hid
    · refine .inr (List.mem_filter.2 ⟨List.mem_map.2 ⟨task, List.mem_filter.2 ⟨htask, ?_⟩, rfl⟩,
        decide_eq_true hid⟩)
      exact beq_iff_eq.2 hstatus
  held := fun _ htask _ => .inr (.inl htask)

/-- A command that has not ended is armed again by the next chat. -/
theorem Held.restored {task : Task} (h : Held store task) (harmed : Armed task) (now : Nanos)
    (alive : List String) : ∃ task' ∈ (store.restore now alive).tasks, task'.id = task.id ∧
      task'.kind = task.kind ∧ task'.at_ = task.at_ ∧ task'.status = .pending := by
  obtain ⟨hkind, hstatus⟩ := harmed
  obtain hmem | hmem := h
  · refine ⟨_, List.mem_map_of_mem hmem, ?_⟩
    obtain hstatus | hstatus := hstatus <;> simp [hstatus, hkind]
  · refine ⟨_, List.mem_map_of_mem hmem, ?_⟩
    have hkind' : ({ task with status := .running } : Task).isWorker = false := hkind
    simp [hkind']

theorem closed_of_left {s : Shared} (hinv : Watching store s) (h : Left [] s) : Closed store s where
  silent c hc hrunning := by
    obtain ⟨i, hi⟩ := List.mem_iff_getElem?.1 hc
    cases h.2 i ⟨c, hi, hrunning⟩
  held task htask harmed hid := (hinv.held task htask harmed).resolve_left hid
  restored task htask harmed hid :=
    ((hinv.held task htask harmed).resolve_left hid).restored harmed

/-- As long as no watch starts after `kill_all` has taken the watches out, and no task fires while a
watch of its name is active or its command cannot be spawned. -/
theorem killAll_closed {env : Env} {ticks : ℕ}
    {w : Interleaving.World Party Shared (Thread Unit)}
    (hrun : Interleaving.Run (Program.Moves Timely) Waits
      ⟨Shared.start store watches saved, Party.thread env ticks⟩ w)
    (hcloser : w.party .closer = .done ()) : Closed store w.shared := by
  let Q (p : Party) (_ : Unit) (s : Shared) : Prop :=
    match p with
    | .closer => Left [] s
    | .monitor => True
  have hprotocol := Program.protocol Timely (Watching store) Party.Relies Waits (Q := Q)
    Party.Relies.trans waits_keeps Party.Relies.refl
  have hstart (p : Party) : Keeps store p (p.thread env ticks) (Q p)
      (Shared.start store watches saved) := by
    cases p with
    | closer => exact killAll_keeps rfl
    | monitor => exact watchTicks_keeps ticks
  obtain ⟨hinv, hown⟩ := hprotocol.run watching_start hstart hrun
  have hleft := hown .closer
  rw [hcloser] at hleft
  have hnone : Q .closer () w.shared := Program.Holds.result (Party.Relies.refl .closer) hinv hleft
  exact closed_of_left hinv hnone

end Runs

section Demo

/-- A task fires, and then the chat closes. -/
theorem demo_closed : ∃ s : Shared, s.children = [⟨"schedule:t", false, some .shutdown, .over⟩] ∧
    { demoTask with status := .running } ∈ s.store.tasks ∧ Closed demoStore s := by
  have h0 : Interleaving.Run (Program.Moves Timely) Waits
      ⟨Shared.start demoStore [] [], Party.thread demoEnv 1⟩ _ := .refl
  have h1 := h0.tail (.move .monitor ⟨.takeRequests, _, [], rfl, ⟨rfl, trivial⟩, rfl⟩)
  have h2 := h1.tail (.move .monitor ⟨.listActive, _, [], rfl, ⟨⟨rfl, .rfl⟩, trivial⟩, rfl⟩)
  have h3 := h2.tail (.move .monitor ⟨.listSaved, _, [], rfl, ⟨⟨rfl, .rfl⟩, trivial⟩, rfl⟩)
  have h4 := h3.tail (.move .monitor ⟨.load, _, [demoTask], rfl,
    ⟨⟨rfl, ⟨id, fun _ => .rfl⟩, rfl⟩, trivial⟩, rfl⟩)
  have h5 := h4.tail (.move .monitor ⟨.listActive, _, [], rfl, ⟨⟨rfl, .rfl⟩, trivial⟩, rfl⟩)
  have h6 := h5.tail (.move .monitor ⟨.isClosing, _, false, rfl, ⟨⟨rfl, rfl⟩, trivial⟩, rfl⟩)
  have h7 := h6.tail (.move .monitor ⟨.now, _, (0 : ℤ), rfl, ⟨rfl, trivial⟩, rfl⟩)
  have h8 := h7.tail (.move .monitor ⟨.start demoSpec, _, .ok (), rfl,
    ⟨.inr ⟨List.not_mem_nil, .inl ⟨rfl, rfl⟩⟩, fun _ => rfl, by rintro (h | ⟨_, h⟩) <;> cases h⟩, rfl⟩)
  have h9 := h8.tail (.move .monitor ⟨.save _, _, (), rfl, ⟨rfl, trivial⟩, rfl⟩)
  have h10 := h9.tail (.move .closer ⟨.setClosing, _, (), rfl, ⟨rfl, trivial⟩, rfl⟩)
  have h11 := h10.tail (.move .closer ⟨.drain, _, [0], rfl, ⟨⟨.rfl, rfl⟩, trivial⟩, rfl⟩)
  have h12 := h11.tail (.move .closer ⟨.requestStop 0 .shutdown, _, (), rfl, ⟨rfl, trivial⟩, rfl⟩)
  have h13 := h12.tail (.outside (@Waits.kill _ 0 _ rfl rfl rfl))
  have h14 := h13.tail (.outside (@Waits.report _ 0 _ rfl (.inr rfl)))
  have h15 := h14.tail (.outside (@Waits.leave _ 0 _ rfl rfl))
  have h16 := h15.tail (.move .closer ⟨.join 0, _, (), rfl, ⟨⟨rfl, _, rfl, rfl⟩, trivial⟩, rfl⟩)
  exact ⟨_, rfl, List.mem_singleton_self _, killAll_closed h16 rfl⟩

/-- A tick that looked at the flag before the chat closed starts its task after `kill_all` is over. -/
theorem late_start_runs :
    ¬∀ w : Interleaving.World Party Shared (Thread Unit),
      Interleaving.Run (Program.Moves Does) Waits
        ⟨Shared.start demoStore [] [], Party.thread demoEnv 1⟩ w →
      w.party .closer = .done () → w.party .monitor = .done () → Closed demoStore w.shared := by
  intro h
  have h0 : Interleaving.Run (Program.Moves Does) Waits
      ⟨Shared.start demoStore [] [], Party.thread demoEnv 1⟩ _ := .refl
  have h1 := h0.tail (.move .monitor ⟨.takeRequests, _, [], rfl, rfl, rfl⟩)
  have h2 := h1.tail (.move .monitor ⟨.listActive, _, [], rfl, ⟨rfl, .rfl⟩, rfl⟩)
  have h3 := h2.tail (.move .monitor ⟨.listSaved, _, [], rfl, ⟨rfl, .rfl⟩, rfl⟩)
  have h4 := h3.tail (.move .monitor ⟨.load, _, [demoTask], rfl,
    ⟨rfl, ⟨id, fun _ => .rfl⟩, rfl⟩, rfl⟩)
  have h5 := h4.tail (.move .monitor ⟨.listActive, _, [], rfl, ⟨rfl, .rfl⟩, rfl⟩)
  have h6 := h5.tail (.move .monitor ⟨.isClosing, _, false, rfl, ⟨rfl, rfl⟩, rfl⟩)
  have h7 := h6.tail (.move .monitor ⟨.now, _, (0 : ℤ), rfl, rfl, rfl⟩)
  have h8 := h7.tail (.move .closer ⟨.setClosing, _, (), rfl, rfl, rfl⟩)
  have h9 := h8.tail (.move .closer ⟨.drain, _, [], rfl, ⟨.rfl, rfl⟩, rfl⟩)
  have h10 := h9.tail (.move .monitor ⟨.start demoSpec, _, .ok (), rfl,
    .inr ⟨List.not_mem_nil, .inl ⟨rfl, rfl⟩⟩, rfl⟩)
  have h11 := h10.tail (.move .monitor ⟨.save _, _, (), rfl, rfl, rfl⟩)
  exact (h _ h11 rfl rfl).silent _ (List.mem_singleton_self _) rfl

end Demo

end Ralph.Schedule.Closing
