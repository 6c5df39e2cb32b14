import Mathlib.Tactic
import Ralph.Chat.Words
import Ralph.Machine
import Ralph.Schedule.Basic

namespace Ralph.Watch
open Schedule

inductive WatchKind
  | normal
  | persistent
  deriving DecidableEq, Repr

/-- A span of time is counted in nanoseconds. -/
structure WatchSpec where
  id : String
  command : String
  followUp : Option String
  kind : WatchKind
  timeout : Option ℕ
  limit : Option ℕ
  deriving DecidableEq, Repr

inductive WatchOutcome
  | exited (code : ℤ)
  | signaled (signal : ℤ)
  | stopped
  | timedOut (limit : ℕ)
  | waitFailed (message : String)
  deriving DecidableEq, Repr

structure SavedWatch where
  id : String
  command : String
  followUp : Option String
  kind : WatchKind
  timeoutSecs : Option ℕ
  startedAt : Nanos
  timeoutDeadline : Option Nanos
  wakeDeadline : Option Nanos
  deriving DecidableEq, Repr

inductive RestoreAction
  | restart (spec : WatchSpec)
  | report (spec : WatchSpec) (outcome : WatchOutcome)
  | discard (id : String)
  deriving DecidableEq, Repr

def nanosPerSec : ℕ := 1000000000

/-- `Duration::from_secs`. -/
def fromSecs (secs : ℕ) : ℕ := secs * nanosPerSec

def WatchSpec.withDefaultTimeout (spec : WatchSpec) (default : ℕ) : WatchSpec :=
  if spec.timeout.isSome then spec else { spec with timeout := some default, limit := some default }

def sleepSeconds (command : String) : Option ℕ := do
  let amount ← Chat.stripPrefix (Chat.trim command) "sleep"
  guard (amount.toList.head?.any ChatMemory.isWhitespace)
  let amount := Chat.trim amount
  guard (amount ≠ "" ∧ amount.toList.all Char.isDigit)
  Chat.parseUsize amount

def sleepCommand (seconds : ℕ) : String := s!"sleep {seconds}"

/-- `TimeDelta::MAX`: `i64::MAX` milliseconds. -/
def maxSpan : ℕ := 9223372036854775807 * 1000000

def deadlineAfter (start : Nanos) (after : ℕ) : Option Nanos :=
  if after ≤ maxSpan then checkedAdd start after else none

def remaining (deadline now : Nanos) : Option ℕ :=
  if now < deadline then some (deadline - now).toNat else none

def ceilSecs (duration : ℕ) : ℕ := duration / nanosPerSec + if 0 < duration % nanosPerSec then 1 else 0

namespace SavedWatch

def new (spec : WatchSpec) (startedAt : Nanos) : SavedWatch where
  id := spec.id
  command := spec.command
  followUp := spec.followUp
  kind := spec.kind
  timeoutSecs := spec.timeout.map (· / nanosPerSec)
  startedAt := startedAt
  timeoutDeadline := spec.timeout.bind (deadlineAfter startedAt)
  wakeDeadline := (sleepSeconds spec.command).bind fun secs => deadlineAfter startedAt (fromSecs secs)

def spec (saved : SavedWatch) : WatchSpec where
  id := saved.id
  command := saved.command
  followUp := saved.followUp
  kind := saved.kind
  timeout := saved.timeoutSecs.map fromSecs
  limit := saved.timeoutSecs.map fromSecs

def restartSpec (saved : SavedWatch) (now : Nanos) : WatchSpec :=
  { saved.spec with
    command := ((saved.wakeDeadline.bind (remaining · now)).map fun left => sleepCommand (ceilSecs left)).getD
      saved.command
    timeout := saved.timeoutDeadline.bind (remaining · now) }

def timedOutReport (saved : SavedWatch) : RestoreAction :=
  .report saved.spec (.timedOut ((saved.spec.limit.or saved.spec.timeout).getD 0))

def restoreAction (saved : SavedWatch) (now : Nanos) (default : ℕ) : RestoreAction :=
  if saved.kind ≠ .persistent then .discard saved.id
  else
    match saved.wakeDeadline.filter (· ≤ now), saved.timeoutDeadline.filter (· ≤ now) with
    | some wake, some limit => if limit < wake then saved.timedOutReport else .report saved.spec (.exited 0)
    | some _, none => .report saved.spec (.exited 0)
    | none, some _ => saved.timedOutReport
    | none, none => .restart ((saved.restartSpec now).withDefaultTimeout default)

end SavedWatch

def planRestore (saved : List SavedWatch) (now : Nanos) (default : ℕ) : List RestoreAction :=
  saved.map (·.restoreAction now default)

/-- The records of the store, one for each id. -/
abbrev WatchStore := List SavedWatch

namespace WatchStore

def remove (store : WatchStore) (id : String) : WatchStore := store.filter (·.id ≠ id)

/-- `Watches::start` saves the record of a persistent watch. -/
def start (store : WatchStore) (spec : WatchSpec) (default : ℕ) (now : Nanos) : WatchStore :=
  let spec := spec.withDefaultTimeout default
  if spec.kind = .persistent then store.remove spec.id ++ [.new spec now] else store

/-- What an action of a restart does to the store. A watch that runs again is not saved anew. -/
def acted (store : WatchStore) : RestoreAction → WatchStore
  | .restart _ => store
  | .report spec _ => store.remove spec.id
  | .discard id => store.remove id

/-- `Watches::restore`, at a time and with the default timeout of the new process. -/
def restore (store : WatchStore) (restart : Nanos × ℕ) : WatchStore × List RestoreAction :=
  let actions := planRestore store restart.1 restart.2
  (actions.foldl acted store, actions)

end WatchStore

def RestoreAction.id : RestoreAction → String
  | .restart spec => spec.id
  | .report spec _ => spec.id
  | .discard id => id

def RestoreAction.IsRestart : RestoreAction → Prop
  | .restart _ => True
  | _ => False

/-- What touches the store: a watch that starts, one that ends, a restart of the process at a time
and with its default timeout. -/
inductive WatchStep
  | started (spec : WatchSpec) (default : ℕ) (now : Nanos)
  | ended (id : String)
  | restarted (now : Nanos) (default : ℕ)

def watchStep (store : WatchStore) : WatchStep → WatchStore × List RestoreAction
  | .started spec default now => (store.start spec default now, [])
  | .ended id => (store.remove id, [])
  | .restarted now default => store.restore (now, default)

/-- The watch as one process would go on with it: the timeout first, then the end of a sleep. -/
def uninterrupted (spec : WatchSpec) (timeout : ℕ) (start now : Nanos) : RestoreAction :=
  let sleep := (sleepSeconds spec.command).map fromSecs
  if start + timeout ≤ now ∧ sleep.all (timeout < ·) then .report spec (.timedOut timeout)
  else if sleep.any fun span : ℕ => start + span ≤ now then .report spec (.exited 0)
  else
    .restart { spec with
      command := (sleep.map fun span : ℕ => sleepCommand (ceilSecs (start + span - now).toNat)).getD spec.command
      timeout := some (start + timeout - now).toNat }

/-- The timeout is a whole number of seconds and the limit, and its deadline and that of a sleep
are points in time. -/
structure Timed (spec : WatchSpec) (timeout : ℕ) (start : Nanos) : Prop where
  persistent : spec.kind = .persistent
  inForce : spec.timeout = some timeout
  isLimit : spec.limit = some timeout
  whole : timeout % nanosPerSec = 0
  deadline : (deadlineAfter start timeout).isSome
  wake : ∀ secs ∈ sleepSeconds spec.command, (deadlineAfter start (fromSecs secs)).isSome

theorem withDefaultTimeout_of_isSome {spec : WatchSpec} (h : spec.timeout.isSome) (default : ℕ) :
    spec.withDefaultTimeout default = spec := if_pos h

theorem remaining_of_lt {deadline now : Nanos} (h : now < deadline) :
    remaining deadline now = some (deadline - now).toNat := if_pos h

theorem filter_of_le {deadline now : Nanos} (h : deadline ≤ now) :
    (some deadline).filter (· ≤ now) = some deadline := by
  rw [Option.filter_some, if_pos (decide_eq_true h)]

theorem filter_of_lt {deadline now : Nanos} (h : now < deadline) :
    (some deadline).filter (· ≤ now) = none := by
  rw [Option.filter_some, if_neg (by rw [decide_eq_true_iff]; exact not_le.mpr h)]

theorem eq_of_deadlineAfter {start : Nanos} {after : ℕ} (h : (deadlineAfter start after).isSome) :
    deadlineAfter start after = some (start + after) := by
  unfold deadlineAfter checkedAdd at *
  split_ifs at *
  all_goals first | rfl | exact absurd h Bool.false_ne_true

/-- The action of a record, from its two deadlines. -/
theorem restoreAction_of_deadlines {saved : SavedWatch} {start now : ℤ} {timeout default : ℕ} {sleep : Option ℕ}
    (hkind : saved.kind = .persistent) (htimeout : saved.timeoutDeadline = some (start + timeout))
    (hwake : saved.wakeDeadline = sleep.map fun span : ℕ => start + span) :
    saved.restoreAction now default =
      if start + timeout ≤ now ∧ sleep.all (timeout < ·) then saved.timedOutReport
      else if sleep.any fun span : ℕ => start + span ≤ now then .report saved.spec (.exited 0)
      else
        .restart { saved.spec with
          command := (sleep.map fun span : ℕ => sleepCommand (ceilSecs (start + span - now).toNat)).getD saved.command
          timeout := some (start + timeout - now).toNat } := by
  have hagain : ∀ command : String, now < start + timeout →
      ({ saved.spec with command := command, timeout := remaining (start + timeout) now } :
        WatchSpec).withDefaultTimeout default =
          { saved.spec with command := command, timeout := some (start + timeout - now).toNat } := by
    intro command hnow
    rw [remaining_of_lt hnow]
    exact withDefaultTimeout_of_isSome rfl default
  rw [SavedWatch.restoreAction, if_neg (not_not.mpr hkind), SavedWatch.restartSpec, htimeout, hwake]
  cases sleep with
  | none =>
    by_cases hlate : start + timeout ≤ now
    · rw [filter_of_le hlate]
      simp [hlate]
    · rw [filter_of_lt (not_le.mp hlate)]
      simp only [Option.map_none, Option.filter_none, Option.bind_none, Option.getD_none, Option.bind_some, hlate,
        false_and, if_false, Option.any_none, Bool.false_eq_true, hagain _ (not_le.mp hlate)]
  | some span =>
    rw [Option.map_some]
    -- the timeout and the wake-up may each have passed
    by_cases hlate : start + timeout ≤ now
    · by_cases hawake : start + span ≤ now
      · rw [filter_of_le hlate, filter_of_le hawake]
        simp [hlate, hawake]
      · have hlt : timeout < span := by omega
        rw [filter_of_le hlate, filter_of_lt (not_le.mp hawake)]
        simp [hlate, hlt]
    · by_cases hawake : start + span ≤ now
      · rw [filter_of_lt (not_le.mp hlate), filter_of_le hawake]
        simp [hlate, hawake]
      · rw [filter_of_lt (not_le.mp hlate), filter_of_lt (not_le.mp hawake)]
        simp only [hlate, hawake, false_and, if_false, Option.map_some, Option.any_some, decide_false,
          Bool.false_eq_true, Option.bind_some, remaining_of_lt (not_le.mp hawake), Option.getD_some,
          hagain _ (not_le.mp hlate)]

namespace Timed

variable {spec : WatchSpec} {timeout : ℕ} {start : ℤ} (h : Timed spec timeout start)

include h

theorem spec_new : (SavedWatch.new spec start).spec = spec := by
  have hsecs : fromSecs (timeout / nanosPerSec) = timeout := Nat.div_mul_cancel (Nat.dvd_of_mod_eq_zero h.whole)
  have hinForce := h.inForce
  have hisLimit := h.isLimit
  rw [SavedWatch.spec, SavedWatch.new]
  dsimp only
  rw [hinForce, Option.map_some, Option.map_some, hsecs]
  cases spec with
  | mk id command followUp kind inForce isLimit =>
    dsimp only at hinForce hisLimit
    rw [hinForce, hisLimit]

theorem timeoutDeadline_new : (SavedWatch.new spec start).timeoutDeadline = some (start + timeout) := by
  rw [SavedWatch.new]
  dsimp only
  rw [h.inForce, Option.bind_some, eq_of_deadlineAfter h.deadline]

theorem wakeDeadline_new : (SavedWatch.new spec start).wakeDeadline =
    (sleepSeconds spec.command).map fun secs => start + fromSecs secs := by
  rw [SavedWatch.new]
  dsimp only
  cases hsleep : sleepSeconds spec.command with
  | none => rfl
  | some secs => rw [Option.bind_some, Option.map_some, eq_of_deadlineAfter (h.wake secs hsleep)]

/-- A restore does what the watch would do without a restart. -/
theorem restoreAction_new (now : ℤ) (default : ℕ) :
    (SavedWatch.new spec start).restoreAction now default = uninterrupted spec timeout start now := by
  have hkind : (SavedWatch.new spec start).kind = .persistent := h.persistent
  have hwake : (SavedWatch.new spec start).wakeDeadline =
      ((sleepSeconds spec.command).map fromSecs).map fun span : ℕ => start + span := by
    rw [h.wakeDeadline_new, Option.map_map]
    rfl
  have htold : (SavedWatch.new spec start).timedOutReport = .report spec (.timedOut timeout) := by
    rw [SavedWatch.timedOutReport, h.spec_new, h.isLimit]
    rfl
  rw [restoreAction_of_deadlines hkind h.timeoutDeadline_new hwake, htold, h.spec_new, uninterrupted]
  rfl

end Timed

theorem id_restoreAction (saved : SavedWatch) (now : Nanos) (default : ℕ) :
    (saved.restoreAction now default).id = saved.id := by
  have hid : ((saved.restartSpec now).withDefaultTimeout default).id = saved.id := by
    unfold WatchSpec.withDefaultTimeout
    split_ifs
    all_goals rfl
  unfold SavedWatch.restoreAction
  split_ifs
  · rfl
  · split
    · split_ifs
      all_goals rfl
    · rfl
    · rfl
    · exact hid

namespace WatchStore

variable {store : WatchStore} {id : String}

/-- The records of a watch. -/
def of (store : WatchStore) (id : String) : List SavedWatch := store.filter (·.id = id)

theorem of_remove_self (store : WatchStore) (id : String) : (store.remove id).of id = [] := by
  rw [of, remove, List.filter_filter, List.filter_eq_nil_iff]
  intro saved _
  simp

theorem of_remove_of_ne {other : String} (h : other ≠ id) : (store.remove other).of id = store.of id := by
  rw [of, remove, List.filter_filter]
  apply List.filter_congr
  intro saved _
  by_cases hid : saved.id = id
  · simp [hid, h.symm]
  · simp [hid]

theorem of_start_self {spec : WatchSpec} (h : spec.kind = .persistent) (default : ℕ) (now : Nanos) :
    (store.start spec default now).of spec.id = [.new (spec.withDefaultTimeout default) now] := by
  have hspec : (spec.withDefaultTimeout default).kind = .persistent ∧
      (spec.withDefaultTimeout default).id = spec.id := by
    unfold WatchSpec.withDefaultTimeout
    split_ifs
    all_goals exact ⟨h, rfl⟩
  have hremoved := of_remove_self store spec.id
  unfold of at hremoved
  have hnew : (SavedWatch.new (spec.withDefaultTimeout default) now).id = spec.id := hspec.2
  rw [start, if_pos hspec.1, hspec.2, of, List.filter_append, hremoved, List.nil_append,
    List.filter_singleton]
  simp [hnew]

theorem of_start_of_ne {spec : WatchSpec} (h : spec.id ≠ id) (default : ℕ) (now : Nanos) :
    (store.start spec default now).of id = store.of id := by
  have hspec : (spec.withDefaultTimeout default).id = spec.id := by
    unfold WatchSpec.withDefaultTimeout
    split_ifs
    all_goals rfl
  rw [start]
  split_ifs
  · have hremoved := @of_remove_of_ne store _ _ (hspec.symm ▸ h)
    have hnew : (SavedWatch.new (spec.withDefaultTimeout default) now).id = spec.id := hspec
    unfold of at hremoved ⊢
    rw [List.filter_append, hremoved, List.filter_singleton]
    simp [hnew, h]
  · rfl

/-- An action leaves the records of the other watches, and a restart those of its own. -/
theorem of_acted {action : RestoreAction} (h : action.id = id → action.IsRestart) :
    (store.acted action).of id = store.of id := by
  cases action with
  | restart spec => rfl
  | report spec outcome => exact of_remove_of_ne fun hid => h hid
  | discard other => exact of_remove_of_ne fun hid => h hid

theorem of_foldl_acted {actions : List RestoreAction} (h : ∀ action ∈ actions, action.id = id → action.IsRestart) :
    (actions.foldl acted store).of id = store.of id := by
  induction actions generalizing store with
  | nil => rfl
  | cons action rest ih =>
    rw [List.foldl_cons, ih fun later hlater => h later (List.mem_cons_of_mem _ hlater)]
    exact of_acted (h action List.mem_cons_self)

/-- A restore plans one action for each record of a watch. -/
theorem filter_planRestore (store : WatchStore) (id : String) (now : Nanos) (default : ℕ) :
    (planRestore store now default).filter (·.id = id) = (store.of id).map (·.restoreAction now default) := by
  rw [planRestore, List.filter_map, of]
  congr 1
  apply List.filter_congr
  intro saved _
  simp [id_restoreAction]

end WatchStore

/-- A step that leaves the watch running: a step of another watch, or a restart at a time at which the
watch would still run. -/
def WatchStep.Spares (spec : WatchSpec) (timeout : ℕ) (start : Nanos) : WatchStep → Prop
  | .started other _ _ => other.id ≠ spec.id
  | .ended id => id ≠ spec.id
  | .restarted now _ => (uninterrupted spec timeout start now).IsRestart

namespace Timed

variable {spec : WatchSpec} {timeout : ℕ} {start : ℤ} (h : Timed spec timeout start)

include h

/-- A restore of a store with the record of the watch. -/
theorem restore_of {store : WatchStore} (hstore : store.of spec.id = [.new spec start]) (now : ℤ) (default : ℕ) :
    (store.restore (now, default)).2.filter (·.id = spec.id) = [uninterrupted spec timeout start now] := by
  have hplan := store.filter_planRestore spec.id now default
  rw [hstore, List.map_singleton, h.restoreAction_new] at hplan
  exact hplan

/-- A step that spares the watch leaves its record as it was. -/
theorem watchStep_of {store : WatchStore} (hstore : store.of spec.id = [.new spec start]) {step : WatchStep}
    (hstep : step.Spares spec timeout start) : (watchStep store step).1.of spec.id = [.new spec start] := by
  cases step with
  | started other default now => rw [watchStep, WatchStore.of_start_of_ne hstep, hstore]
  | ended id => rw [watchStep, WatchStore.of_remove_of_ne hstep, hstore]
  | restarted now default =>
    have hrestored := h.restore_of hstore now default
    rw [watchStep, WatchStore.restore]
    dsimp only
    rw [WatchStore.of_foldl_acted, hstore]
    intro action haction hid
    have hmem : action ∈ (planRestore store now default).filter (·.id = spec.id) :=
      List.mem_filter.mpr ⟨haction, decide_eq_true hid⟩
    rw [WatchStore.restore] at hrestored
    rw [hrestored, List.mem_singleton] at hmem
    rw [hmem]
    exact hstep

end Timed

/-- A persistent watch whose deadlines are points in time goes on over any restarts as it would without
one, and its record stays as it was as long as it runs. -/
theorem restores_keep_deadlines {spec : WatchSpec} {default timeout : ℕ} {start : ℤ}
    (h : Timed (spec.withDefaultTimeout default) timeout start) (store : WatchStore) (before : List WatchStep)
    (hbefore : ∀ step ∈ before, step.Spares (spec.withDefaultTimeout default) timeout start) :
    let begun := (watchStep store (.started spec default start)).1
    let running := Machine.after watchStep begun before
    running.of spec.id = [.new (spec.withDefaultTimeout default) start] ∧
      ∀ now other, (running.restore (now, other)).2.filter (·.id = spec.id) =
        [uninterrupted (spec.withDefaultTimeout default) timeout start now] := by
  intro begun running
  have hid : (spec.withDefaultTimeout default).id = spec.id ∧
      (spec.withDefaultTimeout default).kind = spec.kind := by
    unfold WatchSpec.withDefaultTimeout
    split_ifs
    all_goals exact ⟨rfl, rfl⟩
  have hbegun : begun.of spec.id = [.new (spec.withDefaultTimeout default) start] :=
    WatchStore.of_start_self (hid.2 ▸ h.persistent) default start
  have hrunning : running.of spec.id = [.new (spec.withDefaultTimeout default) start] := by
    clear_value begun
    induction before using List.reverseRecOn with
    | nil => exact hbegun
    | append_singleton before step ih =>
      have hkept := ih fun earlier hearlier => hbefore earlier (List.mem_append_left _ hearlier)
      have hstep := hbefore step (List.mem_append_right _ List.mem_cons_self)
      rw [← hid.1] at hkept ⊢
      have hlast : running = (watchStep (Machine.after watchStep begun before) step).1 := Machine.after_concat ..
      rw [hlast]
      exact h.watchStep_of hkept hstep
  refine ⟨hrunning, fun now other => ?_⟩
  rw [← hid.1] at hrunning ⊢
  exact h.restore_of hrunning now other

/-- A nap of a minute and a half that is restored after half a minute and a bit. -/
def nap : WatchSpec where
  id := "nap"
  command := "sleep 90"
  followUp := some "go on"
  kind := .persistent
  timeout := none
  limit := none

theorem nap_timed : Timed (nap.withDefaultTimeout (fromSecs 3600)) (fromSecs 3600) 0 := by
  constructor
  · rfl
  · rfl
  · rfl
  · decide +kernel
  · decide +kernel
  · decide +kernel

theorem restores_keep_deadlines_nap :
    let begun := (watchStep [] (.started nap (fromSecs 3600) 0)).1
    let running := Machine.after watchStep begun [.restarted (seconds 30 + 5) 7]
    running.of nap.id = [.new (nap.withDefaultTimeout (fromSecs 3600)) 0] ∧
      ∀ now other, (running.restore (now, other)).2.filter (·.id = nap.id) =
        [uninterrupted (nap.withDefaultTimeout (fromSecs 3600)) (fromSecs 3600) 0 now] := by
  apply restores_keep_deadlines nap_timed
  intro step hstep
  rw [List.mem_singleton] at hstep
  rw [hstep]
  have hnap : uninterrupted (nap.withDefaultTimeout (fromSecs 3600)) (fromSecs 3600) 0 (seconds 30 + 5) =
      .restart { nap with command := "sleep 60", timeout := some 3569999999995, limit := some 3600000000000 } := by
    decide +kernel
  rw [WatchStep.Spares, hnap]
  trivial

/-- A watch with a timeout beyond the last point in time is restarted with the default timeout. -/
theorem endless_timeout_replaced :
    let spec : WatchSpec := ⟨"build", "cargo build", none, .persistent, some (fromSecs 10000000000000),
      some (fromSecs 10000000000000)⟩
    let begun := (watchStep [] (.started spec (fromSecs 3600) 0)).1
    (begun.restore (seconds 10, fromSecs 3600)).2 =
        [.restart { spec with timeout := some (fromSecs 3600), limit := some (fromSecs 3600) }] ∧
      uninterrupted spec (fromSecs 10000000000000) 0 (seconds 10) =
        .restart { spec with timeout := some (fromSecs 9999999999990) } ∧
      (begun.restore (seconds 10, fromSecs 3600)).2 ≠
        [uninterrupted spec (fromSecs 10000000000000) 0 (seconds 10)] := by
  decide +kernel

end Ralph.Watch
