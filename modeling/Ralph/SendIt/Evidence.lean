import Ralph.SendIt.DriveRuns
import Ralph.SendIt.Parse

namespace Ralph.SendIt
open Worker

/-- What an event has to say for a criterion to hold. -/
def Criterion.metBy : Criterion → Event → Prop
  | .workerDone worker, .report report => report.worker = worker ∧ report.status = "done"
  | .watchPasses _, .watched outcome | .checkPasses _, .watched outcome => outcome = .exited 0
  | .judge _, .verdict result => result.any (·.met) = true
  | _, _ => False

/-- A criterion that holds on the input of one tick of a run that waits for it. -/
def Criterion.Holds (awaiting : Awaiting) (ended : Ended) : Criterion → Prop
  | .workerDone worker => awaiting = .report worker ∧
      ∃ report ∈ ended.drained, report.worker = worker ∧ report.status = "done" ∧ !flagged report
  | .watchPasses _ | .checkPasses _ => ended.watched = some (.exited 0)
  | .judge _ => awaiting = .verdict ∧ ∃ result, ended.stepResult = some result ∧ result.met

/-- A turn after which a run may go on: under the plan that was approved, with nothing of the
person's in the way and no worker left without an answer. -/
structure Cleared (env : Env) (hash : String) (ended : Ended) (file : RunFile) : Prop where
  present : ended.file = some file
  approved : file.isApproved env
  hash : planHash env file.plan = hash
  replied : ended.replied
  typed : ended.typed = false
  queued : ended.queued = []
  asked : ended.asked = false
  refused : ended.refused = none
  unread : ∀ report ∈ ended.unread, flagged report = false
  drained : ∀ report ∈ ended.drained, flagged report →
    Action.reply ∈ file.plan.allowed ∧ report.worker ∈ ended.answered

theorem cleared_of_admitted {env : Env} {ended : Ended} {hash : String} {file : RunFile}
    (h : admitted env ended hash = .ok file) : Cleared env hash ended file := by
  have hfile := admitted_file h
  have hqueued := queued_of_admitted h
  unfold admitted at h
  rw [hfile] at h
  dsimp only at h
  split at h
  · cases h
  · split at h
    · cases h
    · next hplan =>
      split at h
      · cases h
      · next hrefused =>
        rw [not_or, not_not] at hplan
        split_ifs at h with hreplied htook hasked hflag
        rw [not_or] at htook
        simp only [unansweredFlag, workerFlagged, Bool.or_eq_true, List.any_eq_true, not_or,
          not_exists, not_and, List.mem_filter, List.contains_eq_mem] at hflag
        refine ⟨hfile, by simpa using hplan.1, hplan.2, by simpa using hreplied,
          by simpa using htook.1, hqueued, by simpa using hasked, hrefused, ?_, ?_⟩
        · exact fun report hmem => by simpa using hflag.1 report hmem
        · exact fun report hmem hflagged => by simpa using hflag.2 report ⟨hmem, hflagged⟩

section Step

variable {plan : RunPlan} {p p' : Progress} {ev : Event} {next : Next}

theorem stepMet_done (h : (stepMet plan p).2 = .done) (hin : p.step < plan.steps.length) :
    p.step + 1 = plan.steps.length := by
  unfold stepMet at h
  dsimp only at h
  split at h
  · cases h
  · next hnone =>
    have hle := List.getElem?_eq_none_iff.1 hnone
    omega

/-- The step changes, and the end is reached, by an event that meets the current criterion. -/
theorem advance_met {step : Step} (hev : ev.Outside) (hstep : plan.steps[p.step]? = some step)
    (h : p.step < (advance plan p ev).1.step ∨ (advance plan p ev).2 = .done) :
    step.criterion.metBy ev ∧
      ((advance plan p ev).2 = .done → p.step + 1 = plan.steps.length) := by
  have hin := (List.getElem?_eq_some_iff.1 hstep).1
  unfold advance at h ⊢
  rw [hstep] at h ⊢
  dsimp only at h ⊢
  -- each criterion is met by one kind of event, and all others wait
  cases hcriterion : step.criterion with
  | workerDone worker =>
    rw [hcriterion] at h
    cases ev with
    | report report =>
      dsimp only at h ⊢
      split_ifs at h ⊢ with hworker hdone
      · exact ⟨⟨hworker, hdone⟩, fun hd => stepMet_done hd hin⟩
      all_goals simp at h
    | start | turnEnded => exact hev.elim
    | _ => simp at h
  | watchPasses command | checkPasses command =>
    rw [hcriterion] at h
    cases ev with
    | watched outcome =>
      dsimp only at h ⊢
      split_ifs at h ⊢ with hexit
      · exact ⟨hexit, fun hd => stepMet_done hd hin⟩
      all_goals simp at h
    | start | turnEnded => exact hev.elim
    | _ => simp at h
  | judge question =>
    rw [hcriterion] at h
    cases ev with
    | verdict result =>
      dsimp only at h ⊢
      by_cases hmet : result.any (·.met) = true
      · rw [if_pos hmet]
        exact ⟨hmet, fun hd => stepMet_done hd hin⟩
      · rw [if_neg hmet] at h
        by_cases hrounds : plan.judgeRounds ≤ p.judgeRounds + if p.probing then 0 else 1
        · rw [if_pos hrounds] at h
          simp at h
        · rw [if_neg hrounds] at h
          simp at h
    | start | turnEnded => exact hev.elim
    | _ => simp at h

/-- What a fold answers is what one of the events is answered with. -/
theorem fold_decided (plan : RunPlan) (p : Progress) (evs : List Event)
    (hout : ∀ ev ∈ evs, ev.Outside) (h : fold plan p evs ≠ (p, .wait)) :
    ∃ ev ∈ evs, fold plan p evs = advance plan p ev := by
  induction evs with
  | nil => exact absurd rfl h
  | cons ev evs ih =>
    unfold fold at h ⊢
    split at h
    · next p' heq =>
      have hfirst := advance_outcome plan p ev (hout ev (List.mem_cons_self ..))
      rw [heq] at hfirst
      obtain rfl : p' = p := by
        cases hfirst with
        | wait => rfl
        | final _ hfinal => cases hfinal
      obtain ⟨ev', hmem, hfold⟩ := ih (fun ev' hev' => hout ev' (List.mem_cons_of_mem ev hev')) h
      exact ⟨ev', List.mem_cons_of_mem ev hmem, hfold⟩
    · exact ⟨ev, List.mem_cons_self .., rfl⟩

theorem Outcome.inRange (h : Outcome plan p ev p' next) (hin : p.step < plan.steps.length) :
    p'.step < plan.steps.length := by
  cases h with
  | met _ _ hstep => exact hstep
  | _ => exact hin

theorem Outcome.lt_of_moved (h : Outcome plan p ev p' next) (hmoved : p.step < p'.step) :
    p.step < plan.steps.length := by
  cases h with
  | met _ _ hstep => omega
  | _ => exact absurd hmoved (lt_irrefl _)

theorem probe_inRange (seen : Seen) (hin : p.step < plan.steps.length) :
    (probe plan p seen).1.step < plan.steps.length := by
  unfold probe
  rw [List.getElem?_eq_getElem hin]
  dsimp only
  cases plan.steps[p.step].criterion with
  | workerDone worker =>
    dsimp only
    split_ifs
    · exact (stepMet_outcome plan p (.watched .stopped) (by simp)).inRange hin
    · exact hin
    · unfold advance
      rw [List.getElem?_eq_getElem hin]
      exact hin
  | _ => exact hin

theorem fold_inRange {d : Driving} {e : Ended} (hin : d.progress.step < plan.steps.length) :
    (fold plan d.progress (events d.awaiting e)).1.step < plan.steps.length := by
  rcases fold_events plan d e with hwait | ⟨ev, -, ho⟩
  · rw [hwait]
    exact hin
  · exact ho.inRange hin

/-- An event that meets a criterion is on the input of the tick that reads it. -/
theorem Criterion.holds_of_metBy {criterion : Criterion} {a : Awaiting} {e : Ended}
    (hev : ev ∈ events a e) (h : criterion.metBy ev) : criterion.Holds a e := by
  cases a with
  | turn => simp [events] at hev
  | verdict =>
    obtain rfl : ev = .verdict e.stepResult := by simpa [events] using hev
    cases criterion with
    | judge question =>
      cases hresult : e.stepResult with
      | none => simp [hresult, metBy] at h
      | some result => exact ⟨rfl, result, hresult, by simpa [hresult, metBy] using h⟩
    | _ => exact h.elim
  | report source =>
    rcases List.mem_append.1 hev with hw | hr
    · obtain ⟨outcome, hwatched, rfl⟩ := by simpa using hw
      cases criterion with
      | watchPasses command | checkPasses command =>
        obtain rfl : outcome = .exited 0 := h
        exact hwatched
      | _ => exact h.elim
    · obtain ⟨report, hmem, rfl⟩ := List.mem_map.1 hr
      simp only [List.mem_filter, decide_eq_true_eq] at hmem
      obtain ⟨hdrained, hsource, hflag⟩ := hmem
      cases criterion with
      | workerDone worker =>
        obtain ⟨rfl, hdone⟩ := h
        exact ⟨congrArg _ hsource.symm, report, hdrained, rfl, hdone, by simpa using hflag⟩
      | _ => exact h.elim

theorem fold_met {step : Step} {d : Driving} {e : Ended}
    (hstep : plan.steps[d.progress.step]? = some step)
    (h : d.progress.step < (fold plan d.progress (events d.awaiting e)).1.step ∨
      (fold plan d.progress (events d.awaiting e)).2 = .done) :
    step.criterion.Holds d.awaiting e ∧
      ((fold plan d.progress (events d.awaiting e)).2 = .done →
        d.progress.step + 1 = plan.steps.length) := by
  have hmoved : fold plan d.progress (events d.awaiting e) ≠ (d.progress, .wait) := by
    intro hwait
    rw [hwait] at h
    simp at h
  obtain ⟨ev, hev, heq⟩ := fold_decided plan d.progress _ (events_outside d.awaiting e) hmoved
  rw [heq] at h ⊢
  obtain ⟨hmet, hlast⟩ := advance_met (events_outside d.awaiting e ev hev) hstep h
  exact ⟨Criterion.holds_of_metBy hev hmet, hlast⟩

end Step

theorem tick_of_admitted {env : Env} {d : Driving} {e : Ended} {file : RunFile}
    (h : admitted env e d.hash = .ok file) :
    (tick env d e).driving.progress = (fold file.plan d.progress (events d.awaiting e)).1 ∧
      (tick env d e).next =
        if (fold file.plan d.progress (events d.awaiting e)).2.isFinal then
          (fold file.plan d.progress (events d.awaiting e)).2
        else capped file.plan (fold file.plan d.progress (events d.awaiting e)).1
          (charged d e (fold file.plan d.progress (events d.awaiting e)).2)
          (fold file.plan d.progress (events d.awaiting e)).2 := by
  unfold tick
  dsimp only
  rw [h]
  dsimp only
  rcases fold file.plan d.progress (events d.awaiting e) with ⟨p, decided⟩
  cases decided <;> exact ⟨rfl, rfl⟩

theorem tick_of_refused {env : Env} {d : Driving} {e : Ended} {reason : StopReason}
    (h : admitted env e d.hash = .error reason) :
    (tick env d e).driving.progress = d.progress ∧ (tick env d e).next = .stop reason := by
  unfold tick
  dsimp only
  rw [h]
  exact ⟨rfl, rfl⟩

@[simp] theorem tick_hash (env : Env) (d : Driving) (e : Ended) :
    (tick env d e).driving.hash = d.hash := by
  unfold tick
  dsimp only
  split
  · rfl
  · split <;> rfl

/-- A cap never turns a step that is there into the end of the run. -/
theorem capped_ne_done {plan : RunPlan} {p : Progress} {run : Run} {decided : Next}
    (hin : p.step < plan.steps.length) (hdecided : decided ≠ .done) :
    capped plan p run decided ≠ .done := by
  unfold capped advance
  rw [List.getElem?_eq_getElem hin]
  dsimp only
  by_cases hturns : (grantedLimits plan).maxTurns ≤ run.turns
  · simp [hturns]
  · by_cases husd : (grantedLimits plan).maxUsd ≤ run.spentUsd
    · simp [hturns, husd]
    · simp only [hturns, husd, if_false]
      cases plan.steps[p.step].criterion <;> simp only [waitOn] <;> split_ifs <;>
        first | exact hdecided | simp

/-- The tick moves on: the turn was clear, and the current criterion holds on its input. -/
structure Moves (env : Env) (d : Driving) (e : Ended) (file : RunFile) (step : Step) : Prop where
  cleared : Cleared env d.hash e file
  current : file.plan.steps[d.progress.step]? = some step
  holds : step.criterion.Holds d.awaiting e

theorem tick_moves {env : Env} {d : Driving} {e : Ended}
    (h : d.progress.step < (tick env d e).driving.progress.step) :
    ∃ file step, Moves env d e file step := by
  cases hadmitted : admitted env e d.hash with
  | error reason =>
    rw [(tick_of_refused hadmitted).1] at h
    exact absurd h (lt_irrefl _)
  | ok file =>
    rw [(tick_of_admitted hadmitted).1] at h
    cases hstep : file.plan.steps[d.progress.step]? with
    | none =>
      rcases fold_events file.plan d e with hwait | ⟨ev, -, ho⟩
      · rw [hwait] at h
        exact absurd h (lt_irrefl _)
      · have hle := List.getElem?_eq_none_iff.1 hstep
        have hlt := ho.lt_of_moved h
        omega
    | some step =>
      exact ⟨file, step, cleared_of_admitted hadmitted, hstep, (fold_met hstep (.inl h)).1⟩

theorem tick_done {env : Env} {d : Driving} {e : Ended} (h : (tick env d e).next = .done)
    (hin : ∀ file, Cleared env d.hash e file → d.progress.step < file.plan.steps.length) :
    ∃ file step, Moves env d e file step ∧ d.progress.step + 1 = file.plan.steps.length := by
  cases hadmitted : admitted env e d.hash with
  | error reason =>
    rw [(tick_of_refused hadmitted).2] at h
    cases h
  | ok file =>
    have hcleared := cleared_of_admitted hadmitted
    have hlt := hin file hcleared
    have hstep := List.getElem?_eq_getElem hlt
    rw [(tick_of_admitted hadmitted).2] at h
    have hdone : (fold file.plan d.progress (events d.awaiting e)).2 = .done := by
      split_ifs at h with hfinal
      · exact h
      · by_contra hdone
        exact capped_ne_done (fold_inRange hlt) hdone h
    obtain ⟨hholds, hlast⟩ := fold_met hstep (.inr hdone)
    exact ⟨file, _, ⟨hcleared, hstep, hholds⟩, hlast hdone⟩

/-- No other plan that a run is given has the digest of its own plan: a digest of six bytes of
SHA-256 tells the plans of one run apart. -/
def TellsApart (env : Env) (plan : RunPlan) (es : List Ended) : Prop :=
  ∀ e ∈ es, ∀ file, e.file = some file → planHash env file.plan = planHash env plan →
    file.plan = plan

theorem start_inRange {env : Env} {file : RunFile} {seen : Seen} {t : Ticked}
    (hsteps : file.plan.steps ≠ []) (h : startRun env file seen = some t) :
    t.driving.hash = planHash env file.plan ∧
      t.driving.progress.step < file.plan.steps.length := by
  have hpos := List.length_pos_iff.2 hsteps
  have hprogress := (start_of_some h).2
  constructor
  · unfold startRun at h
    split_ifs at h
    cases hr : resumeStep env file with
    | none =>
      rw [hr] at h
      obtain rfl := Option.some.inj h
      rfl
    | some step =>
      rw [hr] at h
      obtain rfl := Option.some.inj h
      rfl
  · rw [hprogress]
    cases hr : resumeStep env file with
    | none =>
      dsimp only
      unfold advance
      rw [List.getElem?_eq_getElem hpos]
      exact hpos
    | some step =>
      have hin : step - 1 < file.plan.steps.length := by
        unfold resumeStep at hr
        split at hr
        · cases hr
        · split_ifs at hr with hstep
          obtain rfl := Option.some.inj hr
          omega
      exact probe_inRange seen hin

theorem after_inRange {env : Env} {plan : RunPlan} {d : Driving} {es : List Ended}
    (hhash : TellsApart env plan es) (hd : d.hash = planHash env plan)
    (hin : d.progress.step < plan.steps.length) :
    (Machine.after (tickStep env) d es).hash = planHash env plan ∧
      (Machine.after (tickStep env) d es).progress.step < plan.steps.length := by
  induction es generalizing d with
  | nil => exact ⟨hd, hin⟩
  | cons e es ih =>
    rw [Machine.after_cons]
    refine ih (fun e' he' => hhash e' (List.mem_cons_of_mem e he')) ((tick_hash env d e).trans hd) ?_
    change (tick env d e).driving.progress.step < _
    cases hadmitted : admitted env e d.hash with
    | error reason =>
      rw [(tick_of_refused hadmitted).1]
      exact hin
    | ok file =>
      have hcleared := cleared_of_admitted hadmitted
      obtain rfl := hhash e (List.mem_cons_self ..) file hcleared.present (hcleared.hash.trans hd)
      rw [(tick_of_admitted hadmitted).1]
      exact fold_inRange hin

/-- A run that was started from an approved file takes a step only when the turn was clear under
that plan and the criterion it waited for holds, and it ends as done only so, in its last step. -/
theorem moves_only_on_evidence (env : Env) (raw : Except String RawPlan) (defaults : Limits)
    (file : RunFile) (seen : Seen) (t : Ticked) (es : List Ended) (e : Ended)
    (hparse : parseRun raw defaults = .ok file.plan) (hstart : startRun env file seen = some t)
    {d : Driving} (hd : d = Machine.after (tickStep env) t.driving es) :
    (d.progress.step < (tick env d e).driving.progress.step →
      ∃ now step, Moves env d e now step) ∧
    (TellsApart env file.plan (es ++ [e]) →
      d.hash = planHash env file.plan ∧ (∀ now, Cleared env d.hash e now → now.plan = file.plan) ∧
      ((tick env d e).next = .done →
        ∃ now step, Moves env d e now step ∧ d.progress.step + 1 = now.plan.steps.length)) := by
  subst hd
  refine ⟨tick_moves, fun hhash => ?_⟩
  obtain ⟨hstarted, hfirst⟩ := start_inRange (steps_ne_nil_of_parseRun hparse) hstart
  obtain ⟨hkept, hin⟩ := after_inRange (fun e' he' => hhash e' (List.mem_append_left _ he'))
    hstarted hfirst
  have hplan : ∀ now, Cleared env (Machine.after (tickStep env) t.driving es).hash e now →
      now.plan = file.plan := fun now hnow =>
    hhash e (by simp) now hnow.present (hnow.hash.trans hkept)
  exact ⟨hkept, hplan, fun hdone => tick_done hdone fun now hnow => hplan now hnow ▸ hin⟩

def demoRaw : RawPlan where
  goal := " ship\n"
  steps := [⟨"test it", some (.judge "green?")⟩]
  caps := { turns := some 3, usd := some 1 }

def demoMet : Ended := { demoEnded with stepResult := some ⟨true, "green"⟩ }

/-- The driving after the step was sent again and its turn has ended. -/
def demoJudged : Driving :=
  Machine.after (tickStep demoEnv) ((startRun demoEnv demoFile demoSeen).get demo_starts).driving
    [demoEnded, demoEnded]

theorem demo_done_on_evidence : ∃ now step, Moves demoEnv demoJudged demoMet now step ∧
    demoJudged.progress.step + 1 = now.plan.steps.length := by
  have hparse : parseRun (.ok demoRaw) demoPlan.limits = .ok demoFile.plan := by decide +kernel
  have hfile : ∀ e ∈ [demoEnded, demoEnded] ++ [demoMet], e.file = some demoFile := by
    simp [demoEnded, demoMet]
  obtain ⟨-, hrun⟩ := moves_only_on_evidence demoEnv (.ok demoRaw) demoPlan.limits demoFile demoSeen
    _ [demoEnded, demoEnded] demoMet hparse (Option.some_get demo_starts).symm
    (d := demoJudged) rfl
  obtain ⟨-, -, hdone⟩ := hrun fun e he now hnow _ => by
    rw [hfile e he] at hnow
    rw [Option.some.inj hnow]
  exact hdone (by decide +kernel)

end Ralph.SendIt
