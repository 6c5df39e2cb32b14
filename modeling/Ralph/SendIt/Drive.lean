import Ralph.SendIt.Plan

namespace Ralph.SendIt
open Worker

structure Progress where
  step : ℕ := 0
  judgeRounds : ℕ := 0
  probing : Bool := false
  deriving DecidableEq, Repr

/-- What the chat knows of the workers when a run starts. -/
structure Seen where
  last : String → Option String
  running : List String

inductive WatchOutcome
  | exited (code : ℤ)
  | signaled (signal : ℤ)
  | stopped
  | timedOut (nanos : ℕ)
  | waitFailed (error : String)
  deriving DecidableEq, Repr

inductive Event
  | start
  | turnEnded (run : Run)
  | report (report : Report)
  | watched (outcome : WatchOutcome)
  | verdict (result : Option StepResult)

inductive Next
  | send (text : String)
  | hold (worker : String)
  | watch (command : String)
  | check (command : String)
  | judge
  | wait
  | stop (reason : StopReason)
  | done
  deriving DecidableEq, Repr

def noStepResult : String := "the judge turn made no step_result call"

def grantedLimits (plan : RunPlan) : Limits :=
  plan.grants.foldl (fun limits grant =>
    match grant with
    | .turnCap turns => { limits with maxTurns := turns }
    | .costCap usd => { limits with maxUsd := usd }) plan.limits

def stepLine (plan : RunPlan) (index : ℕ) (step : Step) : String :=
  s!"[send-it {index + 1}/{plan.steps.length}] {step.task} · exit: {step.criterion.label}"

def waitOn : Criterion → Next
  | .workerDone worker => .hold worker
  | .watchPasses command => .watch command
  | .checkPasses command => .check command
  | .judge _ => .judge

def stepMet (plan : RunPlan) (progress : Progress) : Progress × Next :=
  let index := progress.step + 1
  match plan.steps[index]? with
  | some step => ({ step := index }, .send (stepLine plan index step))
  | none => (progress, .done)

def advance (plan : RunPlan) (progress : Progress) (event : Event) : Progress × Next :=
  match plan.steps[progress.step]? with
  | none => (progress, .done)
  | some step =>
    let number := progress.step + 1
    match event, step.criterion with
    | .start, _ => (progress, .send (stepLine plan progress.step step))
    -- the caps are looked at after every turn
    | .turnEnded run, criterion =>
      let limits := grantedLimits plan
      (progress,
        if limits.maxTurns ≤ run.turns then .stop .turnCap
        else if limits.maxUsd ≤ run.spentUsd then .stop .costCap
        else waitOn criterion)
    | .report report, .workerDone worker =>
      if report.worker = worker then
        if report.status = "done" then stepMet plan progress
        else (progress, .stop (.unmet number))
      else (progress, .wait)
    | .watched outcome, .watchPasses _ | .watched outcome, .checkPasses _ =>
      if outcome = .exited 0 then stepMet plan progress
      -- a probe of a resumed step fails quietly: the step is sent after all
      else if progress.probing then
        ({ progress with probing := false }, .send (stepLine plan progress.step step))
      else (progress, .stop (.checkFailed number))
    | .verdict result, .judge _ =>
      if result.any (·.met) then stepMet plan progress
      else
        let evidence := (result.map (·.evidence)).getD noStepResult
        -- a probe is not one of the rounds
        let judgeRounds := progress.judgeRounds + if progress.probing then 0 else 1
        if plan.judgeRounds ≤ judgeRounds then (progress, .stop (.judgeRounds number evidence))
        else
          ({ step := progress.step, judgeRounds, probing := false },
            .send (stepLine plan progress.step step ++ "\njudge: not met: " ++ evidence))
    -- the event is not the one that the step waits for
    | _, _ => (progress, .wait)

inductive Awaiting
  | turn
  | verdict
  | report (source : String)
  deriving DecidableEq, Repr

structure Driving where
  hash : String
  progress : Progress
  run : Run
  awaiting : Awaiting
  deriving DecidableEq

structure Ended where
  file : Option RunFile
  replied : Bool
  asked : Bool
  typed : Bool
  queued : List String
  costUsd : ℚ
  stepResult : Option StepResult
  drained : List Report
  unread : List Report
  answered : List String
  watched : Option WatchOutcome
  refused : Option String

structure Ticked where
  driving : Driving
  next : Next
  met : Option String
  deriving DecidableEq

def watchIdPrefix : String := "watch:"

def watchId (raw : String) : String :=
  if watchIdPrefix.toList.isPrefixOf raw.toList then raw else watchIdPrefix ++ raw

def checkId : String := "send-it-"

def checkWatchId (step : ℕ) : String := watchId (checkId ++ toString (step + 1))

def awaiting (next : Next) (progress : Progress) : Awaiting :=
  match next with
  | .judge => .verdict
  | .hold worker => .report worker
  | .watch _ | .check _ => .report (checkWatchId progress.step)
  | _ => .turn

def metLine (plan : RunPlan) (step : ℕ) (evidence : Option String) : String :=
  let label := (plan.steps[step]?.map (·.criterion.label)).getD ""
  let evidence := (evidence.map (": " ++ ·)).getD ""
  s!"send-it: step {step + 1}/{plan.steps.length} met ({label}){evidence}"

def probe (plan : RunPlan) (progress : Progress) (seen : Seen) : Progress × Next :=
  match plan.steps[progress.step]? with
  | none => (progress, .done)
  | some step =>
    match step.criterion with
    | .workerDone worker =>
      if seen.last worker = some "done" then stepMet plan progress
      else if (seen.last worker).isSome ∨ worker ∈ seen.running then (progress, .hold worker)
      else advance plan progress .start
    | criterion => ({ progress with probing := true }, waitOn criterion)

def startRun (env : Env) (file : RunFile) (seen : Seen) : Option Ticked :=
  if !file.isApproved env then none
  else
    let hash := planHash env file.plan
    let start : Progress := { step := ((resumeStep env file).map (· - 1)).getD 0 }
    let (progress, next) :=
      match resumeStep env file with
      -- a resumed step may be met already, so it is looked at before it is sent
      | some _ => probe file.plan start seen
      | none => advance file.plan start .start
    let brief := s!"send-it run {hash} is approved. Work the current step only, and take only the allowed actions; ralph checks each exit criterion and sends the next step.\n\n{renderRun env file.plan}\n\n"
    let next := match next with
      | .send line => .send (brief ++ line)
      | started => started
    let met := if start.step < progress.step ∨ next = .done then
        some (metLine file.plan start.step none) else none
    some { driving := { hash, awaiting := awaiting next progress, progress, run := {} }, next, met }

def isOff (line : String) : Bool :=
  (Chat.Command.sendIt.args (Chat.trim line)).map parseSendItArgs == some .off

def unansweredFlag (ended : Ended) (file : RunFile) : Bool :=
  let mayReply := file.plan.allowed.contains .reply
  workerFlagged ended.unread ||
    (ended.drained.filter flagged).any fun report =>
      !(mayReply && ended.answered.contains report.worker)

def admitted (env : Env) (ended : Ended) (hash : String) : Except StopReason RunFile :=
  match ended.file with
  | none => .error .off
  | some file =>
    if ended.queued.any isOff then .error .off
    else if !file.isApproved env ∨ planHash env file.plan ≠ hash then .error .planChanged
    else
      match ended.refused with
      | some tool => .error (.refused tool)
      | none =>
        if !ended.replied then .error .noReply
        else if ended.typed ∨ ended.queued ≠ [] then .error .tookOver
        else if ended.asked then .error .needsYou
        else if unansweredFlag ended file then .error .workerFlagged
        else .ok file

def events (awaiting : Awaiting) (ended : Ended) : List Event :=
  match awaiting with
  | .turn => []
  | .verdict => [.verdict ended.stepResult]
  | .report source =>
    (ended.watched.map Event.watched).toList ++
      (ended.drained.filter fun report => report.worker = source ∧ !flagged report).map .report

/-- The first event that decides anything; the rest are not looked at. -/
def fold (plan : RunPlan) (progress : Progress) : List Event → Progress × Next
  | [] => (progress, .wait)
  | event :: events =>
    match advance plan progress event with
    | (progress, .wait) => fold plan progress events
    | decided => decided

def tick (env : Env) (driving : Driving) (ended : Ended) : Ticked :=
  let counted : Run :=
    { turns := driving.run.turns + 1, spentUsd := driving.run.spentUsd + ended.costUsd }
  let finish (run : Run) (progress : Progress) (next : Next) (met : Option String) : Ticked :=
    { driving := { hash := driving.hash, progress, run, awaiting := awaiting next progress },
      next, met }
  match admitted env ended driving.hash with
  | .error reason => finish counted driving.progress (.stop reason) none
  | .ok file =>
    let plan := file.plan
    let (progress, decided) := fold plan driving.progress (events driving.awaiting ended)
    -- the turn that a report of a worker settles is not counted
    let settledReport := (match driving.awaiting with | .report _ => true | _ => false) &&
      decided ≠ .wait
    let run := if settledReport then { counted with turns := driving.run.turns } else counted
    let evidence := if driving.awaiting = .verdict then ended.stepResult.map (·.evidence) else none
    let met := if driving.progress.step < progress.step ∨ decided = .done then
        some (metLine plan driving.progress.step evidence) else none
    match decided with
    | .done | .stop _ => finish run progress decided met
    | _ =>
      -- the caps stop the run before its next line goes out
      let next := match (advance plan progress (.turnEnded run)).2 with
        | .stop reason => .stop reason
        | waiting => if decided = .wait then waiting else decided
      finish run progress next met

def approve (env : Env) (file : RunFile) (shown : Option String) (typedAtPrompt : Bool) :
    Except String RunFile :=
  let hash := planHash env file.plan
  if !typedAtPrompt then .error "/send-it go counts only when you type it at the prompt."
  else if shown ≠ some hash then
    .error s!"Plan {hash} is not the plan on screen. Show it with /send-it status, then type /send-it go."
  else .ok { file with approved := some hash }

def judgePrompt (plan : RunPlan) (progress : Progress) : Option String :=
  match plan.steps[progress.step]? with
  | none => none
  | some step =>
    match step.criterion with
    | .judge question =>
      some <| stepLine plan progress.step step ++
        s!"\n/send-it judge: {question}\nAnswer from what this chat already shows and take no other actions. Call `step_result` once with `met` and one line of `evidence`, then reply in one short line."
    | _ => none

/-- A turn during which something was queued ends the run. -/
theorem queued_of_admitted {env : Env} {ended : Ended} {hash : String} {file : RunFile}
    (h : admitted env ended hash = .ok file) : ended.queued = [] := by
  by_contra hqueued
  unfold admitted at h
  split at h
  · cases h
  · cases hrefused : ended.refused with
    | some tool =>
      rw [hrefused] at h
      split_ifs at h
    | none =>
      rw [hrefused] at h
      simp only [hqueued, ne_eq, not_false_eq_true, or_true, if_true] at h
      split_ifs at h

theorem tick_of_queued {env : Env} {ended : Ended} (h : ended.queued ≠ []) (driving : Driving) :
    ∃ reason, (tick env driving ended).next = .stop reason := by
  cases hadmitted : admitted env ended driving.hash with
  | error reason => exact ⟨reason, by simp only [tick, hadmitted]⟩
  | ok file => exact absurd (queued_of_admitted hadmitted) h

end Ralph.SendIt
