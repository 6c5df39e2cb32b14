import Mathlib.Data.Rat.Defs
import Ralph.Chat.Command
import Ralph.Worker.Report

namespace Ralph.SendIt
open ChatMemory Worker

structure StepResult where
  met : Bool
  evidence : String
  deriving DecidableEq, Repr

inductive Criterion
  | workerDone (worker : String)
  | watchPasses (command : String)
  | checkPasses (command : String)
  | judge (question : String)
  deriving DecidableEq, Repr

/-- What a plan may allow. Amounts are rationals. -/
inductive Action
  | spawn (harness : HarnessId)
  | reply
  | close
  | watch
  | merge
  | push
  | pr
  | linearWrite
  | paidRun (maxUsd : ℚ)
  deriving DecidableEq

inductive Grant
  | turnCap (turns : ℕ)
  | costCap (usd : ℚ)
  deriving DecidableEq

structure Step where
  task : String
  criterion : Criterion
  deriving DecidableEq, Repr

structure Limits where
  maxTurns : ℕ
  maxUsd : ℚ
  deriving DecidableEq

structure Run where
  turns : ℕ := 0
  spentUsd : ℚ := 0
  deriving DecidableEq

structure RunPlan where
  goal : String
  steps : List Step
  allowed : List Action
  grants : List Grant
  limits : Limits
  judgeRounds : ℕ
  deriving DecidableEq

structure Stopped where
  step : ℕ
  hash : String
  deriving DecidableEq, Repr

structure RunFile where
  plan : RunPlan
  approved : Option String
  stopped : Option Stopped
  deriving DecidableEq

/-- What the run takes from libraries: the canonical JSON of a plan, SHA-256, and the format
`{:.2}` of an amount. -/
structure Env where
  canonical : RunPlan → String
  sha256 : List UInt8 → List UInt8
  twoDecimals : ℚ → String

def Criterion.label : Criterion → String
  | .workerDone worker => s!"worker {worker} reports done"
  | .watchPasses command => s!"watch `{command}` exits 0"
  | .checkPasses command => s!"`{command}` exits 0"
  | .judge question => s!"judged: {question}"

def Action.label (env : Env) : Action → String
  | .spawn harness => s!"spawn {harness.asStr} workers"
  | .reply => "reply to workers"
  | .close => "close workers"
  | .watch => "start watches"
  | .merge => "merge"
  | .push => "push"
  | .pr => "open PRs"
  | .linearWrite => "write to Linear"
  | .paidRun maxUsd => s!"paid runs up to ${env.twoDecimals maxUsd}"

def Grant.label (env : Env) : Grant → String
  | .turnCap turns => s!"raise the turn cap to {turns}"
  | .costCap usd => s!"raise the cost cap to ${env.twoDecimals usd}"

def renderRun (env : Env) (plan : RunPlan) : String :=
  let steps := plan.steps.zipIdx.flatMap fun (step, index) =>
    [s!"  {index + 1}. {step.task}", s!"     exit: {step.criterion.label}"]
  let allowed := plan.allowed.map (Action.label env)
  let caps := s!"Caps: {plan.limits.maxTurns} turns, ${env.twoDecimals plan.limits.maxUsd}, {plan.judgeRounds} judge rounds"
  let lines :=
    [s!"Goal: {plan.goal}", "Steps:"] ++ steps ++
      [if allowed = [] then "Allowed: none" else "Allowed: " ++ ", ".intercalate allowed] ++
      [caps, "You pre-approve:"] ++
      (if plan.grants = [] then ["  - nothing"] else []) ++
      plan.grants.map fun grant => "  - " ++ grant.label env
  "\n".intercalate lines

inductive SendItCommand
  | usage
  | propose (text : String)
  | edit
  | go
  | status
  | off
  | save (name : String) (ticket : Option String)
  | templates
  deriving DecidableEq, Repr

def parseSendItArgs (args : String) : SendItCommand :=
  let text := Chat.trim args
  if text = "" then .usage
  else if text = "edit" then .edit
  else if text = "go" then .go
  else if text = "status" then .status
  else if text = "off" then .off
  else if text = "templates" then .templates
  else
    match splitWhitespace text with
    | ["save", name] => .save name none
    | ["save", name, ticket] => .save name (some ticket)
    | _ => .propose text

def hashBytes : ℕ := 6

/-- A byte as `{:02x}`. -/
def hexByte (b : UInt8) : String :=
  String.ofList [Nat.digitChar (b.toNat / 16), Nat.digitChar (b.toNat % 16)]

def planHash (env : Env) (plan : RunPlan) : String :=
  String.join (((env.sha256 (env.canonical plan).toUTF8.toList).take hashBytes).map hexByte)

def RunFile.isApproved (env : Env) (file : RunFile) : Bool :=
  file.approved == some (planHash env file.plan)

def resumeStep (env : Env) (file : RunFile) : Option ℕ :=
  match file.stopped with
  | none => none
  | some stopped =>
    if stopped.hash = planHash env file.plan ∧ 1 ≤ stopped.step ∧
        stopped.step ≤ file.plan.steps.length then some stopped.step
    else none

inductive StopReason
  | turnCap
  | costCap
  | unmet (step : ℕ)
  | workerFlagged
  | judgeRounds (step : ℕ) (evidence : String)
  | checkFailed (step : ℕ)
  | off
  | planChanged
  | noReply
  | needsYou
  | tookOver
  | refused (tool : String)
  deriving DecidableEq, Repr

def flaggedStatuses : List String := ["question", "blocked"]

def flagged (report : Report) : Bool := flaggedStatuses.contains report.status

def workerFlagged (reports : List Report) : Bool := reports.any flagged

end Ralph.SendIt
