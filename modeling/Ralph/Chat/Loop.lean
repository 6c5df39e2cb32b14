import Ralph.Chat.Queue
import Ralph.Fallible

namespace Ralph.Chat
open ChatMemory Inbox SendIt Worker Thread

def noRun : String := "No send-it run. Start one with /send-it <instructions>."

/-- A run that is on, and whether its step waits for a command that was started. -/
structure Active where
  driving : Driving
  watched : Bool

structure Driven where
  active : Option Active
  route : Option Route

def Driven.keep (driving : Driving) (route : Route) (watched : Bool) : Driven :=
  ⟨some ⟨driving, watched⟩, some route⟩

def Driven.ended : Driven := ⟨none, none⟩

/-- `file` is what the run file holds, `saves` whether it can be written. -/
def go (env : Env) (file : Except String (Option RunFile)) (saves : Except String Unit)
    (shown : Option String) (typedAtPrompt : Bool) (seen : Seen) : String × Option Ticked :=
  match file with
  | .error text => (text, none)
  | .ok none => (noRun, none)
  | .ok (some file) =>
    let approved := do
      let approved ← approve env file shown typedAtPrompt
      saves
      pure approved
    match approved with
    | .ok approved =>
      (s!"Plan {planHash env approved.plan} approved. Running it.", startRun env approved seen)
    | .error text => (text, none)

/-- `starts` is whether the command of a check can be started. -/
def dispatch (file : Except String (Option RunFile)) (starts : Bool) (ticked : Ticked) : Driven :=
  let plan := (file.toOption.getD none).map RunFile.plan
  let driving := ticked.driving
  match ticked.next with
  | .send line => .keep driving (.send line) false
  | .judge =>
    match plan.bind (judgePrompt · driving.progress) with
    | some prompt => .keep driving (.send prompt) false
    | none => .ended
  | .hold worker => .keep driving (.hold (.source worker)) false
  | .watch _ | .check _ =>
    if starts then .keep driving (.hold (.source (checkWatchId driving.progress.step))) true
    else .ended
  | .stop _ | .done | .wait => .ended

/-- The parts of the status that the loop looks at: the count of unread reports, and the names that
a hold can wait for. -/
structure Status where
  unread : ℕ
  targets : Finset String

namespace Suggestion

inductive Prefill
  | draft (text : String)
  | suggestion (text : String)
  deriving DecidableEq, Repr

def prefill (replied : Bool) (draft suggestion : Option String) : Option Prefill :=
  match draft with
  | some draft => some (.draft draft)
  | none => if replied then suggestion.map .suggestion else none

structure TurnEnd where
  autoHold : Bool
  replied : Bool
  draft : Option String
  suggestion : Option String
  status : Status

inductive Next
  | hold (filter : HoldFilter)
  | prefill (fill : Prefill)
  | nothing

def autoHoldTarget (suggestion : String) (status : Status) : Option HoldFilter := do
  let filter ← HoldFilter.parse (← stripPrefix suggestion "/hold")
  let listed : Bool := match filter with
    | .any => status.targets ≠ ∅
    | .source source => source ∈ status.targets
    | .set sources => sources.all (· ∈ status.targets)
  if listed ∧ filter.render = suggestion then some filter else none

def turnEnd (finish : TurnEnd) : Next :=
  let suggestion := finish.suggestion.filter fun _ =>
    finish.autoHold && finish.replied && finish.draft.isNone
  match suggestion.bind (autoHoldTarget · finish.status) with
  | some filter => .hold filter
  | none =>
    match prefill finish.replied finish.draft finish.suggestion with
    | some fill => .prefill fill
    | none => .nothing

end Suggestion

inductive Held
  | item (position : Position)
  | left
  | quit

inductive ChatExit
  | quit
  | switch (target : SwitchTarget)
  | failed (error : String)

/-- What the loop does with the texts that were queued, and with the routes. -/
inductive Event
  | queued (entries : List String)
  | routed (text : String) (route : Route)
  | acted (route : Route)
  | drafted (text : String)
  | saved (texts : List String)

/-- What the loop keeps from one round to the next, and what it has done so far. -/
structure Loop where
  pending : Option Route := none
  shownPlan : Option String := none
  sending : Option Active := none
  carried : List String := []
  events : List Event := []

/-- The loop when it ends. -/
structure Left where
  exit : ChatExit
  loop : Loop

structure ChatConfig where
  env : Env
  empty : EmptySubmit
  autoHold : Bool

/-- What the outside answers in one round: the terminal, the cells, the agent, the inbox and the
files. -/
structure Answers where
  submitted : Except String (Option String)
  promptStatus : Status
  queuedStatus : Status
  endStatus : Status
  buffer : String
  terminated : Bool
  saves : String → Bool
  synced : Except String Unit
  ran : Except TurnOutcome String
  prepared : Except TurnOutcome Unit
  turn : Except String TurnOutcome
  exits : List EditorExit
  typed : String
  reports : Except String (List Report)
  held : Held
  template : Option (String × String)
  refusal : Option String
  screen : Option String
  file : Except String (Option RunFile)
  fileNow : Except String (Option RunFile)
  fileSaves : Except String Unit
  starts : Bool
  seen : Seen
  asked : Bool
  costUsd : ℚ
  judged : Option StepResult
  unread : List Report
  answered : List String
  watched : Option WatchOutcome
  refused : Option String
  suggestion : Option String
  switches : SwitchTarget → Except String Unit
  threadRuns : ThreadOp → Except String String
  local_ : Route → Except String Unit

/-- What is queued while a turn runs. -/
def Answers.queue (x : Answers) : Queue :=
  { x.exits.foldl (fun queue exit => (onExit queue exit).1) {} with typed := x.typed }

def Loop.did (s : Loop) (event : Event) : Loop := { s with events := s.events ++ [event] }

def Loop.orFail {α : Type} (s : Loop) : Except String α → Except Left α
  | .ok a => .ok a
  | .error error => .error ⟨.failed error, s⟩

section Round

variable (c : ChatConfig) (x : Answers)

def routeQueued (text : String) : Route :=
  routeInput text x.queuedStatus.unread c.empty x.queuedStatus.targets

/-- Takes the next batch, if any entries are left. -/
def handOn (s : Loop) : Loop :=
  match nextBatch s.carried with
  | some (text, rest) =>
    { s with carried := rest, pending := some (routeQueued c x text) }.did
      (.routed text (routeQueued c x text))
  | none => { s with carried := [] }

def saveUnsent (lost : List String) (s : Loop) : Bool × Loop :=
  (lost.all x.saves, s.did (.saved (lost.filter x.saves)))

/-- Ends the chat with the unsent texts in the history. -/
def quitSaving (lost : List String) (s : Loop) : Left :=
  let s := (saveUnsent x lost s).2
  match x.synced with
  | .ok _ => ⟨.quit, s⟩
  | .error error => ⟨.failed error, s⟩

def restorePrompt (line : String) (s : Loop) : Loop :=
  { s with carried := [] }.did (.drafted (refusedDraft line s.carried x.buffer))

def refuseOrExit (line : String) (s : Loop) : Except Left Loop :=
  match refusalAction x.terminated line s.carried x.buffer with
  | .save lost => .error (quitSaving x lost s)
  | .restore => .ok (restorePrompt x line s)

def draftAfter (outcome : TurnOutcome) (message : String) : Option String :=
  if outcome = .unanswered then some message else none

/-- The agent's turn, and what is queued meanwhile. -/
def runTurn (s : Loop) : Except Left (TurnOutcome × Loop) :=
  let s := s.did (.queued x.queue.entries)
  match x.turn with
  | .ok outcome => .ok (outcome, s)
  | .error error => .error ⟨.failed error, s⟩

def tickRun (active : Active) (outcome : TurnOutcome) (queue : Queue) (drained : List Report) :
    Ticked :=
  tick c.env active.driving {
    file := x.file.toOption.getD none
    replied := outcome = .replied
    asked := x.asked
    typed := queue.held || queue.typed ≠ ""
    queued := queue.entries
    costUsd := x.costUsd
    stepResult := x.judged
    drained
    unread := x.unread
    answered := x.answered
    watched := if active.watched then x.watched else none
    refused := x.refused }

/-- What comes after a turn when no run goes on: the queue, and what stands at the next prompt. -/
def afterTurn (outcome : TurnOutcome) (draft : Option String) (queue : Queue) (s : Loop) : Loop :=
  let (draft, suggestion, s) := match decide outcome queue with
    | .send text rest =>
      (draft, none, { s with carried := rest, pending := some (routeQueued c x text) }.did
        (.routed text (routeQueued c x text)))
    | .keep entries => (draftWithQueue draft entries, x.suggestion, s)
  let finish : Suggestion.TurnEnd := {
    autoHold := c.autoHold
    replied := outcome = .replied && !x.asked
    draft := draftWithTyped draft queue.typed
    suggestion
    status := x.endStatus }
  match Suggestion.turnEnd finish with
  | .hold filter => { s with pending := some (.hold filter) }
  | .prefill (.draft text) | .prefill (.suggestion text) => s.did (.drafted text)
  | .nothing => s

def turnEnded (outcome : TurnOutcome) (draft : Option String) (queue : Queue)
    (drained : List Report) (s : Loop) : Except Left Loop :=
  let queue := { queue with entries := s.carried ++ queue.entries }
  let s := { s with carried := [] }
  if outcome = .exit then .error (quitSaving x (unsent queue) s)
  else
    match s.sending with
    | none => .ok (afterTurn c x outcome draft queue s)
    | some active =>
      let driven := dispatch x.fileNow x.starts (tickRun c x active outcome queue drained)
      let s := { s with sending := driven.active }
      match driven.route with
      | some route => .ok { s with pending := some route }
      | none => .ok (afterTurn c x outcome draft queue s)

def shellArm (line : String) (s : Loop) : Except Left Loop :=
  match x.ran with
  | .ok _ => .ok (handOn c x s)
  | .error .exit => .error (quitSaving x (unsentTexts s.carried x.buffer) s)
  | .error _ => .ok (restorePrompt x line s)

def sendArm (message : String) (s : Loop) : Except Left Loop :=
  match x.prepared with
  | .error outcome => turnEnded c x outcome (draftAfter outcome message) {} [] s
  | .ok _ => do
    let (outcome, s) ← runTurn x s
    turnEnded c x outcome (draftAfter outcome message) x.queue [] s

def readInboxArm (s : Loop) : Except Left Loop := do
  let reports ← s.orFail x.reports
  -- `unread_turn` refuses an empty list.
  if reports = [] then pure s
  else
    let (outcome, s) ← runTurn x s
    turnEnded c x outcome none x.queue reports s

def holdArm (s : Loop) : Except Left Loop :=
  match x.held with
  | .item position => .ok { s with pending := some (.readInbox (.at position)) }
  | .left => .ok { s with sending := none }
  | .quit => .error ⟨.quit, s⟩

def proposeArm (s : Loop) : Except Left Loop :=
  match x.template, x.refusal with
  | some _, _ => .ok { s with shownPlan := x.screen }
  | none, some _ => .ok s
  | none, none => do
    let (outcome, s) ← runTurn x s
    turnEnded c x outcome none x.queue [] { s with shownPlan := x.screen }

def goArm (typedAtPrompt : Bool) (s : Loop) : Loop :=
  match (go c.env x.file x.fileSaves s.shownPlan typedAtPrompt x.seen).2 with
  | none => s
  | some started =>
    let driven := dispatch x.fileNow x.starts started
    { s with shownPlan := none, sending := driven.active, pending := driven.route }

def sendItArm (typedAtPrompt : Bool) (s : Loop) : SendItCommand → Except Left Loop
  | .propose _ => proposeArm c x s
  | .save _ _ | .templates | .usage => .ok s
  | .go => .ok (goArm c x typedAtPrompt s)
  | .off => .ok { s with shownPlan := none }
  | .status | .edit => .ok { s with shownPlan := x.screen }

def switchArm (parsed : Except String SwitchTarget) (line : String) (s : Loop) : Except Left Loop :=
  let checked := do
    let target ← parsed
    x.switches target
    pure target
  match checked with
  | .error _ => refuseOrExit x line s
  | .ok target =>
    let (saved, s) := saveUnsent x (unsentTexts s.carried x.buffer) s
    if saved then .error ⟨.switch target, s⟩
    else if x.terminated then .error ⟨.quit, s⟩
    else .ok (restorePrompt x line s)

def threadArm (op : Except String ThreadOp) (line : String) (s : Loop) : Except Left Loop :=
  match op.bind x.threadRuns with
  | .ok _ => .ok (handOn c x s)
  | .error _ => refuseOrExit x line s

/-- One arm of the loop for each kind of route. -/
def arm (typedAtPrompt : Bool) (s : Loop) : Route → Except Left Loop
  | .ignore => .ok s
  | .shell line => shellArm c x line s
  | .send message => sendArm c x message s
  | .readInbox _ => readInboxArm c x s
  | .hold _ => holdArm x s
  | .sendIt command => sendItArm c x typedAtPrompt s command
  | .switch parsed line => switchArm x parsed line s
  | .threadOp op line => threadArm c x op line s
  | route => do
    s.orFail (x.local_ route)
    pure s

/-- One round: the route that waits, or the line typed at the prompt. -/
def round (s : Loop) : Except Left Loop :=
  match s.pending with
  | some route => arm c x false ({ s with pending := none }.did (.acted route)) route
  | none =>
    match x.submitted with
    | .error error => .error ⟨.failed error, s⟩
    | .ok none => .error ⟨.quit, s⟩
    | .ok (some line) =>
      let route := routeInput line x.promptStatus.unread c.empty x.promptStatus.targets
      arm c x true (s.did (.acted route)) route

end Round

/-- The rounds of a chat that goes on. -/
def rounds (c : ChatConfig) (s : Loop) (answers : List Answers) : Except Left Loop :=
  answers.foldlM (fun s x => round c x s) s

end Ralph.Chat
