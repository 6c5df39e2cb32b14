import Mathlib.Data.Int.Notation
import Ralph.JsonValue
import Ralph.Worker.PromptQueue

namespace Ralph.Worker.Codex

def turnCompleted : String := "turn/completed"
def itemCompleted : String := "item/completed"
def turnStarted : String := "turn/started"
def modelRerouted : String := "model/rerouted"
def noActiveTurn : ℤ := -32600

def serverName : String := "ralph-worker"
def reportTool : String := "report"

/-- `HarnessId::Codex.as_str()`. -/
def harness : String := "codex"

inductive ThreadSignal
  | reported
  | turnEnded (turnEnd : TurnEnd)
  deriving DecidableEq, Repr

def decodeTurnEnd (turn : JsonValue) : Option TurnEnd :=
  match (turn.get "status").asStr with
  | none => none
  | some status =>
    if status = "completed" then some .succeeded
    else if status = "interrupted" then some .interrupted
    else if status = "failed" then
      some (.failed ((((turn.get "error").get "message").asStr).getD "the turn failed") false)
    else none

def isDeliveredReport (item : JsonValue) : Bool :=
  (item.get "type").isText "mcpToolCall" && (item.get "server").isText serverName &&
    (item.get "tool").isText reportTool && (item.get "status").isText "completed"

def decodeSignal (method : String) (params : JsonValue) : Option ThreadSignal :=
  if method = turnCompleted then (decodeTurnEnd (params.get "turn")).map .turnEnded
  else if method = itemCompleted then
    if isDeliveredReport (params.get "item") then some .reported else none
  else none

def eventTurnId (method : String) (params : JsonValue) : Option String :=
  if method = turnStarted ∨ method = turnCompleted then ((params.get "turn").get "id").asStr
  else (params.get "turnId").asStr

def isStale : (current event : Option String) → Bool
  | some current, some event => current != event
  | _, _ => false

def isCurrent : (current event : Option String) → Bool
  | some current, some event => current == event
  | _, _ => false

/-- The worker events that a turn gives rise to. -/
inductive WorkerEvent
  | turnStarted
  | turnEnded (turnEnd : TurnEnd)
  | reported
  deriving DecidableEq, Repr

inductive Action
  | start (text : String)
  | interrupt (turn : String)
  | interruptResult (entry : String) (outcome : InterruptOutcome)
  | emit (event : WorkerEvent)
  | markUnreported
  | snapshot
  | postFailure (problem : String)
  deriving DecidableEq, Repr

structure Turns where
  queue : PromptQueue := {}
  running : Option String := none
  turnId : Option String := none
  previousTurn : Option String := none
  interrupts : List String := []
  interruptSent : Bool := false
  closeRequested : Bool := false
  gone : Bool := false
  reported : Bool := false
  deriving DecidableEq, Repr

namespace Turns

def sendInterrupt (t : Turns) : Turns × List Action :=
  match t.turnId with
  | some turnId =>
    if (t.interrupts ≠ [] ∨ t.closeRequested) ∧ ¬ t.interruptSent then
      ({ t with interruptSent := true }, [.interrupt turnId])
    else (t, [])
  | none => (t, [])

def resolveInterrupts (t : Turns) (outcome : InterruptOutcome) : Turns × List Action :=
  ({ t with interrupts := [] }, t.interrupts.map (.interruptResult · outcome))

def advance (t : Turns) : Turns × List Action :=
  if t.running.isSome then (t, [])
  else
    match t.queue.start with
    | none => (t, [])
    | some (text, queue) =>
      ({ t with
          queue, reported := false, running := some text, previousTurn := t.turnId,
          turnId := none, interruptSent := false },
        [.emit .turnStarted, .start text])

def accept (t : Turns) (text : String) : Turns × List Action :=
  { t with queue := (t.queue.accept (.prompt text)).1 }.advance

def interrupt (t : Turns) (text entry : String) : Turns × List Action :=
  if t.gone then (t, [.interruptResult entry .gone])
  else
    let (queue, steps) := t.queue.accept (.interrupt text entry)
    if cancelsTurn steps then
      { t with queue, interrupts := t.interrupts ++ [entry] }.sendInterrupt
    else
      let (t, started) := { t with queue }.advance
      (t, .interruptResult entry .sent :: started)

def interruptDropped (t : Turns) : Turns × List Action :=
  { t with interruptSent := false }.resolveInterrupts .dropped

def processGone (t : Turns) : Turns × List Action :=
  { t with gone := true }.resolveInterrupts .gone

def close (t : Turns) : Turns × List Action :=
  if t.running.isNone then (t, []) else { t with closeRequested := true }.sendInterrupt

def bindTurn (t : Turns) (turnId : Option String) : Turns × List Action :=
  if t.running.isNone then (t, []) else { t with turnId }.sendInterrupt

def interruptFailed (t : Turns) (code : ℤ) : Turns × List Action :=
  if code ≠ noActiveTurn then (t, []) else t.resolveInterrupts .sent

def isStaleRequest (t : Turns) (method : String) (params : JsonValue) : Bool :=
  isStale t.turnId (eventTurnId method params)

def ownsEvent (t : Turns) (method : String) (params : JsonValue) : Bool :=
  let event := eventTurnId method params
  if method = modelRerouted then t.turnId.isSome && (event.isNone || isCurrent t.turnId event)
  else isCurrent t.turnId event || isCurrent t.previousTurn event

/-- What follows the end of a turn: the queue, and what is told about the turn. -/
def settle (queue : PromptQueue) : TurnOutcome → PromptQueue × List Action
  | .remind => (queue.remind, [])
  | .unreported => (queue, [.markUnreported])
  | .problem problem => (queue, [.postFailure problem])
  | .stopped reason => (queue, [.postFailure (stopProblem harness reason)])
  | .reported | .cancelled | .closed => (queue, [])

def end_ (t : Turns) (turnEnd : TurnEnd) (closing : Bool) : Turns × List Action :=
  match t.running with
  | none => (t, [])
  | some text =>
    let cancelled := turnEnd = .interrupted
    let outcome := turnOutcome (turnStop turnEnd) t.reported (text == reportReminder) closing
      (cancelled && t.interruptSent)
    let (t, resolved) := { t with running := none, queue := t.queue.finish.1 }.resolveInterrupts
      (.ofCancelled cancelled)
    let (queue, told) := settle t.queue outcome
    let (t, started) := { t with queue }.advance
    (t, (if closing then [] else [.snapshot]) ++ [.emit (.turnEnded turnEnd)] ++ resolved ++ told ++
      started)

def signal (t : Turns) (signal : ThreadSignal) (closing : Bool) : Turns × List Action :=
  match signal with
  | .reported =>
    if t.running.isSome && !t.reported then ({ t with reported := true }, [.emit .reported])
    else (t, [])
  | .turnEnded turnEnd => t.end_ turnEnd closing

def notification (t : Turns) (method : String) (params : JsonValue) (closing : Bool) :
    Turns × List Action :=
  let event := eventTurnId method params
  if isStale t.turnId event then (t, [])
  else if method = turnStarted ∧ t.turnId = none then t.bindTurn event
  else
    match decodeSignal method params with
    | some signal => t.signal signal closing
    | none => (t, [])

end Turns

end Ralph.Worker.Codex
