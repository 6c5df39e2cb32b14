import Ralph.Chat.Queue
import Ralph.Machine
import Ralph.Snapshot.CapOutput

namespace Ralph.Chat.Turn
open ChatMemory

inductive Trigger
  | user
  | worker
  | sendIt
  deriving DecidableEq, Repr

/-- A line of the log without its time. -/
abbrev Line := Role × String

def triggerEntries (trigger : Trigger) (texts : List String) : List Line :=
  let role := match trigger with
    | .user | .sendIt => Role.user
    | .worker => .worker
  texts.map fun text => (role, text)

def replyEntries (reply : String) : List Line := [(.assistant, reply)]

def loggedBeforeReply (trigger : Trigger) : Bool := trigger = .worker

inductive ResetReason
  | tokens
  | turns
  | restart
  deriving DecidableEq, Repr

structure ResetLimits where
  turns : ℕ
  tokens : ℕ

structure IterationCosts where
  contextTokens : Option ℕ
  terminalReason : Option String

def blockingLimit : String := "blocking_limit"

def hitBlockingLimit (costs : IterationCosts) : Bool := costs.terminalReason = some blockingLimit

def resetReason (limits : ResetLimits) (turnsOnProcess : ℕ) (costs : IterationCosts) :
    Option ResetReason :=
  if limits.turns ≤ turnsOnProcess then some .turns
  else if costs.contextTokens.any (limits.tokens ≤ ·) || hitBlockingLimit costs then some .tokens
  else none

/-- `StreamingSubprocessResult`: the reply is `extract_response_text` of its blocks. -/
structure RunResult where
  exitCode : ℤ
  stderr : String
  reply : Option String
  costs : IterationCosts

inductive SubprocessError
  | spawnFailed (error : String)
  | stale
  | leftoverResult
  | signaled
  | outputCaptureFailed (text : String)
  | timeout (timeoutSecs : ℕ) (result : RunResult)
  | interrupted (result : RunResult)
  | themeError (error : String)

abbrev SubprocessOutcome := Except SubprocessError RunResult

def outageBackoffSecs : List ℕ := [2, 8]

def outageMarkers : List String :=
  ["overloaded", "api error: 5", "api error: 429", "rate limit", "rate_limit", "529", "503", "502",
    "500 internal", "econnreset", "econnrefused", "etimedout", "socket hang up",
    "connection error", "network error", "request timed out"]

inductive FailureKind
  | timeout
  | outage
  | refusal
  deriving DecidableEq, Repr

structure FailureText where
  timedOut : Bool
  exitCode : ℤ
  text : String

/-- `lower` is `str::to_lowercase`. -/
def classify (lower : String → String) (failure : FailureText) : FailureKind :=
  if failure.timedOut then .timeout
  else if failure.exitCode = 0 then .refusal
  else if outageMarkers.any (Snapshot.contains (lower failure.text)) then .outage
  else .refusal

def failureText (result : RunResult) : String := result.stderr ++ "\n" ++ result.reply.getD ""

/-- The failure of `attempt_from`, if the attempt is not done. -/
def failureOf : SubprocessOutcome → Option FailureText
  | .ok done => if done.exitCode ≠ 0 then some ⟨false, done.exitCode, failureText done⟩ else none
  | .error (.timeout _ result) => some ⟨true, result.exitCode, failureText result⟩
  | .error _ => none

structure Message where
  trigger : Trigger
  logged : List String
  message : String

/-- A turn that a process was asked for, and what came of it. -/
structure Call where
  sent : Message
  result : SubprocessOutcome

/-- A process of the chat: the log lines that its launch showed it, and its turns. -/
structure Session where
  view : List Line
  calls : List Call
  alive : Bool

/-- A process that the chat has let go, as it was then, and whether its turn was cancelled. -/
structure Gone where
  process : Session
  cancelled : Bool

/-- Who wrote a line of the log: a turn of this chat, a message to a worker that this chat sent on
its own, or another chat of the store. -/
inductive Writer
  | turn
  | direct
  | other
  deriving DecidableEq, Repr

abbrev Entry := Writer × Line

structure State where
  log : List Entry
  session : Option Session
  processTurns : ℕ
  reset : Option ResetReason
  /-- The reset that each launch took with it. -/
  launches : List (Option ResetReason)
  /-- The processes that were let go. -/
  gone : List Gone
  /-- The chat has ended. -/
  ended : Bool

def State.noteReset (s : State) (reason : ResetReason) : State :=
  { s with reset := s.reset <|> some reason }

def State.letGo (s : State) (p : Session) (cancelled : Bool) (reason : ResetReason) : State :=
  { s.noteReset reason with gone := s.gone ++ [⟨p, cancelled⟩] }

def State.dropSession (s : State) (cancelled : Bool) (reason : ResetReason) : State :=
  match s.session with
  | some p => { s with session := none }.letGo p cancelled reason
  | none => s

/-- Lines that are written one by one, with what other chats write before each of them. -/
def weave : List (List Line) → List Line → List Entry
  | _, [] => []
  | [], line :: lines => (.turn, line) :: weave [] lines
  | gap :: gaps, line :: lines => gap.map (.other, ·) ++ (.turn, line) :: weave gaps lines

/-- What writes to the log meet: lines of others, and the number of entries after which they fail. -/
structure Writes where
  gaps : List (List Line)
  fails : Option ℕ

def State.append (s : State) (lines : List Line) (writes : Writes) : State × Bool :=
  match writes.fails with
  | some written => ({ s with log := s.log ++ (weave writes.gaps lines).take written }, false)
  | none => ({ s with log := s.log ++ weave writes.gaps lines }, true)

def liveOrNote (held : Option Session) (s : State) : Option Session × State :=
  match held with
  | some p => if p.alive then (some p, s) else (none, s.letGo p false .restart)
  | none => (none, s)

/-- What a process makes of a turn, and whether it is there afterwards. -/
structure Answer where
  result : SubprocessOutcome
  alive : Bool

/-- `Session::turn`. -/
def Session.turn (p : Session) (sent : Message) (answer : Answer) : Session where
  view := p.view
  calls := p.calls ++ [⟨sent, answer.result⟩]
  alive := match answer.result with
    | .ok _ | .error (.interrupted _) => p.alive && answer.alive
    | .error _ => false

def relaunch : SubprocessOutcome → Bool
  | .error .stale | .error .leftoverResult => true
  | _ => false

/-- What one attempt meets: lines of other chats, how a process that is there answers, whether a
new one starts and how that one answers, whether the turn was stopped, and whether the wait behind
it runs out. -/
structure Tried where
  others : List Line
  reused : Answer
  launches : Except SubprocessError Unit
  fresh : Answer
  stopped : Bool
  waits : Bool

structure Attempted where
  session : Option Session
  result : SubprocessOutcome
  ran : Bool
  launched : Bool

/-- `Turn::start`, with what the launch shows the process. -/
def start (preLogLen : Option ℕ) (t : Tried) (s : State) : Except SubprocessError Session × State :=
  match t.launches with
  | .error e => (.error e, s)
  | .ok () => (.ok ⟨(preLogLen.elim s.log s.log.take).map Prod.snd, [], true⟩,
      { s with reset := none, launches := s.launches ++ [s.reset] })

def freshAttempt (preLogLen : Option ℕ) (sent : Message) (t : Tried) (s : State) :
    Attempted × State :=
  match start preLogLen t s with
  | (.error e, s) => (⟨none, .error e, false, false⟩, s)
  | (.ok p, s) => (⟨some (p.turn sent t.fresh), t.fresh.result, true, true⟩, s)

def attempt (preLogLen : Option ℕ) (sent : Message) (t : Tried) (reused : Option Session)
    (s : State) : Attempted × State :=
  match reused with
  | none => freshAttempt preLogLen sent t s
  | some p =>
    if relaunch t.reused.result then
      freshAttempt preLogLen sent t (s.letGo (p.turn sent t.reused) false .restart)
    else (⟨some (p.turn sent t.reused), t.reused.result, true, false⟩, s)

/-- The attempt as the retries see it: a process that failed is let go. -/
def tryOnce (preLogLen : Option ℕ) (sent : Message) (t : Tried) (reused : Option Session)
    (s : State) : Attempted × Option FailureText × State :=
  let (a, s) := attempt preLogLen sent t reused { s with log := s.log ++ t.others.map (.other, ·) }
  match if t.stopped then none else failureOf a.result with
  | none => (a, none, s)
  | some failure =>
    match a.session with
    | some p => ({ a with session := none }, some failure, s.letGo p false .restart)
    | none => (a, some failure, s)

def retryOnOutage (lower : String → String) (preLogLen : Option ℕ) (sent : Message)
    (tries : ℕ → Tried) : List ℕ → ℕ → Option Session → State → Attempted × State
  | [], n, held, s =>
    let (a, _, s) := tryOnce preLogLen sent (tries n) held s
    (a, s)
  | _ :: delays, n, held, s =>
    let (a, failure, s) := tryOnce preLogLen sent (tries n) held s
    match failure with
    | none => (a, s)
    | some failure =>
      if classify lower failure = .outage ∧ (tries n).waits then
        retryOnOutage lower preLogLen sent tries delays (n + 1) a.session s
      else (a, s)

inductive TurnEnd
  | completed
  | cancelled
  | exit
  deriving DecidableEq, Repr

structure TurnSignals where
  cancelled : Bool
  terminated : Bool

def turnEnd (signals : TurnSignals) : TurnEnd :=
  if signals.terminated then .exit else if signals.cancelled then .cancelled else .completed

def keepsSession (finish : TurnEnd) : Bool := finish ≠ .cancelled

def nextProcessTurns (ran launched : Bool) (current : ℕ) : ℕ :=
  match ran, launched with
  | false, _ => current
  | true, true => 1
  | true, false => current + 1

/-- What a turn meets outside: the marker of a pending turn and the length of the log, writes to
the log, a cancel before the session is there, the attempts, and the signals behind them. -/
structure Around where
  marks : Bool
  measures : Bool
  logs : Writes
  cancelledEarly : Bool
  tries : ℕ → Tried
  signals : TurnSignals
  replies : Writes

/-- A reply that counts goes into the log, with the message if that is not there yet. -/
def replied (limits : ResetLimits) (around : Around) (sent : Message) (done : RunResult)
    (reply : String) (s : State) : State × Option TurnOutcome :=
  let (s, logged) := if loggedBeforeReply sent.trigger then (s, true)
    else s.append (triggerEntries sent.trigger sent.logged) around.logs
  if logged then
    let (s, logged) := s.append (replyEntries reply) around.replies
    if logged then
      match resetReason limits s.processTurns done.costs with
      | some reason =>
        match s.session with
        | some p => ({ s with
            session := none, reset := some reason, gone := s.gone ++ [⟨p, false⟩] }, some .replied)
        | none => (s, some .replied)
      | none => (s, some .replied)
    else (s, none)
  else (s, none)

def finish (limits : ResetLimits) (around : Around) (sent : Message) (done : RunResult)
    (s : State) : State × Option TurnOutcome :=
  let blocked := hitBlockingLimit done.costs
  match done.reply with
  | some reply =>
    if done.exitCode = 0 ∧ !blocked then replied limits around sent done reply s
    else (s.dropSession false (if blocked then .tokens else .restart), some .unanswered)
  | none => (s.dropSession false (if blocked then .tokens else .restart), some .unanswered)

/-- The end of a turn that was run, with the process in its slot. -/
def conclude (limits : ResetLimits) (around : Around) (sent : Message) (result : SubprocessOutcome)
    (s : State) : State × Option TurnOutcome :=
  let turnEnded := turnEnd around.signals
  let s := if keepsSession turnEnded then s else s.dropSession true .restart
  match turnEnded, result with
  | .exit, _ => (s, some .exit)
  | .cancelled, _ => (s, some .unanswered)
  | .completed, .error (.interrupted _) => (s, some .exit)
  | .completed, .error _ => (s, some .unanswered)
  | .completed, .ok done => finish limits around sent done s

/-- `Turn::run_turn` behind the log entry of a worker report. No outcome is an error, which ends
the chat. -/
def answer (limits : ResetLimits) (lower : String → String) (around : Around) (sent : Message)
    (preLogLen : Option ℕ) (s : State) : State × Option TurnOutcome :=
  let (session, s) := liveOrNote s.session { s with session := none }
  if around.cancelledEarly then ({ s with session := session }, some .unanswered)
  else
    let (a, s) := retryOnOutage lower preLogLen sent around.tries outageBackoffSecs 0 session s
    let (session, s) := liveOrNote a.session s
    conclude limits around sent a.result { s with
      session := session
      processTurns := nextProcessTurns a.ran a.launched s.processTurns }

def runTurn (limits : ResetLimits) (lower : String → String) (around : Around) (sent : Message)
    (s : State) : State × Option TurnOutcome :=
  if !around.marks then (s, none)
  else if loggedBeforeReply sent.trigger then
    if !around.measures then (s, none)
    else
      let (logged, written) := s.append (triggerEntries sent.trigger sent.logged) around.logs
      if written then answer limits lower around sent (some s.log.length) logged
      else (logged, none)
  else answer limits lower around sent none s

inductive PingFollowUp
  | warm
  | keep
  | kill
  deriving DecidableEq, Repr

def pingFollowUp (exit : Option ℤ) (alive : Bool) : PingFollowUp :=
  if !alive then .kill
  else
    match exit with
    | some 0 => .warm
    | some _ => .keep
    | none => .kill

def Session.ping (p : Session) (answer : Answer) : Session :=
  let alive := p.alive && answer.alive
  match pingFollowUp (answer.result.toOption.map RunResult.exitCode) alive with
  | .kill => { p with alive := false }
  | .warm | .keep => { p with alive := alive }

/-- `memory_line` of a message that went to a worker. -/
def memoryLine (id text result : String) : String := s!"@{id} {text}\nResult: {result}"

/-- What can happen to the chat: a turn, a message to a worker, which may not be recorded, lines of
other chats of the store, a ping of the process, and the end of the process. -/
inductive Event
  | turn (around : Around) (sent : Message)
  | direct (id text result : String) (written : Bool)
  | others (lines : List Line)
  | ping (answer : Answer)
  | dies

def step (limits : ResetLimits) (lower : String → String) (s : State) (event : Event) :
    State × List (Message × TurnOutcome) :=
  if s.ended then (s, [])
  else
    match event with
    | .turn around sent =>
      match runTurn limits lower around sent s with
      | (s, some outcome) => ({ s with ended := outcome = .exit }, [(sent, outcome)])
      | (s, none) => ({ s with ended := true }, [])
    | .direct id text result written =>
      (if written then { s with log := s.log ++ [(.direct, .user, memoryLine id text result)] } else s,
        [])
    | .others lines => ({ s with log := s.log ++ lines.map (.other, ·) }, [])
    | .ping answer =>
      ({ s with session := s.session.map fun p => if p.alive then p.ping answer else p }, [])
    | .dies => ({ s with session := s.session.map fun p => { p with alive := false } }, [])

/-- A chat that starts on a store: what is in its log was written before. -/
def State.start (log : List Line) : State where
  log := log.map (.other, ·)
  session := none
  processTurns := 0
  reset := none
  launches := []
  gone := []
  ended := false

end Ralph.Chat.Turn
