import Ralph.Worker.Markers

namespace Ralph.Worker.Stall

def reasonApiError : String := "api error"

structure AutoContinue where
  at_ : ℕ
  reason : String
  alerted : Bool
  deriving DecidableEq, Repr

def AutoContinue.new (at_ : ℕ) (reason : String) : AutoContinue := ⟨at_, reason, false⟩

/-- `AutoContinue::alerted`. -/
def AutoContinue.markAlerted (record : AutoContinue) : AutoContinue := { record with alerted := true }

structure StallFacts where
  activity : Option ActivityMark
  reported : Bool
  record : Option AutoContinue
  sentAt : Option ℕ
  now : ℕ
  checkSecs : ℕ
  deriving DecidableEq, Repr

inductive ContinueStep
  | stampRecord
  | log
  | removeRecord
  deriving DecidableEq, Repr

structure RecordGate where
  send : Bool
  warn : Bool
  deriving DecidableEq, Repr

def gateSend (written warnedInStreak : Bool) : RecordGate := ⟨written, !written && !warnedInStreak⟩

def afterSend (sent : Bool) : List ContinueStep := if sent then [.stampRecord, .log] else [.removeRecord]

inductive StallAction
  | none
  | continue_
  | alert
  | resetRecord
  deriving DecidableEq, Repr

def graceChecks : ℕ := 2

/-- The largest `u64`, where the sums of the grace time stop. -/
def u64Max : ℕ := 2 ^ 64 - 1

def graceSecs (checkSecs : ℕ) : ℕ := min (checkSecs * graceChecks) u64Max

def wentUnanswered (record : AutoContinue) (facts : StallFacts) : Bool :=
  decide (min (record.at_ + graceSecs facts.checkSecs) u64Max ≤ facts.now)

def reportedSinceGoAhead (sentAt reportAt : Option ℕ) : Bool :=
  match sentAt with
  | .none => true
  | some sent => reportAt.any fun report => decide (sent ≤ report)

def failedAfterGoAhead (mark : ActivityMark) (facts : StallFacts) : Bool :=
  facts.sentAt.all fun sent => decide (sent ≤ mark.at_)

def goAheadSince (record : AutoContinue) (facts : StallFacts) : Bool :=
  facts.sentAt.any fun sent => decide (record.at_ < sent)

def stallAction (facts : StallFacts) : StallAction :=
  -- a touch of the marker in a later second than the record counts as a go-ahead
  if facts.record.any fun record => goAheadSince record facts then .resetRecord
  else
    match facts.activity with
    | .none => .none
    -- the process is idle or has failed, and nothing was reported since the go-ahead
    | some mark =>
      if mark.busy || facts.reported then .none
      else
        match facts.record with
        | .none => if mark.state == .failed && failedAfterGoAhead mark facts then .continue_ else .none
        | some record =>
          if !record.alerted && (decide (record.at_ < mark.at_) || wentUnanswered record facts) then .alert
          else .none

/-- How a write ended: a failed one left the old text, or an empty file. -/
inductive Written
  | written
  | kept
  | emptied
  deriving DecidableEq, Repr

def Written.leaves (outcome : Written) (old : Option AutoContinue) (new : AutoContinue) : Option AutoContinue :=
  match outcome with
  | written => some new
  | kept => old
  | emptied => none

/-- What went on: touches of the sent marker by others and reports; records written, continues sent,
records stamped (with the second, and the marker's second and the record from before) and alerts. -/
inductive Happened
  | touched
  | reported
  | recorded
  | continued
  | stamped (outcome : Written) (now : ℕ) (sent : Option ℕ) (record : Option AutoContinue)
  | alertPosted
  | alertWritten (outcome : Written)
  deriving DecidableEq, Repr

/-- The worker's files as they are read, the time that the marker was touched at by the clock of the
disk, the newest report that the monitor knows, both clocks in nanoseconds, whether the last write of
a record failed, and the operations done so far. -/
structure World where
  sent : Option ℕ
  activity : Option ActivityMark
  record : Option AutoContinue
  lastReport : Option String
  clock : ℕ
  disk : ℕ
  unrecorded : Bool
  step : ℕ
  history : List Happened

/-- What others do between two operations of the monitor. A report may delete the marker. -/
inductive Other
  | time (clock disk : ℕ)
  | touch
  | report (last : Option String) (deletesSent : Bool)
  | mark (mark : Option ActivityMark)

/-- What comes before an operation, and how the operation ends. -/
structure Input where
  others : List Other
  write : Written
  removed : Bool
  delivered : Bool
  marked : Bool

/-- `report_secs`, the check interval, and what every operation meets. -/
structure Env where
  reportSecs : String → Option ℕ
  checkSecs : ℕ
  inputs : ℕ → Input

def nanosPerSec : ℕ := 1000000000

def secs (time : ℕ) : ℕ := time / nanosPerSec

namespace World

def happens (w : World) (event : Happened) : World := { w with history := w.history ++ [event] }

def other (w : World) : Other → World
  | .time clock disk => { w with clock := w.clock + clock, disk := w.disk + disk }
  | .touch => { w with sent := some w.disk, history := w.history ++ [.touched] }
  | .report last deletesSent =>
    { w with
      lastReport := last, sent := if deletesSent then none else w.sent, history := w.history ++ [.reported] }
  | .mark mark => { w with activity := mark }

def sentSecs (w : World) : Option ℕ := w.sent.map secs

end World

section Step

variable (env : Env)

/-- The others' doings before the next operation. -/
def before (w : World) : World :=
  { (env.inputs w.step).others.foldl World.other w with step := w.step + 1 }

def facts (w : World) : StallFacts × World :=
  -- each file is read on its own, and others may come between
  let w := before env w
  let lastReport := w.lastReport
  let w := before env w
  let sentAt := w.sentSecs
  let w := before env w
  let activity := w.activity
  let w := before env w
  let record := w.record
  let w := before env w
  let reported := reportedSinceGoAhead sentAt (lastReport.bind env.reportSecs)
  (⟨activity, reported, record, sentAt, secs w.clock, env.checkSecs⟩, w)

def removeRecord (w : World) : World :=
  let removed := (env.inputs w.step).removed
  let w := before env w
  { w with record := if removed then none else w.record }

def recordContinue (at_ : ℕ) (w : World) : Bool × World :=
  let outcome := (env.inputs w.step).write
  let w := before env w
  let gate := gateSend (outcome == .written) w.unrecorded
  (gate.send, { w with
    record := outcome.leaves w.record (.new at_ reasonApiError)
    unrecorded := outcome != .written
    history := w.history ++ if outcome = .written then [.recorded] else [] })

def markSent (w : World) : World :=
  let marked := (env.inputs w.step).marked
  let w := before env w
  { w with sent := if marked then some w.disk else w.sent }

def nudge (w : World) : Bool × World :=
  let delivered := (env.inputs w.step).delivered
  let w := before env w
  if delivered then (true, markSent env (w.happens .continued)) else (false, w)

def stampRecord (w : World) : World :=
  let w := before env w
  -- the second is taken before the record is written
  let now := secs w.clock
  let outcome := (env.inputs w.step).write
  let w := before env w
  { w with
    record := outcome.leaves w.record (.new now reasonApiError)
    history := w.history ++ [.stamped outcome now w.sentSecs w.record] }

def runStep (w : World) : ContinueStep → World
  | .stampRecord => stampRecord env w
  | .removeRecord => removeRecord env w
  | .log => before env w

def runSteps (steps : List ContinueStep) (w : World) : World := steps.foldl (runStep env) w

def autoContinueWorker (w : World) : World :=
  let (found, w) := facts env w
  -- the facts are read a second time, before the record is written
  if stallAction found ≠ .continue_ then w
  else
    let w := before env w
    let (send, w) := recordContinue env (secs w.clock) w
    if !send then w
    else
      let (sent, w) := nudge env w
      runSteps env (afterSend sent) w

def recordAlert (record : AutoContinue) (w : World) : World :=
  let outcome := (env.inputs w.step).write
  let w := before env w
  { w with
    record := outcome.leaves w.record record.markAlerted
    history := w.history ++ [.alertWritten outcome] }

def alertStalled (record : Option AutoContinue) (w : World) : World :=
  let w := (before env w).happens .alertPosted
  match record with
  | none => w
  | some record => recordAlert env record w

def stallStep (w : World) : World :=
  let (found, w) := facts env w
  if found.reported && found.record.isSome then removeRecord env w
  else
    match stallAction found with
    | .none => w
    | .continue_ => autoContinueWorker env w
    | .resetRecord => removeRecord env w
    | .alert => alertStalled env found.record w

/-- The world after some ticks of the monitor. -/
def ticks : ℕ → World → World
  | 0, w => w
  | n + 1, w => stallStep env (ticks n w)

end Step

end Ralph.Worker.Stall
