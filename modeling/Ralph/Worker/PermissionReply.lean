import Mathlib.Tactic
import Ralph.Interleaving

namespace Ralph.Worker

variable {ι : Type*} [DecidableEq ι]

/-- What the handler makes of an answer: it takes it, or refuses it with a message. -/
inductive Verdict
  | taken
  | refused (message : String)
  deriving DecidableEq

/-- The host between two file operations of `take_answer`. -/
inductive ReplyHost (ι : Type*)
  | idle
  | claimed
  | handling (answer : ι)
  | handled (verdict : Verdict)
  | closing (verdict : Verdict)

/-- The files of a worker, each with the call that wrote it, the lock, and the answers that were
handled. -/
structure ReplyFiles (ι : Type*) where
  staging : Option ι
  answer : Option ι
  claim : Option ι
  error : Option String
  lock : Option ι
  host : ReplyHost ι
  log : List (ι × Verdict)

inductive ReplyResult
  | answered
  | refused (message : String)
  | lockTimeout
  | earlierAnswer
  | notPickedUp
  | outcomeUnknown
  deriving DecidableEq

/-- A call between two file operations of `answer_permission`. -/
inductive ReplyPhase
  | start
  | locked
  | settled
  | cleared
  | staged
  | posted
  | answerGone
  | pending
  | timedOut
  | withdrawn
  | notRemoved
  | finished
  | told (message : String)
  | done (result : ReplyResult)
  deriving DecidableEq

structure ReplyCall (ι : Type*) where
  id : ι
  phase : ReplyPhase

/-- One file operation of a call. The lock is released when the call returns. -/
inductive ReplyMove : ReplyFiles ι → ReplyCall ι → ReplyFiles ι → ReplyCall ι → Prop
  | lock {s : ReplyFiles ι} {i : ι} (hfree : s.lock = none) :
      ReplyMove s ⟨i, .start⟩ { s with lock := some i } ⟨i, .locked⟩
  | lockTimeout {s : ReplyFiles ι} {i : ι} (hheld : s.lock ≠ none) :
      ReplyMove s ⟨i, .start⟩ s ⟨i, .done .lockTimeout⟩
  | settle {s : ReplyFiles ι} {i : ι} (hclaim : s.claim = none) : ReplyMove s ⟨i, .locked⟩ s ⟨i, .settled⟩
  | settleTimeout {s : ReplyFiles ι} {i : ι} (hclaim : s.claim ≠ none) :
      ReplyMove s ⟨i, .locked⟩ { s with lock := none } ⟨i, .done .earlierAnswer⟩
  | clear {s : ReplyFiles ι} {i : ι} : ReplyMove s ⟨i, .settled⟩ { s with error := none } ⟨i, .cleared⟩
  | stage {s : ReplyFiles ι} {i : ι} : ReplyMove s ⟨i, .cleared⟩ { s with staging := some i } ⟨i, .staged⟩
  | post {s : ReplyFiles ι} {i : ι} :
      ReplyMove s ⟨i, .staged⟩ { s with answer := s.staging, staging := none } ⟨i, .posted⟩
  | answerExists {s : ReplyFiles ι} {i : ι} (hanswer : s.answer ≠ none) :
      ReplyMove s ⟨i, .posted⟩ s ⟨i, .pending⟩
  | answerGone {s : ReplyFiles ι} {i : ι} (hanswer : s.answer = none) :
      ReplyMove s ⟨i, .posted⟩ s ⟨i, .answerGone⟩
  | claimExists {s : ReplyFiles ι} {i : ι} (hclaim : s.claim ≠ none) :
      ReplyMove s ⟨i, .answerGone⟩ s ⟨i, .pending⟩
  | claimGone {s : ReplyFiles ι} {i : ι} (hclaim : s.claim = none) :
      ReplyMove s ⟨i, .answerGone⟩ s ⟨i, .finished⟩
  | poll {s : ReplyFiles ι} {i : ι} : ReplyMove s ⟨i, .pending⟩ s ⟨i, .posted⟩
  | timeout {s : ReplyFiles ι} {i : ι} : ReplyMove s ⟨i, .pending⟩ s ⟨i, .timedOut⟩
  | withdraw {s : ReplyFiles ι} {i : ι} (hanswer : s.answer ≠ none) :
      ReplyMove s ⟨i, .timedOut⟩ { s with answer := none } ⟨i, .withdrawn⟩
  | notRemoved {s : ReplyFiles ι} {i : ι} (hanswer : s.answer = none) :
      ReplyMove s ⟨i, .timedOut⟩ s ⟨i, .notRemoved⟩
  | notPickedUp {s : ReplyFiles ι} {i : ι} :
      ReplyMove s ⟨i, .withdrawn⟩ { s with lock := none } ⟨i, .done .notPickedUp⟩
  | outcomeUnknown {s : ReplyFiles ι} {i : ι} (hclaim : s.claim ≠ none) :
      ReplyMove s ⟨i, .notRemoved⟩ { s with lock := none } ⟨i, .done .outcomeUnknown⟩
  | finishedLate {s : ReplyFiles ι} {i : ι} (hclaim : s.claim = none) :
      ReplyMove s ⟨i, .notRemoved⟩ s ⟨i, .finished⟩
  | readError {s : ReplyFiles ι} {i : ι} {message : String} (herror : s.error = some message) :
      ReplyMove s ⟨i, .finished⟩ s ⟨i, .told message⟩
  | noError {s : ReplyFiles ι} {i : ι} (herror : s.error = none) :
      ReplyMove s ⟨i, .finished⟩ { s with lock := none } ⟨i, .done .answered⟩
  | clearError {s : ReplyFiles ι} {i : ι} {message : String} :
      ReplyMove s ⟨i, .told message⟩ { s with error := none, lock := none } ⟨i, .done (.refused message)⟩

/-- One file operation of `take_answer`, or the handler in it. -/
inductive TakeAnswer : ReplyFiles ι → ReplyFiles ι → Prop
  | claim {s : ReplyFiles ι} {i : ι} (hidle : s.host = .idle) (hanswer : s.answer = some i) :
      TakeAnswer s { s with answer := none, claim := some i, host := .claimed }
  | read {s : ReplyFiles ι} {i : ι} (hclaimed : s.host = .claimed) (hclaim : s.claim = some i) :
      TakeAnswer s { s with host := .handling i }
  | handle {s : ReplyFiles ι} {i : ι} (hhandling : s.host = .handling i) (verdict : Verdict) :
      TakeAnswer s { s with host := .handled verdict, log := s.log ++ [(i, verdict)] }
  | taken {s : ReplyFiles ι} (hhandled : s.host = .handled .taken) :
      TakeAnswer s { s with host := .closing .taken }
  | refused {s : ReplyFiles ι} {message : String} (hhandled : s.host = .handled (.refused message)) :
      TakeAnswer s { s with error := some message, host := .closing (.refused message) }
  | close {s : ReplyFiles ι} {verdict : Verdict} (hclosing : s.host = .closing verdict) :
      TakeAnswer s { s with claim := none, host := .idle }

/-- Calls and the host, each by one operation at a time. -/
abbrev ReplyRun : Interleaving.World ι (ReplyFiles ι) (ReplyCall ι) →
    Interleaving.World ι (ReplyFiles ι) (ReplyCall ι) → Prop := Interleaving.Run ReplyMove TakeAnswer

/-- No call has begun. An error and a staged answer of earlier times may lie there. -/
def replyStart (error : Option String) (staging : Option ι) : Interleaving.World ι (ReplyFiles ι) (ReplyCall ι) :=
  ⟨⟨staging, none, none, error, none, .idle, []⟩, fun i => ⟨i, .start⟩⟩

def Verdict.message : Verdict → Option String
  | taken => none
  | refused message => some message

namespace ReplyFiles

def Handled (s : ReplyFiles ι) (i : ι) : Prop := ∃ verdict, (i, verdict) ∈ s.log

/-- The claim and the log, by what the host is doing. -/
def HostOk (s : ReplyFiles ι) : Prop :=
  match s.host with
  | .idle => s.claim = none
  | .claimed => ∃ i, s.claim = some i ∧ ¬ s.Handled i
  | .handling i => s.claim = some i ∧ ¬ s.Handled i
  | .handled verdict => ∃ i, s.claim = some i ∧ (i, verdict) ∈ s.log
  | .closing verdict => ∃ i, s.claim = some i ∧ (i, verdict) ∈ s.log

structure Ok (s : ReplyFiles ι) : Prop where
  host : s.HostOk
  unlocked : s.lock = none → s.answer = none
  new : ∀ i ∈ s.answer, ¬ s.Handled i ∧ s.claim ≠ some i
  once : (s.log.map Prod.fst).Nodup

/-- The host never sees the answer of the call. -/
structure Fresh (s : ReplyFiles ι) (i : ι) : Prop where
  answer : s.answer ≠ some i
  claim : s.claim ≠ some i
  log : ¬ s.Handled i

/-- The answer of the call lies there for the host. -/
structure Waiting (s : ReplyFiles ι) (i : ι) : Prop where
  answer : s.answer = some i
  claim : s.claim = none
  error : s.error = none
  log : ¬ s.Handled i

/-- The error file is about the claimed answer. -/
def ErrorOk (s : ReplyFiles ι) (i : ι) : Prop :=
  match s.host with
  | .closing verdict => (i, verdict) ∈ s.log ∧ s.error = verdict.message
  | .handled verdict => (i, verdict) ∈ s.log ∧ s.error = none
  | _ => s.error = none

/-- The host has the answer of the call. -/
structure Claimed (s : ReplyFiles ι) (i : ι) : Prop where
  answer : s.answer = none
  claim : s.claim = some i
  error : s.ErrorOk i

/-- The host is through with the answer of the call. -/
structure Finished (s : ReplyFiles ι) (i : ι) : Prop where
  answer : s.answer = none
  claim : s.claim = none
  error : ∃ verdict, (i, verdict) ∈ s.log ∧ s.error = verdict.message

def InFlight (s : ReplyFiles ι) (i : ι) : Prop := s.Waiting i ∨ s.Claimed i ∨ s.Finished i

/-- What holds in a phase of a call. -/
def PhaseOk (s : ReplyFiles ι) (i : ι) : ReplyPhase → Prop
  | .start => s.Fresh i
  | .locked => s.Fresh i ∧ s.answer = none
  | .settled => s.Fresh i ∧ s.answer = none ∧ s.claim = none
  | .cleared => s.Fresh i ∧ s.answer = none ∧ s.claim = none ∧ s.error = none
  | .staged => s.Fresh i ∧ s.answer = none ∧ s.claim = none ∧ s.error = none ∧ s.staging = some i
  | .posted => s.InFlight i
  | .pending => s.InFlight i
  | .timedOut => s.InFlight i
  | .answerGone => s.Claimed i ∨ s.Finished i
  | .notRemoved => s.Claimed i ∨ s.Finished i
  | .withdrawn => s.Fresh i ∧ s.answer = none
  | .finished => s.Finished i
  | .told message => s.answer = none ∧ (i, .refused message) ∈ s.log
  | .done .answered => (i, .taken) ∈ s.log
  | .done (.refused message) => (i, .refused message) ∈ s.log
  | .done .outcomeUnknown => True
  | .done .notPickedUp => s.Fresh i
  | .done .lockTimeout => s.Fresh i
  | .done .earlierAnswer => s.Fresh i

end ReplyFiles

def ReplyPhase.Holds : ReplyPhase → Prop
  | .start => False
  | .done _ => False
  | _ => True

end Ralph.Worker
