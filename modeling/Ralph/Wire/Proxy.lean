import Ralph.Program
import Ralph.Wire.Build

namespace Ralph.Wire

def maxBodyBytes : ℕ := 32 * 1024 * 1024
/-- `SHUTDOWN_DRAIN`, in nanoseconds. -/
def shutdownDrain : ℕ := 2 * 1000000000
def interruptedText : String := "interrupted"

structure Capture where
  status : Option ℕ := none
  firstByteAt : Option Moment := none
  headers : Headers := []
  body : Bytes := []
  error : Option String := none

structure OpenCall where
  seq : ℕ
  startedAt : Moment
  head : RequestHead
  requestBody : Bytes
  deriving DecidableEq

inductive ToStore (Amount : Type)
  | call (record : CallRecord Amount)
  | stop

inductive DrainAction
  | wait
  | finish
  deriving DecidableEq

def drainAction (elapsed limit open_ : ℕ) : DrainAction :=
  if open_ = 0 ∨ limit ≤ elapsed then .finish else .wait

/-- The open calls by number, as the map keeps them. -/
def insertOpen (call : OpenCall) : List OpenCall → List OpenCall
  | [] => [call]
  | c :: calls =>
    if call.seq < c.seq then call :: c :: calls
    else if call.seq = c.seq then call :: calls
    else c :: insertOpen call calls

/-- What one thread of the proxy does. -/
inductive Op (ι Amount : Type)
  | now
  | number (me : ι)
  | isClosed
  | insert (call : OpenCall)
  | receive
  | tooLarge (message : String)
  | setBody (seq : ℕ) (body : Bytes)
  | relay (head : RequestHead) (body : Bytes)
  | finish (record : CallRecord Amount)
  | send (record : CallRecord Amount)

abbrev Op.Answer {ι Amount : Type} : Op ι Amount → Type
  | now => Moment
  | number _ => ℕ
  | isClosed => Bool
  | insert _ => Unit
  | receive => Bytes × Option String
  | tooLarge _ => Unit
  | setBody _ _ => Unit
  | relay _ _ => Capture
  | finish _ => Unit
  | send _ => Unit

structure Proxy (Amount : Type) where
  env : Env Amount
  provider : ProviderId
  storeEvents : Bool

namespace Proxy

variable {ι Amount : Type} (proxy : Proxy Amount)

def interrupted (call : OpenCall) (now : Moment) : CallRecord Amount :=
  buildCall proxy.env proxy.provider
    { seq := call.seq, startedAt := call.startedAt, firstByteAt := none, endedAt := now,
      head := call.head, requestBody := call.requestBody, status := none, responseHeaders := [],
      responseBody := [], transportError := some interruptedText, storeEvents := proxy.storeEvents }

def finished (call : OpenCall) (body : Bytes) (capture : Capture) (now : Moment) :
    CallRecord Amount :=
  buildCall proxy.env proxy.provider
    { seq := call.seq, startedAt := call.startedAt, firstByteAt := capture.firstByteAt,
      endedAt := now, head := call.head, requestBody := body, status := capture.status,
      responseHeaders := capture.headers, responseBody := capture.body,
      transportError := capture.error, storeEvents := proxy.storeEvents }

/-- The body of a call that was taken in, and what came of it. -/
def serve (call : OpenCall) : Program (Op ι Amount) Op.Answer (Bytes × Capture) := do
  match ← Program.op Op.receive with
  | (body, none) =>
    if maxBodyBytes < body.length then
      let message := s!"request body is over the limit of {maxBodyBytes} bytes"
      Program.op (Op.tooLarge message)
      pure ([], { error := some message })
    else
      Program.op (Op.setBody call.seq body)
      let capture ← Program.op (Op.relay call.head body)
      pure (body, capture)
  | (body, some error) => pure (body, { error := some s!"request body read failed: {error}" })

def handle (me : ι) (head : RequestHead) : Program (Op ι Amount) Op.Answer Unit := do
  let startedAt ← Program.op Op.now
  let seq ← Program.op (Op.number me)
  let call : OpenCall := ⟨seq, startedAt, head, []⟩
  if ← Program.op Op.isClosed then
    let now ← Program.op Op.now
    Program.op (Op.send (proxy.interrupted call now))
  else
    Program.op (Op.insert call)
    let (body, capture) ← serve call
    let now ← Program.op Op.now
    Program.op (Op.finish (proxy.finished call body capture now))

end Proxy

/-- Where the main thread is: `close_open` has the calls that it took out and did not yet record. -/
inductive Main
  | accepting
  | draining
  | drained
  | closing (rest : List OpenCall)
  | stopped
  deriving DecidableEq

/-- The state of the proxy and its store; beside it the requests in the order in which they got
their numbers, and the calls that were taken in. -/
structure Shared (ι Amount : Type) where
  numbers : List ι
  closed : Bool
  open_ : List OpenCall
  queue : List (ToStore Amount)
  main : Main
  file : List (CallRecord Amount)
  writing : Bool
  taken : List OpenCall

variable {ι Amount : Type}

/-- The number of the request after `n` others: the counter is a `u64`. -/
def seqOf (n : ℕ) : ℕ := (n + 1) % 2 ^ 64

namespace Shared

def start : Shared ι Amount := ⟨[], false, [], [], .accepting, [], true, []⟩

/-- A message to a writer that has stopped is dropped. -/
def send (s : Shared ι Amount) (message : ToStore Amount) : Shared ι Amount :=
  if s.writing then { s with queue := s.queue ++ [message] } else s

end Shared

/-- One operation of a thread. -/
def Does (o : Op ι Amount) (s : Shared ι Amount) (r : o.Answer) (s' : Shared ι Amount) : Prop :=
  match o with
  | .now => s' = s
  | .number me => s' = { s with numbers := s.numbers ++ [me] } ∧ r = seqOf s.numbers.length
  | .isClosed => s' = s ∧ r = s.closed
  | .insert call =>
    s' = { s with open_ := insertOpen call s.open_, taken := s.taken ++ [call] }
  | .receive => s' = s
  | .tooLarge _ => s' = s
  | .setBody seq body => s' = { s with
      open_ := s.open_.map fun call =>
        if call.seq = seq then { call with requestBody := body } else call }
  | .relay _ _ => s' = s
  | .finish record =>
    -- the main thread has recorded the call as interrupted already
    (record.seq ∉ s.open_.map OpenCall.seq ∧ s' = s) ∨
      record.seq ∈ s.open_.map OpenCall.seq ∧
        s' = { s with open_ := s.open_.filter (·.seq ≠ record.seq) }.send (.call record)
  | .send record => s' = s.send (.call record)

/-- A step of the main thread or of `write_loop`. -/
inductive Server (proxy : Proxy Amount) (s : Shared ι Amount) : Shared ι Amount → Prop
  | stopAccepting (h : s.main = .accepting) :
      Server proxy s { s with closed := true, main := .draining }
  | wait (elapsed : ℕ) (h : s.main = .draining)
      (haction : drainAction elapsed shutdownDrain s.open_.length = .wait) : Server proxy s s
  | drain (elapsed : ℕ) (h : s.main = .draining)
      (haction : drainAction elapsed shutdownDrain s.open_.length = .finish) :
      Server proxy s { s with main := .drained }
  | take (h : s.main = .drained) : Server proxy s { s with open_ := [], main := .closing s.open_ }
  | record {call : OpenCall} {rest : List OpenCall} (now : Moment)
      (h : s.main = .closing (call :: rest)) :
      Server proxy s ({ s with main := .closing rest }.send (.call (proxy.interrupted call now)))
  | stop (h : s.main = .closing []) : Server proxy s ({ s with main := .stopped }.send .stop)
  | append {record : CallRecord Amount} {queue : List (ToStore Amount)} (hwriting : s.writing)
      (h : s.queue = .call record :: queue) :
      Server proxy s { s with queue, file := s.file ++ [record] }
  | end_ {queue : List (ToStore Amount)} (hwriting : s.writing) (h : s.queue = .stop :: queue) :
      Server proxy s { s with queue, writing := false }

end Ralph.Wire
