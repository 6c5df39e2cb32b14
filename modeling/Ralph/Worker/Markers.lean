import Ralph.Chat.Words

namespace Ralph.Worker
open Chat (trim splitOnce stripPrefix parseUsize)

inductive ActivityState
  | running
  | background
  | idle
  | failed
  deriving DecidableEq, Repr

namespace ActivityState

def label : ActivityState → String
  | running => "running"
  | background => "background"
  | idle => "idle"
  | failed => "failed"

def all : List ActivityState := [running, background, idle, failed]

def parse (text : String) : Option ActivityState := all.find? fun state => state.label == text

def busy (state : ActivityState) : Bool := state == running || state == background

end ActivityState

structure ActivityMark where
  at_ : ℕ
  state : ActivityState
  deriving DecidableEq, Repr

def ActivityMark.parse (text : String) : Option ActivityMark :=
  (splitOnce (· == ' ') (trim text)).bind fun parts =>
    (parseUsize parts.1).bind fun at_ => (ActivityState.parse parts.2).map fun state => ⟨at_, state⟩

def ActivityMark.busy (mark : ActivityMark) : Bool := mark.state.busy

inductive Scope
  | worker
  | server (name : String)
  deriving DecidableEq, Repr

def serverGonePrefix : String := "scope server "

def parseGone (text : String) : Scope × String :=
  let server := (splitOnce (· == '\n') text).bind fun parts =>
    (stripPrefix parts.1 serverGonePrefix).map fun name => (name, parts.2)
  match server with
  | some (name, reason) => (.server name, trim reason)
  | none => (.worker, trim text)

theorem ActivityState.parse_label (state : ActivityState) : ActivityState.parse state.label = some state := by
  cases state <;> decide

end Ralph.Worker
