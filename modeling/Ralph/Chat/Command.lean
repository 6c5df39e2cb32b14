import Mathlib.Data.List.DropRight
import Ralph.ChatMemory.Tree

namespace Ralph.Chat
open ChatMemory

/-- `str::trim`, on characters. -/
def trimChars (cs : List Char) : List Char := (cs.dropWhile isWhitespace).rdropWhile isWhitespace

def trim (s : String) : String := String.ofList (trimChars s.toList)

/-- `str::strip_prefix` on a text. -/
def stripPrefix (s pre : String) : Option String :=
  if pre.toList.isPrefixOf s.toList then some (String.ofList (s.toList.drop pre.toList.length))
  else none

/-- `str::starts_with` on a predicate of characters. -/
def startsWith (s : String) (p : Char → Bool) : Bool := (s.toList.head?.map p).getD false

inductive Command
  | help
  | inbox
  | watch
  | schedule
  | diff
  | workers
  | hold
  | nudge
  | sendIt
  | fork
  | thread
  | threads
  | pull
  | park
  | merge
  | main
  | config
  | view
  | read
  | zoom
  | recall_
  | search
  deriving DecidableEq, Repr

namespace Command

/-- `Command::ALL`, in the order in which the router tries them. -/
def all : List Command :=
  [help, inbox, watch, schedule, diff, workers, hold, nudge, sendIt, fork, thread, threads, pull,
    park, merge, main, config, view, read, zoom, recall_, search]

def name : Command → String
  | help => "/help"
  | inbox => "/inbox"
  | watch => "/watch"
  | schedule => "/schedule"
  | diff => "/diff"
  | workers => "/workers"
  | hold => "/hold"
  | nudge => "/nudge"
  | sendIt => "/send-it"
  | fork => "/fork"
  | thread => "/thread"
  | threads => "/threads"
  | pull => "/pull"
  | park => "/park"
  | merge => "/merge"
  | main => "/main"
  | config => "/config"
  | view => "/view"
  | read => "/read"
  | zoom => "/zoom"
  | recall_ => "/recall"
  | search => "/search"

def args (c : Command) (line : String) : Option String :=
  match stripPrefix line c.name with
  | none => none
  | some args =>
    let takesArgs := c ≠ help ∧ c ≠ config
    if args = "" ∨ takesArgs ∧ startsWith args isWhitespace then some args else none

end Command

end Ralph.Chat
