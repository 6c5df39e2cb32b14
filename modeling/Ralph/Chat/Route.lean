import Ralph.Chat.Args
import Ralph.Inbox.Ledger

namespace Ralph.Chat
open ChatMemory Inbox SendIt

inductive Route
  | send (message : String)
  | shell (line : String)
  | readInbox (selection : Selection)
  | listInbox
  | peekInbox (position : Position)
  | dropInbox (position : Position)
  | inboxUsage
  | watch (command : WatchCommand)
  | schedule (command : ScheduleCommand)
  | diff (args : DiffArgs)
  | workers (id : Option String)
  | workerCosts (args : CostsArgs)
  | hold (filter : HoldFilter)
  | nudge (command : NudgeCommand)
  | direct (direct : Direct)
  | sendIt (command : SendItCommand)
  | fork (command : ForkCommand)
  | switch (parsed : Except String SwitchTarget) (line : String)
  | threadOp (op : Except String ThreadOp) (line : String)
  | history (tool words : String) (cursor : Option String)
  | view (args : ViewArgs)
  | help
  | config
  | ignore

def Route.runsMidTurn : Route → Bool
  | workers _ | workerCosts _ | peekInbox _ | listInbox | help | config | history .. | inboxUsage
  | watch .list | watch .usage | schedule .list | schedule .usage | diff (.usage _)
  | diff .unclosedQuote => true
  | _ => false

/-- What an empty line does. -/
inductive EmptySubmit
  | inbox
  | inboxFirst (phrase : String)
  | phrase (phrase : String)
  deriving DecidableEq, Repr

def emptyRoute (unread : ℕ) : EmptySubmit → Route
  | .phrase phrase => .send phrase
  | .inboxFirst phrase => if unread > 0 then .readInbox .all else .send phrase
  | .inbox => if unread > 0 then .readInbox .all else .ignore

/-- The words before `--cursor`, and the cursor behind it. -/
def splitCursor (args : String) : String × Option String :=
  let args := trim args
  match rsplitOnce isWhitespace args with
  | none => (args, none)
  | some (head, cursor) =>
    let head := String.ofList (head.toList.rdropWhile isWhitespace)
    let flag := "--cursor"
    if flag.toList.isSuffixOf head.toList then
      let words := head.toList.take (head.toList.length - flag.toList.length)
      if words = [] ∨ (words.getLast?.map isWhitespace).getD false then
        (String.ofList words, some cursor)
      else (args, none)
    else (args, none)

def workerIdPrefix : String := "sched-"

def scheduledWorkerId (id : String) : String :=
  match stripPrefix id scheduleIdPrefix with
  | some task => if task ≠ "" then workerIdPrefix ++ task else id
  | none => id

def workersRoute (args line : String) : Route :=
  match splitWhitespace args with
  | [] => .workers none
  | first :: rest =>
    if first = "costs" then
      match parseCostsArgs rest with
      | some costs => .workerCosts costs
      | none => .send line
    else if rest = [] then .workers (some (scheduledWorkerId first))
    else .send line

def holdRoute (args line : String) (targets : Finset String) : Route :=
  let tokens := splitWhitespace args
  let several := tokens[1]?.isSome
  let listed := !several || tokens.all (· ∈ targets)
  match (HoldFilter.parse args).filter fun _ => listed with
  | some filter => .hold filter
  | none => .send line

def parsePosition (s : String) : Option Position :=
  match parseUsize s with
  | some n => if h : 0 < n then some ⟨n, h⟩ else none
  | none => none

def inboxRoute (args : String) : Route :=
  let at_ := fun (route : Position → Route) n => ((parsePosition n).map route).getD .inboxUsage
  match splitWhitespace args with
  | [] => .readInbox .all
  | ["next"] => .readInbox .next
  | ["list"] => .listInbox
  | ["peek", n] => at_ .peekInbox n
  | ["drop", n] => at_ .dropInbox n
  | [n] => at_ (fun position => .readInbox (.at position)) n
  | _ => .inboxUsage

/-- The branch of one command, with what stands behind its name. -/
def commandRoute (command : Command) (args line : String) (targets : Finset String) : Route :=
  match command with
  | .help => .help
  | .inbox => inboxRoute args
  | .watch => .watch (parseWatchArgs args)
  | .schedule => .schedule (parseScheduleArgs args)
  | .diff => .diff (parseDiffArgs args)
  | .workers => workersRoute args line
  | .hold => holdRoute args line targets
  | .nudge => .nudge (parseNudgeArgs args)
  | .sendIt => .sendIt (parseSendItArgs args)
  | .fork => .fork (parseForkArgs args)
  | .thread => .switch (parseSwitchArgs args) line
  | .threads | .pull | .park | .merge =>
    match parseThreadOp command args with
    -- what does not parse is a message to the agent
    | none => .send line
    | some op => .threadOp op line
  | .main => .switch (parseMainArgs args) line
  | .config => .config
  | .view => .view (parseViewArgs args)
  | .read | .search =>
    let (words, cursor) := splitCursor args
    .history (String.ofList (command.name.toList.drop 1)) words cursor
  | .zoom | .recall_ => .history (String.ofList (command.name.toList.drop 1)) args none

def plainRoute (line : String) (unread : ℕ) (empty : EmptySubmit) : Route :=
  match parseDirect line with
  | some (.message direct) => .direct direct
  | some (.escaped rest) => .send rest
  | none =>
    if line = "" then emptyRoute unread empty
    else
      match bang line with
      | .local_ _ => .shell line
      | _ => .send line

/-- The command that a line begins with, and the text behind its name. -/
def Command.leading (line : String) : Option (Command × String) :=
  Command.all.findSome? fun command => (command.args line).map (command, ·)

def routeInput (line : String) (unread : ℕ) (empty : EmptySubmit) (targets : Finset String) : Route :=
  let line := trim line
  match Command.leading line with
  | some (command, args) => commandRoute command args line targets
  | none => plainRoute line unread empty

end Ralph.Chat
