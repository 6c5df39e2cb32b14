import Ralph.Chat.Words
import Ralph.SendIt.Drive
import Ralph.Thread.Basic

namespace Ralph.Chat
open ChatMemory Thread

inductive HoldFilter
  | any
  | source (source : String)
  | set (sources : List String)
  deriving DecidableEq, Repr

namespace HoldFilter

def parse (args : String) : Option HoldFilter :=
  let sources := (splitWhitespace args).foldl
    (fun sources token => if token ∈ sources then sources else sources ++ [token]) []
  match sources with
  | [] => some any
  | [token] => some (source token)
  | tokens => some (set tokens)

def render : HoldFilter → String
  | any => "/hold"
  | source s => s!"/hold {s}"
  | set sources => "/hold " ++ " ".intercalate sources

end HoldFilter

structure StartWatch where
  persistent : Bool
  command : String
  followUp : String
  deriving DecidableEq, Repr

inductive WatchCommand
  | start (watch : StartWatch)
  | list
  | stop (id : String)
  | usage
  deriving DecidableEq, Repr

def persistentFlag : String := "--persistent"
def followUpSeparator : String := " -- "

def parseStart (rest : String) : WatchCommand :=
  let (persistent, body) := match stripPrefix rest persistentFlag with
    | some after => if startsWith after isWhitespace then (true, trimStart after) else (false, rest)
    | none => (false, rest)
  match rsplitText followUpSeparator.toList body.toList with
  | none => .usage
  | some (command, followUp) =>
    let command := trim (String.ofList command)
    let followUp := trim (String.ofList followUp)
    if command = "" ∨ followUp = "" then .usage else .start ⟨persistent, command, followUp⟩

def parseWatchArgs (args : String) : WatchCommand :=
  let args := trim args
  let (word, rest) := match splitOnce isWhitespace args with
    | some (word, rest) => (word, trim rest)
    | none => (args, "")
  if word = "start" then parseStart rest
  else if word = "list" ∧ rest = "" then .list
  else if word = "stop" then
    match splitWhitespace rest with
    | [id] => .stop (SendIt.watchId id)
    | _ => .usage
  else .usage

inductive ScheduleCommand
  | list
  | cancel (id : String)
  | usage
  deriving DecidableEq, Repr

def scheduleIdPrefix : String := "schedule:"

def parseScheduleArgs (args : String) : ScheduleCommand :=
  match splitWhitespace args with
  | [] => .list
  | ["list"] => .list
  | ["cancel", id] =>
    let id := (stripPrefix id scheduleIdPrefix).getD id
    if id = "" then .usage else .cancel id
  | _ => .usage

inductive TurnWindow
  | last (count : ℕ)
  | ago (count : ℕ)
  deriving DecidableEq, Repr

inductive ScopeQuery
  | chat (window : TurnWindow)
  | worker (worker : String) (window : Option TurnWindow)
  deriving DecidableEq, Repr

inductive DiffTarget
  | now (extra : List String)
  | range (scope : ScopeQuery) (extra : List String)
  deriving DecidableEq, Repr

inductive DiffArgs
  | target (target : DiffTarget)
  | usage (text : String)
  | unclosedQuote
  deriving DecidableEq, Repr

def windowUsage : String := "/diff: last and ago need a number of 1 or more"
def workerUsage : String := "/diff: worker needs a worker id"

def backslash : Char := Char.ofNat 92
def singleQuote : Char := Char.ofNat 39
def doubleQuote : Char := Char.ofNat 34

inductive Quote
  | none
  | single
  | double
  deriving DecidableEq, Repr

/-- The loops of `split_shell_words` as one pass: the quote that is open, and the word so far. -/
def shellWords (quote : Quote) (word : Option (List Char)) : List Char → Option (List String)
  | [] => if quote = .none then some (word.toList.map String.ofList) else none
  | c :: cs =>
    let pushed := fun d => some (word.getD [] ++ [d])
    match quote with
    | .none =>
      if isWhitespace c then (shellWords .none none cs).map (word.toList.map String.ofList ++ ·)
      else if c = backslash then
        match cs with
        -- a backslash at the end stands for itself
        | [] => shellWords .none (pushed backslash) []
        | d :: cs => shellWords .none (pushed d) cs
      else if c = singleQuote then shellWords .single (some (word.getD [])) cs
      else if c = doubleQuote then shellWords .double (some (word.getD [])) cs
      else shellWords .none (pushed c) cs
    | .single => if c = singleQuote then shellWords .none word cs else shellWords .single (pushed c) cs
    | .double =>
      if c = doubleQuote then shellWords .none word cs
      else if c = backslash then
        match cs with
        | [] => none
        | d :: cs => shellWords .double (pushed d) cs
      else shellWords .double (pushed c) cs

def splitShellWords (input : String) : Option (List String) := shellWords .none none input.toList

def takeWindow : List String → Except String (Option TurnWindow × List String)
  | "last" :: rest => window .last rest
  | "ago" :: rest => window .ago rest
  | words => .ok (none, words)
where
  window (constructor : ℕ → TurnWindow) (rest : List String) :
      Except String (Option TurnWindow × List String) :=
    match (rest.head?.bind parseUsize).filter (1 ≤ ·) with
    | some count => .ok (some (constructor count), rest.tail)
    | none => .error windowUsage

def parseTarget : List String → Except String DiffTarget
  | "now" :: extra => .ok (.now extra)
  | "worker" :: rest => do
    match rest with
    | id :: rest =>
      if startsWith id (· = '-') ∨ id ∈ ["last", "ago", "now"] then throw workerUsage
      let (window, extra) ← takeWindow rest
      pure (.range (.worker id window) extra)
    | [] => throw workerUsage
  | words => do
    let (window, extra) ← takeWindow words
    pure (.range (.chat (window.getD (.last 1))) extra)

def parseDiffArgs (input : String) : DiffArgs :=
  match splitShellWords input with
  | none => .unclosedQuote
  | some words =>
    match parseTarget words with
    | .ok target => .target target
    | .error usage => .usage usage

/-- `/workers costs`. -/
inductive CostsView
  | harnessModel
  | harness
  | role
  | ticket
  deriving DecidableEq, Repr

inductive CostsWindow
  | today
  | week
  | all
  deriving DecidableEq, Repr

structure CostsArgs where
  view : CostsView
  window : CostsWindow
  deriving DecidableEq, Repr

def parseView : String → Option CostsView
  | "harness" => some .harness
  | "model" => some .harnessModel
  | "role" => some .role
  | "ticket" => some .ticket
  | _ => none

def parseWindow : String → Option CostsWindow
  | "today" => some .today
  | "7d" => some .week
  | "all" => some .all
  | _ => none

def parseCostsArgs (words : List String) : Option CostsArgs :=
  let (view, rest) := match words with
    | first :: rest => match parseView first with
      | some view => (view, rest)
      | none => (.harnessModel, words)
    | [] => (.harnessModel, words)
  match rest with
  | [] => some ⟨view, .all⟩
  | [word] => (parseWindow word).map (⟨view, ·⟩)
  | _ => none

inductive NudgeCommand
  | send (id text : String)
  | bare
  deriving DecidableEq, Repr

def progressRequest : String :=
  "Nudge: reply with one line of progress (current step, blocker), then keep going on the same plan."

def parseNudgeArgs (args : String) : NudgeCommand :=
  let args := trim args
  match (splitWhitespace args).head? with
  | none => .bare
  | some id =>
    let text := trim (String.ofList (args.toList.drop id.toList.length))
    .send id (if text = "" then progressRequest else text)

def forkUsage : String :=
  "usage: /fork <name> opens thread <name> in a new Rex block next to this chat."

inductive ForkCommand
  | open_ (name : ThreadName)
  | usage (text : String)

def parseForkArgs (args : String) : ForkCommand :=
  match splitWhitespace args with
  | [word] =>
    match ThreadName.parse word with
    | .ok name => .open_ name
    | .error e => .usage (e ++ "\n" ++ forkUsage)
  | _ => .usage forkUsage

inductive SwitchTarget
  | main
  | thread (name : ThreadName)

def threadUsage : String :=
  "usage: /thread <name> switches this chat to thread <name>; /thread main returns to main."

def mainUsage : String := "usage: /main takes no arguments and switches this chat to main."

def parseSwitchArgs (args : String) : Except String SwitchTarget :=
  match splitWhitespace args with
  | ["main"] => .ok .main
  | [word] =>
    match ThreadName.parse word with
    | .ok name => .ok (.thread name)
    | .error e => .error (e ++ "\n" ++ threadUsage)
  | _ => .error threadUsage

def parseMainArgs (args : String) : Except String SwitchTarget :=
  if splitWhitespace args = [] then .ok .main else .error mainUsage

inductive ThreadOp
  | ls
  | pull (name : ThreadName)
  | park (name : ThreadName)
  | merge (name : ThreadName) (view : Bool)

def viewFlag : String := "--view"
def viewAlias : String := "--rebase"

def parkUsage : String := "usage: /park <name> stops thread <name> from opening; run it in main's chat."

def pullUsage : String := "usage: /pull <name> moves thread <name> to main's end; run it in main's chat."

def mergeUsage : String :=
  s!"usage: /merge <name> [{viewFlag}] merges thread <name> into main's inbox; {viewFlag} posts its " ++
    "memory view with no model call and no confirmation; run it in main's chat."

def threadArg (args : String) : Option ThreadName :=
  match splitWhitespace args with
  | [word] => (ThreadName.parse word).toOption
  | _ => none

def isViewFlag (word : String) : Bool := word = viewFlag || word = viewAlias

def parseMerge (args : String) : Option ThreadOp :=
  let (flags, rest) := (splitWhitespace args).partition isViewFlag
  match rest with
  | [word] =>
    if flags.length ≤ 1 then (ThreadName.parse word).toOption.map (.merge · !flags.isEmpty) else none
  | _ => none

def parseThreadOp (command : Command) (args : String) : Option (Except String ThreadOp) :=
  if trim args = "" then
    match command with
    | .threads => some (.ok .ls)
    | .pull => some (.error pullUsage)
    | .park => some (.error parkUsage)
    | .merge => some (.error mergeUsage)
    | _ => none
  else
    (match command with
    | .pull => (threadArg args).map ThreadOp.pull
    | .park => (threadArg args).map ThreadOp.park
    | .merge => parseMerge args
    | _ => none).map Except.ok

inductive ViewArgs
  | file (path : String)
  | usage
  deriving DecidableEq, Repr

def parseViewArgs (args : String) : ViewArgs :=
  if trim args = "" then .usage else .file (trim args)

/-- A line to a worker. -/
structure Direct where
  id : String
  text : String
  deriving DecidableEq, Repr

inductive DirectLine
  | message (direct : Direct)
  | escaped (rest : String)
  deriving DecidableEq, Repr

def parseDirect (line : String) : Option DirectLine :=
  match stripPrefix (trim line) "@" with
  | none => none
  | some rest =>
    if startsWith rest (· = '@') then some (.escaped rest)
    else
      let id := rest.toList.takeWhile fun c => !isWhitespace c
      if id = [] then none
      else some (.message ⟨String.ofList id, trim (String.ofList (rest.toList.drop id.length))⟩)

/-- A leading `!` or `!!`. -/
inductive Bang
  | plain
  | send (body : String)
  | local_ (body : String)
  deriving DecidableEq, Repr

def bang (message : String) : Bang :=
  match stripPrefix message "!" with
  | none => .plain
  | some rest =>
    match stripPrefix rest "!" with
    | some body => if trim body ≠ "" then .local_ body else .plain
    | none => if trim rest ≠ "" then .send rest else .plain

end Ralph.Chat
