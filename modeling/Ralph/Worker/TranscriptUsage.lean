import Ralph.SortedMap
import Ralph.Text
import Ralph.Wire.Price

namespace Ralph.Worker
open Wire

/-- The model of a row and whether its calls had long prompts, in the order of the rows. -/
abbrev RowKey := String ×ₗ Bool

structure ModelUsage where
  model : String
  usage : Usage
  longPrompt : Bool
  deriving DecidableEq

structure TranscriptUsage where
  rows : List ModelUsage
  recorded : List String
  deriving DecidableEq

/-- What the code gets from outside: the JSON reader and the price table. -/
structure UsageEnv where
  read : String → Option JsonValue
  prices : List PriceEntry

def syntheticModel : String := "<synthetic>"

def usageIsEmpty (usage : Usage) : Bool :=
  usage.inputUncached = 0 && usage.cacheRead = 0 && usage.output = 0 && usage.reasoning.getD 0 = 0 &&
    usage.cacheWrites.all (fun write => write.tokens = 0) && usage.other.all fun (_, tokens) => tokens = 0

/-- `+=` on a `u64`. -/
def addWrap (a b : ℕ) : ℕ := (a + b) % 2 ^ 64

def addReasoning : Option ℕ → Option ℕ → Option ℕ
  | none, none => none
  | a, b => some (addWrap (a.getD 0) (b.getD 0))

/-- The first write of the tier grows, or a new write is put at the end. -/
def addWrite (writes : List CacheWrite) (write : CacheWrite) : List CacheWrite :=
  match writes with
  | [] => [write]
  | w :: rest =>
    if w.tier = write.tier then { w with tokens := addWrap w.tokens write.tokens } :: rest
    else w :: addWrite rest write

/-- The `other` counts of the part are not added. -/
def addUsage (total part : Usage) : Usage where
  inputUncached := addWrap total.inputUncached part.inputUncached
  cacheRead := addWrap total.cacheRead part.cacheRead
  output := addWrap total.output part.output
  reasoning := addReasoning total.reasoning part.reasoning
  cacheWrites := part.cacheWrites.foldl addWrite total.cacheWrites
  other := total.other

/-- The id of an assistant message and the message. -/
def messageOf (value : JsonValue) : Option (String × JsonValue) := do
  guard ((value.member? "type").bind JsonValue.asStr = some "assistant")
  let message ← value.member? "message"
  let id ← (message.member? "id").bind JsonValue.asStr
  return (id, message)

/-- The model and the usage of a message that has stopped. -/
def finishedUsage (message : JsonValue) : Option (String × Usage) := do
  let reason ← message.member? "stop_reason"
  guard (!reason.isNull)
  let model ← (message.member? "model").bind JsonValue.asStr
  let usage ← (message.member? "usage").filter JsonValue.isObject
  return (model, Anthropic.mapUsage usage)

/-- The messages of the lines, in their order. -/
def messages (env : UsageEnv) (text : String) : List (String × JsonValue) :=
  (Text.lines text).filterMap fun line => (env.read line).bind messageOf

/-- The last message of each id. -/
def latest (found : List (String × JsonValue)) : SortedMap String JsonValue :=
  found.foldl (fun m e => m.insert e.1 e.2) .empty

structure Counted where
  byModel : SortedMap RowKey Usage
  recorded : List String

def Counted.start : Counted := ⟨.empty, []⟩

def rowKey (env : UsageEnv) (model : String) (part : Usage) : RowKey :=
  toLex (model, longPrompt env.prices model (promptTokens part))

/-- One round of the loop over the messages. -/
def countMessage (env : UsageEnv) (seen : List String) (s : Counted) (e : String × JsonValue) : Counted :=
  match finishedUsage e.2 with
  | none => s
  | some (model, part) =>
    if e.1 ∈ seen then s
    else
      let recorded := s.recorded ++ [e.1]
      -- the message is marked, but there is nothing to count
      if model = syntheticModel ∨ usageIsEmpty part then ⟨s.byModel, recorded⟩
      else
        let key := rowKey env model part
        let total := match s.byModel.lookup key with
          | some total => addUsage total part
          | none => part
        ⟨s.byModel.insert key total, recorded⟩

def transcriptUsage (env : UsageEnv) (text : String) (seen : List String) : TranscriptUsage :=
  let s := (latest (messages env text)).entries.foldl (countMessage env seen) .start
  ⟨s.byModel.entries.map fun (key, usage) => ⟨(ofLex key).1, usage, (ofLex key).2⟩, s.recorded⟩

end Ralph.Worker
