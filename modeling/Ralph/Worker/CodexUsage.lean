import Ralph.Worker.CodexTurns
import Ralph.Worker.UsagePieces

namespace Ralph.Worker.Codex
open Wire

def tokenUsageUpdated : String := "thread/tokenUsage/updated"
def unknownModel : String := "unknown"

structure CallTokens where
  inputUncached : ℕ
  cacheRead : ℕ
  cacheWrite : ℕ
  output : ℕ
  reasoning : ℕ
  deriving DecidableEq

namespace CallTokens

/-- `CallTokens::default`. -/
def zero : CallTokens := ⟨0, 0, 0, 0, 0⟩

def add (t other : CallTokens) : CallTokens where
  inputUncached := addWrap t.inputUncached other.inputUncached
  cacheRead := addWrap t.cacheRead other.cacheRead
  cacheWrite := addWrap t.cacheWrite other.cacheWrite
  output := addWrap t.output other.output
  reasoning := addWrap t.reasoning other.reasoning

def since (t earlier : CallTokens) : CallTokens where
  inputUncached := t.inputUncached - earlier.inputUncached
  cacheRead := t.cacheRead - earlier.cacheRead
  cacheWrite := t.cacheWrite - earlier.cacheWrite
  output := t.output - earlier.output
  reasoning := t.reasoning - earlier.reasoning

def usage (t : CallTokens) : Usage where
  inputUncached := t.inputUncached
  cacheRead := t.cacheRead
  cacheWrites := if 0 < t.cacheWrite then [⟨.unspecified, t.cacheWrite⟩] else []
  output := t.output
  reasoning := some t.reasoning
  other := []

end CallTokens

inductive UsageEvent
  | call (total last : CallTokens)
  | rerouted (model : String)
  deriving DecidableEq

def count (breakdown : JsonValue) (key : String) : ℕ := (breakdown.get key).asU64.getD 0

def decodeCall (last : JsonValue) : CallTokens :=
  let cached := count last "cachedInputTokens"
  let written := count last "cacheWriteInputTokens"
  { inputUncached := count last "inputTokens" - cached - written
    cacheRead := cached
    cacheWrite := written
    output := count last "outputTokens"
    reasoning := count last "reasoningOutputTokens" }

def totalOf (params : JsonValue) : JsonValue := (params.get "tokenUsage").get "total"
def lastOf (params : JsonValue) : JsonValue := (params.get "tokenUsage").get "last"

def decodeUsageEvent (method : String) (params : JsonValue) : Option UsageEvent :=
  if method = tokenUsageUpdated then
    if (totalOf params).isObject ∧ (lastOf params).isObject then
      some (.call (decodeCall (totalOf params)) (decodeCall (lastOf params)))
    else none
  else if method = modelRerouted then (params.get "toModel").asStr.map .rerouted
  else none

def longPromptCall (prices : List PriceEntry) (model : String) (usage : Usage) : Bool :=
  longPrompt prices model (promptTokens usage)

structure TurnUsage where
  base : Option String
  current : Option String
  seenTotal : Option CallTokens
  byModel : SortedMap RowKey CallTokens

namespace TurnUsage

def new (model : Option String) : TurnUsage := ⟨model, model, none, .empty⟩

def callKey (prices : List PriceEntry) (u : TurnUsage) (tokens : CallTokens) : RowKey :=
  let model := u.current.getD unknownModel
  toLex (model, longPromptCall prices model tokens.usage)

def observe (prices : List PriceEntry) (u : TurnUsage) (event : UsageEvent) (inTurn : Bool) : TurnUsage :=
  match event with
  | .rerouted model => if inTurn then { u with current := some model } else u
  | .call total last =>
    let tokens := u.seenTotal.elim last total.since
    if inTurn then
      let key := u.callKey prices tokens
      { u with
        seenTotal := some total
        byModel := u.byModel.insert key (((u.byModel.lookup key).getD .zero).add tokens) }
    else { u with seenTotal := some total }

def startTurn (u : TurnUsage) : TurnUsage := { u with current := u.base }

def rows (u : TurnUsage) : List ModelUsage :=
  (u.byModel.entries.filter fun e => e.2 ≠ .zero).map fun e => ⟨(ofLex e.1).1, e.2.usage, (ofLex e.1).2⟩

def take (u : TurnUsage) : TurnUsage × List ModelUsage :=
  ({ u with current := u.base, byModel := .empty }, u.rows)

end TurnUsage

end Ralph.Worker.Codex
