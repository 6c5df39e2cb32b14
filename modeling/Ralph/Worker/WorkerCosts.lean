import Ralph.Wire.ModelPrice
import Ralph.Worker.TranscriptUsage

namespace Ralph.Worker
open Wire

/-- What the prices need of a row of the usage file. -/
structure UsageLine where
  inputTokens : ℕ
  cacheCreationInputTokens : ℕ
  cacheReadInputTokens : ℕ
  outputTokens : ℕ
  harness : Option String
  model : Option String
  reasoningTokens : Option ℕ
  cacheWrite5m : Option ℕ
  cacheWrite1h : Option ℕ
  longPrompt : Option Bool

structure Usd where
  known : Option ℚ
  missing : Bool
  estimate : Bool
  reported : Bool

namespace Usd

/-- `Usd::default`. -/
def zero : Usd := ⟨none, false, false, false⟩

def plus (a b : Usd) : Usd where
  known := match a.known, b.known with
    | some x, some y => some (x + y)
    | none, y => y
    | x, none => x
  missing := a.missing || b.missing
  estimate := a.estimate || b.estimate
  reported := a.reported || b.reported

end Usd

def mainHarness : String := "claude"

/-- `saturating_add` on a `u64`. -/
def addSaturating (a b : ℕ) : ℕ := min (a + b) (2 ^ 64 - 1)

def untieredWrites (line : UsageLine) : ℕ :=
  line.cacheCreationInputTokens - addSaturating (line.cacheWrite5m.getD 0) (line.cacheWrite1h.getD 0)

def tieredUsage (line : UsageLine) : Usage where
  inputUncached := line.inputTokens
  cacheRead := line.cacheReadInputTokens
  cacheWrites := [CacheWrite.mk fiveMin (line.cacheWrite5m.getD 0), ⟨oneHour, line.cacheWrite1h.getD 0⟩].filter
    fun write => 0 < write.tokens
  output := line.outputTokens
  reasoning := line.reasoningTokens
  other := []

/-- The table behind the static of the source is an argument. -/
def longPromptCall (prices : List PriceEntry) (model : String) (usage : Usage) : Bool :=
  longPrompt prices model (promptTokens usage)

def tierPrompt (long : Option Bool) (summed : ℕ) : ℕ :=
  match long with
  | some true => 2 ^ 64 - 1
  | some false => 0
  | none => summed

section Price

variable (table : List PricedEntry) (overrides : SortedMap String PriceOverride) (rates : String → BillingRates)

/-- The tier of the writes that a row gives no tier for. -/
def assumedTier (harness : Option String) : CacheTier := if harness = some mainHarness then oneHour else thirtyMin

def pricedTier (price : ModelPrice) (tier : CacheTier) : Bool := price.cacheWrites.any fun write => write.tier = tier

/-- The amount, and whether the price has the assumed tier. -/
def pricedLine (line : UsageLine) : Option (ℚ × Bool) := do
  let untiered := untieredWrites line
  let model ← line.model
  let usage := tieredUsage line
  -- the flag stands for the prompt of the calls; without it the row counts as one call
  let price ← resolvePrice table overrides (rates model) model
    (tierPrompt line.longPrompt (addSaturating (promptTokens usage) untiered))
  let assumed := assumedTier line.harness
  let priced := pricedTier price assumed
  -- writes without a tier are priced at the assumed one, or left out
  let usage := if priced && 0 < untiered then
    { usage with cacheWrites := usage.cacheWrites ++ [⟨assumed, untiered⟩] } else usage
  let usd ← usd usage price
  return (usd, priced)

def computedUsd (line : UsageLine) : Usd :=
  let priced := pricedLine table overrides rates line
  { known := priced.map Prod.fst
    missing := priced.all fun (_, priced) => 0 < untieredWrites line && !priced
    estimate := true
    reported := false }

end Price

def summed (lines : List UsageLine) (priced : UsageLine → Usd) : Usd := (lines.map priced).foldl Usd.plus .zero

/-- The row of the usage file, as it is read back. -/
def workerUsageRecord (harness : String) (row : ModelUsage) : UsageLine :=
  let usage := row.usage
  let written := fun tier => (usage.cacheWrites.find? fun write => write.tier = tier).map CacheWrite.tokens
  { inputTokens := usage.inputUncached
    cacheCreationInputTokens := (usage.cacheWrites.map CacheWrite.tokens).sum % 2 ^ 64
    cacheReadInputTokens := usage.cacheRead
    outputTokens := usage.output
    harness := some harness
    model := some row.model
    reasoningTokens := usage.reasoning
    cacheWrite5m := written fiveMin
    cacheWrite1h := written oneHour
    longPrompt := some row.longPrompt }

/-- A call joins the row of its model and its flag. -/
def recordCall (prices : List PriceEntry) (byModel : SortedMap RowKey Usage) (call : String × Usage) :
    SortedMap RowKey Usage :=
  let key := toLex (call.1, longPromptCall prices call.1 call.2)
  let total := match byModel.lookup key with
    | some total => addUsage total call.2
    | none => call.2
  byModel.insert key total

def modelRows (byModel : SortedMap RowKey Usage) : List ModelUsage :=
  byModel.entries.map fun (key, usage) => ⟨(ofLex key).1, usage, (ofLex key).2⟩

def recordCalls (prices : List PriceEntry) (calls : List (String × Usage)) : List ModelUsage :=
  modelRows (calls.foldl (recordCall prices) .empty)

/-- The call that a message of the transcript stands for. -/
def countedCall (seen : List String) (e : String × JsonValue) : Option (String × Usage) :=
  (finishedUsage e.2).filter fun call => e.1 ∉ seen ∧ call.1 ≠ syntheticModel ∧ usageIsEmpty call.2 = false

theorem countMessage_byModel (env : UsageEnv) (seen : List String) (s : Counted) (e : String × JsonValue) :
    (countMessage env seen s e).byModel = (countedCall seen e).toList.foldl (recordCall env.prices) s.byModel := by
  rw [countMessage, countedCall]
  cases finishedUsage e.2 with
  | none => rfl
  | some call =>
    obtain ⟨model, part⟩ := call
    dsimp only
    by_cases hseen : e.1 ∈ seen
    · rw [if_pos hseen, Option.filter_some_neg (by simp [hseen])]
      rfl
    · rw [if_neg hseen]
      by_cases hskip : model = syntheticModel ∨ usageIsEmpty part = true
      · rw [if_pos hskip, Option.filter_some_neg (by simpa [hseen] using Or.resolve_left hskip)]
        rfl
      · rw [if_neg hskip]
        rw [not_or, Bool.not_eq_true] at hskip
        rw [Option.filter_some_pos (by simpa using ⟨hseen, hskip⟩)]
        rfl

/-- The rows of a transcript are those of the calls in it. -/
theorem transcriptUsage_rows (env : UsageEnv) (text : String) (seen : List String) :
    (transcriptUsage env text seen).rows =
      recordCalls env.prices ((latest (messages env text)).entries.filterMap (countedCall seen)) := by
  have hfold : ∀ (es : List (String × JsonValue)) (s : Counted), (es.foldl (countMessage env seen) s).byModel =
      (es.filterMap (countedCall seen)).foldl (recordCall env.prices) s.byModel := by
    intro es
    induction es with
    | nil => exact fun s => rfl
    | cons e es ih =>
      intro s
      rw [List.foldl_cons, ih, countMessage_byModel]
      cases hcall : countedCall seen e with
      | none => rw [List.filterMap_cons_none hcall]; rfl
      | some call => rw [List.filterMap_cons_some hcall]; rfl
  rw [transcriptUsage, recordCalls, modelRows]
  dsimp only
  rw [hfold]
  rfl

end Ralph.Worker
