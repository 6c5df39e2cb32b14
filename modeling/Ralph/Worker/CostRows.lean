import Mathlib.Data.List.SplitBy
import Mathlib.Data.Prod.Lex
import Ralph.SortedMap
import Ralph.Text
import Ralph.Worker.MergedCosts

namespace Ralph.Worker

namespace Usd

def of (cost : Option ℚ) : Usd := ⟨cost, cost.isNone, false, false⟩

/-- `Usd::reported`. -/
def ofReported (cost : ℚ) : Usd := ⟨some cost, false, false, true⟩

/-- `fold(Usd::default(), Usd::plus)`. -/
def total (usds : List Usd) : Usd := usds.foldl plus .zero

end Usd

namespace Costs
open Wire

/-- A `u64`, added up by `saturating_add`. -/
structure Count where
  val : ℕ
  fits : val < 2 ^ 64

namespace Count

attribute [ext] Count

instance : Zero Count := ⟨0, by decide⟩

instance : Add Count := ⟨fun a b => ⟨addSaturating a.val b.val, by unfold addSaturating; omega⟩⟩

theorem zero_plus (a : Count) : 0 + a = a := by
  have hfits := a.fits
  apply Count.ext
  show min (0 + a.val) (2 ^ 64 - 1) = a.val
  omega

theorem plus_comm (a b : Count) : a + b = b + a := by
  apply Count.ext
  show min (a.val + b.val) (2 ^ 64 - 1) = min (b.val + a.val) (2 ^ 64 - 1)
  rw [Nat.add_comm]

theorem plus_assoc (a b c : Count) : a + b + c = a + (b + c) := by
  apply Count.ext
  show min (min (a.val + b.val) (2 ^ 64 - 1) + c.val) (2 ^ 64 - 1) =
    min (a.val + min (b.val + c.val) (2 ^ 64 - 1)) (2 ^ 64 - 1)
  omega

instance : AddCommMonoid Count where
  add_assoc := plus_assoc
  zero_add := zero_plus
  add_zero a := (plus_comm a 0).trans (zero_plus a)
  add_comm := plus_comm
  nsmul := nsmulRec

end Count

/-- A row of the usage file, with the fields that the cost views read. -/
structure CostLine where
  kind : String
  at_ : String
  costUsd : Option ℚ
  inputTokens : Count
  cacheCreationInputTokens : Count
  cacheReadInputTokens : Count
  outputTokens : Count
  processTurn : Option ℕ
  run : Option String
  workerId : Option String
  sessionId : Option String
  harness : Option String
  model : Option String
  reasoningTokens : Option Count
  cacheWrite5m : Option Count
  cacheWrite1h : Option Count
  longPrompt : Option Bool

/-- The fields that the prices read. -/
def CostLine.priced (line : CostLine) : UsageLine where
  inputTokens := line.inputTokens.val
  cacheCreationInputTokens := line.cacheCreationInputTokens.val
  cacheReadInputTokens := line.cacheReadInputTokens.val
  outputTokens := line.outputTokens.val
  harness := line.harness
  model := line.model
  reasoningTokens := line.reasoningTokens.map Count.val
  cacheWrite5m := line.cacheWrite5m.map Count.val
  cacheWrite1h := line.cacheWrite1h.map Count.val
  longPrompt := line.longPrompt

def unknown : String := "unknown"

inductive Source
  | main
  | nap
  | ask
  | subagent
  | worker (harness : String)
  deriving DecidableEq, Repr

namespace Source

def of (line : CostLine) : Option Source :=
  if line.kind = "turn" ∨ line.kind = "ping" then some .main
  else if line.kind = "nap" ∨ line.kind = "merge" then some .nap
  else if line.kind = "ask" then some .ask
  else if line.kind = "subagent" then some .subagent
  else if line.kind = "worker" then some (.worker (line.harness.getD unknown))
  else none

def label : Source → String
  | main => "main"
  | nap => "nap"
  | ask => "ask"
  | subagent => "subagent"
  | worker harness => harness

/-- The derived order: by the variant, and workers by their harness. -/
def rank : Source → ℕ ×ₗ String
  | main => toLex (0, "")
  | nap => toLex (1, "")
  | ask => toLex (2, "")
  | subagent => toLex (3, "")
  | worker harness => toLex (4, harness)

theorem rank_injective : Function.Injective rank := by
  intro a b h
  cases a <;> cases b <;> simp_all [rank]

instance : LinearOrder Source := LinearOrder.lift' rank rank_injective

end Source

def eitherSum : Option Count → Option Count → Option Count
  | some a, some b => some (a + b)
  | none, b => b
  | a, none => a

structure Tokens where
  input : Count
  output : Count
  cacheRead : Count
  cacheWrite : Count
  write5m : Option Count
  write1h : Option Count
  partial5m : Bool
  partial1h : Bool
  partialReasoning : Bool
  reasoning : Option Count

namespace Tokens

attribute [ext] Tokens

def of (line : CostLine) : Tokens where
  input := line.inputTokens
  output := line.outputTokens
  cacheRead := line.cacheReadInputTokens
  cacheWrite := line.cacheCreationInputTokens
  write5m := line.cacheWrite5m
  write1h := line.cacheWrite1h
  partial5m := line.cacheWrite5m.isNone
  partial1h := line.cacheWrite1h.isNone
  partialReasoning := line.reasoningTokens.isNone
  reasoning := line.reasoningTokens

def plus (a b : Tokens) : Tokens where
  input := a.input + b.input
  output := a.output + b.output
  cacheRead := a.cacheRead + b.cacheRead
  cacheWrite := a.cacheWrite + b.cacheWrite
  write5m := eitherSum a.write5m b.write5m
  write1h := eitherSum a.write1h b.write1h
  partial5m := a.partial5m || b.partial5m
  partial1h := a.partial1h || b.partial1h
  partialReasoning := a.partialReasoning || b.partialReasoning
  reasoning := eitherSum a.reasoning b.reasoning

/-- `Tokens::default`. -/
def zero : Tokens := ⟨0, 0, 0, 0, none, none, false, false, false, none⟩

/-- `fold(Tokens::default(), Tokens::plus)`. -/
def total (tokens : List Tokens) : Tokens := tokens.foldl plus zero

end Tokens

structure CostRow where
  harness : String
  model : String
  runs : Option ℕ
  tokens : Tokens
  usd : Usd
  harnessUsd : Usd

def processes (rows : List CostLine) : List (List CostLine) :=
  rows.splitBy fun _ row => row.processTurn != some 1

def processTotal (process : List CostLine) : Option ℚ := process.reverse.findSome? CostLine.costUsd

def carriesTokens (row : CostLine) : Bool :=
  row.inputTokens.val > 0 || row.cacheCreationInputTokens.val > 0 ||
    row.cacheReadInputTokens.val > 0 || row.outputTokens.val > 0

def processMissing (process : List CostLine) : Bool :=
  (processTotal process).isNone || (process.reverse.find? carriesTokens).any fun row => row.costUsd.isNone

/-- The total and the missing flag of a session. -/
def sessionCost (rows : List CostLine) : Option (ℚ × Bool) :=
  let totals := (processes rows).filterMap processTotal
  if totals = [] then none else some (totals.sum, (processes rows).any processMissing)

structure EventLine where
  at_ : String
  workerId : String
  event : String
  ticket : Option String
  harness : Option String

/-- What the views call: `serde_json` on a line, `chrono` on a stamp, in nanoseconds, and the
prices. -/
structure CostsEnv where
  usageLine : String → Option CostLine
  /-- The `cost_source` of a line; `none` is an error. -/
  costSource : String → Option (Option String)
  eventLine : String → Option EventLine
  instant : String → Option ℤ
  table : List PricedEntry
  overrides : SortedMap String PriceOverride
  rates : String → BillingRates

variable (env : CostsEnv)

def CostsEnv.computedUsd (line : CostLine) : Usd :=
  Worker.computedUsd env.table env.overrides env.rates line.priced

def inWindow (at_ : String) (since : Option ℤ) : Bool :=
  since.all fun since => (env.instant at_).any fun at_ => since ≤ at_

def baseline (rows : List CostLine) (since : Option ℤ) : ℚ :=
  (since.bind fun since => rows.reverse.findSome? fun row =>
    ((env.instant row.at_).filter fun at_ => at_ < since).bind fun _ => row.costUsd).getD 0

structure MainProcess where
  run : Option String
  rows : List CostLine
  baseline : ℚ

def mainRuns (processes : List MainProcess) : ℕ × Usd :=
  let runs := (processes.map MainProcess.run).dedup
  let usd := processes.map fun process =>
    match sessionCost process.rows with
    | none => Usd.of none
    | some (total, missing) => ⟨some (max (total - process.baseline) 0), missing, false, false⟩
  (runs.length, Usd.total usd)

def workerRuns (lines : List CostLine) : ℕ :=
  (lines.map fun line => (line.workerId, line.sessionId)).dedup.length

def costRow (source : Source) (model : String) (lines : List CostLine) (main : List MainProcess) :
    CostRow :=
  let usd := Usd.total (lines.map env.computedUsd)
  let harness := Usd.total (lines.map fun line => Usd.of line.costUsd)
  let (runs, harnessUsd) := match source with
    | .main => mainRuns main
    | .nap | .ask | .subagent => (lines.length, harness)
    | .worker _ => (workerRuns lines, harness)
  ⟨source.label, model, some runs, Tokens.total (lines.map Tokens.of), usd, harnessUsd⟩

/-- A process with the rows that are in the window, under the model of its last row with one. -/
def processIn (since : Option ℤ) (run : Option String) (process : List CostLine) :
    Option (String × MainProcess) :=
  let within := process.filter fun row => inWindow env row.at_ since
  if within = [] then none
  else
    let model := (within.reverse.findSome? CostLine.model).getD unknown
    some (model, ⟨run, within, baseline env process since⟩)

/-- The rows of each run, in the order of a `BTreeMap<Option<String>, _>`. -/
def runsOf (lines : List CostLine) : SortedMap (WithBot String) (List CostLine) :=
  lines.foldl (fun runs line => runs.push (show WithBot String from line.run) line) .empty

def mainProcesses (lines : List CostLine) (since : Option ℤ) : List (String × MainProcess) :=
  (runsOf lines).entries.flatMap fun (run, rows) => (processes rows).filterMap (processIn env since run)

def parsedLines (usage : String) : List CostLine := (Text.lines usage).filterMap env.usageLine

/-- The rows of each source and model, and the processes of each model of main. -/
structure CostGroups where
  groups : SortedMap (Source ×ₗ String) (List CostLine)
  processes : SortedMap String (List MainProcess)

/-- A row goes to its group, or to the rows of main. -/
def readLine (s : SortedMap (Source ×ₗ String) (List CostLine) × List CostLine) (line : CostLine) :
    SortedMap (Source ×ₗ String) (List CostLine) × List CostLine :=
  match Source.of line with
  | some .main => (s.1, s.2 ++ [line])
  | some source => (s.1.push (toLex (source, line.model.getD unknown)) line, s.2)
  | none => s

def addProcess (g : CostGroups) (process : String × MainProcess) : CostGroups where
  groups := g.groups.update (toLex (.main, process.1)) [] (· ++ process.2.rows)
  processes := g.processes.push process.1 process.2

def costGroups (usage : String) (since : Option ℤ) : CostGroups :=
  let lines := (parsedLines env usage).filter fun line =>
    inWindow env line.at_ since || Source.of line = some .main
  let (groups, main) := lines.foldl readLine (.empty, [])
  (mainProcesses env main since).foldl addProcess ⟨groups, .empty⟩

/-- The row of one group. -/
def CostGroups.row (g : CostGroups) (group : (Source ×ₗ String) × List CostLine) : CostRow :=
  let (source, model) := ofLex group.1
  costRow env source model group.2
    (if source = .main then (g.processes.lookup model).getD [] else [])

def costRows (usage : String) (since : Option ℤ) : List CostRow :=
  let g := costGroups env usage since
  g.groups.entries.map (g.row env)

def totalRow (rows : List CostRow) : CostRow where
  harness := "total"
  model := ""
  runs := none
  tokens := Tokens.total (rows.map CostRow.tokens)
  usd := Usd.total (rows.map CostRow.usd)
  harnessUsd := Usd.total (rows.map CostRow.harnessUsd)

end Costs

end Ralph.Worker
