import Ralph.Splice
import Ralph.Worker.CostRows

namespace Ralph.Worker.Costs

def unknownTicket : String := "unknown"
def graceNanos : ℤ := 1000000000
def harnessSource : String := "harness"
def cursorHarness : String := "cursor"

structure WorkerWindow where
  workerId : String
  ticket : Option String
  harness : String
  start : ℤ
  stop : Option ℤ

def WorkerWindow.covers (w : WorkerWindow) (at_ : ℤ) : Bool :=
  w.start ≤ at_ && w.stop.all fun stop => at_ ≤ stop + graceNanos

/-- Closes the newest open window of a worker. -/
def closeWindow (windows : List WorkerWindow) (workerId : String) (at_ : ℤ) : List WorkerWindow :=
  let open_ (w : WorkerWindow) := w.workerId = workerId ∧ w.stop = none
  match Splice.rposition (fun w => decide (open_ w)) windows with
  | some i => windows.modify i fun w => { w with stop := some at_ }
  | none => windows

variable (env : CostsEnv)

def readEvent (windows : List WorkerWindow) (line : EventLine) : List WorkerWindow :=
  match env.instant line.at_ with
  | none => windows
  | some at_ =>
    if line.event = "spawn" then
      windows ++ [⟨line.workerId, line.ticket, line.harness.getD "", at_, none⟩]
    else if line.event = "close" then closeWindow windows line.workerId at_
    else windows

def parseWindows (workers : String) : List WorkerWindow :=
  ((Text.lines workers).filterMap env.eventLine).foldl (readEvent env) []

/-- The position of the latest window that covers the moment; `max_by_key` keeps the last one. -/
def windowPosition (windows : List WorkerWindow) (workerId : String) (at_ : ℤ) : Option ℕ :=
  ((windows.zipIdx.filter fun (w, _) => w.workerId = workerId && w.covers at_).foldl
    (fun best (w, i) =>
      match best with
      | some (start, position) => if start ≤ w.start then some (w.start, i) else some (start, position)
      | none => some (w.start, i))
    (none : Option (ℤ × ℕ))).map Prod.snd

inductive Role
  | main
  | nap
  | merge
  | ask
  | subagent
  | worker
  deriving DecidableEq, Repr

namespace Role

def of (kind : String) : Option Role :=
  if kind = "turn" ∨ kind = "ping" then some .main
  else if kind = "nap" then some .nap
  else if kind = "merge" then some .merge
  else if kind = "ask" then some .ask
  else if kind = "subagent" then some .subagent
  else if kind = "worker" then some .worker
  else none

def label : Role → String
  | main => "main"
  | nap => "nap"
  | merge => "merge"
  | ask => "ask"
  | subagent => "subagent"
  | worker => "worker"

def rank : Role → ℕ
  | main => 0
  | nap => 1
  | merge => 2
  | ask => 3
  | subagent => 4
  | worker => 5

theorem rank_injective : Function.Injective rank := by
  intro a b h
  cases a <;> cases b <;> first | rfl | cases h

instance : LinearOrder Role := LinearOrder.lift' rank rank_injective

end Role

structure Entry where
  line : CostLine
  window : Option ℕ
  reported : Bool

structure Row where
  label : String
  metered : ℕ
  unmetered : ℕ
  tokens : Tokens
  usd : Usd

def Row.total (rows : List Row) : Row where
  label := "total"
  metered := (rows.map Row.metered).sum
  unmetered := (rows.map Row.unmetered).sum
  tokens := Tokens.total (rows.map Row.tokens)
  usd := Usd.total (rows.map Row.usd)

def parseLine (since : Option ℤ) (text : String) : Option (CostLine × Bool) := do
  let line ← env.usageLine text
  let _ ← Source.of line
  let tag ← env.costSource text
  let reported := tag = some harnessSource && line.costUsd.isSome && Role.of line.kind != some .main
  if inWindow env line.at_ since then some (line, reported) else none

def parseLines (usage : String) (since : Option ℤ) : List (CostLine × Bool) :=
  (Text.lines usage).filterMap (parseLine env since)

def entry (windows : List WorkerWindow) (line : CostLine × Bool) : Entry :=
  let window := if line.1.kind = "worker" then do
      let id ← line.1.workerId
      let at_ ← env.instant line.1.at_
      windowPosition windows id at_
    else none
  ⟨line.1, window, line.2⟩

def entries (lines : List (CostLine × Bool)) (windows : List WorkerWindow) : List Entry :=
  lines.map (entry env windows)

def unmeteredCursors (windows : List WorkerWindow) (entries : List Entry) (since : Option ℤ) :
    List WorkerWindow :=
  let joined := entries.filterMap Entry.window
  (windows.zipIdx.filter fun (w, position) =>
    w.harness = cursorHarness && !joined.contains position && since.all (· ≤ w.start)).map Prod.fst

section
variable {κ : Type} [LinearOrder κ]

/-- The entries and the number of unmetered workers of each group. -/
abbrev Groups (κ : Type) [LinearOrder κ] := SortedMap κ (List Entry × ℕ)

def addEntry (key : Entry → Option κ) (groups : Groups κ) (entry : Entry) : Groups κ :=
  match key entry with
  | some k => groups.update k ([], 0) fun g => (g.1 ++ [entry], g.2)
  | none => groups

def buildGroups (entries : List Entry) (unmetered : List κ) (key : Entry → Option κ) : Groups κ :=
  unmetered.foldl (fun groups k => groups.update k ([], 0) fun g => (g.1, g.2 + 1))
    (entries.foldl (addEntry key) .empty)

def build (groups : Groups κ) (label : κ → String) (priced : Entry → Usd) : List Row :=
  groups.entries.map fun (key, lines, unmetered) =>
    ⟨label key, lines.length, unmetered, Tokens.total (lines.map fun entry => Tokens.of entry.line),
      Usd.total (lines.map priced)⟩

end

def ticketKey (ticket : Option String) : Bool ×ₗ String :=
  match ticket with
  | some ticket => toLex (false, ticket)
  | none => toLex (true, unknownTicket)

inductive Grouping
  | harness
  | role
  | ticket
  deriving DecidableEq, Repr

section
variable (entries : List Entry) (windows : List WorkerWindow) (since : Option ℤ)

def harnessGroups : Groups Source :=
  buildGroups entries ((unmeteredCursors windows entries since).map fun w => .worker w.harness)
    fun entry => Source.of entry.line

def roleGroups : Groups Role :=
  buildGroups entries ((unmeteredCursors windows entries since).map fun _ => .worker)
    fun entry => Role.of entry.line.kind

def ticketGroups : Groups (Bool ×ₗ String) :=
  buildGroups entries ((unmeteredCursors windows entries since).map fun w => ticketKey w.ticket)
    fun entry => some (ticketKey (entry.window.bind fun position =>
      windows[position]?.bind WorkerWindow.ticket))

def rows (grouping : Grouping) (priced : Entry → Usd) : List Row :=
  match grouping with
  | .harness => build (harnessGroups entries windows since) Source.label priced
  | .role => build (roleGroups entries windows since) Role.label priced
  | .ticket => build (ticketGroups entries windows since) (fun key => (ofLex key).2) priced

/-- The entries of the groups of a view. -/
def groupLines (grouping : Grouping) : List (List Entry) :=
  match grouping with
  | .harness => (harnessGroups entries windows since).entries.map fun g => g.2.1
  | .role => (roleGroups entries windows since).entries.map fun g => g.2.1
  | .ticket => (ticketGroups entries windows since).entries.map fun g => g.2.1

end

def pricedEntry (entry : Entry) : Usd :=
  match entry.reported, entry.line.costUsd with
  | true, some cost => Usd.ofReported cost
  | _, _ => env.computedUsd entry.line

structure Inputs where
  usage : String
  workers : String

/-- The entries of `costs_by_view`. -/
def Inputs.entries (inputs : Inputs) (since : Option ℤ) : List Entry :=
  Costs.entries env (parseLines env inputs.usage since) (parseWindows env inputs.workers)

/-- The rows of `costs_by_view`. -/
def Inputs.rows (inputs : Inputs) (grouping : Grouping) (since : Option ℤ) : List Row :=
  Costs.rows (inputs.entries env since) (parseWindows env inputs.workers) since grouping (pricedEntry env)

end Ralph.Worker.Costs
