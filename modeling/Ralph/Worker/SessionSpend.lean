import Mathlib.Data.List.TakeWhile
import Ralph.ListSums
import Ralph.Meter
import Ralph.Worker.WorkerCosts

namespace Ralph.Worker.Spend
open Wire

/-- The counters that a row of the usage file has as well, each by itself. -/
inductive Counter
  | input
  | output
  | cacheRead
  | write5m
  | write1h
  | thinking
  deriving DecidableEq

/-- What claude has used of one model since it started. -/
structure ModelTotals where
  inputTokens : ℕ
  outputTokens : ℕ
  cacheReadInputTokens : ℕ
  cacheCreationInputTokens : ℕ
  cacheWrite5m : ℕ
  cacheWrite1h : ℕ
  thinkingTokens : ℕ
  deriving DecidableEq

namespace ModelTotals

/-- `ModelTotals::default`. -/
def zero : ModelTotals := ⟨0, 0, 0, 0, 0, 0, 0⟩

def saturatingSub (self other : ModelTotals) : ModelTotals where
  inputTokens := self.inputTokens - other.inputTokens
  outputTokens := self.outputTokens - other.outputTokens
  cacheReadInputTokens := self.cacheReadInputTokens - other.cacheReadInputTokens
  cacheCreationInputTokens := self.cacheCreationInputTokens - other.cacheCreationInputTokens
  cacheWrite5m := self.cacheWrite5m - other.cacheWrite5m
  cacheWrite1h := self.cacheWrite1h - other.cacheWrite1h
  thinkingTokens := self.thinkingTokens - other.thinkingTokens

def get (t : ModelTotals) : Counter → ℕ
  | .input => t.inputTokens
  | .output => t.outputTokens
  | .cacheRead => t.cacheReadInputTokens
  | .write5m => t.cacheWrite5m
  | .write1h => t.cacheWrite1h
  | .thinking => t.thinkingTokens

@[simp] theorem get_zero (c : Counter) : zero.get c = 0 := by cases c <;> rfl

@[simp] theorem get_saturatingSub (a b : ModelTotals) (c : Counter) :
    (a.saturatingSub b).get c = a.get c - b.get c := by cases c <;> rfl

end ModelTotals

/-- The tokens of the main loop, as the result of a turn has them. -/
structure MainUsage where
  inputTokens : ℕ
  outputTokens : ℕ
  cacheReadInputTokens : Option ℕ
  cacheCreationInputTokens : Option ℕ
  cacheCreation : Option (ℕ × ℕ)
  thinkingTokens : Option ℕ

/-- `From<&Usage> for ModelTotals`. -/
def MainUsage.totals (usage : MainUsage) : ModelTotals where
  inputTokens := usage.inputTokens
  outputTokens := usage.outputTokens
  cacheReadInputTokens := usage.cacheReadInputTokens.getD 0
  cacheCreationInputTokens := usage.cacheCreationInputTokens.getD 0
  cacheWrite5m := (usage.cacheCreation.getD (0, 0)).1
  cacheWrite1h := (usage.cacheCreation.getD (0, 0)).2
  thinkingTokens := usage.thinkingTokens.getD 0

abbrev Totals := SortedMap String ModelTotals

def modelUsageSince (previous current : Totals) : Totals where
  entries := current.entries.map fun (model, now) =>
    (model, now.saturatingSub ((previous.lookup model).getD .zero))
  sorted := List.pairwise_map.2 current.sorted

structure IterationCosts where
  usage : Option MainUsage
  modelUsage : Totals

def mainRow (usage : MainUsage) (model : Option String) : UsageLine where
  inputTokens := usage.inputTokens
  cacheCreationInputTokens := usage.cacheCreationInputTokens.getD 0
  cacheReadInputTokens := usage.cacheReadInputTokens.getD 0
  outputTokens := usage.outputTokens
  harness := some mainHarness
  model := model
  reasoningTokens := usage.thinkingTokens
  cacheWrite5m := usage.cacheCreation.map Prod.fst
  cacheWrite1h := usage.cacheCreation.map Prod.snd
  longPrompt := none

def usageRecord (costs : IterationCosts) (model : Option String) : Option UsageLine :=
  costs.usage.map (mainRow · model)

def subagentUsage (totals : ModelTotals) : Usage where
  inputUncached := totals.inputTokens
  cacheRead := totals.cacheReadInputTokens
  cacheWrites := [CacheWrite.mk fiveMin totals.cacheWrite5m, ⟨oneHour, totals.cacheWrite1h⟩,
    ⟨.unspecified, totals.cacheCreationInputTokens - (totals.cacheWrite5m + totals.cacheWrite1h)⟩].filter
      fun write => 0 < write.tokens ∨ write.tier ≠ .unspecified
  output := totals.outputTokens
  reasoning := some totals.thinkingTokens
  other := []

/-- What is left of a model for the subagents. -/
def leftOf (costs : IterationCosts) (main : Option String) (model : String) (totals : ModelTotals) :
    ModelTotals :=
  if main = some model then totals.saturatingSub ((costs.usage.map MainUsage.totals).getD .zero)
  else totals

def subagentRow (model : String) (left : ModelTotals) : UsageLine :=
  { workerUsageRecord mainHarness ⟨model, subagentUsage left, false⟩ with longPrompt := none }

def subagentRecords (costs : IterationCosts) (main : Option String) : List UsageLine :=
  ((costs.modelUsage.entries.map fun (model, totals) => (model, leftOf costs main model totals)).filter
    fun (_, left) => left ≠ .zero).map fun (model, left) => subagentRow model left

/-- `advance_model_usage`: the running totals of the result become what was added since the last. -/
def advanceModelUsage (running : Totals) (costs : IterationCosts) : Totals × IterationCosts :=
  if costs.modelUsage.entries = [] then (running, costs)
  else (costs.modelUsage, { costs with modelUsage := modelUsageSince running costs.modelUsage })

/-- One exchange with a chat process, an attempt of a turn or a keepalive ping: its result, also
where it was interrupted or timed out, or an error without one; the model that the chat knows after
it; and whether the chat drops the result. It drops that of an outage attempt that
`retry_on_outage` repeats and that of a ping that timed out, and the process with it. -/
structure Exchange where
  outcome : Option IterationCosts
  model : Option String
  dropped : Bool

/-- `drive`, which takes the totals of every result over, and then the rows that are written. -/
def drive (running : Totals) (e : Exchange) : Totals × List UsageLine :=
  match e.outcome with
  | none => (running, [])
  | some costs =>
    let (running, costs) := advanceModelUsage running costs
    if e.dropped then (running, [])
    else
      match usageRecord costs e.model with
      | none => (running, [])
      | some record => (running, record :: subagentRecords costs e.model)

/-- The totals that the process holds after some exchanges, and the rows that were written. -/
def session : Totals → List Exchange → Totals × List UsageLine
  | running, [] => (running, [])
  | running, e :: es =>
    let (running, rows) := drive running e
    if e.dropped then (running, rows)
    else
      let (last, more) := session running es
      (last, rows ++ more)

/-- The exchanges whose results are not dropped. -/
def recorded (es : List Exchange) : List Exchange := es.takeWhile (!·.dropped)

def lineGet (line : UsageLine) : Counter → ℕ
  | .input => line.inputTokens
  | .output => line.outputTokens
  | .cacheRead => line.cacheReadInputTokens
  | .write5m => line.cacheWrite5m.getD 0
  | .write1h => line.cacheWrite1h.getD 0
  | .thinking => line.reasoningTokens.getD 0

def counted (m : String) (c : Counter) (rows : List UsageLine) : ℕ :=
  (rows.map fun line => if line.model = some m then lineGet line c else 0).sum

def total (m : String) (c : Counter) (totals : Totals) : ℕ := (totals.lookup m).elim 0 (·.get c)

/-- The main loop of the exchange, if its model is this one. -/
def Exchange.mainPart (e : Exchange) (m : String) (c : Counter) : ℕ :=
  if e.model = some m then (e.outcome.bind IterationCosts.usage).elim 0 (·.totals.get c) else 0

section Rows

variable {m : String} {c : Counter} {costs : IterationCosts} {main : Option String}

@[simp] theorem counted_nil : counted m c [] = 0 := rfl

@[simp] theorem counted_cons (line : UsageLine) (rows : List UsageLine) :
    counted m c (line :: rows) =
      (if line.model = some m then lineGet line c else 0) + counted m c rows := rfl

theorem counted_append (rows more : List UsageLine) :
    counted m c (rows ++ more) = counted m c rows + counted m c more := by
  simp [counted]

theorem lineGet_subagentRow (model : String) (left : ModelTotals) (c : Counter) :
    lineGet (subagentRow model left) c = left.get c := by
  cases c <;> simp [lineGet, subagentRow, workerUsageRecord, subagentUsage, ModelTotals.get,
    fiveMin, oneHour]

theorem lineGet_mainRow (usage : MainUsage) (model : Option String) (c : Counter) :
    lineGet (mainRow usage model) c = usage.totals.get c := by
  obtain ⟨_, _, _, _, tiers, _⟩ := usage
  cases c <;> cases tiers <;> rfl

theorem lookup_map (f : String → ModelTotals → ModelTotals) (es : List (String × ModelTotals)) :
    (es.map fun e => (e.1, f e.1 e.2)).lookup m = (es.lookup m).map (f m) := by
  induction es with
  | nil => rfl
  | cons e es ih =>
    obtain ⟨k, v⟩ := e
    rw [List.map_cons, SortedMap.lookup_cons_ite, SortedMap.lookup_cons_ite, ih]
    split_ifs with h
    · rw [h, Option.map_some]
    · rfl

/-- A model that is missing counts as one with no tokens, then and now. -/
theorem total_modelUsageSince (previous current : Totals) :
    total m c (modelUsageSince previous current) = total m c current - total m c previous := by
  have hlookup : (modelUsageSince previous current).lookup m = (current.lookup m).map fun now =>
      now.saturatingSub ((previous.lookup m).getD .zero) :=
    lookup_map (fun model now => now.saturatingSub ((previous.lookup model).getD .zero)) _
  rw [total, hlookup, total, total]
  cases current.lookup m with
  | none => simp
  | some now => cases h : previous.lookup m <;> simp

theorem counted_subagentRow (model : String) (left : ModelTotals) (rows : List UsageLine) :
    counted m c (subagentRow model left :: rows) =
      (if model = m then left.get c else 0) + counted m c rows := by
  rw [counted_cons, lineGet_subagentRow]
  simp [subagentRow, workerUsageRecord]

theorem counted_subagentRows (left : String × ModelTotals → ModelTotals)
    (es : List (String × ModelTotals)) :
    counted m c (((es.map fun e => (e.1, left e)).filter fun e => e.2 ≠ .zero).map
      fun e => subagentRow e.1 e.2) = ((es.filter fun e => e.1 = m).map fun e => (left e).get c).sum := by
  induction es with
  | nil => rfl
  | cons e es ih =>
    have hhead : (((e :: es).filter fun e => e.1 = m).map fun e => (left e).get c).sum =
        (if e.1 = m then (left e).get c else 0) +
          ((es.filter fun e => e.1 = m).map fun e => (left e).get c).sum := by
      by_cases hm : e.1 = m <;> simp [hm]
    rw [hhead, ← ih, List.map_cons]
    by_cases hzero : left e = .zero
    · rw [List.filter_cons_of_neg (by simpa using hzero), hzero, ModelTotals.get_zero, ite_self,
        zero_add]
    · rw [List.filter_cons_of_pos (by simpa using hzero), List.map_cons, counted_subagentRow]

/-- The rows of the subagents have what is left of each model. -/
theorem counted_subagentRecords : counted m c (subagentRecords costs main) =
    (costs.modelUsage.lookup m).elim 0 fun totals => (leftOf costs main m totals).get c := by
  refine (counted_subagentRows (fun e => leftOf costs main e.1 e.2) _).trans ?_
  rw [SortedMap.filter_key]
  cases costs.modelUsage.lookup m <;> simp

/-- The delta of a model is the main loop's part and what the subagents have. -/
theorem elim_leftOf (usage : MainUsage) (husage : costs.usage = some usage) :
    ((costs.modelUsage.lookup m).elim 0 fun totals => (leftOf costs main m totals).get c) =
      total m c costs.modelUsage - if main = some m then usage.totals.get c else 0 := by
  rw [total]
  cases costs.modelUsage.lookup m with
  | none => simp
  | some totals =>
    by_cases hm : main = some m
    · simp [leftOf, hm, husage]
    · simp [leftOf, hm]

/-- What the rows of a result have: the main loop's part, and what is more than that. -/
theorem counted_rows {usage : MainUsage} (husage : costs.usage = some usage) :
    counted m c (mainRow usage main :: subagentRecords costs main) =
      (if main = some m then usage.totals.get c else 0) +
        (total m c costs.modelUsage - if main = some m then usage.totals.get c else 0) := by
  rw [counted_cons, counted_subagentRecords, elim_leftOf usage husage, lineGet_mainRow]
  rfl

/-- The result of a turn that has totals has the usage of the main loop as well. -/
def Exchange.Whole (e : Exchange) : Prop :=
  ∀ costs, e.outcome = some costs → costs.modelUsage.entries ≠ [] → costs.usage.isSome

/-- The rows of one exchange are enough for the new total, and are no more than it adds if it adds
what the main loop used. -/
theorem drive_books (running : Totals) {e : Exchange} (hkept : e.dropped = false)
    (hwhole : e.Whole) :
    total m c (drive running e).1 ≤ total m c running + counted m c (drive running e).2 ∧
      (total m c running + counted m c (drive running e).2 = total m c (drive running e).1 ↔
        total m c running + e.mainPart m c ≤ total m c (drive running e).1) := by
  obtain ⟨outcome, main, dropped⟩ := e
  obtain rfl : dropped = false := hkept
  cases outcome with
  | none => simp [drive, Exchange.mainPart]
  | some costs =>
    by_cases hempty : costs.modelUsage.entries = []
    · have htotal : total m c costs.modelUsage = 0 := by
        rw [total, SortedMap.lookup, hempty]
        rfl
      cases husage : costs.usage with
      | none => simp [drive, advanceModelUsage, hempty, usageRecord, husage, Exchange.mainPart]
      | some usage =>
        have hdrive : drive running ⟨some costs, main, false⟩ =
            (running, mainRow usage main :: subagentRecords costs main) := by
          simp only [drive, advanceModelUsage, hempty, if_true, usageRecord, husage, Option.map_some,
            Bool.false_eq_true, if_false]
        rw [hdrive, counted_rows husage, htotal]
        simp only [Exchange.mainPart, Option.bind_some, husage, Option.elim_some]
        omega
    · obtain ⟨usage, husage⟩ := Option.isSome_iff_exists.1 (hwhole costs rfl hempty)
      have hdrive : drive running ⟨some costs, main, false⟩ = (costs.modelUsage, mainRow usage main ::
          subagentRecords { costs with modelUsage := modelUsageSince running costs.modelUsage }
            main) := by
        simp only [drive, advanceModelUsage, hempty, if_false, usageRecord, husage, Option.map_some,
          Bool.false_eq_true]
      rw [hdrive, counted_rows (by exact husage), total_modelUsageSince]
      simp only [Exchange.mainPart, Option.bind_some, husage, Option.elim_some]
      omega

end Rows

variable {m : String} {c : Counter}

/-- Each exchange adds to the total at least what its main loop used. -/
def Grows (m : String) (c : Counter) : Totals → List Exchange → Prop
  | _, [] => True
  | running, e :: es => total m c running + e.mainPart m c ≤ total m c (drive running e).1 ∧
      Grows m c (drive running e).1 es

/-- The total as a meter, and the rows as what is booked for it. -/
def bookings (m : String) (c : Counter) : Totals → List Exchange → List (ℕ × ℕ)
  | _, [] => []
  | running, e :: es => (total m c (drive running e).1, counted m c (drive running e).2) ::
      bookings m c (drive running e).1 es

theorem not_dropped {es : List Exchange} {e : Exchange} (h : e ∈ recorded es) :
    e.dropped = false := by
  have hkept := List.mem_takeWhile_imp h
  simpa using hkept

/-- The rows are those of the exchanges that were recorded. -/
theorem session_recorded (running : Totals) (es : List Exchange) :
    (session running es).2 = (session running (recorded es)).2 := by
  induction es generalizing running with
  | nil => rfl
  | cons e es ih =>
    cases hdropped : e.dropped with
    | true =>
      have hrecorded : recorded (e :: es) = [] := by simp [recorded, hdropped]
      rw [hrecorded]
      simp only [session, hdropped, if_true]
      cases houtcome : e.outcome <;> simp [drive, houtcome, hdropped]
    | false =>
      have hrecorded : recorded (e :: es) = e :: recorded es := by simp [recorded, hdropped]
      rw [hrecorded]
      simp only [session, hdropped, Bool.false_eq_true, if_false]
      rw [ih]

/-- A process whose results are all recorded. -/
theorem recorded_eq {es : List Exchange} (h : ∀ e ∈ es, e.dropped = false) : recorded es = es :=
  List.takeWhile_eq_self_iff.2 fun e he => by rw [h e he]; rfl

theorem final_bookings (running : Totals) {es : List Exchange}
    (hkept : ∀ e ∈ es, e.dropped = false) :
    Meter.final (total m c running) (bookings m c running es) = total m c (session running es).1 := by
  induction es generalizing running with
  | nil => rfl
  | cons e es ih =>
    rw [List.forall_mem_cons] at hkept
    simp only [session, hkept.1, Bool.false_eq_true, if_false]
    exact ih _ hkept.2

theorem booked_bookings (running : Totals) {es : List Exchange}
    (hkept : ∀ e ∈ es, e.dropped = false) :
    Meter.booked (bookings m c running es) = counted m c (session running es).2 := by
  induction es generalizing running with
  | nil => rfl
  | cons e es ih =>
    rw [List.forall_mem_cons] at hkept
    simp only [session, hkept.1, Bool.false_eq_true, if_false]
    show counted m c (drive running e).2 + Meter.booked (bookings m c (drive running e).1 es) =
      counted m c ((drive running e).2 ++ (session (drive running e).1 es).2)
    rw [ih _ hkept.2, counted_append]

theorem covers_bookings (running : Totals) {es : List Exchange}
    (hkept : ∀ e ∈ es, e.dropped = false) (hwhole : ∀ e ∈ es, e.Whole) :
    Meter.Covers (total m c running) (bookings m c running es) := by
  induction es generalizing running with
  | nil => trivial
  | cons e es ih =>
    rw [List.forall_mem_cons] at hkept hwhole
    exact ⟨(drive_books running hkept.1 hwhole.1).1, ih _ hkept.2 hwhole.2⟩

theorem exact_bookings (running : Totals) {es : List Exchange}
    (hkept : ∀ e ∈ es, e.dropped = false) (hwhole : ∀ e ∈ es, e.Whole) :
    Meter.Exact (total m c running) (bookings m c running es) ↔ Grows m c running es := by
  induction es generalizing running with
  | nil => rfl
  | cons e es ih =>
    rw [List.forall_mem_cons] at hkept hwhole
    exact and_congr (drive_books running hkept.1 hwhole.1).2 (ih _ hkept.2 hwhole.2)

/-- The rows that a chat process leaves in the usage file have, for every model and counter, at
least the total that the process reported last in a result that was recorded; and exactly that
where each exchange that was recorded added to the total what its main loop used or more. -/
theorem session_rows_add_up (es : List Exchange) (hwhole : ∀ e ∈ recorded es, e.Whole) (m : String)
    (c : Counter) :
    total m c (session .empty (recorded es)).1 ≤ counted m c (session .empty es).2 ∧
      (counted m c (session .empty es).2 = total m c (session .empty (recorded es)).1 ↔
        Grows m c .empty (recorded es)) ∧
      ((∀ e ∈ es, e.dropped = false) → (session .empty (recorded es)).1 = (session .empty es).1) := by
  have hkept : ∀ e ∈ recorded es, e.dropped = false := fun e he => not_dropped he
  have hcovers := covers_bookings (m := m) (c := c) .empty hkept hwhole
  have hstart : total m c .empty = 0 := rfl
  have hle := Meter.final_le hcovers
  have hiff := Meter.booked_eq_iff hcovers
  rw [final_bookings _ hkept, booked_bookings _ hkept, hstart, zero_add] at hle hiff
  rw [session_recorded]
  exact ⟨hle, hiff.trans (exact_bookings .empty hkept hwhole), fun h => by rw [recorded_eq h]⟩

/-- A subagent on the model of the main loop, an exchange that broke off, one more turn, and an
outage attempt that is repeated on another process. -/
def demo : List Exchange :=
  let result (running : ℕ) : IterationCosts :=
    ⟨some ⟨10, 0, none, none, none, none⟩, SortedMap.empty.insert "opus" ⟨running, 0, 0, 0, 0, 0, 0⟩⟩
  [⟨some (result 30), some "opus", false⟩, ⟨none, some "opus", false⟩,
    ⟨some (result 40), some "opus", false⟩, ⟨some (result 55), some "opus", true⟩]

theorem session_rows_add_up_demo : total "opus" .input (session .empty demo).1 = 55 ∧
    counted "opus" .input (session .empty demo).2 = 40 := by
  have hwhole : ∀ e ∈ recorded demo, e.Whole := by
    intro e he costs houtcome _
    have hmem : e ∈ demo := (List.takeWhile_prefix _).subset he
    simp only [demo, List.mem_cons, List.not_mem_nil, or_false] at hmem
    obtain rfl | rfl | rfl | rfl := hmem <;> simp at houtcome <;> simp [← houtcome]
  have hgrows : Grows "opus" .input .empty (recorded demo) :=
    ⟨by decide, by decide, by decide, trivial⟩
  have hcounted := (session_rows_add_up demo hwhole "opus" .input).2.1.2 hgrows
  exact ⟨by decide, hcounted.trans (by decide)⟩

end Ralph.Worker.Spend
