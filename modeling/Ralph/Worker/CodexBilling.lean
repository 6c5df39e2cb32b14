import Ralph.Machine
import Ralph.Worker.CodexUsage

namespace Ralph.Worker.Codex
open Wire

/-- What a thread tells its host, and what the host does in between: a notification, one more
copy of the latest notification, a reroute, the start of a turn and a `take`. -/
inductive ThreadStep
  | notified (params : JsonValue) (inTurn : Bool)
  | resent (inTurn : Bool)
  | rerouted (params : JsonValue) (inTurn : Bool)
  | startTurn
  | take

structure ThreadState where
  usage : TurnUsage
  latest : Option JsonValue

namespace ThreadState

def start (model : Option String) : ThreadState := ⟨.new model, none⟩

def received (prices : List PriceEntry) (u : TurnUsage) (method : String) (params : JsonValue) (inTurn : Bool) :
    TurnUsage :=
  (decodeUsageEvent method params).elim u fun event => u.observe prices event inTurn

def step (prices : List PriceEntry) (s : ThreadState) : ThreadStep → ThreadState × List ModelUsage
  | .notified params inTurn => (⟨received prices s.usage tokenUsageUpdated params inTurn, some params⟩, [])
  | .resent inTurn =>
    (⟨s.latest.elim s.usage fun params => received prices s.usage tokenUsageUpdated params inTurn, s.latest⟩, [])
  | .rerouted params inTurn => (⟨received prices s.usage modelRerouted params inTurn, s.latest⟩, [])
  | .startTurn => (⟨s.usage.startTurn, s.latest⟩, [])
  | .take => (⟨s.usage.take.1, s.latest⟩, s.usage.take.2)

end ThreadState

/-- The model in force: a reroute in a turn sets it, and the end and the start of a turn
bring back the model of the thread. -/
def nextModel (base current : Option String) : ThreadStep → Option String
  | .rerouted params true => (params.get "toModel").asStr.or current
  | .startTurn | .take => base
  | _ => current

/-- The calls whose first copy came in a turn, under the model in force. -/
def billed (base : Option String) : Option String → List ThreadStep → List (String × CallTokens)
  | _, [] => []
  | current, .notified params true :: steps =>
    (current.getD unknownModel, decodeCall (lastOf params)) :: billed base current steps
  | current, s :: steps => billed base (nextModel base current s) steps

def billedTokens (prices : List PriceEntry) (model : String) (long : Bool) (kind : UsageKind)
    (calls : List (String × CallTokens)) : ℕ :=
  ((calls.filter fun c => c.1 = model ∧ longPromptCall prices model c.2.usage = long).map fun c =>
    kind.tokens c.2.usage).sum

def breakdownKeys : List String :=
  ["inputTokens", "cachedInputTokens", "cacheWriteInputTokens", "outputTokens", "reasoningOutputTokens"]

/-- The total is the total before plus the last call, component by component. -/
def Sums (before last total : JsonValue) : Prop :=
  ∀ key ∈ breakdownKeys, count total key = count before key + count last key

/-- Cached and written tokens are at most the input tokens. -/
def Within (breakdown : JsonValue) : Prop :=
  count breakdown "cachedInputTokens" + count breakdown "cacheWriteInputTokens" ≤ count breakdown "inputTokens"

/-- The notifications of a thread whose earlier calls have used the tokens of `before`. -/
def Thread (before : JsonValue) : List ThreadStep → Prop
  | [] => True
  | .notified params _ :: steps =>
    (totalOf params).isObject ∧ (lastOf params).isObject ∧ Within (lastOf params) ∧
      Sums before (lastOf params) (totalOf params) ∧ Thread (totalOf params) steps
  | _ :: steps => Thread before steps

namespace CallTokens

def plus (a b : CallTokens) : CallTokens :=
  ⟨a.inputUncached + b.inputUncached, a.cacheRead + b.cacheRead, a.cacheWrite + b.cacheWrite,
    a.output + b.output, a.reasoning + b.reasoning⟩

structure Le (a b : CallTokens) : Prop where
  inputUncached : a.inputUncached ≤ b.inputUncached
  cacheRead : a.cacheRead ≤ b.cacheRead
  cacheWrite : a.cacheWrite ≤ b.cacheWrite
  output : a.output ≤ b.output
  reasoning : a.reasoning ≤ b.reasoning

theorem Le.plus {a b : CallTokens} (h : a.Le b) (c : CallTokens) : (a.plus c).Le (b.plus c) :=
  ⟨Nat.add_le_add_right h.1 _, Nat.add_le_add_right h.2 _, Nat.add_le_add_right h.3 _,
    Nat.add_le_add_right h.4 _, Nat.add_le_add_right h.5 _⟩

theorem Le.trans_plus {a b : CallTokens} (h : a.Le b) (c : CallTokens) : a.Le (b.plus c) :=
  ⟨Nat.le_add_right_of_le h.1, Nat.le_add_right_of_le h.2, Nat.le_add_right_of_le h.3,
    Nat.le_add_right_of_le h.4, Nat.le_add_right_of_le h.5⟩

theorem zero_le (a : CallTokens) : zero.Le a := ⟨Nat.zero_le _, Nat.zero_le _, Nat.zero_le _, Nat.zero_le _, Nat.zero_le _⟩

theorem zero_plus (a : CallTokens) : zero.plus a = a := by simp [plus, zero]

theorem plus_since (a b : CallTokens) : (a.plus b).since a = b := by simp [plus, since]

theorem since_self (a : CallTokens) : a.since a = zero := by simp [since, zero]

theorem tokens_plus (kind : UsageKind) (a b : CallTokens) :
    kind.tokens (a.plus b).usage = kind.tokens a.usage + kind.tokens b.usage := by
  cases kind with
  | input | cacheRead | output | reasoning => rfl
  | cacheWrite tier =>
    by_cases htier : CacheTier.unspecified = tier
    · have hwrites : ∀ c : CallTokens, (UsageKind.cacheWrite tier).tokens c.usage = c.cacheWrite := by
        intro c
        simp only [UsageKind.tokens, usage, tierTokens]
        split_ifs with hpos
        · simp [htier]
        · simp only [List.filter_nil, List.map_nil, List.sum_nil]
          omega
      rw [hwrites, hwrites, hwrites]
      rfl
    · have hwrites : ∀ c : CallTokens, (UsageKind.cacheWrite tier).tokens c.usage = 0 := by
        intro c
        simp only [UsageKind.tokens, usage, tierTokens]
        split_ifs with hpos
        · simp [htier]
        · rfl
      rw [hwrites, hwrites, hwrites]

theorem tokens_zero (kind : UsageKind) : kind.tokens zero.usage = 0 := by
  cases kind
  all_goals rfl

end CallTokens

theorem count_lt (breakdown : JsonValue) (key : String) : count breakdown key < 2 ^ 64 := by
  unfold count JsonValue.asU64
  split
  · split_ifs with h
    · exact h.2.2
    · exact Nat.two_pow_pos 64
  · exact Nat.two_pow_pos 64

theorem decodeCall_sums {before last total : JsonValue} (hbefore : Within before) (hlast : Within last)
    (h : Sums before last total) : decodeCall total = (decodeCall before).plus (decodeCall last) := by
  have hinput := h "inputTokens" (by simp [breakdownKeys])
  have hcached := h "cachedInputTokens" (by simp [breakdownKeys])
  have hwritten := h "cacheWriteInputTokens" (by simp [breakdownKeys])
  have houtput := h "outputTokens" (by simp [breakdownKeys])
  have hreasoning := h "reasoningOutputTokens" (by simp [breakdownKeys])
  unfold Within at hbefore hlast
  simp only [decodeCall, CallTokens.plus, CallTokens.mk.injEq]
  refine ⟨by omega, hcached, hwritten, houtput, hreasoning⟩

theorem within_sums {before last total : JsonValue} (hbefore : Within before) (hlast : Within last)
    (h : Sums before last total) : Within total := by
  have hinput := h "inputTokens" (by simp [breakdownKeys])
  have hcached := h "cachedInputTokens" (by simp [breakdownKeys])
  have hwritten := h "cacheWriteInputTokens" (by simp [breakdownKeys])
  unfold Within at *
  omega

/-- Counts that stay below a decoded total do not wrap. -/
theorem add_of_le {a b : CallTokens} {total : JsonValue} (h : (a.plus b).Le (decodeCall total)) :
    a.add b = a.plus b := by
  have hinput := h.inputUncached.trans ((Nat.sub_le _ _).trans (Nat.sub_le _ _))
  simp only [CallTokens.add, CallTokens.plus, CallTokens.mk.injEq, addWrap]
  exact ⟨Nat.mod_eq_of_lt (hinput.trans_lt (count_lt _ _)), Nat.mod_eq_of_lt (h.cacheRead.trans_lt (count_lt _ _)),
    Nat.mod_eq_of_lt (h.cacheWrite.trans_lt (count_lt _ _)), Nat.mod_eq_of_lt (h.output.trans_lt (count_lt _ _)),
    Nat.mod_eq_of_lt (h.reasoning.trans_lt (count_lt _ _))⟩

namespace TurnUsage

/-- What the rows of a key count so far. -/
def pending (u : TurnUsage) (key : RowKey) (kind : UsageKind) : ℕ :=
  kind.tokens ((u.byModel.lookup key).getD .zero).usage

theorem rowTokens_rows (u : TurnUsage) (model : String) (long : Bool) (kind : UsageKind) :
    rowTokens model long kind u.rows = u.pending (toLex (model, long)) kind := by
  have hkey : ∀ e : RowKey × CallTokens,
      decide ((ofLex e.1).1 = model ∧ (ofLex e.1).2 = long) = decide (e.1 = toLex (model, long)) := by
    intro e
    rw [decide_eq_decide]
    exact ⟨fun h => toLex.injective (Prod.ext h.1 h.2), fun h => by rw [h]; exact ⟨rfl, rfl⟩⟩
  have hfilter : u.rows.filter (fun row => row.model = model ∧ row.longPrompt = long) =
      ((u.byModel.entries.filter fun e => e.1 = toLex (model, long)).filter fun e => e.2 ≠ .zero).map
        fun e => ⟨(ofLex e.1).1, e.2.usage, (ofLex e.1).2⟩ := by
    rw [rows, List.filter_map, List.filter_comm]
    congr 2
    apply List.filter_congr
    intro e _
    exact hkey e
  rw [rowTokens, hfilter, SortedMap.filter_key, pending]
  cases u.byModel.lookup (toLex (model, long)) with
  | none => exact (CallTokens.tokens_zero kind).symm
  | some t =>
    by_cases hzero : t = .zero
    · simp [hzero, CallTokens.tokens_zero]
    · simp [hzero]

/-- A call in a turn adds its tokens to the row of its key. -/
theorem pending_observe (prices : List PriceEntry) {u : TurnUsage} {total last tokens : CallTokens}
    (htokens : u.seenTotal.elim last total.since = tokens)
    (hadd : ((u.byModel.lookup (u.callKey prices tokens)).getD .zero).add tokens =
      ((u.byModel.lookup (u.callKey prices tokens)).getD .zero).plus tokens) (key : RowKey) (kind : UsageKind) :
    (u.observe prices (.call total last) true).pending key kind =
      u.pending key kind + if key = u.callKey prices tokens then kind.tokens tokens.usage else 0 := by
  rw [observe, if_pos rfl]
  dsimp only
  rw [htokens, hadd, pending, pending, SortedMap.lookup_insert]
  split_ifs with hkey
  · rw [hkey, Option.getD_some, CallTokens.tokens_plus]
  · rfl

end TurnUsage
section Run

variable (prices : List PriceEntry) {base : Option String} {before : JsonValue}

/-- What a thread has told its host: the last total, and rows that count no more than it. -/
structure Tracks (base : Option String) (before : JsonValue) (s : ThreadState) : Prop where
  within : Within before
  base : s.usage.base = base
  seen : s.usage.seenTotal = s.latest.map fun _ => decodeCall before
  latest : ∀ params ∈ s.latest, decodeUsageEvent tokenUsageUpdated params =
    some (.call (decodeCall before) (decodeCall (lastOf params)))
  bound : ∀ key t, s.usage.byModel.lookup key = some t → t.Le (decodeCall before)

theorem Tracks.start (h : Within before) (base : Option String) : Tracks base before (.start base) :=
  ⟨h, rfl, rfl, nofun, nofun⟩

theorem Tracks.pending_le {s : ThreadState} (h : Tracks base before s) (key : RowKey) :
    ((s.usage.byModel.lookup key).getD .zero).Le (decodeCall before) := by
  cases hlookup : s.usage.byModel.lookup key with
  | none => exact CallTokens.zero_le _
  | some t => exact h.bound key t hlookup

/-- A new notification counts its last call, whatever the host has seen before. -/
theorem Tracks.tokens_notified {s : ThreadState} (h : Tracks base before s) {total last : CallTokens}
    (htotal : total = (decodeCall before).plus last) : s.usage.seenTotal.elim last total.since = last := by
  rw [h.seen]
  cases s.latest with
  | none => rfl
  | some params =>
    show total.since (decodeCall before) = last
    rw [htotal, CallTokens.plus_since]

theorem bound_observe {u : TurnUsage} {total last tokens : CallTokens} {bound : CallTokens} (inTurn : Bool)
    (htokens : u.seenTotal.elim last total.since = tokens)
    (hadd : ((u.byModel.lookup (u.callKey prices tokens)).getD .zero).add tokens =
      ((u.byModel.lookup (u.callKey prices tokens)).getD .zero).plus tokens)
    (hle : ((u.byModel.lookup (u.callKey prices tokens)).getD .zero).plus tokens |>.Le bound)
    (hold : ∀ key t, u.byModel.lookup key = some t → t.Le bound) (key : RowKey) (t : CallTokens)
    (h : (u.observe prices (.call total last) inTurn).byModel.lookup key = some t) : t.Le bound := by
  cases inTurn with
  | false => exact hold key t h
  | true =>
    rw [TurnUsage.observe, if_pos rfl] at h
    dsimp only at h
    rw [htokens, hadd, SortedMap.lookup_insert] at h
    split_ifs at h with hkey
    · cases h
      exact hle
    · exact hold key t h

theorem observe_base (u : TurnUsage) (event : UsageEvent) (inTurn : Bool) :
    (u.observe prices event inTurn).base = u.base := by
  cases event <;> cases inTurn <;> rfl

theorem observe_seen (u : TurnUsage) (total last : CallTokens) (inTurn : Bool) :
    (u.observe prices (.call total last) inTurn).seenTotal = some total := by
  cases inTurn <;> rfl

theorem observe_current (u : TurnUsage) (total last : CallTokens) (inTurn : Bool) :
    (u.observe prices (.call total last) inTurn).current = u.current := by
  cases inTurn <;> rfl

/-- What the call of a notification is billed to a row. -/
theorem billedTokens_cons (model : String) (long : Bool) (kind : UsageKind) (u : TurnUsage)
    (tokens : CallTokens) (calls : List (String × CallTokens)) :
    billedTokens prices model long kind ((u.current.getD unknownModel, tokens) :: calls) =
      (if toLex (model, long) = u.callKey prices tokens then kind.tokens tokens.usage else 0) +
        billedTokens prices model long kind calls := by
  have hkey : (u.current.getD unknownModel = model ∧ longPromptCall prices model tokens.usage = long) ↔
      toLex (model, long) = u.callKey prices tokens := by
    rw [TurnUsage.callKey, toLex_inj, Prod.mk.injEq]
    constructor
    · rintro ⟨rfl, rfl⟩
      exact ⟨rfl, rfl⟩
    · rintro ⟨rfl, rfl⟩
      exact ⟨rfl, rfl⟩
  rw [billedTokens]
  split_ifs with h
  · rw [List.filter_cons_of_pos (by simpa using hkey.mpr h), List.map_cons, List.sum_cons]
    rfl
  · have hout := mt hkey.mp h
    rw [List.filter_cons_of_neg (by simpa using hout), Nat.zero_add]
    rfl

/-- A copy of the latest notification counts nothing, in a turn or outside. -/
theorem Tracks.resent {s : ThreadState} (h : Tracks base before s) (inTurn : Bool) (key : RowKey)
    (kind : UsageKind) :
    Tracks base before (ThreadState.step prices s (.resent inTurn)).1 ∧
      (ThreadState.step prices s (.resent inTurn)).1.usage.pending key kind = s.usage.pending key kind ∧
      (ThreadState.step prices s (.resent inTurn)).1.usage.current = s.usage.current := by
  obtain ⟨u, latest⟩ := s
  cases latest with
  | none => exact ⟨h, rfl, rfl⟩
  | some params =>
    have hevent := h.latest params rfl
    have hseen : u.seenTotal = some (decodeCall before) := h.seen
    have hnext : (ThreadState.step prices ⟨u, some params⟩ (.resent inTurn)).1 =
        ⟨u.observe prices (.call (decodeCall before) (decodeCall (lastOf params))) inTurn, some params⟩ := by
      show ThreadState.mk (ThreadState.received prices u tokenUsageUpdated params inTurn) (some params) = _
      rw [ThreadState.received, hevent]
      rfl
    have htokens : u.seenTotal.elim (decodeCall (lastOf params)) (decodeCall before).since = .zero := by
      rw [hseen]
      exact CallTokens.since_self _
    have hle : ∀ key, (((u.byModel.lookup key).getD .zero).plus .zero).Le (decodeCall before) :=
      fun key => h.pending_le key
    rw [hnext]
    refine ⟨⟨h.within, ?_, observe_seen prices _ _ _ _, h.latest, ?_⟩, ?_, observe_current prices _ _ _ _⟩
    · exact (observe_base prices _ _ _).trans h.base
    · exact bound_observe prices inTurn htokens (add_of_le (hle _)) (hle _) h.bound
    · cases inTurn with
      | false => rfl
      | true =>
        rw [TurnUsage.pending_observe prices htokens (add_of_le (hle _)), CallTokens.tokens_zero, ite_self]
        rfl

/-- A reroute counts nothing and may change the model in force. -/
theorem Tracks.rerouted {s : ThreadState} (h : Tracks base before s) (params : JsonValue) (inTurn : Bool)
    (key : RowKey) (kind : UsageKind) :
    Tracks base before (ThreadState.step prices s (.rerouted params inTurn)).1 ∧
      (ThreadState.step prices s (.rerouted params inTurn)).1.usage.pending key kind =
        s.usage.pending key kind ∧
      (ThreadState.step prices s (.rerouted params inTurn)).1.usage.current =
        nextModel base s.usage.current (.rerouted params inTurn) := by
  have hevent : decodeUsageEvent modelRerouted params = (params.get "toModel").asStr.map .rerouted := by
    rw [decodeUsageEvent, if_neg (by decide), if_pos rfl]
  rw [ThreadState.step, ThreadState.received, hevent]
  cases hmodel : (params.get "toModel").asStr with
  | none => cases inTurn <;> exact ⟨h, rfl, by simp [nextModel, hmodel]⟩
  | some model =>
    cases inTurn with
    | false => exact ⟨h, rfl, rfl⟩
    | true => exact ⟨⟨h.within, h.base, h.seen, h.latest, h.bound⟩, rfl, by simp [nextModel, hmodel, TurnUsage.observe]⟩

/-- From any state that tracks its thread, the rows to come count what is pending and what
is billed. -/
theorem rows_from (model : String) (long : Bool) (kind : UsageKind) {steps : List ThreadStep}
    {s : ThreadState} (hs : Tracks base before s) (hthread : Thread before steps) :
    rowTokens model long kind (Machine.outputs (ThreadState.step prices) s (steps ++ [.take])) =
      s.usage.pending (toLex (model, long)) kind +
        billedTokens prices model long kind (billed base s.usage.current steps) := by
  induction steps generalizing s before with
  | nil =>
    have hrows : Machine.outputs (ThreadState.step prices) s ([] ++ [.take]) = s.usage.rows :=
      List.append_nil _
    rw [hrows, TurnUsage.rowTokens_rows]
    rfl
  | cons step steps ih =>
    rw [List.cons_append, Machine.outputs, rowTokens_append]
    cases step with
    -- a report adds its last call to the rows, and only inside a turn
    | notified params inTurn =>
      obtain ⟨htotal, hlast, hwithin, hsums, hrest⟩ := hthread
      have hplus := decodeCall_sums hs.within hwithin hsums
      have htokens := hs.tokens_notified hplus
      have hle : ∀ key, (((s.usage.byModel.lookup key).getD .zero).plus (decodeCall (lastOf params))).Le
          (decodeCall (totalOf params)) := by
        intro key
        rw [hplus]
        exact (hs.pending_le key).plus _
      have hevent : decodeUsageEvent tokenUsageUpdated params =
          some (.call (decodeCall (totalOf params)) (decodeCall (lastOf params))) := by
        rw [decodeUsageEvent, if_pos rfl, if_pos ⟨htotal, hlast⟩]
      have hnext : (ThreadState.step prices s (.notified params inTurn)).1 =
          ⟨s.usage.observe prices (.call (decodeCall (totalOf params)) (decodeCall (lastOf params))) inTurn,
            some params⟩ := by
        rw [ThreadState.step, ThreadState.received, hevent]
        rfl
      have hold : ∀ key t, s.usage.byModel.lookup key = some t → t.Le (decodeCall (totalOf params)) := by
        intro key t h
        rw [hplus]
        exact (hs.bound key t h).trans_plus _
      have htracks : Tracks base (totalOf params)
          (ThreadState.step prices s (.notified params inTurn)).1 := by
        rw [hnext]
        refine ⟨within_sums hs.within hwithin hsums, ?_, observe_seen prices _ _ _ _, ?_, ?_⟩
        · exact (observe_base prices _ _ _).trans hs.base
        · intro params' hparams
          cases hparams
          exact hevent
        · exact bound_observe prices inTurn htokens (add_of_le (hle _)) (hle _) hold
      rw [ih htracks hrest, hnext]
      dsimp only
      rw [observe_current]
      cases inTurn with
      | false => exact Nat.zero_add _
      | true =>
        rw [TurnUsage.pending_observe prices htokens (add_of_le (hle _)), billed, billedTokens_cons]
        show 0 + _ = _
        rw [Nat.zero_add, Nat.add_assoc]
    -- a total that was seen before adds nothing
    | resent inTurn =>
      obtain ⟨htracks, hpending, hcurrent⟩ := hs.resent prices inTurn (toLex (model, long)) kind
      rw [ih htracks hthread, hpending, hcurrent]
      exact Nat.zero_add _
    | rerouted params inTurn =>
      obtain ⟨htracks, hpending, hcurrent⟩ := hs.rerouted prices params inTurn (toLex (model, long)) kind
      rw [ih htracks hthread, hpending, hcurrent]
      exact Nat.zero_add _
    | startTurn =>
      have htracks : Tracks base before (ThreadState.step prices s .startTurn).1 :=
        ⟨hs.within, hs.base, hs.seen, hs.latest, hs.bound⟩
      rw [ih htracks hthread]
      show 0 + (_ + billedTokens prices model long kind (billed base s.usage.base steps)) = _
      rw [hs.base, Nat.zero_add]
      rfl
    -- the rows go out and the pending counts start again from zero
    | take =>
      have htracks : Tracks base before (ThreadState.step prices s .take).1 :=
        ⟨hs.within, hs.base, hs.seen, hs.latest, fun _ t h => absurd h.symm (Option.some_ne_none t)⟩
      rw [ih htracks hthread]
      show rowTokens model long kind s.usage.rows + (kind.tokens CallTokens.zero.usage +
        billedTokens prices model long kind (billed base s.usage.base steps)) = _
      rw [TurnUsage.rowTokens_rows, CallTokens.tokens_zero, Nat.zero_add, hs.base]
      rfl

/-- The rows of all `take` calls and of a last one count the calls whose first copy came in a
turn, once each and under the model that was in force. -/
theorem rows_eq_billed {steps : List ThreadStep} (hbefore : Within before) (hthread : Thread before steps)
    (base : Option String) (model : String) (long : Bool) (kind : UsageKind) :
    rowTokens model long kind (Machine.outputs (ThreadState.step prices) (.start base) (steps ++ [.take])) =
      billedTokens prices model long kind (billed base base steps) := by
  rw [rows_from prices model long kind (Tracks.start hbefore base) hthread]
  exact (congrArg (· + _) (CallTokens.tokens_zero kind)).trans (Nat.zero_add _)

end Run

def breakdown (input cached output : String) : JsonValue :=
  .object [("inputTokens", .number input), ("cachedInputTokens", .number cached), ("outputTokens", .number output)]

def notice (total last : JsonValue) : JsonValue :=
  .object [("tokenUsage", .object [("total", total), ("last", last)])]

/-- A call in a turn, told twice. -/
def resentSteps : List ThreadStep :=
  [.notified (notice (breakdown "9" "2" "3") (breakdown "9" "2" "3")) true, .resent true]

theorem within_empty : Within (.object []) := by
  unfold Within
  decide

theorem thread_resentSteps : Thread (.object []) resentSteps :=
  ⟨rfl, rfl, by unfold Within; decide, by unfold Sums; decide, trivial⟩

theorem rows_eq_billed_resent :
    rowTokens "opus" false .input
      (Machine.outputs (ThreadState.step []) (.start (some "opus")) (resentSteps ++ [.take])) =
        billedTokens [] "opus" false .input (billed (some "opus") (some "opus") resentSteps) :=
  rows_eq_billed [] within_empty thread_resentSteps (some "opus") "opus" false .input

example : billedTokens [] "opus" false .input (billed (some "opus") (some "opus") resentSteps) = 7 := by
  decide

end Ralph.Worker.Codex
