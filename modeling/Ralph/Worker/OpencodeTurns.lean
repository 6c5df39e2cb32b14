import Mathlib.Tactic
import Ralph.Worker.PromptQueue

namespace Ralph.Worker.Opencode

def transientRetries : ℕ := 2
def serverStopped : String := "the opencode server stopped during the turn"

structure PermissionAsked where
  id : String
  sessionId : String
  action : String
  resources : List String
  save : List String
  deriving DecidableEq, Repr

structure PermissionOption where
  optionId : String
  name : String
  kind : String
  deriving DecidableEq, Repr

structure BlockedContent where
  requestId : String
  tool : String
  summary : String
  options : List PermissionOption
  pending : List String
  deriving DecidableEq, Repr

inductive PermissionDecision
  | once
  | always
  | reject
  deriving DecidableEq, Repr

def PermissionDecision.wire : PermissionDecision → String
  | once => "once"
  | always => "always"
  | reject => "reject"

def decisionOption (decision : PermissionDecision) (name kind : String) : PermissionOption :=
  ⟨decision.wire, name, kind⟩

def opencodeBlockedContent (asked : PermissionAsked) : BlockedContent :=
  { requestId := asked.id
    tool := asked.action
    summary := if asked.resources = [] then asked.action else "; ".intercalate asked.resources
    options :=
      [decisionOption .once "Allow once" "allow_once",
        decisionOption .always "Always allow" "allow_always",
        decisionOption .reject "Reject" "reject_once"]
    pending := [] }

structure TurnState where
  inFlight : Bool
  reminded : Bool
  retries : ℕ
  prompt : String
  blocked : List PermissionAsked
  interruptRequested : Bool
  deriving DecidableEq, Repr

structure TurnFacts where
  reported : Bool
  closing : Bool
  deriving DecidableEq, Repr

inductive SessionUpdate
  | turnStarted
  | blocked (asked : PermissionAsked)
  | unblocked (requestId : String)
  | turnEnded (turnEnd : TurnEnd)
  deriving DecidableEq, Repr

inductive Effect
  | ready
  | clearWaiting
  | publish (content : Option BlockedContent)
  | send (text : String)
  | clearReported
  | unreported
  | problem (problem : String)
  | snapshot
  deriving DecidableEq, Repr

namespace TurnState

/-- `TurnState::default`. -/
def idle : TurnState := ⟨false, false, 0, "", [], false⟩

def front (t : TurnState) : Option BlockedContent :=
  t.blocked.head?.map fun front =>
    { opencodeBlockedContent front with pending := t.blocked.map (·.id) }

def prompted (t : TurnState) (text : String) : TurnState :=
  { t with inFlight := true, reminded := false, retries := 0, prompt := text }

def serverLost (t : TurnState) : TurnState × List Effect :=
  (idle, (if t.blocked = [] then [] else [.publish none]) ++
    if t.inFlight then [.problem serverStopped] else [])

def isTransient : TurnEnd → Bool
  | .failed _ transient => transient
  | _ => false

/-- The prompt is sent again after a passing failure. -/
def retries? (t : TurnState) (turnEnd : TurnEnd) (facts : TurnFacts) : Bool :=
  isTransient turnEnd && decide (t.retries < transientRetries) && decide (t.prompt ≠ "") &&
    !facts.closing

/-- What is done about the end of a turn that is not sent again. -/
def told : TurnOutcome → List Effect
  | .remind => [.send reportReminder]
  | .unreported => [.unreported]
  | .problem problem | .stopped problem => [.problem problem]
  | .reported => [.clearReported]
  | .cancelled | .closed => []

/-- The outcome of the turn, where `requested` takes the request for an interrupt. -/
def outcome (t : TurnState) (turnEnd : TurnEnd) (facts : TurnFacts) : TurnOutcome :=
  let requested := t.interruptRequested && decide (turnEnd = .interrupted)
  turnOutcome (turnStop turnEnd) facts.reported t.reminded facts.closing requested

def settle (t : TurnState) (turnEnd : TurnEnd) (facts : TurnFacts) : TurnState × List Effect :=
  if t.retries? turnEnd facts then
    ({ t with retries := t.retries + 1, inFlight := true }, [.send t.prompt])
  else
    let drops := turnEnd = .interrupted ∧ facts.closing = false
    let reminds := t.outcome turnEnd facts = .remind
    ({ inFlight := decide reminds
       reminded := decide reminds
       retries := 0
       prompt := if reminds then reportReminder else t.prompt
       blocked := if drops then [] else t.blocked
       interruptRequested := false },
      (if drops ∧ t.blocked ≠ [] then [.publish none] else []) ++ told (t.outcome turnEnd facts))

def end_ (t : TurnState) (turnEnd : TurnEnd) (facts : TurnFacts) : TurnState × List Effect :=
  ((t.settle turnEnd facts).1,
    (if facts.closing then [] else [.snapshot]) ++ (t.settle turnEnd facts).2)

def advance (t : TurnState) (update : SessionUpdate) (facts : TurnFacts) :
    TurnState × List Effect :=
  match update with
  | .turnStarted => ({ t with inFlight := true }, [.ready, .clearWaiting])
  | .blocked asked =>
    -- the same question once more
    if asked.id ∈ t.blocked.map (·.id) then (t, [])
    else
      let t := { t with blocked := t.blocked ++ [asked] }
      (t, [.publish t.front])
  | .unblocked requestId =>
    let kept := t.blocked.filter (·.id ≠ requestId)
    let t' := { t with blocked := kept }
    (t', if kept.length = t.blocked.length then [] else [.publish t'.front])
  | .turnEnded turnEnd => t.end_ turnEnd facts

end TurnState

/-- What may happen to a session between two prompts, a start of a turn left out. -/
inductive RunStep
  | ended (turnEnd : TurnEnd) (facts : TurnFacts)
  | blocked (asked : PermissionAsked) (facts : TurnFacts)
  | unblocked (requestId : String) (facts : TurnFacts)
  | interruptRequested (requested : Bool)

namespace RunStep

def apply (t : TurnState) : RunStep → TurnState × List Effect
  | ended turnEnd facts => t.advance (.turnEnded turnEnd) facts
  | blocked asked facts => t.advance (.blocked asked) facts
  | unblocked requestId facts => t.advance (.unblocked requestId) facts
  | interruptRequested requested => ({ t with interruptRequested := requested }, [])

end RunStep

namespace TurnState

/-- The steps that come while the turn is in flight. -/
def run (t : TurnState) : List RunStep → TurnState × List Effect
  | [] => (t, [])
  | step :: steps =>
    if t.inFlight then
      let next := (step.apply t).1.run steps
      (next.1, (step.apply t).2 ++ next.2)
    else (t, [])

def isSend : Effect → Bool
  | .send _ => true
  | _ => false

/-- A word on a turn that ended without a report. -/
def isVerdict : Effect → Bool
  | .unreported | .problem _ => true
  | _ => false

/-- The prompts that may still be sent: the retries of this prompt, and before the reminder
the reminder with its own retries. -/
def sendsLeft (t : TurnState) : ℕ :=
  transientRetries - t.retries + if t.reminded then 0 else transientRetries + 1

theorem settle_of_retry {t : TurnState} {turnEnd : TurnEnd} {facts : TurnFacts}
    (h : t.retries? turnEnd facts = true) :
    t.settle turnEnd facts =
      ({ t with retries := t.retries + 1, inFlight := true }, [.send t.prompt]) := if_pos h

theorem settle_fst_of_over {t : TurnState} {turnEnd : TurnEnd} {facts : TurnFacts}
    (h : ¬ t.retries? turnEnd facts = true) :
    (t.settle turnEnd facts).1 =
      { inFlight := decide (t.outcome turnEnd facts = .remind)
        reminded := decide (t.outcome turnEnd facts = .remind)
        retries := 0
        prompt := if t.outcome turnEnd facts = .remind then reportReminder else t.prompt
        blocked := if turnEnd = .interrupted ∧ facts.closing = false then [] else t.blocked
        interruptRequested := false } := by
  rw [settle, if_neg h]

theorem settle_snd_of_over {t : TurnState} {turnEnd : TurnEnd} {facts : TurnFacts}
    (h : ¬ t.retries? turnEnd facts = true) :
    (t.settle turnEnd facts).2 =
      (if (turnEnd = .interrupted ∧ facts.closing = false) ∧ t.blocked ≠ [] then
        [.publish none] else []) ++ told (t.outcome turnEnd facts) := by
  rw [settle, if_neg h]

/-- Neither a snapshot nor what is published is a prompt or a verdict. -/
theorem countP_front {p : Effect → Bool} (hsnapshot : p .snapshot = false)
    (hpublish : ∀ content, p (.publish content) = false) (c c' : Prop) [Decidable c] [Decidable c'] :
    ((if c then [] else [.snapshot]) : List Effect).countP p = 0 ∧
      ((if c' then [.publish none] else []) : List Effect).countP p = 0 := by
  constructor
  · split_ifs
    · rfl
    · rw [List.countP_singleton, hsnapshot]
      rfl
  · split_ifs
    · rw [List.countP_singleton, hpublish]
      rfl
    · rfl

theorem told_sends (o : TurnOutcome) :
    (told o).countP isSend = if o = .remind then 1 else 0 := by
  cases o
  all_goals simp [told, isSend]

theorem not_reminded_of_outcome {t : TurnState} {turnEnd : TurnEnd} {facts : TurnFacts}
    (h : t.outcome turnEnd facts = .remind) : t.reminded = false := by
  cases hreminded : t.reminded with
  | false => rfl
  | true =>
    unfold outcome turnOutcome at h
    rw [hreminded] at h
    cases turnEnd with
    | succeeded | interrupted =>
      simp only [turnStop] at h
      split_ifs at h
    | failed message transient =>
      simp only [turnStop] at h
      split_ifs at h

/-- A turn that ends without a report and is not sent again is reminded of it, told, or was
interrupted on request. -/
theorem told_of_unreported {t : TurnState} {turnEnd : TurnEnd} {facts : TurnFacts}
    (hreported : facts.reported = false) (hclosing : facts.closing = false)
    (hremind : t.outcome turnEnd facts ≠ .remind) :
    (told (t.outcome turnEnd facts)).countP isVerdict +
      (if turnEnd = .interrupted ∧ t.interruptRequested = true then 1 else 0) = 1 := by
  revert hremind
  unfold outcome turnOutcome
  rw [hreported, hclosing]
  cases turnEnd with
  | succeeded => cases t.reminded <;> simp [turnStop, told, isVerdict]
  | failed message transient => simp [turnStop, told, isVerdict]
  | interrupted =>
    cases t.reminded <;> cases t.interruptRequested <;> simp [turnStop, told, isVerdict]

/-- What one end of a turn uses up of the prompts that may be sent. -/
theorem settle_sends (t : TurnState) (turnEnd : TurnEnd) (facts : TurnFacts) :
    (t.settle turnEnd facts).2.countP isSend +
      (if (t.settle turnEnd facts).1.inFlight then (t.settle turnEnd facts).1.sendsLeft else 0) ≤
        t.sendsLeft := by
  by_cases hretry : t.retries? turnEnd facts = true
  · rw [settle_of_retry hretry]
    rw [retries?, Bool.and_eq_true, Bool.and_eq_true, Bool.and_eq_true, decide_eq_true_eq] at hretry
    have hleft := hretry.1.1.2
    have hone : [Effect.send t.prompt].countP isSend = 1 := rfl
    rw [if_pos rfl, hone, sendsLeft, sendsLeft]
    dsimp only
    omega
  · rw [settle_fst_of_over hretry, settle_snd_of_over hretry, List.countP_append, told_sends,
      (countP_front rfl (fun _ => rfl) True _).2]
    by_cases hremind : t.outcome turnEnd facts = .remind
    · have hreminded := not_reminded_of_outcome hremind
      simp only [hremind, sendsLeft, hreminded]
      simp
      omega
    · simp [hremind]

/-- The verdicts of one end of a turn: none while the turn goes on. -/
theorem settle_verdicts (t : TurnState) (turnEnd : TurnEnd) (facts : TurnFacts) :
    ((t.settle turnEnd facts).1.inFlight = true → (t.settle turnEnd facts).2.countP isVerdict = 0) ∧
    ((t.settle turnEnd facts).1.inFlight = false → facts.reported = false → facts.closing = false →
      (t.settle turnEnd facts).2.countP isVerdict +
        (if turnEnd = .interrupted ∧ t.interruptRequested = true then 1 else 0) = 1) := by
  by_cases hretry : t.retries? turnEnd facts = true
  · rw [settle_of_retry hretry]
    exact ⟨fun _ => rfl, fun h => absurd h (by simp)⟩
  · rw [settle_fst_of_over hretry, settle_snd_of_over hretry, List.countP_append,
      (countP_front rfl (fun _ => rfl) True _).2, Nat.zero_add]
    dsimp only
    rw [decide_eq_true_eq, decide_eq_false_iff_not]
    refine ⟨fun hremind => ?_, fun hover hreported hclosing => ?_⟩
    · rw [hremind]
      rfl
    · exact told_of_unreported hreported hclosing hover

end TurnState

namespace RunStep
open TurnState

/-- What one step uses up of the prompts that may be sent. -/
theorem apply_sends {t : TurnState} (hflight : t.inFlight = true) (step : RunStep) :
    (step.apply t).2.countP isSend +
      (if (step.apply t).1.inFlight then (step.apply t).1.sendsLeft else 0) ≤ t.sendsLeft := by
  cases step with
  | ended turnEnd facts =>
    show ((t.end_ turnEnd facts).2.countP isSend + _) ≤ _
    rw [end_, List.countP_append, (countP_front rfl (fun _ => rfl) _ True).1, Nat.zero_add]
    exact settle_sends t turnEnd facts
  | blocked asked facts =>
    show ((t.advance (.blocked asked) facts).2.countP isSend + _) ≤ _
    rw [apply, advance]
    split_ifs
    · simp
    · simp [sendsLeft, isSend]
  | unblocked requestId facts =>
    show ((t.advance (.unblocked requestId) facts).2.countP isSend + _) ≤ _
    rw [apply, advance]
    dsimp only
    split_ifs
    · simp [sendsLeft]
    · simp [sendsLeft, isSend]
  | interruptRequested requested =>
    rw [apply]
    simp [hflight, sendsLeft]

/-- No verdict comes while the turn goes on. -/
theorem apply_verdicts {t : TurnState} (step : RunStep)
    (hflight : (step.apply t).1.inFlight = true) : (step.apply t).2.countP isVerdict = 0 := by
  cases step with
  | ended turnEnd facts =>
    show (t.end_ turnEnd facts).2.countP isVerdict = 0
    rw [end_, List.countP_append, (countP_front rfl (fun _ => rfl) _ True).1, Nat.zero_add]
    exact (settle_verdicts t turnEnd facts).1 hflight
  | blocked asked facts =>
    rw [apply, advance]
    split_ifs
    · rfl
    · rfl
  | unblocked requestId facts =>
    rw [apply, advance]
    dsimp only
    split_ifs
    · rfl
    · rfl
  | interruptRequested requested => rfl

end RunStep

namespace TurnState

/-- A turn that is over takes no further step. -/
theorem run_of_over {t : TurnState} (h : ¬ t.inFlight = true) (steps : List RunStep) :
    t.run steps = (t, []) := by
  cases steps with
  | nil => rfl
  | cons step steps => rw [run, if_neg h]

theorem run_cons {t : TurnState} (h : t.inFlight = true) (step : RunStep) (steps : List RunStep) :
    t.run (step :: steps) =
      (((step.apply t).1.run steps).1, (step.apply t).2 ++ ((step.apply t).1.run steps).2) :=
  if_pos h

theorem run_sends (t : TurnState) (steps : List RunStep) :
    (t.run steps).2.countP isSend ≤ t.sendsLeft := by
  induction steps generalizing t with
  | nil => exact Nat.zero_le _
  | cons step steps ih =>
    by_cases hflight : t.inFlight = true
    · have hstep := RunStep.apply_sends hflight step
      have hrest := ih (step.apply t).1
      rw [run_cons hflight, List.countP_append]
      by_cases hnext : (step.apply t).1.inFlight = true
      · rw [if_pos hnext] at hstep
        omega
      · rw [if_neg hnext] at hstep
        rw [run_of_over hnext, List.countP_nil]
        omega
    · rw [run_of_over hflight]
      exact Nat.zero_le _

theorem inFlight_of_run {t : TurnState} {steps : List RunStep}
    (hflight : (t.run steps).1.inFlight = true) : t.inFlight = true := by
  by_contra h
  rw [run_of_over h] at hflight
  exact h hflight

/-- A run in flight goes on with one more step. -/
theorem run_snoc {t : TurnState} {steps : List RunStep} (step : RunStep)
    (hflight : (t.run steps).1.inFlight = true) :
    t.run (steps ++ [step]) =
      ((step.apply (t.run steps).1).1, (t.run steps).2 ++ (step.apply (t.run steps).1).2) := by
  induction steps generalizing t with
  | nil =>
    have hfirst : t.inFlight = true := hflight
    rw [List.nil_append, run_cons hfirst]
    simp [run]
  | cons first steps ih =>
    have hfirst := inFlight_of_run hflight
    rw [run_cons hfirst] at hflight
    rw [List.cons_append, run_cons hfirst, run_cons hfirst, ih hflight, List.append_assoc]

theorem run_verdicts {t : TurnState} {steps : List RunStep}
    (hflight : (t.run steps).1.inFlight = true) : (t.run steps).2.countP isVerdict = 0 := by
  induction steps generalizing t with
  | nil => rfl
  | cons step steps ih =>
    have hfirst := inFlight_of_run hflight
    rw [run_cons hfirst] at hflight ⊢
    rw [List.countP_append, ih hflight, RunStep.apply_verdicts step (inFlight_of_run hflight)]

theorem sendsLeft_le (t : TurnState) : t.sendsLeft ≤ 2 * transientRetries + 1 := by
  rw [sendsLeft]
  split_ifs
  all_goals omega

/-- From any state a turn sends at most five prompts before it is over, and a turn that stops
without a report gets exactly one verdict or was interrupted on request. -/
theorem turn_ends (t : TurnState) (steps : List RunStep) :
    (t.run steps).2.countP isSend ≤ 2 * transientRetries + 1 ∧
      ∀ before turnEnd facts, steps = before ++ [.ended turnEnd facts] →
        (t.run before).1.inFlight = true → (t.run steps).1.inFlight = false →
        facts.reported = false → facts.closing = false →
        (t.run steps).2.countP isVerdict +
          (if turnEnd = .interrupted ∧ (t.run before).1.interruptRequested = true then 1 else 0) =
            1 := by
  refine ⟨(run_sends t steps).trans (sendsLeft_le t), ?_⟩
  intro before turnEnd facts hsteps hflight hover hreported hclosing
  rw [hsteps, run_snoc _ hflight] at hover ⊢
  have hfront := (countP_front (p := isVerdict) rfl (fun _ => rfl) (facts.closing = true) True).1
  have hend : (RunStep.apply (t.run before).1 (.ended turnEnd facts)).2.countP isVerdict =
      ((t.run before).1.settle turnEnd facts).2.countP isVerdict := by
    show ((t.run before).1.end_ turnEnd facts).2.countP isVerdict = _
    rw [end_, List.countP_append, hfront, Nat.zero_add]
  rw [List.countP_append, run_verdicts hflight, Nat.zero_add, hend]
  exact (settle_verdicts (t.run before).1 turnEnd facts).2 hover hreported hclosing

theorem turn_ends_reminded :
    let stopped := RunStep.ended .succeeded ⟨false, false⟩
    ((idle.prompted "task").run [stopped, stopped]).2.countP isVerdict +
      (if TurnEnd.succeeded = .interrupted ∧ ((idle.prompted "task").run
        [stopped]).1.interruptRequested = true then 1 else 0) = 1 :=
  (turn_ends (idle.prompted "task") _).2 [.ended .succeeded ⟨false, false⟩] .succeeded
    ⟨false, false⟩ rfl (by decide) (by decide) rfl rfl

end TurnState

end Ralph.Worker.Opencode
