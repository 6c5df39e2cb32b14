import Ralph.JsonValue
import Ralph.SendIt.Plan

namespace Ralph.SendIt

def defaultJudgeRounds : ℕ := 2
def stepResultMaxChars : ℕ := 300

structure RawStep where
  task : String
  criterion : Option Criterion
  deriving DecidableEq, Repr

structure RawCaps where
  turns : Option ℕ := none
  usd : Option ℚ := none
  judgeRounds : Option ℕ := none
  deriving DecidableEq

structure RawPlan where
  goal : String
  steps : List RawStep
  allowed : List Action := []
  grants : List Grant := []
  caps : RawCaps := {}
  deriving DecidableEq

def parseStep (number : ℕ) (step : RawStep) : Except String Step :=
  let task := Chat.trim step.task
  if task = "" then .error s!"Step {number} is empty. Say what the step does."
  else
    match step.criterion with
    | none =>
      .error s!"Step {number} has no exit criterion. Give each step a check ralph can measure."
    | some criterion => .ok { task, criterion }

/-- The plan from what deserializing its JSON gave. -/
def parseRun (raw : Except String RawPlan) (defaults : Limits) : Except String RunPlan := do
  let raw ← raw.mapError fun error => s!"Run plan is malformed: {error}."
  let goal := Chat.trim raw.goal
  if goal = "" then .error "Run plan has no goal. Say what the run delivers."
  else if raw.steps = [] then .error "Run plan has no steps. List the steps in order."
  else
    let steps ← raw.steps.zipIdx.mapM fun (step, index) => parseStep (index + 1) step
    let limits : Limits :=
      { maxTurns := raw.caps.turns.getD defaults.maxTurns,
        maxUsd := raw.caps.usd.getD defaults.maxUsd }
    let judgeRounds := raw.caps.judgeRounds.getD defaultJudgeRounds
    if limits.maxTurns = 0 ∨ judgeRounds = 0 ∨ limits.maxUsd ≤ 0 then
      .error "Run plan caps must be positive."
    else .ok { goal, steps, allowed := raw.allowed, grants := raw.grants, limits, judgeRounds }

/-- `char::is_control`. -/
def isControl (c : Char) : Bool := c.val < 0x20 || (0x7f ≤ c.val && c.val ≤ 0x9f)

def parseStepResult (args : JsonValue) : Except String StepResult :=
  match (args.get "met").asBool with
  | none => .error "Missing boolean argument 'met'."
  | some met =>
    match (args.get "evidence").asStr.map Chat.trim with
    | none => .error "Missing string argument 'evidence'."
    | some evidence =>
      if evidence = "" then .error "The evidence is empty. Give the fact that decides the step."
      else if evidence.toList.any isControl then .error "The evidence must be one line."
      else if stepResultMaxChars < evidence.length then
        .error s!"The evidence is longer than {stepResultMaxChars} characters."
      else .ok { met, evidence }

theorem length_mapM_except {α β ε : Type*} {f : α → Except ε β} {xs : List α} {ys : List β}
    (h : xs.mapM f = .ok ys) : ys.length = xs.length := by
  induction xs generalizing ys with
  | nil =>
    obtain rfl := Except.ok.inj h
    rfl
  | cons x xs ih =>
    rw [List.mapM_cons] at h
    cases hx : f x with
    | error e => simp [hx, bind, Except.bind] at h
    | ok y =>
      cases hxs : xs.mapM f with
      | error e => simp [hx, hxs, bind, Except.bind] at h
      | ok zs =>
        simp only [hx, hxs, bind, Except.bind, pure, Except.pure, Except.ok.injEq] at h
        rw [← h, List.length_cons, List.length_cons, ih hxs]

/-- A plan that is accepted has a step. -/
theorem steps_ne_nil_of_parseRun {raw : Except String RawPlan} {defaults : Limits}
    {plan : RunPlan} (h : parseRun raw defaults = .ok plan) : plan.steps ≠ [] := by
  unfold parseRun at h
  cases raw with
  | error e => cases h
  | ok raw =>
    simp only [Except.mapError, bind, Except.bind] at h
    split at h
    · cases h
    · split at h
      · cases h
      · next hsteps =>
        split at h
        · cases h
        · next steps hmap =>
          split at h
          · cases h
          · obtain rfl := Except.ok.inj h
            rintro rfl
            have hlen := length_mapM_except hmap
            rw [List.length_zipIdx] at hlen
            exact hsteps (List.eq_nil_of_length_eq_zero hlen.symm)

theorem notControl_of_parseStepResult {args : JsonValue} {result : StepResult}
    (h : parseStepResult args = .ok result) : ∀ c ∈ result.evidence.toList, isControl c = false := by
  unfold parseStepResult at h
  split at h
  · cases h
  · split at h
    · cases h
    · split_ifs at h with hempty hcontrol
      obtain rfl := Except.ok.inj h
      simpa using hcontrol

end Ralph.SendIt
