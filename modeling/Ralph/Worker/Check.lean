import Ralph.Text
import Ralph.Worker.Markers
import Ralph.Worker.Report

namespace Ralph.Worker.Check
open Chat (trim parseUsize)

/-- `str::contains`. -/
def contains (text part : String) : Bool := decide (1 < (text.splitOn part).length)

structure WorkerObservation where
  id : String
  session : String
  kind : HarnessId
  ready : Bool
  blocked : Bool
  waiting : Bool
  unreported : Bool
  reportedSinceNudge : Bool
  pane : Option String
  activity : Option ActivityState
  activityAgeSecs : ℕ
  autoContinue : Bool
  deriving DecidableEq

inductive WorkerState
  | working
  | waiting
  | blockedPermission
  | blockedTrust
  | unknown
  | reported
  deriving DecidableEq, Repr

inductive CheckAction
  | nudge (id : String)
  | inbox (id text : String)
  deriving DecidableEq, Repr

structure WorkerMemory where
  state : WorkerState
  nudged : Bool
  unknownPosted : Bool
  deriving DecidableEq, Repr

/-- `CheckMemory`: what is remembered of each worker. -/
abbrev CheckMemory := String → Option WorkerMemory

def reportedSinceNudge (lastReport : Option String) (nudge : Option (Option String)) : Bool :=
  match nudge with
  | none => lastReport.isSome
  | some before => lastReport.isSome && decide (lastReport ≠ before)

def paneFooter (pane : String) : String :=
  let lines := Text.lines pane
  match lines.reverse.findIdx? fun line => line.toList.head? = some '─' with
  | some behind => "\n".intercalate (lines.drop (lines.length - behind))
  | none => (lines.reverse.find? fun line => trim line ≠ "").getD ""

def countsRunningAgents (footer : String) : Bool :=
  ((footer.splitOn "← ").drop 1).any fun rest =>
    let digits := rest.toList.takeWhile Char.isDigit
    let after := rest.toList.drop digits.length
    ((parseUsize (String.ofList digits)).any fun n => decide (1 ≤ n)) && " agent".toList.isPrefixOf after

def paneBusy (pane : String) : Bool :=
  let footer := paneFooter pane
  contains footer "esc to interrupt" || countsRunningAgents footer

def stallOwned (obs : WorkerObservation) : Bool := obs.autoContinue && decide (obs.activity = some .failed)

def runningStaleSecs : ℕ := 600
def backgroundStaleSecs : ℕ := 3600

def busyMarkStale (state : ActivityState) (ageSecs : ℕ) : Bool :=
  match state with
  | .running => decide (runningStaleSecs < ageSecs)
  | .background => decide (backgroundStaleSecs < ageSecs)
  | .idle | .failed => false

def isBusy (obs : WorkerObservation) : Bool :=
  (obs.activity.any fun state => state.busy && !(obs.pane.isSome && busyMarkStale state obs.activityAgeSecs)) ||
    obs.pane.any paneBusy

def trustAnswer : String := "Yes, I trust this folder"

/-- Whether `startup_state` is a trust prompt. -/
def trustPrompt (pane : String) (ready : Bool) : Bool := !ready && contains pane trustAnswer

def classify (obs : WorkerObservation) : WorkerState :=
  if obs.blocked then .blockedPermission
  else if obs.pane.any fun pane => trustPrompt pane obs.ready then .blockedTrust
  else if obs.waiting then .waiting
  else if obs.reportedSinceNudge then .reported
  else if obs.ready && !obs.unreported && !isBusy obs && !stallOwned obs && obs.pane.isSome then .unknown
  else .working

def inboxText (state : WorkerState) (obs : WorkerObservation) : Option String :=
  -- only a claude worker has a terminal to look at
  if obs.kind ≠ .claude then
    match state with
    | .waiting => some s!"Worker {obs.id} stopped without calling report."
    | .blockedPermission =>
      if obs.kind = .opencode then
        some s!"Worker {obs.id} is waiting for a permission answer. Answer it with reply, its request id and an optionId; a reply without request lists the pending ids."
      else none
    | _ => none
  else
    match state with
    | .waiting => some s!"Worker {obs.id} stopped without calling report. To look: tmux attach -t {obs.session}"
    | .blockedPermission =>
      some s!"Worker {obs.id} is waiting at a permission prompt; ralph does not type into it. To answer: tmux attach -t {obs.session}"
    | .blockedTrust =>
      some s!"Worker {obs.id} is waiting at the folder-trust dialog. To answer: tmux attach -t {obs.session}"
    | .unknown =>
      some s!"ralph can't tell what worker {obs.id} is waiting on: it is idle and has not reported. To look: tmux attach -t {obs.session}"
    | .working | .reported => none

/-- One observation in the loop of `plan`. -/
def planOne (prev : Option WorkerMemory) (obs : WorkerObservation) : List CheckAction × WorkerMemory :=
  let state := classify obs
  -- a nudge stands until a check sees a report behind it
  let outstanding := prev.any WorkerMemory.nudged && !obs.reportedSinceNudge
  let nudge := decide (state = .waiting) && !outstanding
  let wasUnknownPosted := prev.any WorkerMemory.unknownPosted
  let repeatUnknown := decide (state = .unknown) && wasUnknownPosted
  -- a state is posted when it is new, and an unknown one not again after a while of work
  let posts := if prev.map WorkerMemory.state ≠ some state ∧ repeatUnknown = false then inboxText state obs else none
  ((if nudge then [CheckAction.nudge obs.id] else []) ++ (posts.map (CheckAction.inbox obs.id)).toList,
    { state
      nudged := outstanding || nudge
      unknownPosted :=
        match state with
        | .unknown => true
        | .working => wasUnknownPosted
        | _ => false })

def plan (prev : CheckMemory) (observations : List WorkerObservation) : List CheckAction × CheckMemory :=
  observations.foldl (fun planned obs =>
    (planned.1 ++ (planOne (prev obs.id) obs).1, Function.update planned.2 obs.id (some (planOne (prev obs.id) obs).2)))
    ([], fun _ => none)

/-- What the store holds of a running worker. -/
structure Facts where
  id : String
  session : String
  kind : HarnessId
  ready : Bool
  blocked : Bool
  waiting : Bool
  unreported : Bool
  sent : Bool
  captured : Option String
  activity : Option ActivityMark
  now : ℕ

structure CheckState where
  memory : CheckMemory := fun _ => none
  nudges : String → Option (Option String) := fun _ => none

/-- What a check finds: the last reports and the running workers. -/
structure CheckInput where
  reports : String → Option String
  running : List Facts

def observe (autoContinue : Bool) (reports : String → Option String) (nudges : String → Option (Option String))
    (worker : Facts) : WorkerObservation :=
  let reported := !worker.sent && reportedSinceNudge (reports worker.id) (nudges worker.id)
  let pane :=
    -- the pane is captured only where the markers leave the state open
    if worker.kind = .claude ∧ ¬ (worker.blocked ∨ worker.waiting ∨ (worker.ready ∧ reported)) then worker.captured
    else none
  { id := worker.id
    session := worker.session
    kind := worker.kind
    ready := worker.ready
    blocked := worker.blocked
    waiting := worker.waiting
    unreported := worker.unreported
    reportedSinceNudge := reported
    pane
    activity := worker.activity.map ActivityMark.state
    activityAgeSecs := (worker.activity.map fun mark => worker.now - mark.at_).getD 0
    autoContinue }

/-- The reports remembered at the nudges of a check. -/
def noteNudges (reports : String → Option String) (actions : List CheckAction)
    (nudges : String → Option (Option String)) : String → Option (Option String) :=
  actions.foldl (fun nudges action =>
    match action with
    | .nudge id => Function.update nudges id (some (reports id))
    | .inbox _ _ => nudges) nudges

/-- `Monitor::check`, without the heartbeats. -/
def check (autoContinue : Bool) (state : CheckState) (input : CheckInput) : List CheckAction × CheckState :=
  let observations := input.running.map (observe autoContinue input.reports state.nudges)
  let kept := fun id => if input.running.any fun worker => worker.id == id then state.nudges id else none
  let (actions, memory) := plan state.memory observations
  (actions, ⟨memory, noteNudges input.reports actions kept⟩)

/-- The state in front of each check of a run. -/
def checks (autoContinue : Bool) (inputs : ℕ → CheckInput) : ℕ → CheckState
  | 0 => {}
  | n + 1 => (check autoContinue (checks autoContinue inputs n) (inputs n)).2

def actionsAt (autoContinue : Bool) (inputs : ℕ → CheckInput) (n : ℕ) : List CheckAction :=
  (check autoContinue (checks autoContinue inputs n) (inputs n)).1

def CheckAction.worker : CheckAction → String
  | .nudge id => id
  | .inbox id _ => id

theorem planOne_worker {prev : Option WorkerMemory} {obs : WorkerObservation} {action : CheckAction}
    (h : action ∈ (planOne prev obs).1) : action.worker = obs.id := by
  rw [planOne] at h
  dsimp only at h
  rcases List.mem_append.mp h with hnudge | hinbox
  · split_ifs at hnudge
    · rw [List.mem_singleton.mp hnudge]
      rfl
    · cases hnudge
  · obtain ⟨text, _, htext⟩ := Option.map_eq_some_iff.mp (Option.mem_toList.mp hinbox)
    rw [← htext]
    rfl

theorem plan_concat (prev : CheckMemory) (observations : List WorkerObservation) (obs : WorkerObservation) :
    plan prev (observations ++ [obs]) = ((plan prev observations).1 ++ (planOne (prev obs.id) obs).1,
      Function.update (plan prev observations).2 obs.id (some (planOne (prev obs.id) obs).2)) := by
  rw [plan, List.foldl_append, List.foldl_cons, List.foldl_nil]
  rfl

/-- The actions about a worker come from its own observations. -/
theorem plan_actions (prev : CheckMemory) (observations : List WorkerObservation) (id : String) :
    (plan prev observations).1.filter (fun action => decide (action.worker = id)) =
      (observations.filter fun obs => decide (obs.id = id)).flatMap fun obs => (planOne (prev id) obs).1 := by
  induction observations using List.reverseRecOn with
  | nil => rfl
  | append_singleton observations obs ih =>
    rw [plan_concat, List.filter_append, List.filter_append, List.flatMap_append, ih]
    congr 1
    by_cases hid : obs.id = id
    · rw [List.filter_cons_of_pos (by simp [hid]), List.filter_nil, List.flatMap_singleton, hid]
      exact List.filter_eq_self.mpr fun action haction => by simp [planOne_worker haction, hid]
    · rw [List.filter_cons_of_neg (by simp [hid]), List.filter_nil, List.flatMap_nil]
      exact List.filter_eq_nil_iff.mpr fun action haction => by simp [planOne_worker haction, hid]

theorem plan_memory (prev : CheckMemory) (observations : List WorkerObservation) (id : String) :
    (plan prev observations).2 id =
      ((observations.filter fun obs => decide (obs.id = id)).getLast?).map fun obs => (planOne (prev id) obs).2 := by
  induction observations using List.reverseRecOn with
  | nil => rfl
  | append_singleton observations obs ih =>
    rw [plan_concat, List.filter_append]
    by_cases hid : obs.id = id
    · rw [List.filter_cons_of_pos (by simp [hid]), List.filter_nil, List.getLast?_concat, Option.map_some, hid]
      exact Function.update_self _ _ _
    · rw [List.filter_cons_of_neg (by simp [hid]), List.filter_nil, List.append_nil, ← ih]
      exact Function.update_of_ne (Ne.symm hid) _ _

theorem noteNudges_apply (reports : String → Option String) (actions : List CheckAction)
    (nudges : String → Option (Option String)) (id : String) :
    noteNudges reports actions nudges id = if .nudge id ∈ actions then some (reports id) else nudges id := by
  induction actions using List.reverseRecOn with
  | nil => rw [if_neg List.not_mem_nil]; rfl
  | append_singleton actions action ih =>
    rw [noteNudges, List.foldl_append, List.foldl_cons, List.foldl_nil]
    rw [noteNudges] at ih
    cases action with
    | inbox other text =>
      dsimp only
      rw [ih]
      simp only [List.mem_append, List.mem_singleton, reduceCtorEq, or_false]
    | nudge other =>
      dsimp only
      by_cases hother : other = id
      · rw [hother, Function.update_self, if_pos (List.mem_append_right _ List.mem_cons_self)]
      · rw [Function.update_of_ne (Ne.symm hother), ih]
        have hne : ¬ id = other := Ne.symm hother
        simp only [List.mem_append, List.mem_singleton, CheckAction.nudge.injEq, hne, or_false]

theorem nudge_mem_planOne {prev : Option WorkerMemory} {obs : WorkerObservation} :
    .nudge obs.id ∈ (planOne prev obs).1 ↔
      classify obs = .waiting ∧ ¬ (prev.any WorkerMemory.nudged = true ∧ obs.reportedSinceNudge = false) := by
  rw [planOne]
  dsimp only
  have hposts : ∀ posts : Option String, .nudge obs.id ∉ (posts.map (CheckAction.inbox obs.id)).toList := by
    intro posts h
    obtain ⟨text, _, htext⟩ := Option.map_eq_some_iff.mp (Option.mem_toList.mp h)
    cases htext
  have hwanted : (decide (classify obs = .waiting) && !(prev.any WorkerMemory.nudged && !obs.reportedSinceNudge)) = true ↔
      classify obs = .waiting ∧ ¬ (prev.any WorkerMemory.nudged = true ∧ obs.reportedSinceNudge = false) := by
    cases prev.any WorkerMemory.nudged <;> cases obs.reportedSinceNudge <;> simp
  rw [List.mem_append, or_iff_left (hposts _)]
  split_ifs with hnudge
  · exact iff_of_true List.mem_cons_self (hwanted.mp hnudge)
  · exact iff_of_false List.not_mem_nil fun h => hnudge (hwanted.mpr h)

/-- A check nudges a worker once at most. -/
theorem count_nudge_planOne (prev : Option WorkerMemory) (obs : WorkerObservation) :
    (planOne prev obs).1.count (.nudge obs.id) = if .nudge obs.id ∈ (planOne prev obs).1 then 1 else 0 := by
  split_ifs with hmem
  · have hle : (planOne prev obs).1.count (.nudge obs.id) ≤ 1 := by
      rw [planOne]
      dsimp only
      rw [List.count_append]
      have hposts : ∀ posts : Option String, (posts.map (CheckAction.inbox obs.id)).toList.count (.nudge obs.id) = 0 := by
        intro posts
        cases posts <;> simp
      rw [hposts]
      split_ifs <;> simp
    have hpos := List.count_pos_iff.mpr hmem
    omega
  · exact List.count_eq_zero.mpr hmem

end Ralph.Worker.Check
