import Mathlib.Data.List.Basic

namespace Ralph.Worker

def reportReminder : String :=
  "You stopped without calling report. Call report now with status done, blocked or question and a full summary of what you did or what you need."

inductive TurnEnd
  | succeeded
  | failed (message : String) (transient : Bool)
  | interrupted
  deriving DecidableEq, Repr

def turnStop : TurnEnd → Except String String
  | .succeeded => .ok "end_turn"
  | .interrupted => .ok "cancelled"
  | .failed message _ => .error message

inductive TurnOutcome
  | reported
  | remind
  | unreported
  | problem (problem : String)
  | stopped (reason : String)
  | closed
  | cancelled
  deriving DecidableEq, Repr

inductive Inbound
  | prompt (text : String)
  | interrupt (text entry : String)
  deriving DecidableEq, Repr

inductive Step
  | cancelPermissions
  | cancelSession
  deriving DecidableEq, Repr

structure PromptQueue where
  pending : List String := []
  running : Bool := false
  interrupted : Bool := false
  deriving DecidableEq, Repr

namespace PromptQueue

def accept (q : PromptQueue) : Inbound → PromptQueue × List Step
  | .prompt text => ({ q with pending := q.pending ++ [text] }, [])
  | .interrupt text _ =>
    let q := { q with pending := text :: q.pending }
    if q.running then ({ q with interrupted := true }, [.cancelPermissions, .cancelSession])
    else (q, [.cancelPermissions])

def remind (q : PromptQueue) : PromptQueue :=
  if reportReminder ∈ q.pending then q else { q with pending := q.pending ++ [reportReminder] }

def start (q : PromptQueue) : Option (String × PromptQueue) :=
  match q.pending with
  | [] => none
  | text :: pending => some (text, { pending, running := true, interrupted := false })

def finish (q : PromptQueue) : PromptQueue × Bool := ({ q with running := false }, q.interrupted)

theorem accept_interrupt_fst (q : PromptQueue) (text entry : String) :
    (q.accept (.interrupt text entry)).1.pending = text :: q.pending ∧
      (q.accept (.interrupt text entry)).1.running = q.running := by
  unfold accept
  cases hr : q.running <;> simp

@[simp] theorem remind_running (q : PromptQueue) : q.remind.running = q.running := by
  unfold remind
  split_ifs <;> rfl

/-- The reminder waits once at most. -/
theorem remind_pending (q : PromptQueue) :
    q.remind.pending = q.pending ∨
      reportReminder ∉ q.pending ∧ q.remind.pending = q.pending ++ [reportReminder] := by
  unfold remind
  split_ifs with h
  · exact .inl rfl
  · exact .inr ⟨h, rfl⟩

end PromptQueue

def cancelsTurn (steps : List Step) : Bool := steps.contains .cancelSession

theorem cancelsTurn_accept (q : PromptQueue) (text entry : String) :
    cancelsTurn (q.accept (.interrupt text entry)).2 = q.running := by
  unfold PromptQueue.accept
  cases hr : q.running <;> simp [cancelsTurn]

inductive InterruptOutcome
  | cancelled
  | sent
  | gone
  | dropped
  deriving DecidableEq, Repr

/-- `InterruptOutcome::from`. -/
def InterruptOutcome.ofCancelled (cancelled : Bool) : InterruptOutcome :=
  if cancelled then .cancelled else .sent

def turnOutcome (stop : Except String String) (reported reminded closing interrupted : Bool) :
    TurnOutcome :=
  if closing then .closed
  else if reported then .reported
  else
    match stop with
    | .error message => .problem message
    | .ok reason =>
      if reason = "cancelled" ∨ reason = "end_turn" then
        if interrupted then .cancelled else if reminded then .unreported else .remind
      else .stopped reason

def stopProblem (agent reason : String) : String :=
  s!"the {agent} agent ended its turn with `{reason}`"

end Ralph.Worker
