import Ralph.Machine
import Ralph.Worker.CodexTurns

namespace Ralph.Worker.Codex

/-- The entry points of `Turns`. -/
inductive Call
  | accept (text : String)
  | interrupt (text entry : String)
  | interruptDropped
  | processGone
  | close
  | bindTurn (turnId : Option String)
  | interruptFailed (code : ℤ)
  | notification (method : String) (params : JsonValue) (closing : Bool)
  | signal (signal : ThreadSignal) (closing : Bool)

namespace Turns

def call (t : Turns) : Call → Turns × List Action
  | .accept text => t.accept text
  | .interrupt text entry => t.interrupt text entry
  | .interruptDropped => t.interruptDropped
  | .processGone => t.processGone
  | .close => t.close
  | .bindTurn turnId => t.bindTurn turnId
  | .interruptFailed code => t.interruptFailed code
  | .notification method params closing => t.notification method params closing
  | .signal signal closing => t.signal signal closing

/-- A fresh `Turns` after some calls, and the actions that it emitted on the way. -/
abbrev after (calls : List Call) : Turns := Machine.after call {} calls

abbrev actions (calls : List Call) : List Action := Machine.outputs call {} calls

theorem after_concat (calls : List Call) (c : Call) :
    after (calls ++ [c]) = ((after calls).call c).1 := Machine.after_concat _ _ _ _

theorem actions_concat (calls : List Call) (c : Call) :
    actions (calls ++ [c]) = actions calls ++ ((after calls).call c).2 :=
  Machine.outputs_concat _ _ _ _

theorem sendInterrupt_cases (t : Turns) :
    t.sendInterrupt = (t, []) ∨ ∃ id, t.turnId = some id ∧ t.interruptSent = false ∧
      t.sendInterrupt = ({ t with interruptSent := true }, [.interrupt id]) := by
  unfold sendInterrupt
  split
  · next id hid =>
    split_ifs with h
    · exact .inr ⟨id, hid, by simpa using h.2, rfl⟩
    · exact .inl rfl
  · exact .inl rfl

theorem advance_cases (t : Turns) :
    t.advance = (t, []) ∧ (t.running.isSome ∨ t.queue.pending = []) ∨
      ∃ text pending, t.running = none ∧ t.queue.pending = text :: pending ∧
        t.advance =
          ({ t with
              queue := { pending, running := true, interrupted := false }, reported := false,
              running := some text, previousTurn := t.turnId, turnId := none,
              interruptSent := false },
            [.emit .turnStarted, .start text]) := by
  unfold advance PromptQueue.start
  cases hr : t.running with
  | some text => exact .inl ⟨rfl, .inl rfl⟩
  | none =>
    cases hp : t.queue.pending with
    | nil => exact .inl ⟨rfl, .inr rfl⟩
    | cons text pending => exact .inr ⟨text, pending, rfl, rfl, rfl⟩

/-- An action that neither starts, ends, interrupts nor answers anything. -/
def Quiet : Action → Prop
  | .emit .reported | .emit .turnStarted | .markUnreported | .snapshot | .postFailure _ => True
  | _ => False

theorem settle_cases (queue : PromptQueue) (outcome : TurnOutcome) :
    ((settle queue outcome).1 = queue ∨ (settle queue outcome).1 = queue.remind) ∧
      ∀ a ∈ (settle queue outcome).2, Quiet a := by
  cases outcome <;> simp [settle, Quiet]

/-- A turn that ends: its interrupts are answered, a reminder may be queued, the next starts. -/
theorem end_cases {t : Turns} {text : String} (h : t.running = some text) (e : TurnEnd)
    (closing : Bool) :
    ∃ queue before told o,
      (queue = t.queue.finish.1 ∨ queue = t.queue.finish.1.remind) ∧
      (∀ a ∈ before, Quiet a) ∧ (∀ a ∈ told, Quiet a) ∧
      t.end_ e closing =
        (({ t with running := none, queue, interrupts := [] } : Turns).advance.1,
          before ++ [.emit (.turnEnded e)] ++ t.interrupts.map (.interruptResult · o) ++ told ++
            ({ t with running := none, queue, interrupts := [] } : Turns).advance.2) := by
  unfold end_
  rw [h]
  dsimp only [resolveInterrupts]
  generalize turnOutcome _ _ _ _ _ = outcome
  obtain ⟨hq, htold⟩ := settle_cases t.queue.finish.1 outcome
  refine ⟨_, if closing then [] else [.snapshot], _, _, hq, ?_, htold, rfl⟩
  cases closing <;> simp [Quiet]

theorem end_of_idle {t : Turns} (h : t.running = none) (e : TurnEnd) (closing : Bool) :
    t.end_ e closing = (t, []) := by
  simp [end_, h]

theorem notification_cases (t : Turns) (method : String) (params : JsonValue) (closing : Bool) :
    t.notification method params closing = (t, []) ∨
      (∃ id, t.notification method params closing = t.bindTurn id) ∨
        ∃ s, t.notification method params closing = t.signal s closing := by
  unfold notification
  dsimp only
  split_ifs
  · exact .inl rfl
  · exact .inr (.inl ⟨_, rfl⟩)
  · split
    · exact .inr (.inr ⟨_, rfl⟩)
    · exact .inl rfl

/-- The queue knows whether a turn runs, and interrupts wait only for a running turn of a
living process. -/
structure Good (t : Turns) : Prop where
  queue_running : t.queue.running = t.running.isSome
  held : t.interrupts ≠ [] → t.running.isSome ∧ t.gone = false

namespace Good

variable {t : Turns}

theorem idle_empty (h : Good t) (hr : t.running = none) : t.interrupts = [] := by
  by_contra hne
  simpa [hr] using (h.held hne).1

theorem gone_empty (h : Good t) (hg : t.gone) : t.interrupts = [] := by
  by_contra hne
  simpa [hg] using (h.held hne).2

theorem sendInterrupt (h : Good t) : Good t.sendInterrupt.1 := by
  obtain heq | ⟨id, -, -, heq⟩ := t.sendInterrupt_cases <;> rw [heq]
  · exact h
  · exact ⟨h.queue_running, h.held⟩

theorem resolveInterrupts (h : Good t) (o : InterruptOutcome) : Good (t.resolveInterrupts o).1 :=
  ⟨h.queue_running, fun hne => absurd rfl hne⟩

theorem advance (h : Good t) : Good t.advance.1 := by
  obtain ⟨heq, -⟩ | ⟨text, pending, hr, -, heq⟩ := t.advance_cases <;> rw [heq]
  · exact h
  · exact ⟨rfl, fun hne => absurd (h.idle_empty hr) hne⟩

theorem bindTurn (h : Good t) (id : Option String) : Good (t.bindTurn id).1 := by
  unfold Turns.bindTurn
  split_ifs
  · exact h
  · exact Good.sendInterrupt ⟨h.queue_running, h.held⟩

theorem ended {queue : PromptQueue}
    (hq : queue = t.queue.finish.1 ∨ queue = t.queue.finish.1.remind) :
    Good { t with running := none, queue, interrupts := [] } := by
  refine ⟨?_, fun hne => absurd rfl hne⟩
  rcases hq with rfl | rfl
  · rfl
  · exact PromptQueue.remind_running _

theorem signal (h : Good t) (s : ThreadSignal) (closing : Bool) : Good (t.signal s closing).1 := by
  cases s with
  | reported =>
    unfold Turns.signal
    dsimp only
    split_ifs
    · exact ⟨h.queue_running, h.held⟩
    · exact h
  | turnEnded e =>
    change Good (t.end_ e closing).1
    cases hr : t.running with
    | none => rwa [end_of_idle hr]
    | some text =>
      obtain ⟨queue, before, told, o, hq, -, -, heq⟩ := end_cases hr e closing
      rw [heq]
      exact (Good.ended hq).advance

theorem call (h : Good t) (c : Call) : Good (t.call c).1 := by
  cases c with
  | accept text => exact Good.advance ⟨h.queue_running, h.held⟩
  | interrupt text entry =>
    have hrun := (t.queue.accept_interrupt_fst text entry).2.trans h.queue_running
    change Good (t.interrupt text entry).1
    unfold Turns.interrupt
    dsimp only
    rw [cancelsTurn_accept, h.queue_running]
    split_ifs with hg hr
    · exact h
    · exact Good.sendInterrupt ⟨hrun, fun _ => ⟨hr, by simpa using hg⟩⟩
    · exact Good.advance ⟨hrun, h.held⟩
  | interruptDropped | processGone => exact ⟨h.queue_running, fun hne => absurd rfl hne⟩
  | close =>
    change Good t.close.1
    unfold Turns.close
    split_ifs
    · exact h
    · exact Good.sendInterrupt ⟨h.queue_running, h.held⟩
  | bindTurn turnId => exact h.bindTurn turnId
  | interruptFailed code =>
    change Good (t.interruptFailed code).1
    unfold Turns.interruptFailed
    split_ifs
    · exact h
    · exact h.resolveInterrupts _
  | notification method params closing =>
    change Good (t.notification method params closing).1
    obtain heq | ⟨id, heq⟩ | ⟨s, heq⟩ := t.notification_cases method params closing <;> rw [heq]
    · exact h
    · exact h.bindTurn id
    · exact h.signal s closing
  | signal s closing => exact h.signal s closing

end Good

theorem good_after (calls : List Call) : Good (after calls) :=
  Machine.invariant (I := Good) ⟨rfl, fun hne => absurd rfl hne⟩ (fun _ c h => h.call c) calls

end Turns

end Ralph.Worker.Codex
