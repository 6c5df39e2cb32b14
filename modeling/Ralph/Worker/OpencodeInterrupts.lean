import Mathlib.Tactic
import Ralph.Machine
import Ralph.Worker.OpencodeTurns

namespace Ralph.Worker.Opencode

def keepsInterruptRequest (outcome : Option Bool) (wasInFlight : Bool) : Bool :=
  match outcome with
  | some confirmed => confirmed
  | none => wasInFlight

/-- What may happen to a turn state. An interrupt is requested while a turn is in flight, and
the answer of the server keeps the request or drops it. -/
inductive TurnStep
  | prompted (text : String)
  | advance (update : SessionUpdate) (facts : TurnFacts)
  | serverLost
  | request
  | answered (outcome : Option Bool)
  deriving DecidableEq, Repr

namespace TurnStep

def apply (t : TurnState) : TurnStep → TurnState × List Effect
  | prompted text => (t.prompted text, [])
  | advance update facts => t.advance update facts
  | serverLost => t.serverLost
  | request => (if t.inFlight then { t with interruptRequested := true } else t, [])
  | answered outcome =>
    (if keepsInterruptRequest outcome true then t else { t with interruptRequested := false }, [])

/-- The steps that end the turn. -/
def ends : TurnStep → Bool
  | advance (.turnEnded _) _ => true
  | serverLost => true
  | _ => false

end TurnStep

namespace TurnState

/-- No interrupt is requested. -/
def unasked (t : TurnState) : TurnState := { t with interruptRequested := false }

/-- The turn ends without a report and was not interrupted on request, for the first time. -/
def reminds (t : TurnState) (turnEnd : TurnEnd) (facts : TurnFacts) : Prop :=
  facts.closing = false ∧ facts.reported = false ∧ t.reminded = false ∧
    (turnEnd = .succeeded ∨ turnEnd = .interrupted ∧ t.interruptRequested = false)

theorem unasked_of_not {t : TurnState} (h : t.interruptRequested = false) : t.unasked = t := by
  rw [unasked, ← h]

theorem outcome_eq_remind_iff {t : TurnState} {turnEnd : TurnEnd} {facts : TurnFacts} :
    t.outcome turnEnd facts = .remind ↔ t.reminds turnEnd facts := by
  unfold outcome reminds turnOutcome
  cases turnEnd with
  | succeeded =>
    cases facts.closing <;> cases facts.reported <;> cases t.reminded <;> simp [turnStop]
  | failed message transient =>
    cases facts.closing <;> cases facts.reported <;> simp [turnStop]
  | interrupted =>
    cases facts.closing <;> cases facts.reported <;> cases t.reminded <;>
      cases t.interruptRequested <;> simp [turnStop]

theorem mem_told {o : TurnOutcome} {text : String} :
    .send text ∈ told o ↔ o = .remind ∧ text = reportReminder := by
  cases o
  all_goals simp [told]

/-- A failure that is sent again is no end that is reminded of a report. -/
theorem not_reminds_of_retry {t : TurnState} {turnEnd : TurnEnd} {facts : TurnFacts}
    (h : t.retries? turnEnd facts = true) : ¬ t.reminds turnEnd facts := by
  rintro ⟨-, -, -, rfl | ⟨rfl, -⟩⟩
  · simp [retries?, isTransient] at h
  · simp [retries?, isTransient] at h

/-- The prompts that the end of a turn sends. -/
theorem mem_turnEnded {t : TurnState} {turnEnd : TurnEnd} {facts : TurnFacts} {text : String} :
    .send text ∈ (t.advance (.turnEnded turnEnd) facts).2 ↔
      (t.retries? turnEnd facts = true ∧ text = t.prompt) ∨
        (t.reminds turnEnd facts ∧ text = reportReminder) := by
  have hfront : .send text ∉ (if facts.closing then [] else [Effect.snapshot]) := by
    split_ifs
    · exact List.not_mem_nil
    · simp
  rw [advance, end_, List.mem_append, or_iff_right hfront]
  by_cases hretry : t.retries? turnEnd facts = true
  · rw [settle_of_retry hretry, List.mem_singleton, Effect.send.injEq]
    simp only [hretry, not_reminds_of_retry hretry, true_and, false_and, or_false]
  · have hdropped : .send text ∉ (if (turnEnd = .interrupted ∧ facts.closing = false) ∧
        t.blocked ≠ [] then [Effect.publish none] else []) := by
      split_ifs
      · simp
      · exact List.not_mem_nil
    rw [settle_snd_of_over hretry, List.mem_append, or_iff_right hdropped, mem_told,
      outcome_eq_remind_iff]
    rw [or_iff_right fun h => hretry h.1]

/-- Only an end that is sent again leaves the request for an interrupt. -/
theorem turnEnded_interruptRequested (t : TurnState) (turnEnd : TurnEnd) (facts : TurnFacts) :
    (t.advance (.turnEnded turnEnd) facts).1.interruptRequested =
      (t.retries? turnEnd facts && t.interruptRequested) := by
  rw [advance, end_]
  by_cases hretry : t.retries? turnEnd facts = true
  · rw [settle_of_retry hretry, hretry, Bool.true_and]
  · rw [settle_fst_of_over hretry, Bool.eq_false_of_not_eq_true hretry, Bool.false_and]

end TurnState

/-- A turn state with what was asked of it: the prompts that kept requests have interrupted
since the last prompt, the prompt of a request that has no answer yet, and whether a request
was made since the last end of a turn. -/
structure Watched where
  turn : TurnState
  kept : List String
  asked : Option String
  due : Bool
  deriving DecidableEq, Repr

namespace Watched

def start : Watched := ⟨.idle, [], none, false⟩

/-- The prompts that were interrupted since the last `prompted`. -/
def interrupted (w : Watched) : List String := w.kept ++ w.asked.toList

def note (w : Watched) : TurnStep → Watched
  | .prompted _ => { w with kept := [], asked := none }
  | .request =>
    if w.turn.inFlight then
      { w with kept := w.interrupted, asked := some w.turn.prompt, due := true }
    else w
  | .answered outcome =>
    if keepsInterruptRequest outcome true then { w with kept := w.interrupted, asked := none }
    else { w with asked := none, due := false }
  | step => if step.ends then { w with due := false } else w

def step (w : Watched) (s : TurnStep) : Watched × List Effect :=
  ({ w.note s with turn := (s.apply w.turn).1 }, (s.apply w.turn).2)

/-- The state before each step of a run. -/
abbrev after (steps : List TurnStep) : Watched := Machine.after step start steps

/-- An interrupted prompt is not sent again, the end of the turn uses the request up, and an
end that no request was made for is told as if there were none. -/
structure Stops (w : Watched) (s : TurnStep) : Prop where
  unsent : ∀ text ∈ w.interrupted, .send text ∉ (w.step s).2
  used : s.ends = true → (w.step s).1.turn.interruptRequested = false
  told : w.due = false → (w.step s).2 = (s.apply w.turn.unasked).2

/-- A failure is sent again neither while an interrupt is requested nor after its prompt was
interrupted, and no reminder is due once the reminder was interrupted. -/
def Spared (w : Watched) : TurnStep → Prop
  | .advance (.turnEnded turnEnd) facts =>
    (w.turn.retries? turnEnd facts = true →
      w.turn.interruptRequested = false ∧ w.turn.prompt ∉ w.interrupted) ∧
    (w.turn.reminds turnEnd facts → reportReminder ∉ w.interrupted)
  | _ => True

/-- Only the end of a turn sends a prompt. -/
theorem not_send_of_not_ends {t : TurnState} {s : TurnStep} (h : s.ends = false) (text : String) :
    .send text ∉ (s.apply t).2 := by
  cases s with
  | advance update facts =>
    cases update with
    | turnStarted => simp [TurnStep.apply, TurnState.advance]
    | blocked asked =>
      rw [TurnStep.apply, TurnState.advance]
      split_ifs
      · exact List.not_mem_nil
      · simp
    | unblocked requestId =>
      rw [TurnStep.apply, TurnState.advance]
      dsimp only
      split_ifs
      · exact List.not_mem_nil
      · simp
    | turnEnded turnEnd => exact Bool.noConfusion h
  | serverLost => exact Bool.noConfusion h
  | prompted | request | answered => exact List.not_mem_nil

theorem not_send_serverLost (t : TurnState) (text : String) : .send text ∉ t.serverLost.2 := by
  rw [TurnState.serverLost, List.mem_append]
  split_ifs
  all_goals simp

/-- Only a request that was made since the last end of a turn is pending. -/
def Due (w : Watched) : Prop := w.turn.interruptRequested = true → w.due = true

theorem stops_of_spared {w : Watched} {s : TurnStep} (hdue : w.Due) (h : w.Spared s) : w.Stops s := by
  have htold : w.due = false → (w.step s).2 = (s.apply w.turn.unasked).2 := by
    intro hnot
    have hasked : w.turn.interruptRequested = false := by
      apply Bool.eq_false_of_not_eq_true
      intro hasked
      rw [hdue hasked] at hnot
      exact Bool.noConfusion hnot
    rw [TurnState.unasked_of_not hasked]
    rfl
  cases hends : s.ends with
  | false =>
    refine ⟨fun text _ => not_send_of_not_ends hends text, fun h => ?_, htold⟩
    rw [hends] at h
    exact Bool.noConfusion h
  | true =>
    cases s with
    | advance update facts =>
      cases update with
      | turnEnded turnEnd =>
        obtain ⟨hretry, hremind⟩ := h
        refine ⟨fun text htext hsend => ?_, fun _ => ?_, htold⟩
        · obtain ⟨hagain, rfl⟩ | ⟨hdue, rfl⟩ := TurnState.mem_turnEnded.mp hsend
          · exact (hretry hagain).2 htext
          · exact hremind hdue htext
        · show (w.turn.advance (.turnEnded turnEnd) facts).1.interruptRequested = false
          rw [TurnState.turnEnded_interruptRequested, Bool.and_eq_false_imp]
          intro hagain
          exact (hretry hagain).1
      | turnStarted | blocked | unblocked => exact Bool.noConfusion hends
    | serverLost => exact ⟨fun text _ => not_send_serverLost w.turn text, fun _ => rfl, htold⟩
    | prompted | request | answered => exact Bool.noConfusion hends

theorem spared_of_stops {w : Watched} {s : TurnStep} (h : w.Stops s) : w.Spared s := by
  cases s with
  | advance update facts =>
    cases update with
    | turnEnded turnEnd =>
      have hused : (w.turn.advance (.turnEnded turnEnd) facts).1.interruptRequested = false := h.used rfl
      rw [TurnState.turnEnded_interruptRequested, Bool.and_eq_false_imp] at hused
      refine ⟨fun hretry => ⟨hused hretry, fun hmem => ?_⟩, fun hremind hmem => ?_⟩
      · exact h.unsent _ hmem (TurnState.mem_turnEnded.mpr (.inl ⟨hretry, rfl⟩))
      · exact h.unsent _ hmem (TurnState.mem_turnEnded.mpr (.inr ⟨hremind, rfl⟩))
    | turnStarted | blocked | unblocked => trivial
  | serverLost | prompted | request | answered => trivial

/-- A step that uses up what it ends leaves no request that is older than the turn. -/
theorem due_step {w : Watched} {s : TurnStep} (hdue : w.Due) (h : w.Stops s) : (w.step s).1.Due := by
  -- what ends a turn uses the request up, and nothing else makes it older
  cases hends : s.ends with
  | true =>
    intro hasked
    rw [h.used hends] at hasked
    exact Bool.noConfusion hasked
  | false =>
    cases s with
    | advance update facts =>
      cases update with
      | turnEnded turnEnd => exact Bool.noConfusion hends
      | turnStarted => exact hdue
      | blocked asked =>
        have hkept : (w.turn.advance (.blocked asked) facts).1.interruptRequested =
            w.turn.interruptRequested := by
          rw [TurnState.advance]
          split_ifs
          all_goals rfl
        intro hasked
        exact hdue (hkept ▸ hasked)
      | unblocked requestId => exact hdue
    | serverLost => exact Bool.noConfusion hends
    | prompted text => exact hdue
    | request =>
      intro hasked
      cases hflight : w.turn.inFlight with
      | true => simp [step, note, hflight]
      | false =>
        have hturn : (w.step .request).1 = w := by simp [step, note, TurnStep.apply, hflight]
        rw [hturn] at hasked ⊢
        exact hdue hasked
    | answered outcome =>
      intro hasked
      cases hkeeps : keepsInterruptRequest outcome true with
      | true =>
        simp only [step, note, TurnStep.apply, hkeeps, if_true] at hasked ⊢
        exact hdue hasked
      | false => simp [step, TurnStep.apply, hkeeps] at hasked

theorem due_after {steps : List TurnStep}
    (h : ∀ before s more, steps = before ++ s :: more → (after before).Spared s) :
    ∀ before more, steps = before ++ more → (after before).Due := by
  intro before
  induction before using List.reverseRecOn with
  | nil => exact fun _ _ h => Bool.noConfusion h
  | append_singleton before s ih =>
    intro more hsteps
    rw [List.append_assoc, List.singleton_append] at hsteps
    have hdue := ih (s :: more) hsteps
    rw [after, Machine.after_concat]
    exact due_step hdue (stops_of_spared hdue (h before s more hsteps))

/-- An interrupt stops its prompt at every step of a run exactly when no step sends a prompt
that was interrupted. -/
theorem stops_iff_spared (steps : List TurnStep) :
    (∀ before s more, steps = before ++ s :: more → (after before).Stops s) ↔
      ∀ before s more, steps = before ++ s :: more → (after before).Spared s := by
  constructor
  · intro h before s more hsteps
    exact spared_of_stops (h before s more hsteps)
  · intro h before s more hsteps
    exact stops_of_spared (due_after h before (s :: more) hsteps) (h before s more hsteps)

/-- The interrupted turn fails for a passing reason, and its prompt is sent once more. -/
theorem interrupted_prompt_sent_again :
    ¬ ∀ steps before s more, steps = before ++ s :: more → (after before).Stops s := by
  intro h
  have hstops := h [.prompted "task", .request, .advance (.turnEnded (.failed "overloaded" true)) ⟨false, false⟩]
    [.prompted "task", .request] (.advance (.turnEnded (.failed "overloaded" true)) ⟨false, false⟩) [] rfl
  exact hstops.unsent "task" (by decide) (by decide)

end Watched

end Ralph.Worker.Opencode
