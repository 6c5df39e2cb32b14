import Mathlib.Data.List.Infix
import Ralph.Worker.CodexPrompts

namespace Ralph.Worker.Codex

/-- The ids that were bound at some point of the run and to a turn before the last one started. -/
def earlierTurnIds (calls : List Call) : List String :=
  (calls.inits.filter fun pre =>
    decide ((starts (Turns.actions pre)).length < (starts (Turns.actions calls)).length)).filterMap
      fun pre => (Turns.after pre).turnId

/-- A notification that carries the id of an earlier turn while a turn runs. -/
def isLate (calls : List Call) : Call → Bool
  | .notification method params _ =>
    (Turns.after calls).running.isSome &&
      (eventTurnId method params).any fun id => (earlierTurnIds calls).contains id
  | _ => false

theorem isLate_notification {calls : List Call} {method : String} {params : JsonValue}
    {closing : Bool} :
    isLate calls (.notification method params closing) ↔
      (Turns.after calls).running.isSome ∧
        ∃ id ∈ earlierTurnIds calls, eventTurnId method params = some id := by
  simp only [isLate, Bool.and_eq_true, Option.any_eq_true, List.contains_iff_mem]
  constructor
  · rintro ⟨hr, id, hid, hmem⟩
    exact ⟨hr, id, hmem, hid⟩
  · rintro ⟨hr, id, hmem, hid⟩
    exact ⟨hr, id, hid, hmem⟩

namespace Turns

/-- What keeps a notification from touching a running turn: another id is bound, or the method
and the parameters mean nothing in this state. -/
def Ignores (t : Turns) (method : String) (params : JsonValue) : Prop :=
  isStale t.turnId (eventTurnId method params) ∨
    ¬ (method = turnStarted ∧ t.turnId = none) ∧
      (decodeSignal method params = none ∨
        decodeSignal method params = some .reported ∧ t.reported)

theorem end_ne {t : Turns} (hr : t.running.isSome) (e : TurnEnd) (closing : Bool) :
    t.end_ e closing ≠ (t, []) := by
  obtain ⟨text, hr⟩ := Option.isSome_iff_exists.1 hr
  obtain ⟨queue, before, told, o, -, -, -, heq⟩ := end_cases hr e closing
  intro h
  have hnil := congrArg Prod.snd (heq.symm.trans h)
  simp at hnil

theorem bindTurn_ne {t : Turns} (hr : t.running.isSome) (hid : t.turnId = none) (id : String) :
    t.bindTurn (some id) ≠ (t, []) := by
  intro h
  have hturn := congrArg (fun r : Turns × List Action => r.1.turnId) h
  unfold bindTurn at hturn
  rw [if_neg (by simpa using Option.isSome_iff_ne_none.1 hr)] at hturn
  obtain heq | ⟨id', -, -, heq⟩ := sendInterrupt_cases { t with turnId := some id }
  · rw [heq] at hturn
    simp [hid] at hturn
  · rw [heq] at hturn
    simp [hid] at hturn

theorem signal_eq_iff {t : Turns} (hr : t.running.isSome) (s : ThreadSignal) (closing : Bool) :
    t.signal s closing = (t, []) ↔ s = .reported ∧ t.reported := by
  cases s with
  | turnEnded e =>
    change t.end_ e closing = (t, []) ↔ _
    simpa using end_ne hr e closing
  | reported => cases hrep : t.reported <;> simp [signal, hr, hrep]

theorem notification_eq_iff {t : Turns} (hr : t.running.isSome) {method : String}
    {params : JsonValue} {id : String} (hid : eventTurnId method params = some id)
    (closing : Bool) :
    t.notification method params closing = (t, []) ↔ t.Ignores method params := by
  unfold notification Ignores
  dsimp only
  split_ifs with hstale hstart
  · simp [hstale]
  · rw [hid]
    simpa [hstart, isStale] using bindTurn_ne hr hstart.2 id
  · cases hd : decodeSignal method params with
    | none => simp [hstart]
    | some s =>
      rw [signal_eq_iff hr s closing]
      simp [hstale, hstart]

end Turns

/-- The condition of a call on the state that it meets; only notifications have one. -/
def Ignored (t : Turns) : Call → Prop
  | .notification method params _ => t.Ignores method params
  | _ => True

/-- In a run, the late events change nothing and emit nothing exactly if each of them meets a
state that ignores it. -/
theorem late_events_ignored_iff (calls : List Call) :
    (∀ pre c, pre ++ [c] <+: calls → isLate pre c →
      (Turns.after pre).call c = (Turns.after pre, [])) ↔
      ∀ pre c, pre ++ [c] <+: calls → isLate pre c → Ignored (Turns.after pre) c := by
  have hstep : ∀ pre c, isLate pre c →
      ((Turns.after pre).call c = (Turns.after pre, []) ↔ Ignored (Turns.after pre) c) := by
    intro pre c hlate
    cases c with
    | notification method params closing =>
      obtain ⟨hr, id, -, hid⟩ := isLate_notification.1 hlate
      exact Turns.notification_eq_iff hr hid closing
    | _ => simp [isLate] at hlate
  constructor
  · intro h pre c hpre hlate
    exact (hstep pre c hlate).1 (h pre c hpre hlate)
  · intro h pre c hpre hlate
    exact (hstep pre c hlate).2 (h pre c hpre hlate)

/-- A completed report call of the turn `turn`. -/
def reportItem (turn : String) : JsonValue :=
  .object [("threadId", .string "t"), ("turnId", .string turn),
    ("item", .object [("type", .string "mcpToolCall"), ("server", .string serverName),
      ("tool", .string reportTool), ("status", .string "completed")])]

def turnEvent (turn status : String) : JsonValue :=
  .object [("threadId", .string "t"),
    ("turn", .object [("id", .string turn), ("status", .string status)])]

/-- The first turn ended without a report, and its reminder has started but has no id yet. -/
def reminderStarted : List Call :=
  [.accept "task", .bindTurn (some "u1"),
    .notification turnCompleted (turnEvent "u1" "completed") false]

/-- Before the id of the new turn is bound, each kind of late event of the old turn touches it:
its report counts as the new turn's, its end ends the new turn, its start gives it the old id. -/
theorem late_event_touches_next_turn :
    isLate reminderStarted (.notification itemCompleted (reportItem "u1") false) ∧
      ((Turns.after reminderStarted).notification itemCompleted (reportItem "u1") false).2 =
        [.emit .reported] ∧
      isLate reminderStarted (.notification turnCompleted (turnEvent "u1" "completed") false) ∧
      ((Turns.after reminderStarted).notification turnCompleted (turnEvent "u1" "completed")
        false).2 = [.snapshot, .emit (.turnEnded .succeeded), .markUnreported] ∧
      isLate reminderStarted (.notification turnStarted (turnEvent "u1" "inProgress") false) ∧
      ((Turns.after reminderStarted).notification turnStarted (turnEvent "u1" "inProgress")
        false).1.turnId = some "u1" := by
  decide +kernel

/-- The run without its late events: `done` is what came before. -/
def withoutLate (done : List Call) : List Call → List Call
  | [] => []
  | c :: calls =>
    if isLate done c then withoutLate (done ++ [c]) calls
    else c :: withoutLate (done ++ [c]) calls

/-- Where every late event meets a state that ignores it, the run is the one that never
received them. -/
theorem run_without_late (done calls : List Call)
    (h : ∀ pre c, pre ++ [c] <+: calls → isLate (done ++ pre) c →
      (Turns.after (done ++ pre)).call c = (Turns.after (done ++ pre), [])) :
    Machine.after Turns.call (Turns.after done) (withoutLate done calls) =
        Turns.after (done ++ calls) ∧
      Machine.outputs Turns.call (Turns.after done) (withoutLate done calls) =
        Machine.outputs Turns.call (Turns.after done) calls := by
  induction calls generalizing done with
  | nil => simp [withoutLate]
  | cons c calls ih =>
    have hrest := ih (done ++ [c]) fun pre d hpre hlate => by
      have hcons := h (c :: pre) d (by simpa using hpre) (by simpa using hlate)
      simpa using hcons
    rw [Turns.after_concat, List.append_assoc, List.singleton_append] at hrest
    rw [withoutLate]
    split_ifs with hlate
    · have hsame := h [] c (by simp) (by simpa using hlate)
      rw [List.append_nil] at hsame
      rw [hsame] at hrest
      rw [Machine.outputs, hsame]
      exact hrest
    · rw [Machine.after_cons, Machine.outputs, Machine.outputs, hrest.1, hrest.2]
      exact ⟨rfl, rfl⟩

end Ralph.Worker.Codex
