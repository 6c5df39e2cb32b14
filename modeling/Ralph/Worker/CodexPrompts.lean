import Mathlib.Data.List.TakeWhile
import Ralph.Switch
import Ralph.Worker.CodexCalls

namespace Ralph.Worker.Codex

/-- Where a text of the queue comes from. -/
inductive Origin
  | prompt (text : String)
  | interrupt (text : String)
  | reminder
  deriving DecidableEq

namespace Origin

def text : Origin → String
  | prompt text => text
  | interrupt text => text
  | reminder => reportReminder

def prompt? : Origin → Option String
  | prompt text => some text
  | _ => none

def interrupt? : Origin → Option String
  | interrupt text => some text
  | _ => none

end Origin

def Call.accepted? : Call → Option String
  | .accept text => some text
  | _ => none

def Call.interrupted? : Call → Option String
  | .interrupt text _ => some text
  | _ => none

def Call.isGone : Call → Bool
  | .processGone => true
  | _ => false

/-- The texts of the interrupts that are not refused: those before the process is gone. -/
def notRefused (calls : List Call) : List String :=
  (calls.takeWhile (fun c => !c.isGone)).filterMap Call.interrupted?

def Action.started? : Action → Option String
  | .start text => some text
  | _ => none

def Action.isEnd : Action → Bool
  | .emit (.turnEnded _) => true
  | _ => false

def Action.isStart : Action → Bool
  | .start _ => true
  | _ => false

def starts (actions : List Action) : List String := actions.filterMap Action.started?

def ends (actions : List Action) : ℕ := actions.countP Action.isEnd

@[simp] theorem starts_append (as bs : List Action) : starts (as ++ bs) = starts as ++ starts bs :=
  List.filterMap_append

@[simp] theorem ends_append (as bs : List Action) : ends (as ++ bs) = ends as + ends bs :=
  List.countP_append

theorem starts_quiet {as : List Action} (h : ∀ a ∈ as, Turns.Quiet a) : starts as = [] := by
  rw [starts, List.filterMap_eq_nil_iff]
  intro a ha
  cases a with
  | start text => exact (h _ ha).elim
  | _ => rfl

theorem starts_results (entries : List String) (o : InterruptOutcome) :
    starts (entries.map (.interruptResult · o)) = [] := by
  simp [starts, Action.started?]

namespace Turns

/-- What a call started and what waits after it. -/
def flow (r : Turns × List Action) : List String := starts r.2 ++ r.1.queue.pending

theorem flow_nothing (t : Turns) : flow (t, []) = t.queue.pending := rfl

theorem flow_sendInterrupt (t : Turns) : flow t.sendInterrupt = t.queue.pending := by
  obtain heq | ⟨id, -, -, heq⟩ := t.sendInterrupt_cases <;> rw [heq] <;> rfl

theorem flow_resolve (t : Turns) (o : InterruptOutcome) :
    flow (t.resolveInterrupts o) = t.queue.pending := by
  rw [flow, resolveInterrupts, starts_results]
  rfl

theorem flow_advance (t : Turns) : flow t.advance = t.queue.pending := by
  obtain ⟨heq, -⟩ | ⟨text, pending, -, hp, heq⟩ := t.advance_cases <;> rw [heq]
  · rfl
  · exact hp.symm

theorem flow_bindTurn (t : Turns) (id : Option String) : flow (t.bindTurn id) = t.queue.pending := by
  unfold bindTurn
  split_ifs
  · exact flow_nothing t
  · exact flow_sendInterrupt { t with turnId := id }

/-- Only the end of a turn feeds the queue by itself, and only a reminder that does not wait yet. -/
def FeedsItself (t : Turns) (r : Turns × List Action) : Prop :=
  flow r = t.queue.pending ∨
    reportReminder ∉ t.queue.pending ∧ flow r = t.queue.pending ++ [reportReminder] ∧ ends r.2 = 1

theorem ends_advance (t : Turns) : ends t.advance.2 = 0 := by
  obtain ⟨heq, -⟩ | ⟨text, pending, -, -, heq⟩ := t.advance_cases <;> rw [heq] <;> rfl

theorem ends_quiet {as : List Action} (h : ∀ a ∈ as, Quiet a) : ends as = 0 := by
  rw [ends, List.countP_eq_zero]
  intro a ha
  cases a with
  | emit event =>
    cases event with
    | turnEnded e => exact (h _ ha).elim
    | _ => simp [Action.isEnd]
  | _ => simp [Action.isEnd]

theorem ends_results (entries : List String) (o : InterruptOutcome) :
    ends (entries.map (.interruptResult · o)) = 0 := by
  rw [ends, List.countP_eq_zero]
  simp [Action.isEnd]

theorem feeds_signal (t : Turns) (s : ThreadSignal) (closing : Bool) :
    FeedsItself t (t.signal s closing) := by
  cases s with
  | reported =>
    unfold signal
    dsimp only
    split_ifs <;> exact .inl rfl
  | turnEnded e =>
    change FeedsItself t (t.end_ e closing)
    cases hr : t.running with
    | none =>
      rw [end_of_idle hr]
      exact .inl rfl
    | some text =>
      obtain ⟨queue, before, told, o, hq, hbefore, htold, heq⟩ := end_cases hr e closing
      have hends : ends (t.end_ e closing).2 = 1 := by
        rw [heq]
        simp only [ends_append, ends_quiet hbefore, ends_quiet htold, ends_results, ends_advance]
        rfl
      have hflow : flow (t.end_ e closing) = queue.pending := by
        rw [heq, flow]
        simp only [starts_append, starts_quiet hbefore, starts_quiet htold, starts_results]
        exact flow_advance { t with running := none, queue, interrupts := [] }
      rcases hq with rfl | rfl
      · exact .inl hflow
      · rcases PromptQueue.remind_pending t.queue.finish.1 with hsame | ⟨hnot, hadd⟩
        · exact .inl (hflow.trans hsame)
        · exact .inr ⟨hnot, hflow.trans hadd, hends⟩

theorem flow_accept (t : Turns) (text : String) :
    flow (t.accept text) = t.queue.pending ++ [text] := flow_advance _

theorem flow_interrupt {t : Turns} (h : Good t) (text entry : String) :
    flow (t.interrupt text entry) =
      if t.gone then t.queue.pending else text :: t.queue.pending := by
  have hp := (t.queue.accept_interrupt_fst text entry).1
  unfold interrupt
  dsimp only
  rw [cancelsTurn_accept, h.queue_running]
  split_ifs with hg hr
  · rfl
  · exact (flow_sendInterrupt _).trans hp
  · change starts ([.interruptResult entry .sent] ++ (advance _).2) ++ _ = _
    rw [starts_append]
    exact (flow_advance _).trans hp

/-- The calls that bring no text of their own. -/
theorem feeds_call (t : Turns) (c : Call) (ha : c.accepted? = none) (hi : c.interrupted? = none) :
    FeedsItself t (t.call c) := by
  cases c with
  | accept text => simp [Call.accepted?] at ha
  | interrupt text entry => simp [Call.interrupted?] at hi
  | interruptDropped => exact .inl (flow_resolve _ _)
  | processGone => exact .inl (flow_resolve _ _)
  | close =>
    change FeedsItself t t.close
    unfold close
    split_ifs
    · exact .inl rfl
    · exact .inl (flow_sendInterrupt _)
  | bindTurn turnId => exact .inl (flow_bindTurn t turnId)
  | interruptFailed code =>
    change FeedsItself t (t.interruptFailed code)
    unfold interruptFailed
    split_ifs
    · exact .inl rfl
    · exact .inl (flow_resolve _ _)
  | notification method params closing =>
    change FeedsItself t (t.notification method params closing)
    obtain heq | ⟨id, heq⟩ | ⟨s, heq⟩ := t.notification_cases method params closing <;> rw [heq]
    · exact .inl rfl
    · exact .inl (flow_bindTurn t id)
    · exact feeds_signal t s closing
  | signal s closing => exact feeds_signal t s closing

theorem sendInterrupt_gone (t : Turns) : t.sendInterrupt.1.gone = t.gone := by
  obtain heq | ⟨id, -, -, heq⟩ := t.sendInterrupt_cases <;> rw [heq]

theorem advance_gone (t : Turns) : t.advance.1.gone = t.gone := by
  obtain ⟨heq, -⟩ | ⟨text, pending, -, -, heq⟩ := t.advance_cases <;> rw [heq]

theorem bindTurn_gone (t : Turns) (id : Option String) : (t.bindTurn id).1.gone = t.gone := by
  unfold bindTurn
  split_ifs
  · rfl
  · exact sendInterrupt_gone _

theorem signal_gone (t : Turns) (s : ThreadSignal) (closing : Bool) :
    (t.signal s closing).1.gone = t.gone := by
  cases s with
  | reported =>
    unfold signal
    dsimp only
    split_ifs <;> rfl
  | turnEnded e =>
    change (t.end_ e closing).1.gone = t.gone
    cases hr : t.running with
    | none => rw [end_of_idle hr]
    | some text =>
      obtain ⟨queue, before, told, o, -, -, -, heq⟩ := end_cases hr e closing
      rw [heq]
      exact advance_gone _

theorem call_gone (t : Turns) (c : Call) : (t.call c).1.gone = (t.gone || c.isGone) := by
  cases c with
  | accept text => exact (advance_gone _).trans (Bool.or_false _).symm
  | interrupt text entry =>
    change (t.interrupt text entry).1.gone = _
    unfold interrupt
    dsimp only
    split_ifs
    · simp [Call.isGone]
    · simpa [Call.isGone] using sendInterrupt_gone _
    · simpa [Call.isGone] using advance_gone _
  | interruptDropped => simp [call, interruptDropped, resolveInterrupts, Call.isGone]
  | processGone => simp [call, processGone, resolveInterrupts, Call.isGone]
  | close =>
    change t.close.1.gone = _
    unfold close
    split_ifs
    · simp [Call.isGone]
    · simpa [Call.isGone] using sendInterrupt_gone _
  | bindTurn turnId => exact (bindTurn_gone t turnId).trans (Bool.or_false _).symm
  | interruptFailed code =>
    change (t.interruptFailed code).1.gone = _
    unfold interruptFailed
    split_ifs <;> simp [resolveInterrupts, Call.isGone]
  | notification method params closing =>
    change (t.notification method params closing).1.gone = (t.gone || false)
    rw [Bool.or_false]
    obtain heq | ⟨id, heq⟩ | ⟨s, heq⟩ := t.notification_cases method params closing <;> rw [heq]
    · exact bindTurn_gone t id
    · exact signal_gone t s closing
  | signal s closing => exact (signal_gone t s closing).trans (Bool.or_false _).symm

theorem gone_after (calls : List Call) : (after calls).gone = calls.any Call.isGone := by
  induction calls using List.reverseRecOn with
  | nil => rfl
  | append_singleton calls c ih =>
    rw [after_concat, call_gone, ih, List.any_append]
    simp

end Turns

theorem notRefused_concat (calls : List Call) (c : Call) :
    notRefused (calls ++ [c]) = notRefused calls ++
      if (Turns.after calls).gone then [] else c.interrupted?.toList := by
  rw [Turns.gone_after, notRefused, notRefused, List.takeWhile_append]
  by_cases hg : calls.any Call.isGone
  · have hshort : (calls.takeWhile fun c => !c.isGone).length ≠ calls.length := by
      intro hlen
      obtain ⟨d, hd, hgone⟩ := List.any_eq_true.1 hg
      have hall := List.takeWhile_eq_self_iff.1 ((List.takeWhile_prefix _).eq_of_length hlen)
      simpa [hgone] using hall d hd
    rw [if_neg hshort, if_pos hg, List.append_nil]
  · have hall : (calls.takeWhile fun c => !c.isGone) = calls := by
      rw [List.takeWhile_eq_self_iff]
      intro d hd
      by_contra hgone
      exact hg (List.any_eq_true.2 ⟨d, hd, by simpa using hgone⟩)
    rw [if_neg hg, if_pos (by rw [hall]), List.filterMap_append, hall]
    congr 1
    cases c <;> simp [Call.isGone, Call.interrupted?]

/-- Where every text that was started, and every text that still waits, comes from. -/
structure Ledger (calls : List Call) (started waiting : List Origin) : Prop where
  started_text : started.map Origin.text = starts (Turns.actions calls)
  waiting_text : waiting.map Origin.text = (Turns.after calls).queue.pending
  prompts : (started ++ waiting).filterMap Origin.prompt? = calls.filterMap Call.accepted?
  interrupts : ((started ++ waiting).filterMap Origin.interrupt?).Perm (notRefused calls)
  one_reminder : waiting.count .reminder ≤ 1
  reminders : (started ++ waiting).count .reminder ≤ ends (Turns.actions calls)

namespace Ledger

variable {calls : List Call} {started waiting : List Origin}

theorem nil : Ledger [] [] [] := ⟨rfl, rfl, rfl, .nil, Nat.zero_le _, Nat.zero_le _⟩

/-- One more call: what it starts is taken from the front of `f`. -/
theorem concat (h : Ledger calls started waiting) (c : Call) {f : List Origin}
    (hflow : f.map Origin.text = Turns.flow ((Turns.after calls).call c))
    (hp : f.filterMap Origin.prompt? =
      waiting.filterMap Origin.prompt? ++ c.accepted?.toList)
    (hi : (f.filterMap Origin.interrupt?).Perm (waiting.filterMap Origin.interrupt? ++
      if (Turns.after calls).gone then [] else c.interrupted?.toList))
    (hone : f.count .reminder ≤ 1)
    (hr : f.count .reminder ≤
      waiting.count .reminder + ends ((Turns.after calls).call c).2) :
    ∃ started' waiting', Ledger (calls ++ [c]) started' waiting' := by
  obtain ⟨now, later, rfl, hnow, hlater⟩ := List.map_eq_append_iff.1 hflow
  have hprompts := h.prompts
  have hinterrupts := h.interrupts
  have hreminders := h.reminders
  rw [List.filterMap_append] at hprompts hinterrupts
  rw [List.count_append] at hreminders
  refine ⟨started ++ now, later, ?_, ?_, ?_, ?_, ?_, ?_⟩
  · rw [List.map_append, h.started_text, hnow, Turns.actions_concat, starts_append]
  · rw [hlater, Turns.after_concat]
  · rw [List.append_assoc, List.filterMap_append, hp, ← List.append_assoc, hprompts,
      List.filterMap_append]
    cases hc : c.accepted? <;> simp [hc]
  · rw [List.append_assoc, List.filterMap_append, notRefused_concat]
    refine (hi.append_left _).trans ?_
    rw [← List.append_assoc]
    exact hinterrupts.append_right _
  · exact le_trans (by simp) hone
  · rw [List.append_assoc, List.count_append, Turns.actions_concat, ends_append]
    omega

theorem step (h : Ledger calls started waiting) (c : Call) :
    ∃ started' waiting', Ledger (calls ++ [c]) started' waiting' := by
  have hpending := h.waiting_text
  have hone := h.one_reminder
  by_cases ha : c.accepted? = none
  · by_cases hi : c.interrupted? = none
    · rcases Turns.feeds_call (Turns.after calls) c ha hi with hflow | ⟨hnot, hflow, hends⟩
      · exact h.concat c (hpending.trans hflow.symm) (by simp [ha]) (by simp [hi]) hone
          (Nat.le_add_right _ _)
      · have hnone : waiting.count .reminder = 0 := by
          rw [List.count_eq_zero]
          exact fun hmem => hnot (hpending ▸ List.mem_map_of_mem (f := Origin.text) hmem)
        refine h.concat c (f := waiting ++ [.reminder]) ?_ ?_ ?_ ?_ ?_
        · rw [hflow, List.map_append, hpending]
          rfl
        · simp [ha, List.filterMap_cons, Origin.prompt?]
        · simp [hi, List.filterMap_cons, Origin.interrupt?]
        · simp [hnone]
        · simp [hnone, hends]
    · cases c with
      | interrupt text entry =>
        have hflow := Turns.flow_interrupt (Turns.good_after calls) text entry
        by_cases hg : (Turns.after calls).gone
        · rw [if_pos hg] at hflow
          exact h.concat _ (hpending.trans hflow.symm) (by simp [Call.accepted?]) (by simp [hg])
            hone (Nat.le_add_right _ _)
        · rw [if_neg hg] at hflow
          refine h.concat _ (f := .interrupt text :: waiting) ?_ ?_ ?_ ?_ ?_
          · exact (congrArg (text :: ·) hpending).trans hflow.symm
          · simp [List.filterMap_cons, Origin.prompt?, Call.accepted?]
          · simpa [hg, List.filterMap_cons, Origin.interrupt?, Call.interrupted?] using
              (List.perm_append_singleton _ _).symm
          · simpa using hone
          · simp
      | _ => exact absurd rfl hi
  · cases c with
    | accept text =>
      have hflow := Turns.flow_accept (Turns.after calls) text
      refine h.concat _ (f := waiting ++ [.prompt text]) ?_ ?_ ?_ ?_ ?_
      · rw [List.map_append, hpending]
        exact hflow.symm
      · simp [Origin.prompt?, Call.accepted?]
      · simp [List.filterMap_cons, Origin.interrupt?, Call.interrupted?]
      · simpa using hone
      · simp
    | _ => exact absurd rfl ha

end Ledger

theorem exists_ledger (calls : List Call) : ∃ started waiting, Ledger calls started waiting := by
  induction calls using List.reverseRecOn with
  | nil => exact ⟨[], [], .nil⟩
  | append_singleton calls c ih =>
    obtain ⟨started, waiting, h⟩ := ih
    exact h.step c

namespace Turns

/-- Starts and ends take turns, and `running` says which comes next. -/
structure Alternates (t : Turns) (r : Turns × List Action) : Prop where
  starts : switch Action.isStart Action.isEnd t.running.isSome r.2 = some r.1.running.isSome
  ends : switch Action.isEnd Action.isStart (!t.running.isSome) r.2 = some (!r.1.running.isSome)

theorem alternates_of_neither {t : Turns} {r : Turns × List Action}
    (h : ∀ a ∈ r.2, a.isStart = false ∧ a.isEnd = false) (hr : r.1.running = t.running) :
    Alternates t r := by
  refine ⟨?_, ?_⟩
  · rw [switch_of_neither h, hr]
  · rw [switch_of_neither fun a ha => (h a ha).symm, hr]

theorem neither_of_quiet {a : Action} (h : Quiet a) : a.isStart = false ∧ a.isEnd = false := by
  cases a with
  | start text => exact h.elim
  | emit event =>
    cases event with
    | turnEnded e => exact h.elim
    | _ => exact ⟨rfl, rfl⟩
  | _ => exact ⟨rfl, rfl⟩

theorem alternates_nothing (t : Turns) : Alternates t (t, []) :=
  alternates_of_neither (by simp) rfl

theorem alternates_sendInterrupt (t : Turns) : Alternates t t.sendInterrupt := by
  obtain heq | ⟨id, -, -, heq⟩ := t.sendInterrupt_cases <;> rw [heq]
  · exact alternates_nothing t
  · exact alternates_of_neither (by simp [Action.isStart, Action.isEnd]) rfl

theorem alternates_resolve (t : Turns) (o : InterruptOutcome) :
    Alternates t (t.resolveInterrupts o) :=
  alternates_of_neither (by simp [resolveInterrupts, Action.isStart, Action.isEnd]) rfl

theorem alternates_advance (t : Turns) : Alternates t t.advance := by
  obtain ⟨heq, -⟩ | ⟨text, pending, hr, -, heq⟩ := t.advance_cases <;> rw [heq]
  · exact alternates_nothing t
  · exact ⟨by rw [hr]; rfl, by rw [hr]; rfl⟩

theorem alternates_bindTurn (t : Turns) (id : Option String) : Alternates t (t.bindTurn id) := by
  unfold bindTurn
  split_ifs
  · exact alternates_nothing t
  · have h := alternates_sendInterrupt { t with turnId := id }
    exact ⟨h.starts, h.ends⟩

theorem alternates_end {t : Turns} {text : String} (hr : t.running = some text) (e : TurnEnd)
    (closing : Bool) : Alternates t (t.end_ e closing) := by
  obtain ⟨queue, before, told, o, -, hbefore, htold, heq⟩ := end_cases hr e closing
  have hnext := alternates_advance { t with running := none, queue, interrupts := [] }
  -- the actions around the one end: none of them starts or ends a turn
  have hresults : ∀ a ∈ t.interrupts.map (Action.interruptResult · o),
      a.isStart = false ∧ a.isEnd = false := by simp [Action.isStart, Action.isEnd]
  have hquiet : ∀ as : List Action, (∀ a ∈ as, Quiet a) →
      ∀ a ∈ as, a.isStart = false ∧ a.isEnd = false :=
    fun as has a ha => neither_of_quiet (has a ha)
  rw [heq]
  constructor
  · rw [hr, List.append_assoc, List.append_assoc, List.append_assoc,
      switch_append_of (switch_of_neither (hquiet before hbefore) _)]
    rw [switch_append_of (m := false) rfl, switch_append_of (switch_of_neither hresults _),
      switch_append_of (switch_of_neither (hquiet told htold) _)]
    exact hnext.starts
  · rw [hr, List.append_assoc, List.append_assoc, List.append_assoc,
      switch_append_of (switch_of_neither (fun a ha => (hquiet before hbefore a ha).symm) _)]
    rw [switch_append_of (m := true) rfl,
      switch_append_of (switch_of_neither (fun a ha => (hresults a ha).symm) _),
      switch_append_of (switch_of_neither (fun a ha => (hquiet told htold a ha).symm) _)]
    exact hnext.ends

theorem alternates_signal (t : Turns) (s : ThreadSignal) (closing : Bool) :
    Alternates t (t.signal s closing) := by
  cases s with
  | reported =>
    unfold signal
    dsimp only
    split_ifs
    · exact alternates_of_neither (by simp [Action.isStart, Action.isEnd]) rfl
    · exact alternates_nothing t
  | turnEnded e =>
    change Alternates t (t.end_ e closing)
    cases hr : t.running with
    | none =>
      rw [end_of_idle hr]
      exact alternates_nothing t
    | some text => exact alternates_end hr e closing

theorem alternates_interrupt (t : Turns) (text entry : String) :
    Alternates t (t.interrupt text entry) := by
  unfold interrupt
  dsimp only
  split_ifs
  · exact alternates_of_neither (by simp [Action.isStart, Action.isEnd]) rfl
  · have h := alternates_sendInterrupt { t with
      queue := (t.queue.accept (.interrupt text entry)).1, interrupts := t.interrupts ++ [entry] }
    exact ⟨h.starts, h.ends⟩
  · have h := alternates_advance { t with queue := (t.queue.accept (.interrupt text entry)).1 }
    exact ⟨h.starts, h.ends⟩

theorem alternates_call (t : Turns) (c : Call) : Alternates t (t.call c) := by
  cases c with
  | accept text =>
    have h := alternates_advance { t with queue := (t.queue.accept (.prompt text)).1 }
    exact ⟨h.starts, h.ends⟩
  | interrupt text entry => exact alternates_interrupt t text entry
  | interruptDropped =>
    have h := alternates_resolve { t with interruptSent := false } .dropped
    exact ⟨h.starts, h.ends⟩
  | processGone =>
    have h := alternates_resolve { t with gone := true } .gone
    exact ⟨h.starts, h.ends⟩
  | close =>
    change Alternates t t.close
    unfold close
    split_ifs
    · exact alternates_nothing t
    · have h := alternates_sendInterrupt { t with closeRequested := true }
      exact ⟨h.starts, h.ends⟩
  | bindTurn turnId => exact alternates_bindTurn t turnId
  | interruptFailed code =>
    change Alternates t (t.interruptFailed code)
    unfold interruptFailed
    split_ifs
    · exact alternates_nothing t
    · exact alternates_resolve t _
  | notification method params closing =>
    change Alternates t (t.notification method params closing)
    obtain heq | ⟨id, heq⟩ | ⟨s, heq⟩ := t.notification_cases method params closing <;> rw [heq]
    · exact alternates_nothing t
    · exact alternates_bindTurn t id
    · exact alternates_signal t s closing
  | signal s closing => exact alternates_signal t s closing

theorem switch_actions (calls : List Call) :
    switch Action.isStart Action.isEnd false (actions calls) = some (after calls).running.isSome ∧
      switch Action.isEnd Action.isStart true (actions calls) =
        some (!(after calls).running.isSome) := by
  induction calls using List.reverseRecOn with
  | nil => exact ⟨rfl, rfl⟩
  | append_singleton calls c ih =>
    have h := alternates_call (after calls) c
    rw [actions_concat, after_concat, switch_append_of ih.1, switch_append_of ih.2]
    exact ⟨h.starts, h.ends⟩

end Turns

/-- No prompt is lost, doubled or overtaken. The texts that were started, and then those that
wait, come from the accepted prompts, all of them in their order, from the interrupts that
were not refused, each once, and from reminders, at most one for each turn that ended and at
most one of them waiting. Between two starts in a row exactly one turn ends. -/
theorem prompts_accounted (calls : List Call) :
    (∃ started waiting : List Origin,
      started.map Origin.text = starts (Turns.actions calls) ∧
        waiting.map Origin.text = (Turns.after calls).queue.pending ∧
        (started ++ waiting).filterMap Origin.prompt? = calls.filterMap Call.accepted? ∧
        ((started ++ waiting).filterMap Origin.interrupt?).Perm (notRefused calls) ∧
        (started ++ waiting).count .reminder ≤ ends (Turns.actions calls) ∧
        waiting.count .reminder ≤ 1) ∧
      ∀ pre mid post text text',
        Turns.actions calls = pre ++ .start text :: mid ++ .start text' :: post →
          (∀ a ∈ mid, a.isStart = false) → mid.countP Action.isEnd = 1 := by
  obtain ⟨started, waiting, h⟩ := exists_ledger calls
  refine ⟨⟨started, waiting, h.started_text, h.waiting_text, h.prompts, h.interrupts, h.reminders,
    h.one_reminder⟩, fun pre mid post text text' hactions hmid => ?_⟩
  obtain ⟨hstarts, hends⟩ := Turns.switch_actions calls
  rw [hactions] at hstarts hends
  exact countP_eq_one_of_switch (Option.isSome_of_mem hstarts) (Option.isSome_of_mem hends) rfl rfl
    hmid

end Ralph.Worker.Codex
