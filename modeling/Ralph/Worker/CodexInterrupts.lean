import Ralph.Switch
import Ralph.Worker.CodexCalls

namespace Ralph.Worker.Codex

/-- The entry that a call passes to `interrupt`. -/
def Call.entry? : Call → Option String
  | .interrupt _ entry => some entry
  | _ => none

/-- The entry that an action answers. -/
def Action.answered? : Action → Option String
  | .interruptResult entry _ => some entry
  | _ => none

def answered (actions : List Action) : List String := actions.filterMap Action.answered?

@[simp] theorem answered_append (as bs : List Action) :
    answered (as ++ bs) = answered as ++ answered bs := List.filterMap_append

theorem answered_results (entries : List String) (o : InterruptOutcome) :
    answered (entries.map (.interruptResult · o)) = entries := by
  rw [answered, List.filterMap_map]
  exact List.filterMap_some

theorem answered_quiet {as : List Action} (h : ∀ a ∈ as, Turns.Quiet a) : answered as = [] := by
  rw [answered, List.filterMap_eq_nil_iff]
  intro a ha
  cases a with
  | interruptResult entry o => exact (h _ ha).elim
  | _ => rfl

namespace Turns

theorem answered_sendInterrupt (t : Turns) : answered t.sendInterrupt.2 = [] := by
  obtain heq | ⟨id, -, -, heq⟩ := t.sendInterrupt_cases <;> rw [heq] <;> rfl

theorem sendInterrupt_interrupts (t : Turns) : t.sendInterrupt.1.interrupts = t.interrupts := by
  obtain heq | ⟨id, -, -, heq⟩ := t.sendInterrupt_cases <;> rw [heq]

theorem answered_advance (t : Turns) : answered t.advance.2 = [] := by
  obtain ⟨heq, -⟩ | ⟨text, pending, -, -, heq⟩ := t.advance_cases <;> rw [heq] <;> rfl

theorem advance_interrupts (t : Turns) : t.advance.1.interrupts = t.interrupts := by
  obtain ⟨heq, -⟩ | ⟨text, pending, -, -, heq⟩ := t.advance_cases <;> rw [heq]

/-- What a call answers, and what is still held after it, is what was held before it and what
it passed itself, in this order. -/
def Accounts (t : Turns) (passed : List String) (r : Turns × List Action) : Prop :=
  answered r.2 ++ r.1.interrupts = t.interrupts ++ passed

theorem accounts_nothing (t : Turns) : Accounts t [] (t, []) := by
  simp [Accounts, answered]

theorem accounts_sendInterrupt (t : Turns) : Accounts t [] t.sendInterrupt := by
  rw [Accounts, answered_sendInterrupt, sendInterrupt_interrupts, List.nil_append, List.append_nil]

theorem accounts_resolve (t : Turns) (o : InterruptOutcome) :
    Accounts t [] (t.resolveInterrupts o) := by
  rw [Accounts, resolveInterrupts, answered_results]

theorem accounts_bindTurn (t : Turns) (id : Option String) : Accounts t [] (t.bindTurn id) := by
  unfold bindTurn
  split_ifs
  · exact accounts_nothing t
  · exact accounts_sendInterrupt { t with turnId := id }

theorem accounts_signal (t : Turns) (s : ThreadSignal) (closing : Bool) :
    Accounts t [] (t.signal s closing) := by
  cases s with
  | reported =>
    unfold signal
    dsimp only
    split_ifs
    · simp [Accounts, answered, Action.answered?]
    · exact accounts_nothing t
  | turnEnded e =>
    change Accounts t [] (t.end_ e closing)
    cases hr : t.running with
    | none =>
      rw [end_of_idle hr]
      exact accounts_nothing t
    | some text =>
      obtain ⟨queue, before, told, o, -, hbefore, htold, heq⟩ := end_cases hr e closing
      rw [heq, Accounts]
      simp only [answered_append, answered_quiet hbefore, answered_quiet htold, answered_results,
        answered_advance, advance_interrupts]
      simp [answered, Action.answered?]

theorem accounts_interrupt {t : Turns} (h : Good t) (text entry : String) :
    Accounts t [entry] (t.interrupt text entry) := by
  unfold interrupt
  dsimp only
  rw [cancelsTurn_accept, h.queue_running]
  split_ifs with hg hr
  · simp [Accounts, answered, Action.answered?, h.gone_empty hg]
  · rw [Accounts, answered_sendInterrupt, sendInterrupt_interrupts, List.nil_append]
  · have hheld := h.idle_empty (by simpa using hr)
    change answered ([.interruptResult entry .sent] ++ _) ++ _ = _
    rw [answered_append, answered_advance, advance_interrupts, hheld]
    rfl

theorem accounts_call {t : Turns} (h : Good t) (c : Call) :
    Accounts t c.entry?.toList (t.call c) := by
  cases c with
  | accept text =>
    change answered (advance _).2 ++ (advance _).1.interrupts = t.interrupts ++ []
    rw [answered_advance, advance_interrupts, List.nil_append, List.append_nil]
  | interrupt text entry => exact accounts_interrupt h text entry
  | interruptDropped => exact accounts_resolve { t with interruptSent := false } _
  | processGone => exact accounts_resolve { t with gone := true } _
  | close =>
    change Accounts t [] t.close
    unfold close
    split_ifs
    · exact accounts_nothing t
    · exact accounts_sendInterrupt { t with closeRequested := true }
  | bindTurn turnId => exact accounts_bindTurn t turnId
  | interruptFailed code =>
    change Accounts t [] (t.interruptFailed code)
    unfold interruptFailed
    split_ifs
    · exact accounts_nothing t
    · exact accounts_resolve t _
  | notification method params closing =>
    change Accounts t [] (t.notification method params closing)
    obtain heq | ⟨id, heq⟩ | ⟨s, heq⟩ := t.notification_cases method params closing <;> rw [heq]
    · exact accounts_nothing t
    · exact accounts_bindTurn t id
    · exact accounts_signal t s closing
  | signal s closing => exact accounts_signal t s closing

/-- Over a run: the entries passed to `interrupt` are the ones answered so far, each once, and
then the ones that are held. -/
theorem answered_after (calls : List Call) :
    answered (actions calls) ++ (after calls).interrupts = calls.filterMap Call.entry? := by
  induction calls using List.reverseRecOn with
  | nil => rfl
  | append_singleton calls c ih =>
    have hstep := accounts_call (good_after calls) c
    rw [actions_concat, answered_append, after_concat, List.append_assoc, hstep, ← List.append_assoc, ih, List.filterMap_append]
    cases hc : c.entry? <;> simp [hc]

/-- The calls on a fresh `Turns` with the actions of each, in order. -/
abbrev trace (calls : List Call) : List (Call ⊕ Action) := Machine.trace call {} calls

def asks : Call ⊕ Action → Bool
  | .inr (.interrupt _) => true
  | _ => false

/-- What allows another interrupt: a turn that starts, or an interrupt that was dropped. -/
def renews : Call ⊕ Action → Bool
  | .inl .interruptDropped | .inr (.start _) => true
  | _ => false

/-- `interruptSent` is the switch that an interrupt turns on and `renews` turns off. -/
def Switches (t : Turns) (r : Turns × List Action) : Prop :=
  switch asks renews t.interruptSent (r.2.map .inr) = some r.1.interruptSent

theorem switch_results (on : Bool) (entries : List String) (o : InterruptOutcome) :
    switch asks renews on ((entries.map (.interruptResult · o)).map .inr) = some on := by
  apply switch_of_neither
  intro a ha
  rw [List.map_map, List.mem_map] at ha
  obtain ⟨entry, -, rfl⟩ := ha
  exact ⟨rfl, rfl⟩

theorem switch_quiet (on : Bool) {as : List Action} (h : ∀ a ∈ as, Quiet a) :
    switch asks renews on (as.map .inr) = some on := by
  apply switch_of_neither
  intro a ha
  obtain ⟨b, hb, rfl⟩ := List.mem_map.1 ha
  cases b with
  | start text => exact (h _ hb).elim
  | interrupt id => exact (h _ hb).elim
  | _ => exact ⟨rfl, rfl⟩

theorem switches_nothing (t : Turns) : Switches t (t, []) := rfl

theorem switches_sendInterrupt (t : Turns) : Switches t t.sendInterrupt := by
  obtain heq | ⟨id, -, hsent, heq⟩ := t.sendInterrupt_cases <;> rw [heq]
  · exact switches_nothing t
  · rw [Switches, hsent]
    rfl

theorem switches_resolve (t : Turns) (o : InterruptOutcome) : Switches t (t.resolveInterrupts o) :=
  switch_results _ _ _

theorem switches_advance (t : Turns) : Switches t t.advance := by
  obtain ⟨heq, -⟩ | ⟨text, pending, -, -, heq⟩ := t.advance_cases <;> rw [heq]
  · exact switches_nothing t
  · rfl

theorem switches_bindTurn (t : Turns) (id : Option String) : Switches t (t.bindTurn id) := by
  unfold bindTurn
  split_ifs
  · exact switches_nothing t
  · exact switches_sendInterrupt { t with turnId := id }

theorem switches_signal (t : Turns) (s : ThreadSignal) (closing : Bool) :
    Switches t (t.signal s closing) := by
  cases s with
  | reported =>
    unfold signal
    dsimp only
    split_ifs
    · exact switch_of_neither (by simp [asks, renews]) _
    · exact switches_nothing t
  | turnEnded e =>
    change Switches t (t.end_ e closing)
    cases hr : t.running with
    | none =>
      rw [end_of_idle hr]
      exact switches_nothing t
    | some text =>
      obtain ⟨queue, before, told, o, -, hbefore, htold, heq⟩ := end_cases hr e closing
      rw [heq, Switches]
      simp only [List.map_append, List.append_assoc]
      rw [switch_append_of (switch_quiet _ hbefore)]
      rw [switch_append_of (m := t.interruptSent) rfl]
      rw [switch_append_of (switch_results _ _ _), switch_append_of (switch_quiet _ htold)]
      exact switches_advance { t with running := none, queue, interrupts := [] }

theorem switches_interrupt (t : Turns) (text entry : String) :
    Switches t (t.interrupt text entry) := by
  unfold interrupt
  dsimp only
  rw [cancelsTurn_accept]
  split_ifs
  · rfl
  · exact switches_sendInterrupt { t with
      queue := (t.queue.accept (.interrupt text entry)).1, interrupts := t.interrupts ++ [entry] }
  · exact switches_advance { t with queue := (t.queue.accept (.interrupt text entry)).1 }

theorem switches_call (t : Turns) (c : Call) :
    switch asks renews t.interruptSent (.inl c :: (t.call c).2.map .inr) =
      some (t.call c).1.interruptSent := by
  cases c with
  | accept text => exact switches_advance { t with queue := (t.queue.accept (.prompt text)).1 }
  | interrupt text entry => exact switches_interrupt t text entry
  | interruptDropped => exact switches_resolve { t with interruptSent := false } .dropped
  | processGone => exact switches_resolve { t with gone := true } .gone
  | close =>
    change Switches t t.close
    unfold close
    split_ifs
    · exact switches_nothing t
    · exact switches_sendInterrupt { t with closeRequested := true }
  | bindTurn turnId => exact switches_bindTurn t turnId
  | interruptFailed code =>
    change Switches t (t.interruptFailed code)
    unfold interruptFailed
    split_ifs
    · exact switches_nothing t
    · exact switches_resolve t _
  | notification method params closing =>
    change Switches t (t.notification method params closing)
    obtain heq | ⟨id, heq⟩ | ⟨s, heq⟩ := t.notification_cases method params closing <;> rw [heq]
    · exact switches_nothing t
    · exact switches_bindTurn t id
    · exact switches_signal t s closing
  | signal s closing => exact switches_signal t s closing

theorem switch_trace (calls : List Call) :
    switch asks renews false (trace calls) = some (after calls).interruptSent := by
  induction calls using List.reverseRecOn with
  | nil => rfl
  | append_singleton calls c ih =>
    rw [trace, Machine.trace_concat, after_concat, switch_append_of ih]
    exact switches_call _ c

theorem not_mem_quiet {as : List Action} (h : ∀ a ∈ as, Quiet a) (id : String) :
    .interrupt id ∉ as := fun ha => h _ ha

theorem not_mem_results (entries : List String) (o : InterruptOutcome) (id : String) :
    Action.interrupt id ∉ entries.map (.interruptResult · o) := by
  simp

theorem not_mem_advance (t : Turns) (id : String) : .interrupt id ∉ t.advance.2 := by
  obtain ⟨heq, -⟩ | ⟨text, pending, -, -, heq⟩ := t.advance_cases <;> rw [heq] <;> simp

theorem running_of_bindTurn {t : Turns} {turnId : Option String} {id : String}
    (h : .interrupt id ∈ (t.bindTurn turnId).2) : t.running.isSome := by
  unfold bindTurn at h
  split_ifs at h with hr
  · simp at h
  · exact Option.isSome_iff_ne_none.2 (by simpa using hr)

theorem not_mem_signal (t : Turns) (s : ThreadSignal) (closing : Bool) (id : String) :
    .interrupt id ∉ (t.signal s closing).2 := by
  cases s with
  | reported =>
    unfold signal
    dsimp only
    split_ifs <;> simp
  | turnEnded e =>
    change .interrupt id ∉ (t.end_ e closing).2
    cases hr : t.running with
    | none => simp [end_of_idle hr]
    | some text =>
      obtain ⟨queue, before, told, o, -, hbefore, htold, heq⟩ := end_cases hr e closing
      rw [heq]
      simp only [List.mem_append, not_or]
      exact ⟨⟨⟨⟨not_mem_quiet hbefore id, by simp⟩, not_mem_results _ _ id⟩,
        not_mem_quiet htold id⟩, not_mem_advance _ id⟩

theorem running_of_interrupt {t : Turns} (hgood : Good t) {c : Call} {id : String}
    (h : .interrupt id ∈ (t.call c).2) : t.running.isSome := by
  cases c with
  | accept text => exact absurd h (not_mem_advance _ id)
  | interrupt text entry =>
    change .interrupt id ∈ (t.interrupt text entry).2 at h
    unfold interrupt at h
    dsimp only at h
    rw [cancelsTurn_accept, hgood.queue_running] at h
    split_ifs at h with hg hr
    · simp at h
    · exact hr
    · rcases List.mem_cons.1 h with heq | hmem
      · simp at heq
      · exact absurd hmem (not_mem_advance _ id)
  | interruptDropped | processGone => exact absurd h (not_mem_results _ _ id)
  | close =>
    change .interrupt id ∈ t.close.2 at h
    unfold close at h
    split_ifs at h with hr
    · simp at h
    · exact Option.isSome_iff_ne_none.2 (by simpa using hr)
  | bindTurn turnId => exact running_of_bindTurn h
  | interruptFailed code =>
    change .interrupt id ∈ (t.interruptFailed code).2 at h
    unfold interruptFailed at h
    split_ifs at h
    · simp at h
    · exact absurd h (not_mem_results _ _ id)
  | notification method params closing =>
    change .interrupt id ∈ (t.notification method params closing).2 at h
    obtain heq | ⟨turnId, heq⟩ | ⟨s, heq⟩ := t.notification_cases method params closing <;>
      rw [heq] at h
    · simp at h
    · exact running_of_bindTurn h
    · exact absurd h (not_mem_signal t s closing id)
  | signal s closing => exact absurd h (not_mem_signal t s closing id)

/-- Every interrupt is answered exactly once: those answered so far and then those still held
are those that were passed, in their order; one is held only while a turn of a living process
runs; only a running turn is interrupted, and only once, or again after a dropped interrupt. -/
theorem interrupts_answered_once (calls : List Call) :
    answered (actions calls) ++ (after calls).interrupts = calls.filterMap Call.entry? ∧
      ((after calls).interrupts ≠ [] → (after calls).running.isSome ∧ (after calls).gone = false) ∧
      (∀ c i, .interrupt i ∈ ((after calls).call c).2 → (after calls).running.isSome) ∧
      ∀ pre mid post i j,
        trace calls = pre ++ .inr (.interrupt i) :: mid ++ .inr (.interrupt j) :: post →
          .inl .interruptDropped ∈ mid ∨ ∃ text, .inr (.start text) ∈ mid := by
  have hgood := good_after calls
  refine ⟨answered_after calls, hgood.held, fun c i => running_of_interrupt hgood,
    fun pre mid post i j htrace => ?_⟩
  have hswitch : (switch asks renews false (trace calls)).isSome := by simp [switch_trace]
  rw [htrace] at hswitch
  obtain ⟨x, hx, hrenews⟩ := exists_off_of_switch hswitch rfl rfl
  cases x with
  | inl c =>
    cases c with
    | interruptDropped => exact .inl hx
    | _ => simp [renews] at hrenews
  | inr a =>
    cases a with
    | start text => exact .inr ⟨text, hx⟩
    | _ => simp [renews] at hrenews

end Turns

end Ralph.Worker.Codex
