import Ralph.Loop
import Ralph.Worker.CodexPrompts

namespace Ralph.Worker.Codex

/-- What the pump did, in order: actions carried out, calls of the wire and how they ended, and
failures fed back into `Turns`, with the closing flag as it was read. -/
inductive Did
  | carriedOut (action : Action)
  | started (text : String) (turnId : Option String)
  | startFailed (text message : String)
  | interrupted (turn : String)
  | interruptFailed (turn message : String)
  | failed (message : String) (closing : Bool)
  deriving DecidableEq, Repr

/-- What the n-th call of the wire answers, and what the closing flag is after n calls. -/
structure Outside where
  start : ℕ → Except String (Option String)
  interrupt : ℕ → Except String Unit
  closing : ℕ → Bool

/-- `Turns` beside the calls made on the wire, what was done, and all actions that `Turns` handed out. -/
structure Pump where
  turns : Turns
  calls : ℕ
  trace : List Did
  emitted : List Action

namespace Pump

def did (p : Pump) (event : Did) : Pump := { p with trace := p.trace ++ [event] }

def called (p : Pump) (event : Did) : Pump := { p.did event with calls := p.calls + 1 }

/-- A call of `Turns`, and the actions it hands out. -/
def hands (p : Pump) (r : Turns × List Action) : Pump :=
  { p with turns := r.1, emitted := p.emitted ++ r.2 }

end Pump

theorem starts_bindTurn (t : Turns) (id : Option String) : starts (t.bindTurn id).2 = [] := by
  unfold Turns.bindTurn
  split_ifs
  · rfl
  · obtain heq | ⟨turn, -, -, heq⟩ := ({ t with turnId := id } : Turns).sendInterrupt_cases <;> rw [heq] <;> rfl

theorem length_starts_le (action : Action) (rest : List Action) :
    (starts rest).length ≤ (starts (action :: rest)).length :=
  ((List.sublist_cons_self action rest).filterMap Action.started?).length_le

/-- `Pump::perform`. It calls itself for the actions of a freshly bound turn. -/
def perform (o : Outside) (actions : List Action) (p : Pump) : Pump × Except String Unit :=
  match actions with
  | [] => (p, .ok ())
  | .start text :: rest =>
    match o.start p.calls with
    | .error message => (p.called (.startFailed text message), .error message)
    | .ok turnId =>
      -- what the bound turn asks for goes before the rest
      let bound := p.turns.bindTurn turnId
      match perform o bound.2 ((p.called (.started text turnId)).hands bound) with
      | (p, .error message) => (p, .error message)
      | (p, .ok ()) => perform o rest p
  | .interrupt turn :: rest =>
    match o.interrupt p.calls with
    | .error message => (p.called (.interruptFailed turn message), .error message)
    | .ok () => perform o rest (p.called (.interrupted turn))
  | action :: rest => perform o rest (p.did (.carriedOut action))
termination_by ((starts actions).length, actions.length)
decreasing_by
  · rw [starts_bindTurn]
    exact Prod.Lex.left _ _ (Nat.succ_pos _)
  · exact Prod.Lex.left _ _ (Nat.lt_succ_self _)
  · exact Prod.Lex.right' _ (length_starts_le _ rest) (Nat.lt_succ_self _)
  · exact Prod.Lex.right' _ (length_starts_le _ rest) (Nat.lt_succ_self _)

theorem perform_nil (o : Outside) (p : Pump) : perform o [] p = (p, .ok ()) := by rw [perform]

theorem bindTurn_spares (t : Turns) (id : Option String) :
    (t.bindTurn id).1.queue = t.queue ∧ (t.bindTurn id).1.running = t.running := by
  unfold Turns.bindTurn
  split_ifs
  · exact ⟨rfl, rfl⟩
  · obtain heq | ⟨turn, -, -, heq⟩ := ({ t with turnId := id } : Turns).sendInterrupt_cases <;> rw [heq] <;>
      exact ⟨rfl, rfl⟩

/-- Performing actions neither starts nor ends a prompt. -/
theorem perform_spares (o : Outside) (actions : List Action) (p : Pump) :
    (perform o actions p).1.turns.queue = p.turns.queue ∧
      (perform o actions p).1.turns.running = p.turns.running := by
  induction actions, p using perform.induct o with
  | case1 p => rw [perform_nil]; exact ⟨rfl, rfl⟩
  | case2 p text rest message h => rw [perform, h]; exact ⟨rfl, rfl⟩
  | case3 p text rest turnId h bound p' message hbound ih =>
    rw [perform, h]
    dsimp only
    rw [hbound]
    rw [hbound] at ih
    exact ⟨ih.1.trans (bindTurn_spares _ _).1, ih.2.trans (bindTurn_spares _ _).2⟩
  | case4 p text rest turnId h bound p' hbound ih ihrest =>
    rw [perform, h]
    dsimp only
    rw [hbound]
    rw [hbound] at ih
    exact ⟨ihrest.1.trans (ih.1.trans (bindTurn_spares _ _).1), ihrest.2.trans (ih.2.trans (bindTurn_spares _ _).2)⟩
  | case5 p turn rest message h => rw [perform, h]; exact ⟨rfl, rfl⟩
  | case6 p turn rest h ih => rw [perform, h]; exact ih
  | case7 p action rest hstart hinterrupt ih => rw [perform] <;> [exact ih; exact hstart; exact hinterrupt]

/-- What the end of a failed turn hands out before the next one starts. -/
def failureActions (t : Turns) (message : String) (closing : Bool) : List Action :=
  (if closing then [] else [.snapshot]) ++ [.emit (.turnEnded (.failed message false))] ++
    t.interrupts.map (.interruptResult · .sent) ++ (if closing || t.reported then [] else [.postFailure message])

def idled (t : Turns) : Turns := { t with running := none, queue := t.queue.finish.1, interrupts := [] }

theorem signal_failed {t : Turns} (h : t.running.isSome) (message : String) (closing : Bool) :
    t.signal (.turnEnded (.failed message false)) closing =
      ((idled t).advance.1, failureActions t message closing ++ (idled t).advance.2) := by
  obtain ⟨text, htext⟩ := Option.isSome_iff_exists.mp h
  obtain ⟨queue, running, turnId, previousTurn, interrupts, interruptSent, closeRequested, gone, reported⟩ := t
  dsimp only at htext
  subst htext
  cases reported <;> cases closing <;> rfl

/-- The prompts that run or wait. -/
def Turns.prompts (t : Turns) : ℕ := t.running.toList.length + t.queue.pending.length

theorem prompts_advance (t : Turns) : t.advance.1.prompts = t.prompts := by
  obtain ⟨heq, -⟩ | ⟨text, pending, hrunning, hpending, heq⟩ := t.advance_cases <;> rw [heq]
  rw [Turns.prompts, Turns.prompts, hrunning, hpending, Option.toList_some, Option.toList_none, List.length_singleton,
    List.length_nil, List.length_cons]
  dsimp only
  omega

theorem prompts_idled {t : Turns} (h : t.running.isSome) : (idled t).prompts + 1 = t.prompts := by
  obtain ⟨text, htext⟩ := Option.isSome_iff_exists.mp h
  have hidle : (idled t).prompts = t.queue.pending.length := Nat.zero_add _
  rw [hidle, Turns.prompts, htext, Option.toList_some, List.length_singleton, Nat.add_comm]

/-- `Pump::settle`: a failure ends the turn, which may start the next prompt. -/
def settleBody (o : Outside) : Loop.Body (Pump × List Action) Pump where
  step s :=
    match perform o s.2 s.1 with
    | (p, .ok ()) => .inr p
    | (p, .error message) =>
      -- the failure goes back into the turns, and the next round performs what they answer
      let closing := o.closing p.calls
      let next := p.turns.signal (.turnEnded (.failed message false)) closing
      .inl ((p.did (.failed message closing)).hands next, next.2)
  measure s := s.1.turns.prompts + min s.2.length 1
  decreases := by
    rintro ⟨p, actions⟩ s' hs
    dsimp only at hs
    obtain ⟨hqueue, hrunning⟩ := perform_spares o actions p
    cases hactions : actions with
    | nil => rw [hactions, perform_nil] at hs; cases hs
    | cons action rest =>
      rw [hactions] at hs hqueue hrunning
      have hlength : min (action :: rest).length 1 = 1 := Nat.min_eq_right (Nat.succ_pos _)
      split at hs
      · cases hs
      · next p' message hperform =>
        rw [hperform] at hqueue hrunning
        have hprompts : p'.turns.prompts = p.turns.prompts := by
          dsimp only at hqueue hrunning
          rw [Turns.prompts, Turns.prompts, hqueue, hrunning]
        rw [← Sum.inl.inj hs]
        dsimp only [Pump.hands]
        rw [hlength]
        cases hr : p'.turns.running with
        | none =>
          have hidle : p'.turns.signal (.turnEnded (.failed message false)) (o.closing p'.calls) = (p'.turns, []) :=
            Turns.end_of_idle hr _ _
          rw [hidle, hprompts]
          exact Nat.lt_succ_self _
        | some text =>
          have hsome : p'.turns.running.isSome := hr ▸ rfl
          have hless := prompts_idled hsome
          rw [signal_failed hsome]
          dsimp only
          rw [prompts_advance]
          omega

def settle (o : Outside) (actions : List Action) (p : Pump) : Pump := (settleBody o).run (p, actions)

/-- An action that needs no call of the wire. -/
def Action.isLocal : Action → Bool
  | .start _ | .interrupt _ => false
  | _ => true

theorem perform_local {a : Action} (h : a.isLocal) (o : Outside) (rest : List Action) (p : Pump) :
    perform o (a :: rest) p = perform o rest (p.did (.carriedOut a)) := by
  cases a with
  | start text => cases h
  | interrupt turn => cases h
  | _ => rw [perform] <;> exact fun _ heq => Action.noConfusion heq

/-- Actions carried out one after the other. -/
def Pump.carriesOut (p : Pump) (actions : List Action) : Pump :=
  { p with trace := p.trace ++ actions.map .carriedOut }

theorem perform_append {before : List Action} (h : ∀ a ∈ before, a.isLocal) (o : Outside) (rest : List Action)
    (p : Pump) : perform o (before ++ rest) p = perform o rest (p.carriesOut before) := by
  induction before generalizing p with
  | nil => rw [List.nil_append, Pump.carriesOut, List.map_nil, List.append_nil]
  | cons a before ih =>
    rw [List.forall_mem_cons] at h
    rw [List.cons_append, perform_local h.1, ih h.2, Pump.carriesOut, Pump.carriesOut, Pump.did, List.map_cons]
    dsimp only
    rw [List.append_assoc, List.singleton_append]

/-- The end of a list of actions: nothing, or the one action that calls the wire. -/
inductive Tail (t : Turns) : List Action → Prop
  | nothing : Tail t []
  | start {text : String} (running : t.running = some text) (fresh : t.reported = false) : Tail t [.start text]
  | interrupt {turn : String} (running : t.running.isSome) : Tail t [.interrupt turn]

/-- Every list that `Turns` hands out: local actions first, a call of the wire at the end at most. -/
def Orderly (r : Turns × List Action) : Prop :=
  ∃ before tail, r.2 = before ++ tail ∧ (∀ a ∈ before, a.isLocal) ∧ Tail r.1 tail

namespace Orderly

theorem of_local {t : Turns} {actions : List Action} (h : ∀ a ∈ actions, a.isLocal) : Orderly (t, actions) :=
  ⟨actions, [], (List.append_nil _).symm, h, .nothing⟩

theorem append {t : Turns} {before actions : List Action} (hbefore : ∀ a ∈ before, a.isLocal)
    (h : Orderly (t, actions)) : Orderly (t, before ++ actions) := by
  obtain ⟨before', tail, hactions, hbefore', htail⟩ := h
  refine ⟨before ++ before', tail, ?_, ?_, htail⟩
  · rw [List.append_assoc]
    exact congrArg (before ++ ·) hactions
  · rw [List.forall_mem_append]
    exact ⟨hbefore, hbefore'⟩

theorem sendInterrupt {t : Turns} (h : t.running.isSome) : Orderly t.sendInterrupt := by
  obtain heq | ⟨turn, -, -, heq⟩ := t.sendInterrupt_cases <;> rw [heq]
  · exact of_local (List.forall_mem_nil _)
  · exact ⟨[], _, rfl, List.forall_mem_nil _, .interrupt h⟩

theorem advance (t : Turns) : Orderly t.advance := by
  obtain ⟨heq, -⟩ | ⟨text, pending, -, -, heq⟩ := t.advance_cases <;> rw [heq]
  · exact of_local (List.forall_mem_nil _)
  · refine ⟨[.emit .turnStarted], _, rfl, ?_, .start rfl rfl⟩
    rw [List.forall_mem_singleton]
    rfl

theorem results (entries : List String) (outcome : InterruptOutcome) :
    ∀ a ∈ entries.map (.interruptResult · outcome), Action.isLocal a := by
  intro a ha
  obtain ⟨entry, -, rfl⟩ := List.mem_map.mp ha
  rfl

theorem bindTurn (t : Turns) (id : Option String) : Orderly (t.bindTurn id) := by
  unfold Turns.bindTurn
  split_ifs with h
  · exact of_local (List.forall_mem_nil _)
  · exact sendInterrupt (t := { t with turnId := id }) (Option.isSome_iff_ne_none.mpr fun hn => h (hn ▸ rfl))

theorem local_of_quiet {a : Action} (h : Turns.Quiet a) : a.isLocal := by
  cases a with
  | start text => exact h.elim
  | interrupt turn => exact h.elim
  | _ => rfl

theorem signal (t : Turns) (s : ThreadSignal) (closing : Bool) : Orderly (t.signal s closing) := by
  cases s with
  | reported =>
    unfold Turns.signal
    dsimp only
    split_ifs
    · refine of_local ?_
      rw [List.forall_mem_singleton]
      rfl
    · exact of_local (List.forall_mem_nil _)
  | turnEnded e =>
    change Orderly (t.end_ e closing)
    cases hr : t.running with
    | none =>
      rw [Turns.end_of_idle hr]
      exact of_local (List.forall_mem_nil _)
    | some text =>
      obtain ⟨queue, before, told, outcome, -, hbefore, htold, heq⟩ := Turns.end_cases hr e closing
      rw [heq]
      refine append ?_ (advance _)
      simp only [List.forall_mem_append]
      refine ⟨⟨⟨fun a ha => local_of_quiet (hbefore a ha), ?_⟩, results t.interrupts outcome⟩,
        fun a ha => local_of_quiet (htold a ha)⟩
      rw [List.forall_mem_singleton]
      rfl

theorem call {t : Turns} (h : Turns.Good t) (c : Call) : Orderly (t.call c) := by
  cases c with
  | accept text => exact advance _
  | interrupt text entry =>
    have hrun := (t.queue.accept_interrupt_fst text entry).2.trans h.queue_running
    change Orderly (t.interrupt text entry)
    unfold Turns.interrupt
    dsimp only
    rw [cancelsTurn_accept, h.queue_running]
    have hlocal : ∀ outcome, ∀ a ∈ [Action.interruptResult entry outcome], a.isLocal := by
      intro outcome
      rw [List.forall_mem_singleton]
      rfl
    -- an interrupt either tells its caller at once or waits for the server
    split_ifs with hgone hrunning
    · exact of_local (hlocal .gone)
    · exact sendInterrupt hrunning
    · exact append (hlocal .sent) (advance _)
  | interruptDropped | processGone => exact of_local (results _ _)
  | close =>
    change Orderly t.close
    unfold Turns.close
    split_ifs with hnone
    · exact of_local (List.forall_mem_nil _)
    · exact sendInterrupt (t := { t with closeRequested := true })
        (Option.isSome_iff_ne_none.mpr fun hn => hnone (hn ▸ rfl))
  | bindTurn turnId => exact bindTurn t turnId
  | interruptFailed code =>
    change Orderly (t.interruptFailed code)
    unfold Turns.interruptFailed
    split_ifs
    · exact of_local (List.forall_mem_nil _)
    · exact of_local (results _ _)
  | notification method params closing =>
    change Orderly (t.notification method params closing)
    obtain heq | ⟨id, heq⟩ | ⟨s, heq⟩ := t.notification_cases method params closing <;> rw [heq]
    · exact of_local (List.forall_mem_nil _)
    · exact bindTurn t id
    · exact signal t s closing
  | signal s closing => exact signal t s closing

end Orderly

end Ralph.Worker.Codex
