import Ralph.Worker.CodexPump

namespace Ralph.Worker.Codex

def Did.carriedOut? : Did → Option Action
  | .carriedOut action => some action
  | _ => none

/-- The prompts that the wire was asked to start. -/
def Did.tried? : Did → Option String
  | .started text _ | .startFailed text _ => some text
  | _ => none

def Did.isFailure : Did → Bool
  | .startFailed _ _ | .interruptFailed _ _ => true
  | _ => false

def Did.isStartFailed : Did → Bool
  | .startFailed _ _ => true
  | _ => false

def carriedOut (trace : List Did) : List Action := trace.filterMap Did.carriedOut?

def tried (trace : List Did) : List String := trace.filterMap Did.tried?

def failures (trace : List Did) : ℕ := trace.countP Did.isFailure

def localActions (actions : List Action) : List Action := actions.filter Action.isLocal

theorem carriedOut_append (xs ys : List Did) : carriedOut (xs ++ ys) = carriedOut xs ++ carriedOut ys :=
  List.filterMap_append

theorem tried_append (xs ys : List Did) : tried (xs ++ ys) = tried xs ++ tried ys := List.filterMap_append

theorem failures_append (xs ys : List Did) : failures (xs ++ ys) = failures xs + failures ys := List.countP_append

theorem localActions_append (xs ys : List Action) : localActions (xs ++ ys) = localActions xs ++ localActions ys :=
  List.filter_append xs ys

/-- What performing the wire's part of a list comes to: the events, and what `Turns` handed out. -/
structure Wired (t : Turns) (tail : List Action) (t' : Turns) (trace : List Did) (more : List Action)
    (result : Except String Unit) : Prop where
  queue : t'.queue = t.queue
  running : t'.running = t.running
  nothing : tail = [] → trace = [] ∧ t' = t ∧ result = .ok ()
  carried : carriedOut trace = []
  handed : localActions more = []
  tried : tried trace = starts tail
  ok : result = .ok () → failures trace = 0 ∧ ∀ event ∈ trace, event.isStartFailed = false
  error : ∀ message, result = .error message → t.running.isSome ∧ failures trace = 1 ∧
    ((∃ text, trace = [.startFailed text message] ∧ t'.reported = false) ∨
      ∀ event ∈ trace, event.isStartFailed = false)

/-- A list that the pump performs, with what `Wired` says of it. -/
def Performs (o : Outside) (p : Pump) (tail : List Action) : Prop :=
  ∃ t' trace more, (perform o tail p).1 =
      ⟨t', (perform o tail p).1.calls, p.trace ++ trace, p.emitted ++ more⟩ ∧
    Wired p.turns tail t' trace more (perform o tail p).2

theorem performs_nil (o : Outside) (p : Pump) : Performs o p [] := by
  rw [Performs, perform_nil]
  refine ⟨p.turns, [], [], by rw [List.append_nil, List.append_nil], rfl, rfl, fun _ => ⟨rfl, rfl, rfl⟩, rfl, rfl, rfl,
    fun _ => ⟨rfl, List.forall_mem_nil _⟩, fun message h => ?_⟩
  cases h

theorem performs_interrupt (o : Outside) {p : Pump} (turn : String) (h : p.turns.running.isSome) :
    Performs o p [.interrupt turn] := by
  rw [Performs, perform]
  cases o.interrupt p.calls with
  | error message =>
    refine ⟨p.turns, [.interruptFailed turn message], [], by rw [List.append_nil]; rfl, rfl, rfl, fun h => ?_, rfl,
      rfl, rfl, fun h => ?_, ?_⟩
    · cases h
    · cases h
    · intro m hm
      obtain rfl := Except.error.inj hm
      refine ⟨h, rfl, .inr ?_⟩
      rw [List.forall_mem_singleton]
      rfl
  | ok =>
    dsimp only
    rw [perform_nil]
    refine ⟨p.turns, [.interrupted turn], [], by rw [List.append_nil]; rfl, rfl, rfl, fun h => ?_, rfl, rfl, rfl,
      fun _ => ⟨rfl, ?_⟩, ?_⟩
    · cases h
    · rw [List.forall_mem_singleton]
      rfl
    · intro m hm
      cases hm

theorem bindTurn_cases (t : Turns) (id : Option String) :
    (t.bindTurn id).2 = [] ∨ ∃ turn, (t.bindTurn id).2 = [.interrupt turn] := by
  unfold Turns.bindTurn
  split_ifs
  · exact .inl rfl
  · obtain heq | ⟨turn, -, -, heq⟩ := ({ t with turnId := id } : Turns).sendInterrupt_cases <;> rw [heq]
    · exact .inl rfl
    · exact .inr ⟨turn, rfl⟩

theorem performs_start (o : Outside) {p : Pump} {text : String} (h : p.turns.running = some text)
    (hfresh : p.turns.reported = false) : Performs o p [.start text] := by
  have hsome : p.turns.running.isSome := h ▸ rfl
  rw [Performs, perform]
  cases o.start p.calls with
  -- the failed start is the last thing done
  | error message =>
    refine ⟨p.turns, [.startFailed text message], [], by rw [List.append_nil]; rfl, rfl, rfl, fun h => ?_, rfl, rfl,
      rfl, fun h => ?_, ?_⟩
    · cases h
    · cases h
    · intro m hm
      obtain rfl := Except.error.inj hm
      exact ⟨hsome, rfl, .inl ⟨text, rfl, hfresh⟩⟩
  -- binding the turn may interrupt it at once
  | ok turnId =>
    obtain ⟨hqueue, hrunning⟩ := bindTurn_spares p.turns turnId
    have hbound := bindTurn_cases p.turns turnId
    have hperforms : Performs o ((p.called (.started text turnId)).hands (p.turns.bindTurn turnId))
        (p.turns.bindTurn turnId).2 := by
      obtain hnil | ⟨turn, hturn⟩ := hbound
      · rw [hnil]
        exact performs_nil o _
      · rw [hturn]
        exact performs_interrupt o turn (hrunning ▸ hsome)
    dsimp only
    obtain ⟨t', trace, more, hp, hw⟩ := hperforms
    have htried : tried trace = [] := hw.tried.trans (starts_bindTurn p.turns turnId)
    have hlocal : localActions (p.turns.bindTurn turnId).2 = [] := by
      obtain hnil | ⟨turn, hturn⟩ := hbound
      · rw [hnil]
        rfl
      · rw [hturn]
        rfl
    generalize hr : perform o (p.turns.bindTurn turnId).2
      ((p.called (.started text turnId)).hands (p.turns.bindTurn turnId)) = r at hp hw
    obtain ⟨p', result⟩ := r
    dsimp only at hp hw
    have hstarted : ∀ {P : Did → Prop}, P (.started text turnId) → (∀ event ∈ trace, P event) →
        ∀ event ∈ .started text turnId :: trace, P event := by
      intro P hhead hrest
      rw [List.forall_mem_cons]
      exact ⟨hhead, hrest⟩
    have hwired : Wired p.turns [.start text] t' (.started text turnId :: trace)
        ((p.turns.bindTurn turnId).2 ++ more) result := {
      queue := hw.queue.trans hqueue
      running := hw.running.trans hrunning
      nothing := fun h => by cases h
      carried := hw.carried
      handed := by
        rw [localActions_append, hlocal, hw.handed, List.append_nil]
      tried := congrArg (text :: ·) htried
      ok := fun hok => ⟨(hw.ok hok).1, hstarted rfl (hw.ok hok).2⟩
      error := by
        intro message herror
        obtain ⟨-, hfail, hshape⟩ := hw.error message herror
        refine ⟨hsome, hfail, .inr ?_⟩
        obtain ⟨text', htrace, -⟩ | hnone := hshape
        · rw [htrace] at htried
          cases htried
        · exact hstarted rfl hnone }
    have hpump : p' = ⟨t', p'.calls, p.trace ++ .started text turnId :: trace,
        p.emitted ++ ((p.turns.bindTurn turnId).2 ++ more)⟩ := by
      rw [hp]
      dsimp only [Pump.hands, Pump.called, Pump.did]
      rw [List.append_assoc, List.append_assoc, List.singleton_append]
    cases result with
    | error message => exact ⟨t', _, _, hpump, hwired⟩
    | ok =>
      dsimp only
      rw [perform_nil]
      exact ⟨t', _, _, hpump, hwired⟩

theorem performs_tail (o : Outside) {p : Pump} {tail : List Action} (h : Tail p.turns tail) : Performs o p tail := by
  cases h with
  | nothing => exact performs_nil o p
  | start running fresh => exact performs_start o running fresh
  | interrupt running => exact performs_interrupt o _ running

theorem localActions_tail {t : Turns} {tail : List Action} (h : Tail t tail) : localActions tail = [] := by
  cases h <;> rfl

theorem localActions_of_local {actions : List Action} (h : ∀ a ∈ actions, a.isLocal) :
    localActions actions = actions := List.filter_eq_self.mpr h

theorem starts_of_local {actions : List Action} (h : ∀ a ∈ actions, a.isLocal) : starts actions = [] := by
  rw [starts, List.filterMap_eq_nil_iff]
  intro a ha
  cases a with
  | start text => exact absurd (h _ ha) Bool.false_ne_true
  | _ => rfl

theorem carriedOut_map (actions : List Action) : carriedOut (actions.map .carriedOut) = actions := by
  rw [carriedOut, List.filterMap_map]
  exact List.filterMap_some

theorem tried_map (actions : List Action) : tried (actions.map .carriedOut) = [] := by
  rw [tried, List.filterMap_eq_nil_iff]
  intro event hevent
  obtain ⟨a, -, rfl⟩ := List.mem_map.mp hevent
  rfl

theorem failures_map (actions : List Action) : failures (actions.map .carriedOut) = 0 := by
  rw [failures, List.countP_eq_zero]
  intro event hevent
  obtain ⟨a, -, rfl⟩ := List.mem_map.mp hevent
  exact Bool.false_ne_true

theorem isStartFailed_map (actions : List Action) :
    ∀ event ∈ actions.map Did.carriedOut, event.isStartFailed = false := by
  intro event hevent
  obtain ⟨a, -, rfl⟩ := List.mem_map.mp hevent
  rfl

theorem perform_orderly (o : Outside) {p : Pump} {actions : List Action} (h : Orderly (p.turns, actions)) :
    ∃ before tail t' trace more, actions = before ++ tail ∧ (∀ a ∈ before, a.isLocal) ∧ Tail p.turns tail ∧
      (perform o actions p).1 = ⟨t', (perform o actions p).1.calls,
        p.trace ++ (before.map .carriedOut ++ trace), p.emitted ++ more⟩ ∧
      Wired p.turns tail t' trace more (perform o actions p).2 := by
  obtain ⟨before, tail, rfl, hbefore, htail⟩ := h
  obtain ⟨t', trace, more, hp, hw⟩ := performs_tail o (p := p.carriesOut before) htail
  rw [perform_append hbefore]
  refine ⟨before, tail, t', trace, more, rfl, hbefore, htail, ?_, hw⟩
  rw [← List.append_assoc]
  exact hp

def Action.isPost : Action → Bool
  | .postFailure _ => true
  | _ => false

/-- What comes after a failed start: the failure is fed back, the turn is ended once and the failure
posted once unless the worker closes, and then the next prompt is started or none is left. -/
def Followed (final : Turns) (message : String) (post : List Did) : Prop :=
  ∃ (closing : Bool) (told : List Action) (rest : List Did), post = .failed message closing :: (told.map .carriedOut ++ rest) ∧
    told.filter Action.isEnd = [.emit (.turnEnded (.failed message false))] ∧
    told.filter Action.isPost = (if closing then [] else [.postFailure message]) ∧
    .emit .turnStarted ∉ told ∧
    (rest = [] ∧ final.running = none ∧ final.queue.pending = [] ∨
      ∃ more, rest = .carriedOut (.emit .turnStarted) :: more)

/-- Every failed start of a trace is followed so. -/
def AllFollowed (final : Turns) : List Did → Prop
  | [] => True
  | .startFailed _ message :: post => Followed final message post ∧ AllFollowed final post
  | _ :: post => AllFollowed final post

theorem allFollowed_append {final : Turns} {before : List Did} (h : ∀ event ∈ before, event.isStartFailed = false)
    (post : List Did) : AllFollowed final (before ++ post) ↔ AllFollowed final post := by
  induction before with
  | nil => rfl
  | cons event before ih =>
    rw [List.forall_mem_cons] at h
    cases event with
    | startFailed text message => exact absurd h.1.symm Bool.false_ne_true
    | _ => exact ih h.2

theorem filter_results (q : Action → Bool) (hq : ∀ entry outcome, q (.interruptResult entry outcome) = false)
    (entries : List String) (outcome : InterruptOutcome) :
    (entries.map (.interruptResult · outcome)).filter q = [] := by
  rw [List.filter_eq_nil_iff]
  intro a ha
  obtain ⟨entry, -, rfl⟩ := List.mem_map.mp ha
  rw [hq]
  exact Bool.false_ne_true

theorem failureActions_local (t : Turns) (message : String) (closing : Bool) :
    ∀ a ∈ failureActions t message closing, a.isLocal := by
  rw [failureActions]
  simp only [List.forall_mem_append]
  refine ⟨⟨⟨?_, ?_⟩, Orderly.results _ _⟩, ?_⟩
  · cases closing <;> simp [Action.isLocal]
  · rw [List.forall_mem_singleton]
    rfl
  · split_ifs <;> simp [Action.isLocal]

theorem failureActions_told {t : Turns} (h : t.reported = false) (message : String) (closing : Bool) :
    (failureActions t message closing).filter Action.isEnd = [.emit (.turnEnded (.failed message false))] ∧
      (failureActions t message closing).filter Action.isPost =
        (if closing then [] else [.postFailure message]) ∧
      .emit .turnStarted ∉ failureActions t message closing := by
  have hend := filter_results Action.isEnd (fun _ _ => rfl) t.interrupts .sent
  have hpost := filter_results Action.isPost (fun _ _ => rfl) t.interrupts .sent
  refine ⟨?_, ?_, ?_⟩
  · rw [failureActions, List.filter_append, List.filter_append, List.filter_append, hend, h]
    cases closing <;> rfl
  · rw [failureActions, List.filter_append, List.filter_append, List.filter_append, hpost, h]
    cases closing <;> rfl
  · rw [failureActions, h]
    cases closing <;> simp

/-- What settling a list of actions comes to: the events and what `Turns` handed out on the way. -/
structure Settled (p : Pump) (actions : List Action) (trace : List Did) (more : List Action) (r : Pump) : Prop where
  trace_eq : r.trace = p.trace ++ trace
  emitted_eq : r.emitted = p.emitted ++ more
  carried : carriedOut trace = localActions (actions ++ more)
  few : failures trace ≤ p.turns.prompts
  order : tried trace ++ r.turns.queue.pending = starts actions ++ p.turns.queue.pending
  followed : AllFollowed r.turns trace
  local_first : ∃ rest, trace = (localActions actions).map .carriedOut ++ rest
  only_local : (∀ a ∈ actions, a.isLocal) → trace = actions.map .carriedOut ∧ r.turns = p.turns

theorem settled_done {o : Outside} {p r : Pump} {actions : List Action} (horderly : Orderly (p.turns, actions))
    (hperform : perform o actions p = (r, .ok ())) : ∃ trace more, Settled p actions trace more r := by
  obtain ⟨before, tail, t', trace, more, rfl, hbefore, htail, hp, hw⟩ := perform_orderly o horderly
  rw [hperform] at hp hw
  obtain ⟨hnone, hstarts⟩ := hw.ok rfl
  refine ⟨before.map .carriedOut ++ trace, more, ?_⟩
  exact {
    trace_eq := congrArg Pump.trace hp
    emitted_eq := congrArg Pump.emitted hp
    carried := by
      rw [carriedOut_append, carriedOut_map, hw.carried, localActions_append, localActions_append,
        localActions_of_local hbefore, localActions_tail htail, hw.handed, List.append_nil, List.append_nil]
    few := by
      rw [failures_append, failures_map, hnone]
      exact Nat.zero_le _
    order := by
      rw [tried_append, tried_map, hw.tried, starts_append, starts_of_local hbefore, congrArg Pump.turns hp, hw.queue]
    followed := (allFollowed_append (isStartFailed_map before) trace).mpr <| by
      rw [← List.append_nil trace, allFollowed_append hstarts]
      trivial
    local_first := by
      rw [localActions_append, localActions_of_local hbefore, localActions_tail htail, List.append_nil]
      exact ⟨trace, rfl⟩
    only_local := by
      intro hall
      cases htail with
      | nothing =>
        obtain ⟨htrace, ht, -⟩ := hw.nothing rfl
        rw [htrace, List.append_nil, List.append_nil, congrArg Pump.turns hp]
        exact ⟨rfl, ht⟩
      | start running fresh => exact absurd (hall _ (List.mem_append_right _ List.mem_cons_self)) Bool.false_ne_true
      | interrupt running => exact absurd (hall _ (List.mem_append_right _ List.mem_cons_self)) Bool.false_ne_true }

/-- The failure fed back into `Turns`, and all that follows it. -/
theorem settled_again {o : Outside} {p p' r : Pump} {actions : List Action} {message : String} {closing : Bool}
    (horderly : Orderly (p.turns, actions)) (hperform : perform o actions p = (p', .error message))
    {next : Turns × List Action} (hnext : next = p'.turns.signal (.turnEnded (.failed message false)) closing)
    (hrest : ∃ trace more, Settled ((p'.did (.failed message closing)).hands next) next.2 trace more r) :
    ∃ trace more, Settled p actions trace more r := by
  obtain ⟨before, tail, t', trace, more, rfl, hbefore, htail, hp, hw⟩ := perform_orderly o horderly
  rw [hperform] at hp hw
  obtain ⟨hrunning, hfailures, hshape⟩ := hw.error message rfl
  obtain ⟨trace', more', hsettled⟩ := hrest
  have hturns : p'.turns = t' := congrArg Pump.turns hp
  have hrun' : t'.running.isSome := hw.running ▸ hrunning
  rw [hturns, signal_failed hrun'] at hnext
  have hprompts : t'.prompts = p.turns.prompts := by rw [Turns.prompts, Turns.prompts, hw.queue, hw.running]
  -- what was done before the failure, the failure, and what follows it
  refine ⟨before.map .carriedOut ++ (trace ++ .failed message closing :: trace'), more ++ (next.2 ++ more'), ?_⟩
  exact {
    trace_eq := by
      rw [hsettled.trace_eq]
      dsimp only [Pump.hands, Pump.did]
      rw [congrArg Pump.trace hp]
      simp only [List.append_assoc, List.singleton_append]
    emitted_eq := by
      rw [hsettled.emitted_eq]
      dsimp only [Pump.hands, Pump.did]
      rw [congrArg Pump.emitted hp, List.append_assoc, List.append_assoc]
    carried := by
      have hlater : carriedOut (.failed message closing :: trace') = localActions (next.2 ++ more') := hsettled.carried
      rw [carriedOut_append, carriedOut_append, carriedOut_map, hw.carried, hlater, localActions_append (before ++ tail),
        localActions_append before, localActions_append more, localActions_of_local hbefore, localActions_tail htail,
        hw.handed, List.append_nil]
    few := by
      have hlater : failures (.failed message closing :: trace') = failures trace' := rfl
      have hfew := hsettled.few
      dsimp only [Pump.hands] at hfew
      rw [hnext, prompts_advance] at hfew
      have hless := prompts_idled hrun'
      rw [failures_append, failures_append, failures_map, hfailures, hlater]
      omega
    order := by
      have hlater : tried (.failed message closing :: trace') = tried trace' := rfl
      have horder := hsettled.order
      have hflow := Turns.flow_advance (idled t')
      dsimp only [Pump.hands] at horder
      rw [hnext, starts_append, starts_of_local (failureActions_local t' message closing), List.nil_append] at horder
      rw [Turns.flow] at hflow
      have hpending : (idled t').queue.pending = p.turns.queue.pending :=
        congrArg (fun queue => queue.finish.1.pending) hw.queue
      rw [tried_append, tried_append, tried_map, hw.tried, hlater, starts_append, starts_of_local hbefore, List.nil_append, List.nil_append, List.append_assoc, horder, hflow,
        hpending]
    followed := by
      rw [allFollowed_append (isStartFailed_map before)]
      -- either the start itself failed, or a later call of the turn did
      obtain ⟨text, htrace, hfresh⟩ | hnone := hshape
      · rw [htrace, List.singleton_append]
        refine ⟨?_, hsettled.followed⟩
        obtain ⟨hend, hpost, hstarted⟩ := failureActions_told hfresh message closing
        -- the failed turn is followed by the next prompt, if one waits
        obtain ⟨heq, hidle⟩ | ⟨text', pending, -, -, heq⟩ := (idled t').advance_cases
        · have honly := hsettled.only_local
          dsimp only [Pump.hands] at honly
          rw [hnext, heq] at honly
          dsimp only at honly
          rw [List.append_nil] at honly
          obtain ⟨hlater, hlast⟩ := honly (failureActions_local t' message closing)
          refine ⟨closing, _, [], by rw [hlater, List.append_nil], hend, hpost, hstarted, .inl ⟨rfl, ?_, ?_⟩⟩
          · rw [hlast]
            rfl
          · rw [hlast]
            exact hidle.resolve_left Bool.false_ne_true
        · obtain ⟨rest, hlater⟩ := hsettled.local_first
          have hlocal : localActions next.2 = failureActions t' message closing ++ [.emit .turnStarted] := by
            rw [hnext, heq, localActions_append, localActions_of_local (failureActions_local t' message closing)]
            rfl
          rw [hlocal, List.map_append, List.append_assoc, List.map_singleton, List.singleton_append] at hlater
          exact ⟨closing, _, _, by rw [hlater], hend, hpost, hstarted, .inr ⟨rest, rfl⟩⟩
      · rw [allFollowed_append hnone]
        exact hsettled.followed
    local_first := by
      rw [localActions_append, localActions_of_local hbefore, localActions_tail htail, List.append_nil]
      exact ⟨_, rfl⟩
    only_local := by
      intro hall
      cases htail with
      | nothing => cases (hw.nothing rfl).2.2
      | start running fresh => exact absurd (hall _ (List.mem_append_right _ List.mem_cons_self)) Bool.false_ne_true
      | interrupt running => exact absurd (hall _ (List.mem_append_right _ List.mem_cons_self)) Bool.false_ne_true }

theorem settled_settle (o : Outside) {p : Pump} {actions : List Action} (h : Orderly (p.turns, actions)) :
    ∃ trace more, Settled p actions trace more (settle o actions p) := by
  revert h
  refine (settleBody o).run_induction (fun s r => Orderly (s.1.turns, s.2) → ∃ trace more, Settled s.1 s.2 trace more r)
    ?_ ?_ (p, actions)
  · intro s r hs horderly
    dsimp only [settleBody] at hs
    split at hs
    · next p' hperform =>
      rw [Sum.inr.inj hs] at hperform
      exact settled_done horderly hperform
    · cases hs
  · intro s s' r hs ih horderly
    dsimp only [settleBody] at hs
    split at hs
    · cases hs
    · next p' message hperform =>
      obtain rfl := Sum.inl.inj hs
      exact settled_again horderly hperform rfl (ih (Orderly.signal _ _ _))

/-- The pump right after a call of `Turns`, with the actions it handed out. -/
def Pump.after (calls : List Call) (c : Call) : Pump :=
  ⟨((Turns.after calls).call c).1, 0, [], ((Turns.after calls).call c).2⟩

theorem settle_loses_nothing (o : Outside) (calls : List Call) (c : Call) :
    ∃ final, (settleBody o).Ends (Pump.after calls c, (Pump.after calls c).emitted) final ∧
      failures final.trace ≤ (Pump.after calls c).turns.prompts ∧
      carriedOut final.trace = localActions final.emitted ∧ AllFollowed final.turns final.trace ∧
      tried final.trace ++ final.turns.queue.pending =
        starts (Pump.after calls c).emitted ++ (Pump.after calls c).turns.queue.pending := by
  have horderly : Orderly ((Pump.after calls c).turns, (Pump.after calls c).emitted) :=
    Orderly.call (Turns.good_after calls) c
  obtain ⟨trace, more, h⟩ := settled_settle o horderly
  have htrace : (settle o (Pump.after calls c).emitted (Pump.after calls c)).trace = trace := h.trace_eq
  refine ⟨_, (settleBody o).ends_run _, ?_⟩
  change failures (settle o _ _).trace ≤ _ ∧ carriedOut (settle o _ _).trace = _ ∧ AllFollowed _ (settle o _ _).trace ∧
    tried (settle o _ _).trace ++ _ = _
  rw [htrace]
  refine ⟨h.few, ?_, h.followed, h.order⟩
  exact h.carried.trans (congrArg localActions h.emitted_eq.symm)

end Ralph.Worker.Codex
