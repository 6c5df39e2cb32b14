import Ralph.Worker.Markers

namespace Ralph.Worker.Headless

inductive Phase
  | starting
  | idle
  | running
  | blocked
  | closed
  deriving DecidableEq, Repr

inductive Liveness
  | live
  | quiet (since : ℕ)
  | dead (scope : Scope) (reason : String)
  deriving DecidableEq, Repr

structure HeadlessState where
  phase : Phase := .starting
  lastActivity : ℕ := 0
  liveness : Liveness := .live
  alerted : Bool := false
  deriving DecidableEq, Repr

/-- The events, without what only the effects of `reduce` hold. -/
inductive WorkerEvent
  | ready
  | turnStarted
  | turnEnded
  | permissionAsked
  | permissionSettled
  | reported
  | interrupted
  | closed
  | unsupported
  | activity (at_ : ℕ)
  | processGone (scope : Scope) (reason : String)

inductive AlertKind
  | quiet
  | dead (scope : Scope) (reason : String)
  deriving DecidableEq, Repr

structure Alert where
  kind : AlertKind
  text : String
  deriving DecidableEq, Repr

def Liveness.isDead : Liveness → Bool
  | .dead _ _ => true
  | _ => false

def AlertKind.isDead : AlertKind → Bool
  | .dead _ _ => true
  | .quiet => false

/-- The state that `reduce` leaves; the heartbeats drop its effects. -/
def reduce (state : HeadlessState) : WorkerEvent → HeadlessState
  | .ready => { state with phase := .idle }
  | .turnStarted => { state with phase := .running }
  | .turnEnded => { state with phase := .idle }
  | .permissionAsked => { state with phase := .blocked }
  | .permissionSettled => { state with phase := .running }
  | .reported => state
  | .interrupted => state
  | .closed => { state with phase := .closed }
  | .unsupported => state
  -- an older activity changes nothing, and none brings the dead back
  | .activity at_ =>
    if state.lastActivity < at_ ∧ state.liveness.isDead = false then
      { state with lastActivity := at_, liveness := .live, alerted := false }
    else state
  | .processGone scope reason =>
    if state.liveness.isDead then state else { state with liveness := .dead scope reason, alerted := false }

def deadText (scope : Scope) (reason : String) : String :=
  match scope with
  | .worker => s!"worker agent connection ended: {reason}"
  | .server name => s!"opencode server {name} ended: {reason}"

def liveness (state : HeadlessState) (now quietAfter : ℕ) : HeadlessState × Option Alert :=
  match state.liveness with
  | .dead scope reason =>
    if state.alerted then (state, none)
    else ({ state with alerted := true }, some ⟨.dead scope reason, deadText scope reason⟩)
  | _ =>
    let quietFor := now - state.lastActivity
    if state.phase ≠ .running ∨ quietFor < quietAfter then ({ state with liveness := .live }, none)
    else
      ({ state with liveness := .quiet state.lastActivity, alerted := true },
        if state.alerted then none else some ⟨.quiet, s!"quiet {quietFor} s; may be stuck on a prompt"⟩)

def rearm (state : HeadlessState) (gone : Bool) : HeadlessState :=
  if !gone && state.liveness.isDead then {} else state

def markerState (activity gone : Option String) (blocked : Bool) : Phase × List WorkerEvent :=
  let mark := activity.bind ActivityMark.parse
  let phase :=
    if blocked then .blocked
    else match mark with
      | some mark => if mark.busy then .running else .idle
      | none => .starting
  (phase, (mark.map fun mark => WorkerEvent.activity mark.at_).toList ++
    (gone.map fun text => WorkerEvent.processGone (parseGone text).1 (parseGone text).2).toList)

/-- What a tick finds of a worker. -/
structure Tick where
  activity : Option String
  gone : Option String
  blocked : Bool
  now : ℕ

/-- One worker in `Monitor::heartbeats`. -/
def heartbeat (quietAfter : ℕ) (state : HeadlessState) (tick : Tick) : HeadlessState × Option Alert :=
  let (phase, events) := markerState tick.activity tick.gone tick.blocked
  let current := { rearm state tick.gone.isSome with phase := phase }
  liveness (events.foldl reduce current) tick.now quietAfter

/-- The state in front of each tick of a run. -/
def beats (quietAfter : ℕ) (ticks : ℕ → Tick) : ℕ → HeadlessState
  | 0 => {}
  | n + 1 => (heartbeat quietAfter (beats quietAfter ticks n) (ticks n)).1

def alertAt (quietAfter : ℕ) (ticks : ℕ → Tick) (n : ℕ) : Option Alert :=
  (heartbeat quietAfter (beats quietAfter ticks n) (ticks n)).2

def Tick.stamp (tick : Tick) : ℕ := ((tick.activity.bind ActivityMark.parse).map ActivityMark.at_).getD 0

def Tick.phase (tick : Tick) : Phase := (markerState tick.activity tick.gone tick.blocked).1

theorem foldl_activity (state : HeadlessState) (activity : Option String) (hlive : state.liveness.isDead = false) :
    ((activity.bind ActivityMark.parse).map fun mark => WorkerEvent.activity mark.at_).toList.foldl reduce state =
      if state.lastActivity < ((activity.bind ActivityMark.parse).map ActivityMark.at_).getD 0 then
        { state with
          lastActivity := ((activity.bind ActivityMark.parse).map ActivityMark.at_).getD 0
          liveness := .live
          alerted := false }
      else state := by
  cases activity.bind ActivityMark.parse with
  | none => simp
  | some mark => simp [reduce, hlive]

/-- What `liveness` makes of a state that is not dead. -/
theorem liveness_alive (state : HeadlessState) (now quietAfter : ℕ) (hlive : state.liveness.isDead = false) :
    (liveness state now quietAfter).1.liveness.isDead = false ∧
      (liveness state now quietAfter).1.lastActivity = state.lastActivity ∧
      ((liveness state now quietAfter).1.alerted = true ↔
        state.alerted = true ∨ (state.phase = .running ∧ quietAfter ≤ now - state.lastActivity)) ∧
      ((∃ alert, (liveness state now quietAfter).2 = some alert) ↔
        state.phase = .running ∧ quietAfter ≤ now - state.lastActivity ∧ ¬ state.alerted = true) ∧
      ∀ alert, (liveness state now quietAfter).2 = some alert → alert.kind = .quiet := by
  have hunfold : liveness state now quietAfter =
      if state.phase ≠ .running ∨ now - state.lastActivity < quietAfter then ({ state with liveness := .live }, none)
      else
        ({ state with liveness := .quiet state.lastActivity, alerted := true },
          if state.alerted then none
          else some ⟨.quiet, s!"quiet {now - state.lastActivity} s; may be stuck on a prompt"⟩) := by
    rw [liveness]
    cases hcase : state.liveness with
    | live => rfl
    | quiet since => rfl
    | dead scope reason =>
      rw [hcase] at hlive
      cases hlive
  rw [hunfold]
  -- quiet is a running turn without activity for long enough
  by_cases hcalm : state.phase ≠ .running ∨ now - state.lastActivity < quietAfter
  · have hnot : ¬ (state.phase = .running ∧ quietAfter ≤ now - state.lastActivity) := by
      rintro ⟨hrunning, hsilent⟩
      rcases hcalm with hphase | hshort
      · exact hphase hrunning
      · omega
    rw [if_pos hcalm]
    refine ⟨rfl, rfl, ?_, ?_, fun alert halert => by cases halert⟩
    · exact ⟨.inl, fun h => h.resolve_right hnot⟩
    · exact iff_of_false (fun ⟨alert, halert⟩ => by cases halert) fun h => hnot ⟨h.1, h.2.1⟩
  · rw [if_neg hcalm]
    rw [not_or, not_not, not_lt] at hcalm
    refine ⟨rfl, rfl, iff_of_true rfl (.inr hcalm), ?_, ?_⟩
    · cases halerted : state.alerted with
      | true => simp
      | false => simp [hcalm]
    · intro alert halert
      dsimp only at halert
      split_ifs at halert
      rw [← Option.some.inj halert]

theorem rearm_live (state : HeadlessState) : (rearm state false).liveness.isDead = false := by
  rw [rearm]
  split_ifs with hdead
  · rfl
  · simpa using hdead

/-- A tick without a gone marker, from the state that `rearm` leaves. -/
theorem heartbeat_alive (quietAfter : ℕ) (state : HeadlessState) (tick : Tick) (hgone : tick.gone = none) :
    (heartbeat quietAfter state tick).1.liveness.isDead = false ∧
      (heartbeat quietAfter state tick).1.lastActivity = max (rearm state false).lastActivity tick.stamp ∧
      ((heartbeat quietAfter state tick).1.alerted = true ↔
        ((rearm state false).alerted = true ∧ tick.stamp ≤ (rearm state false).lastActivity) ∨
          (tick.phase = .running ∧ quietAfter ≤ tick.now - max (rearm state false).lastActivity tick.stamp)) ∧
      ((∃ alert, (heartbeat quietAfter state tick).2 = some alert) ↔
        tick.phase = .running ∧ quietAfter ≤ tick.now - max (rearm state false).lastActivity tick.stamp ∧
          ¬ ((rearm state false).alerted = true ∧ tick.stamp ≤ (rearm state false).lastActivity)) ∧
      ∀ alert, (heartbeat quietAfter state tick).2 = some alert → alert.kind = .quiet := by
  have hfold := foldl_activity { rearm state false with phase := tick.phase } tick.activity (rearm_live state)
  have hbeat : heartbeat quietAfter state tick = liveness
      (if (rearm state false).lastActivity < tick.stamp then
        { rearm state false with phase := tick.phase, lastActivity := tick.stamp, liveness := .live, alerted := false }
      else { rearm state false with phase := tick.phase }) tick.now quietAfter := by
    rw [heartbeat, markerState, hgone, Option.map_none, Option.toList_none, List.append_nil, Option.isSome_none]
    exact congrArg (fun current => liveness current tick.now quietAfter) hfold
  rw [hbeat]
  -- only a newer mark counts as activity
  by_cases hfresh : (rearm state false).lastActivity < tick.stamp
  · rw [if_pos hfresh]
    obtain ⟨hlive, hlast, halerted, halert, hkind⟩ := liveness_alive
      { rearm state false with phase := tick.phase, lastActivity := tick.stamp, liveness := .live, alerted := false }
      tick.now quietAfter rfl
    have hmax : max (rearm state false).lastActivity tick.stamp = tick.stamp := max_eq_right hfresh.le
    have hnot : ¬ ((rearm state false).alerted = true ∧ tick.stamp ≤ (rearm state false).lastActivity) :=
      fun h => absurd h.2 (not_le.mpr hfresh)
    rw [hmax]
    refine ⟨hlive, hlast, halerted.trans ?_, halert.trans ?_, hkind⟩
    · simp only [Bool.false_eq_true, false_or, hnot]
    · simp only [Bool.false_eq_true, not_false_eq_true, hnot]
  · rw [if_neg hfresh]
    obtain ⟨hlive, hlast, halerted, halert, hkind⟩ := liveness_alive
      { rearm state false with phase := tick.phase } tick.now quietAfter (rearm_live state)
    have hmax : max (rearm state false).lastActivity tick.stamp = (rearm state false).lastActivity :=
      max_eq_left (not_lt.mp hfresh)
    rw [hmax]
    refine ⟨hlive, hlast, halerted.trans ?_, halert.trans ?_, hkind⟩
    · simp only [not_lt.mp hfresh, and_true]
    · simp only [not_lt.mp hfresh, and_true]

/-- A tick with a gone marker. -/
theorem heartbeat_gone (quietAfter : ℕ) (state : HeadlessState) (tick : Tick) (hgone : tick.gone.isSome = true)
    (halerted : state.liveness.isDead = true → state.alerted = true) :
    (heartbeat quietAfter state tick).1.liveness.isDead = true ∧ (heartbeat quietAfter state tick).1.alerted = true ∧
      (state.liveness.isDead = true → (heartbeat quietAfter state tick).2 = none) ∧
      (state.liveness.isDead = false → ∃ alert, (heartbeat quietAfter state tick).2 = some alert ∧
        alert.kind.isDead = true) := by
  obtain ⟨text, htext⟩ := Option.isSome_iff_exists.mp hgone
  have hbeat : heartbeat quietAfter state tick = liveness
      (reduce (((tick.activity.bind ActivityMark.parse).map fun mark => WorkerEvent.activity mark.at_).toList.foldl reduce
        { state with phase := tick.phase }) (.processGone (parseGone text).1 (parseGone text).2)) tick.now quietAfter := by
    rw [heartbeat, markerState, htext, Option.map_some, Option.toList_some, Option.isSome_some]
    simp only [List.foldl_append, List.foldl_cons, List.foldl_nil, rearm, Bool.not_true, Bool.false_and,
      Bool.false_eq_true, if_false]
    rw [Tick.phase, markerState]
  rw [hbeat]
  cases hdead : state.liveness.isDead with
  -- a worker that is dead stays so, and is not alerted about again
  | true =>
    have hstay : ((tick.activity.bind ActivityMark.parse).map fun mark => WorkerEvent.activity mark.at_).toList.foldl reduce
        { state with phase := tick.phase } = { state with phase := tick.phase } := by
      cases tick.activity.bind ActivityMark.parse with
      | none => rfl
      | some mark => simp [reduce, hdead]
    rw [hstay, reduce, if_pos hdead, liveness]
    cases hcase : state.liveness with
    | live =>
      rw [hcase] at hdead
      cases hdead
    | quiet since =>
      rw [hcase] at hdead
      cases hdead
    | dead scope reason =>
      dsimp only
      rw [if_pos (halerted hdead)]
      exact ⟨rfl, halerted hdead, fun _ => rfl, fun h => Bool.noConfusion h⟩
  | false =>
    rw [foldl_activity { state with phase := tick.phase } tick.activity hdead]
    have hfresh : ∀ current : HeadlessState, current.liveness.isDead = false → ∀ scope reason,
        liveness (reduce current (.processGone scope reason)) tick.now quietAfter =
          ({ current with liveness := .dead scope reason, alerted := true },
            some ⟨.dead scope reason, deadText scope reason⟩) := by
      intro current hcurrent scope reason
      rw [reduce, if_neg (by rw [hcurrent]; exact Bool.false_ne_true), liveness]
      rfl
    rw [hfresh _ (by split_ifs; exacts [rfl, hdead])]
    exact ⟨rfl, rfl, fun h => Bool.noConfusion h, fun _ => ⟨_, rfl, rfl⟩⟩

section Run

variable (quietAfter : ℕ) (ticks : ℕ → Tick)

/-- The greatest activity stamp in front of tick `n`, since the last dead tick. -/
def latest : ℕ → ℕ
  | 0 => 0
  | n + 1 => if (ticks n).gone.isSome then 0 else max (latest n) (ticks n).stamp

def deadAt (n : ℕ) : Prop := (ticks n).gone.isSome = true

def quietAlertAt (n : ℕ) : Prop := ∃ alert, alertAt quietAfter ticks n = some alert ∧ alert.kind = .quiet

def deadAlertAt (n : ℕ) : Prop := ∃ alert, alertAt quietAfter ticks n = some alert ∧ alert.kind.isDead = true

/-- A quiet alert in front of tick `n` with neither new activity nor a death since. -/
def Owed (n : ℕ) : Prop := ∃ i < n, quietAlertAt quietAfter ticks i ∧
  ∀ k, i < k → k < n → ¬ deadAt ticks k ∧ (ticks k).stamp ≤ latest ticks k

/-- What the state in front of tick `n` knows of the ticks behind it. -/
structure Known (n : ℕ) : Prop where
  dead : (beats quietAfter ticks n).liveness.isDead = true ↔ ∃ m, n = m + 1 ∧ deadAt ticks m
  alerted : (beats quietAfter ticks n).liveness.isDead = true → (beats quietAfter ticks n).alerted = true
  lastActivity : (rearm (beats quietAfter ticks n) false).lastActivity = latest ticks n
  owed : (rearm (beats quietAfter ticks n) false).alerted = true ↔ Owed quietAfter ticks n

variable {quietAfter ticks}

theorem rearm_of_live {state : HeadlessState} (h : state.liveness.isDead = false) : rearm state false = state := by
  rw [rearm, h]
  rfl

theorem rearm_of_dead {state : HeadlessState} (h : state.liveness.isDead = true) : rearm state false = {} := by
  rw [rearm, h]
  rfl

theorem alive_of_not_dead {n : ℕ} (h : ¬ deadAt ticks n) : (ticks n).gone = none := by
  cases hgone : (ticks n).gone with
  | none => rfl
  | some text => exact absurd (by rw [deadAt, hgone]; rfl) h

/-- An alert of a tick without a gone marker is a quiet one. -/
theorem quietAlertAt_iff {n : ℕ} (h : Known quietAfter ticks n) (hdead : ¬ deadAt ticks n) :
    quietAlertAt quietAfter ticks n ↔ (ticks n).phase = .running ∧
      quietAfter ≤ (ticks n).now - max (latest ticks n) (ticks n).stamp ∧
      ¬ (Owed quietAfter ticks n ∧ (ticks n).stamp ≤ latest ticks n) := by
  obtain ⟨_, _, _, halert, hkind⟩ :=
    heartbeat_alive quietAfter (beats quietAfter ticks n) (ticks n) (alive_of_not_dead hdead)
  rw [h.lastActivity, h.owed] at halert
  rw [← halert]
  constructor
  · rintro ⟨alert, hsome, _⟩
    exact ⟨alert, hsome⟩
  · rintro ⟨alert, hsome⟩
    exact ⟨alert, hsome, hkind alert hsome⟩

theorem not_quietAlertAt_of_dead {n : ℕ} (h : Known quietAfter ticks n) (hdead : deadAt ticks n) :
    ¬ quietAlertAt quietAfter ticks n := by
  rintro ⟨alert, hsome, hquiet⟩
  obtain ⟨_, _, hagain, hfirst⟩ :=
    heartbeat_gone quietAfter (beats quietAfter ticks n) (ticks n) hdead h.alerted
  have hsome' : (heartbeat quietAfter (beats quietAfter ticks n) (ticks n)).2 = some alert := hsome
  cases hstate : (beats quietAfter ticks n).liveness.isDead with
  | true =>
    rw [hagain hstate] at hsome'
    cases hsome'
  | false =>
    obtain ⟨other, hother, hkind⟩ := hfirst hstate
    rw [hother, Option.some.injEq] at hsome'
    rw [hsome', hquiet] at hkind
    cases hkind

theorem owed_succ_iff {n : ℕ} (hdead : ¬ deadAt ticks n) : Owed quietAfter ticks (n + 1) ↔
    (Owed quietAfter ticks n ∧ (ticks n).stamp ≤ latest ticks n) ∨ quietAlertAt quietAfter ticks n := by
  constructor
  · rintro ⟨i, hi, hquiet, hsince⟩
    rcases Nat.lt_succ_iff_lt_or_eq.mp hi with hlt | heq
    · exact .inl ⟨⟨i, hlt, hquiet, fun k hik hkn => hsince k hik (by omega)⟩, (hsince n hlt (by omega)).2⟩
    · exact .inr (heq ▸ hquiet)
  · rintro (⟨⟨i, hi, hquiet, hsince⟩, hstale⟩ | hquiet)
    · refine ⟨i, by omega, hquiet, fun k hik hkn => ?_⟩
      rcases Nat.lt_succ_iff_lt_or_eq.mp hkn with hlt | heq
      · exact hsince k hik hlt
      · exact heq ▸ ⟨hdead, hstale⟩
    · exact ⟨n, by omega, hquiet, fun k hnk hkn => by omega⟩

theorem not_owed_of_dead {n : ℕ} (h : Known quietAfter ticks n) (hdead : deadAt ticks n) :
    ¬ Owed quietAfter ticks (n + 1) := by
  rintro ⟨i, hi, hquiet, hsince⟩
  rcases Nat.lt_succ_iff_lt_or_eq.mp hi with hlt | heq
  · exact (hsince n hlt (by omega)).1 hdead
  · exact not_quietAlertAt_of_dead h hdead (heq ▸ hquiet)

theorem Known.succ {n : ℕ} (h : Known quietAfter ticks n) : Known quietAfter ticks (n + 1) := by
  by_cases hdead : deadAt ticks n
  · obtain ⟨hlive, halerted, _, _⟩ :=
      heartbeat_gone quietAfter (beats quietAfter ticks n) (ticks n) hdead h.alerted
    have hstate : (beats quietAfter ticks (n + 1)).liveness.isDead = true := hlive
    refine ⟨iff_of_true hstate ⟨n, rfl, hdead⟩, fun _ => halerted, ?_, ?_⟩
    · rw [rearm_of_dead hstate, latest]
      exact (if_pos hdead).symm
    · rw [rearm_of_dead hstate]
      exact iff_of_false Bool.false_ne_true (not_owed_of_dead h hdead)
  · obtain ⟨hlive, hlast, halerted, _, _⟩ :=
      heartbeat_alive quietAfter (beats quietAfter ticks n) (ticks n) (alive_of_not_dead hdead)
    have hstate : (beats quietAfter ticks (n + 1)).liveness.isDead = false := hlive
    have hnot : ¬ (beats quietAfter ticks (n + 1)).liveness.isDead = true := by
      rw [hstate]
      exact Bool.false_ne_true
    refine ⟨iff_of_false hnot ?_, fun hyes => absurd hyes hnot, ?_, ?_⟩
    · rintro ⟨m, hm, hgone⟩
      exact hdead (Nat.succ.inj hm ▸ hgone)
    · rw [rearm_of_live hstate, latest]
      refine Eq.trans ?_ (if_neg hdead).symm
      rw [← h.lastActivity]
      exact hlast
    · rw [rearm_of_live hstate, owed_succ_iff hdead, quietAlertAt_iff h hdead, ← h.owed, ← h.lastActivity]
      refine halerted.trans ?_
      tauto

theorem known (n : ℕ) : Known quietAfter ticks n := by
  induction n with
  | zero =>
    refine ⟨iff_of_false Bool.false_ne_true ?_, fun h => Bool.noConfusion h, rfl, iff_of_false Bool.false_ne_true ?_⟩
    · rintro ⟨m, hm, _⟩
      cases hm
    · rintro ⟨i, hi, _⟩
      exact absurd hi (Nat.not_lt_zero i)
  | succ n ih => exact ih.succ

/-- A death is reported in the first of its ticks. -/
theorem deadAlertAt_iff (n : ℕ) :
    deadAlertAt quietAfter ticks n ↔ deadAt ticks n ∧ ∀ m, n = m + 1 → ¬ deadAt ticks m := by
  have h := @known quietAfter ticks n
  by_cases hdead : deadAt ticks n
  · obtain ⟨_, _, hagain, hfirst⟩ :=
      heartbeat_gone quietAfter (beats quietAfter ticks n) (ticks n) hdead h.alerted
    cases hstate : (beats quietAfter ticks n).liveness.isDead with
    | true =>
      obtain ⟨m, hm, hgone⟩ := h.dead.mp hstate
      refine iff_of_false ?_ fun hno => hno.2 m hm hgone
      rintro ⟨alert, hsome, _⟩
      have hnone : alertAt quietAfter ticks n = none := hagain hstate
      rw [hnone] at hsome
      cases hsome
    | false =>
      refine iff_of_true (hfirst hstate) ⟨hdead, fun m hm hgone => ?_⟩
      have hyes := h.dead.mpr ⟨m, hm, hgone⟩
      rw [hstate] at hyes
      cases hyes
  · refine iff_of_false ?_ fun hno => hdead hno.1
    rintro ⟨alert, hsome, hkind⟩
    obtain ⟨_, _, _, _, hquiet⟩ :=
      heartbeat_alive quietAfter (beats quietAfter ticks n) (ticks n) (alive_of_not_dead hdead)
    rw [hquiet alert hsome] at hkind
    cases hkind

theorem latest_mono {a b : ℕ} (hab : a ≤ b) (halive : ∀ k, a ≤ k → k < b → ¬ deadAt ticks k) :
    latest ticks a ≤ latest ticks b := by
  induction b, hab using Nat.le_induction with
  | base => exact le_refl _
  | succ b hab ih =>
    refine (ih fun k hak hkb => halive k hak (by omega)).trans ?_
    rw [latest]
    exact (le_max_left _ _).trans (if_neg (halive b hab (by omega))).ge

theorem stamp_le_latest {n : ℕ} (hdead : ¬ deadAt ticks n) : (ticks n).stamp ≤ latest ticks (n + 1) := by
  rw [latest]
  exact (le_max_right _ _).trans (if_neg hdead).ge

/-- Between two quiet alerts the worker dies or shows new activity. -/
theorem quiet_apart {i j : ℕ} (hij : i < j) (hi : quietAlertAt quietAfter ticks i)
    (hj : quietAlertAt quietAfter ticks j) :
    (∃ k, i < k ∧ k < j ∧ deadAlertAt quietAfter ticks k) ∨
      ∃ k, i < k ∧ k ≤ j ∧ latest ticks (i + 1) < (ticks k).stamp := by
  have hdead : ∀ {n}, quietAlertAt quietAfter ticks n → ¬ deadAt ticks n := fun hquiet hdead =>
    not_quietAlertAt_of_dead (known _) hdead hquiet
  by_cases hdies : ∃ k, i < k ∧ k < j ∧ deadAt ticks k
  · left
    classical
    have hleast := Nat.find_spec hdies
    refine ⟨Nat.find hdies, hleast.1, hleast.2.1, (deadAlertAt_iff _).mpr ⟨hleast.2.2, fun m hm hgone => ?_⟩⟩
    have hlt : m < Nat.find hdies := by omega
    have him : i ≠ m := fun heq => hdead hi (heq ▸ hgone)
    exact Nat.find_min hdies hlt ⟨by omega, by omega, hgone⟩
  · right
    rw [not_exists] at hdies
    have halive : ∀ k, i < k → k < j → ¬ deadAt ticks k := fun k hik hkj hgone => hdies k ⟨hik, hkj, hgone⟩
    have hmono : ∀ k, i < k → k ≤ j → latest ticks (i + 1) ≤ latest ticks k := fun k hik hkj =>
      latest_mono hik fun m him hmk => halive m him (by omega)
    by_contra hstale
    have hnone : ∀ k, i < k → k ≤ j → (ticks k).stamp ≤ latest ticks k := fun k hik hkj =>
      (not_lt.mp fun hlt => hstale ⟨k, hik, hkj, hlt⟩).trans (hmono k hik hkj)
    refine ((quietAlertAt_iff (known j) (hdead hj)).mp hj).2.2 ⟨⟨i, hij, hi, fun k hik hkj => ?_⟩, hnone j hij le_rfl⟩
    exact ⟨halive k hik hkj, hnone k hik hkj.le⟩

end Run

/-- A worker's death and its silences are each reported once. -/
theorem heartbeats_report (quietAfter : ℕ) (ticks : ℕ → Tick) :
    (∀ n, deadAlertAt quietAfter ticks n ↔ deadAt ticks n ∧ ∀ m, n = m + 1 → ¬ deadAt ticks m) ∧
      (∀ n, deadAt ticks n → deadAt ticks (n + 1) → alertAt quietAfter ticks (n + 1) = none) ∧
      (∀ i j, i < j → quietAlertAt quietAfter ticks i → quietAlertAt quietAfter ticks j →
        (∃ k, i < k ∧ k < j ∧ deadAlertAt quietAfter ticks k) ∨
          ∃ k, i < k ∧ k ≤ j ∧ latest ticks (i + 1) < (ticks k).stamp ∧ (ticks i).stamp < (ticks k).stamp) ∧
      ∀ n, (ticks n).phase = .running → ¬ deadAt ticks n → quietAfter ≤ (ticks n).now - latest ticks (n + 1) →
        (∀ i < n, quietAlertAt quietAfter ticks i →
          ∃ k, i < k ∧ (k < n ∧ deadAt ticks k ∨ k ≤ n ∧ latest ticks k < (ticks k).stamp)) →
        quietAlertAt quietAfter ticks n := by
  refine ⟨deadAlertAt_iff, ?_, ?_, ?_⟩
  · intro n hdead hagain
    have h := @known quietAfter ticks (n + 1)
    exact (heartbeat_gone quietAfter (beats quietAfter ticks (n + 1)) (ticks (n + 1)) hagain h.alerted).2.2.1
      (h.dead.mpr ⟨n, rfl, hdead⟩)
  · intro i j hij hi hj
    have hdead : ¬ deadAt ticks i := fun hdead => not_quietAlertAt_of_dead (known i) hdead hi
    rcases quiet_apart hij hi hj with hdies | ⟨k, hik, hkj, hlt⟩
    · exact .inl hdies
    · exact .inr ⟨k, hik, hkj, hlt, (stamp_le_latest hdead).trans_lt hlt⟩
  · intro n hrunning hdead hsilent hunalerted
    have hlatest : latest ticks (n + 1) = max (latest ticks n) (ticks n).stamp := by
      rw [latest]
      exact if_neg hdead
    rw [quietAlertAt_iff (known n) hdead]
    refine ⟨hrunning, hlatest ▸ hsilent, ?_⟩
    rintro ⟨⟨i, hi, hquiet, hsince⟩, hstale⟩
    obtain ⟨k, hik, ⟨hkn, hgone⟩ | ⟨hkn, hfresh⟩⟩ := hunalerted i hi hquiet
    · exact (hsince k hik hkn).1 hgone
    · rcases hkn.lt_or_eq with hlt | heq
      · exact absurd hfresh (not_lt.mpr (hsince k hik hlt).2)
      · exact absurd hfresh (not_lt.mpr (heq ▸ hstale))

end Ralph.Worker.Headless
