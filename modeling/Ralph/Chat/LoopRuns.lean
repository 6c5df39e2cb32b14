import Ralph.Chat.Loop

namespace Ralph.Chat
open ChatMemory Inbox SendIt Worker Thread

/-- The entries that wait after the events, and the batch that was taken from them and is not acted
on yet. Entries leave in typed order: a batch from the front, to be acted on, or all of them, with
the draft or the history. -/
inductive Waits : List Event → Option Route → List String → Prop
  | start : Waits [] none []
  | queued {es t w} (h : Waits es t w) (entries : List String) :
      Waits (es ++ [.queued entries]) t (w ++ entries)
  | routed {es batch w} (h : Waits es none (batch ++ w)) (hne : batch ≠ []) (route : Route) :
      Waits (es ++ [.routed (joined batch) route]) (some route) w
  | acted {es route w} (h : Waits es (some route) w) : Waits (es ++ [.acted route]) none w
  | own {es w} (h : Waits es none w) (route : Route) : Waits (es ++ [.acted route]) none w
  | restored {es w text} (h : Waits es none w) (hw : (joined w).toList <:+: text.toList) :
      Waits (es ++ [.drafted text]) none []
  | drafted {es t w} (h : Waits es t w) (text : String) : Waits (es ++ [.drafted text]) t w
  | kept {es w texts} (h : Waits es none w) (hw : ∀ entry ∈ w, entry ∈ texts) :
      Waits (es ++ [.saved texts]) none []
  | saved {es t w} (h : Waits es t w) (texts : List String) : Waits (es ++ [.saved texts]) t w

/-- The loop has accounted for all that was queued but for what it carries. -/
def Settled (s : Loop) : Prop := ∃ t, Waits s.events t s.carried ∧ (t = none ∨ t = s.pending)

/-- At the prompt nothing is carried. -/
def Prompted (s : Loop) : Prop := s.pending = none → s.carried = []

theorem infix_draftWithQueue (draft : Option String) {entries : List String} (hne : entries ≠ []) :
    ∃ kept, draftWithQueue draft entries = some kept ∧ (joined entries).toList <:+: kept.toList := by
  have hmerged : merged entries = some (joined entries) := if_neg hne
  cases draft with
  | none => exact ⟨joined entries, by simp only [draftWithQueue, hmerged, Option.orElse_eq_orElse]; rfl, List.infix_rfl⟩
  | some draft =>
    refine ⟨draft ++ joinText ++ joined entries, by simp only [draftWithQueue, hmerged], ?_⟩
    rw [String.toList_append]
    exact (List.suffix_append _ _).isInfix

theorem infix_draftWithTyped (draft : String) (typed : String) :
    ∃ kept, draftWithTyped (some draft) typed = some kept ∧ draft.toList <:+: kept.toList := by
  unfold draftWithTyped
  split_ifs with htyped
  · exact ⟨draft, rfl, List.infix_rfl⟩
  · refine ⟨draft ++ joinText ++ typed, rfl, ?_⟩
    rw [String.append_assoc, String.toList_append]
    exact (List.prefix_append _ _).isInfix

/-- With nothing kept there may be no draft; else the draft has it all. -/
theorem infix_draft (draft : Option String) (entries : List String) (typed : String) :
    entries = [] ∨ ∃ kept, draftWithTyped (draftWithQueue draft entries) typed = some kept ∧
      (joined entries).toList <:+: kept.toList := by
  by_cases hne : entries = []
  · exact Or.inl hne
  · obtain ⟨queued, hqueued, hin⟩ := infix_draftWithQueue draft hne
    obtain ⟨kept, hkept, hdraft⟩ := infix_draftWithTyped queued typed
    exact Or.inr ⟨kept, by rw [hqueued, hkept], hin.trans hdraft⟩

theorem infix_refusedDraft (line : String) (carried : List String) (buffer : String) :
    (joined carried).toList <:+: (refusedDraft line carried buffer).toList := by
  rcases infix_draft (some line) carried (if HasText buffer then buffer else "") with rfl | ⟨kept, hkept, hin⟩
  · exact List.nil_infix
  · rwa [refusedDraft, hkept, Option.getD_some]

variable {text : String}

theorem turnEnd_of_draft {finish : Suggestion.TurnEnd} (h : finish.draft = some text) :
    Suggestion.turnEnd finish = .prefill (.draft text) := by
  have hfilter : finish.suggestion.filter
      (fun _ => finish.autoHold && finish.replied && finish.draft.isNone) = none := by
    rw [h]
    cases finish.suggestion <;> simp
  simp only [Suggestion.turnEnd, hfilter, Option.bind_none, Suggestion.prefill]
  rw [h]

theorem turnEnd_of_no_suggestion {finish : Suggestion.TurnEnd} (hdraft : finish.draft = none)
    (h : finish.suggestion = none) : Suggestion.turnEnd finish = .nothing := by
  simp [Suggestion.turnEnd, h, Suggestion.prefill, hdraft]

section Round

variable {c : ChatConfig} {x : Answers} {s s' : Loop}

theorem waits_restored (line : String) (h : Waits s.events none s.carried) :
    Waits (restorePrompt x line s).events none [] :=
  h.restored (infix_refusedDraft line s.carried x.buffer)

theorem settled_restored (line : String) (h : Waits s.events none s.carried) :
    Settled (restorePrompt x line s) ∧ Prompted (restorePrompt x line s) :=
  ⟨⟨none, waits_restored line h, Or.inl rfl⟩, fun _ => rfl⟩

theorem settled_handOn (h : Waits s.events none s.carried) :
    Settled (handOn c x s) ∧ Prompted (handOn c x s) := by
  unfold handOn
  cases hnext : nextBatch s.carried with
  | none =>
    rw [nextBatch_eq_none_iff.mp hnext] at h
    exact ⟨⟨none, h, Or.inl rfl⟩, fun _ => rfl⟩
  | some next =>
    obtain ⟨text, rest⟩ := next
    obtain ⟨batch, hne, rfl, hcarried⟩ := nextBatch_append hnext
    rw [hcarried] at h
    exact ⟨⟨_, h.routed hne _, Or.inr rfl⟩, nofun⟩

theorem decide_cases (outcome : TurnOutcome) (queue : Queue) :
    (∃ batch rest, batch ≠ [] ∧ queue.entries = batch ++ rest ∧
      decide outcome queue = .send (joined batch) rest) ∨
    decide outcome queue = .keep queue.entries := by
  unfold decide
  split_ifs with hkeep
  · exact Or.inr rfl
  · cases hnext : nextBatch queue.entries with
    | none => exact Or.inr (by rw [nextBatch_eq_none_iff.mp hnext])
    | some next =>
      obtain ⟨text, rest⟩ := next
      obtain ⟨batch, hne, rfl, hentries⟩ := nextBatch_append hnext
      exact Or.inl ⟨batch, rest, hne, hentries, rfl⟩

theorem settled_afterTurn {outcome : TurnOutcome} {draft : Option String} {queue : Queue}
    (hcarried : s.carried = []) (h : Waits s.events none queue.entries) :
    Settled (afterTurn c x outcome draft queue s) ∧ Prompted (afterTurn c x outcome draft queue s) := by
  rcases decide_cases outcome queue with ⟨batch, rest, hne, hentries, hdecide⟩ | hdecide
  · rw [hentries] at h
    have hrouted := h.routed hne (routeQueued c x (joined batch))
    simp only [afterTurn, hdecide]
    cases hdraft : draftWithTyped draft queue.typed with
    | none =>
      rw [turnEnd_of_no_suggestion rfl rfl]
      exact ⟨⟨_, hrouted, Or.inr rfl⟩, nofun⟩
    | some kept =>
      rw [turnEnd_of_draft rfl]
      exact ⟨⟨_, hrouted.drafted kept, Or.inr rfl⟩, nofun⟩
  · simp only [afterTurn, hdecide]
    rcases infix_draft draft queue.entries queue.typed with hnil | ⟨kept, hkept, hin⟩
    · rw [hnil] at h
      split
      · exact ⟨⟨none, hcarried ▸ h, Or.inl rfl⟩, nofun⟩
      · exact ⟨⟨none, hcarried ▸ h.drafted _, Or.inl rfl⟩, fun _ => hcarried⟩
      · exact ⟨⟨none, hcarried ▸ h.drafted _, Or.inl rfl⟩, fun _ => hcarried⟩
      · exact ⟨⟨none, hcarried ▸ h, Or.inl rfl⟩, fun _ => hcarried⟩
    · rw [turnEnd_of_draft hkept]
      exact ⟨⟨none, hcarried ▸ h.restored hin, Or.inl rfl⟩, fun _ => hcarried⟩

theorem dispatch_stop {file : Except String (Option RunFile)} {starts : Bool} {ticked : Ticked}
    {reason : StopReason} (h : ticked.next = .stop reason) : dispatch file starts ticked = .ended := by
  simp only [dispatch, h]

theorem settled_turnEnded {outcome : TurnOutcome} {draft : Option String} {queue : Queue}
    {drained : List Report} (h : Waits s.events none (s.carried ++ queue.entries))
    (hend : turnEnded c x outcome draft queue drained s = .ok s') : Settled s' ∧ Prompted s' := by
  unfold turnEnded at hend
  split_ifs at hend
  simp only at hend
  split at hend
  · obtain rfl := Except.ok.inj hend
    exact settled_afterTurn rfl h
  · next active hsending =>
    split at hend
    · next route hroute =>
      -- The run goes on only after a turn with nothing queued.
      have hnil : s.carried ++ queue.entries = [] := by
        by_contra hne
        obtain ⟨reason, hstop⟩ : ∃ reason, (tickRun c x active outcome
            { queue with entries := s.carried ++ queue.entries } drained).next = .stop reason :=
          tick_of_queued hne active.driving
        rw [dispatch_stop hstop] at hroute
        cases hroute
      rw [hnil] at h
      obtain rfl := Except.ok.inj hend
      exact ⟨⟨none, h, Or.inl rfl⟩, nofun⟩
    · obtain rfl := Except.ok.inj hend
      exact settled_afterTurn rfl h

theorem settled_runTurn {outcome : TurnOutcome} {draft : Option String} {drained : List Report}
    {s₁ : Loop} (shown : Option String) (h : Waits s.events none s.carried)
    (hrun : runTurn x s = .ok (outcome, s₁))
    (hend : turnEnded c x outcome draft x.queue drained { s₁ with shownPlan := shown } = .ok s') :
    Settled s' ∧ Prompted s' := by
  unfold runTurn at hrun
  split at hrun
  · cases hrun
    exact settled_turnEnded (h.queued x.queue.entries) hend
  · cases hrun

theorem settled_shellArm {line : String} (h : Waits s.events none s.carried)
    (harm : shellArm c x line s = .ok s') : Settled s' ∧ Prompted s' := by
  unfold shellArm at harm
  split at harm
  · cases harm
    exact settled_handOn h
  · cases harm
  · cases harm
    exact settled_restored line h

theorem settled_refuseOrExit {line : String} (h : Waits s.events none s.carried)
    (harm : refuseOrExit x line s = .ok s') : Settled s' ∧ Prompted s' := by
  unfold refuseOrExit at harm
  split at harm
  · cases harm
  · cases harm
    exact settled_restored line h

theorem settled_sendArm {message : String} (h : Waits s.events none s.carried)
    (harm : sendArm c x message s = .ok s') : Settled s' ∧ Prompted s' := by
  unfold sendArm at harm
  split at harm
  · exact settled_turnEnded (by simpa using h) harm
  · obtain ⟨⟨outcome, s₁⟩, hrun, hend⟩ := Fallible.bind_eq_ok.mp harm
    exact settled_runTurn s₁.shownPlan h hrun hend

theorem settled_switchArm {parsed : Except String SwitchTarget} {line : String}
    (h : Waits s.events none s.carried) (harm : switchArm x parsed line s = .ok s') :
    Settled s' ∧ Prompted s' := by
  unfold switchArm at harm
  simp only at harm
  split at harm
  · exact settled_refuseOrExit h harm
  · split at harm
    · cases harm
    · split at harm
      · cases harm
      · cases harm
        exact settled_restored line (h.saved _)

theorem settled_threadArm {op : Except String ThreadOp} {line : String}
    (h : Waits s.events none s.carried) (harm : threadArm c x op line s = .ok s') :
    Settled s' ∧ Prompted s' := by
  unfold threadArm at harm
  split at harm
  · cases harm
    exact settled_handOn h
  · exact settled_refuseOrExit h harm

/-- A queued `/send-it go` is refused: it counts only at the prompt. -/
theorem goArm_queued : goArm c x false s = s := by
  have hgo : (go c.env x.file x.fileSaves s.shownPlan false x.seen).2 = none := by
    unfold go
    split
    · rfl
    · rfl
    · rfl
  rw [goArm, hgo]

theorem goArm_keeps (typedAtPrompt : Bool) :
    (goArm c x typedAtPrompt s).carried = s.carried ∧ (goArm c x typedAtPrompt s).events = s.events := by
  unfold goArm
  split <;> exact ⟨rfl, rfl⟩

end Round

/-- ralph answers the route itself, and leaves the rest of the queue where it is. -/
def leavesQueue (x : Answers) : Route → Bool
  | .send _ | .shell _ | .switch _ _ | .threadOp _ _ => false
  | .readInbox _ => match x.reports with
    | .ok reports => Decidable.decide (reports = [])
    | .error _ => false
  | .hold _ => match x.held with
    | .left => true
    | _ => false
  | .sendIt (.propose _) => x.template.isSome || x.refusal.isSome
  | _ => true

/-- In this round no such route was taken from the queue while other entries wait. -/
def HandsOn (x : Answers) (s : Loop) : Prop :=
  ∀ route, s.pending = some route → s.carried ≠ [] → leavesQueue x route = false

section Arms

variable {c : ChatConfig} {x : Answers} {s s' : Loop}

/-- The queue is handed on, or ralph answers the route itself and leaves the queue where it is. -/
def Answered (x : Answers) (route : Route) (typedAtPrompt : Bool) (s s' : Loop) : Prop :=
  (leavesQueue x route = false ∧ Settled s' ∧ Prompted s') ∨
    (leavesQueue x route = true ∧ s'.carried = s.carried ∧ s'.events = s.events ∧
      (typedAtPrompt = false → s'.pending = none))

variable {typedAtPrompt : Bool}

theorem answered_readInboxArm {selection : Selection} (hpending : s.pending = none)
    (h : Waits s.events none s.carried) (harm : readInboxArm c x s = .ok s') :
    Answered x (.readInbox selection) typedAtPrompt s s' := by
  obtain ⟨reports, hreports, harm⟩ := Fallible.bind_eq_ok.mp harm
  have hask : x.reports = .ok reports := by
    cases hx : x.reports with
    | ok _ =>
      rw [hx] at hreports
      cases hreports
      rfl
    | error _ =>
      rw [hx] at hreports
      cases hreports
  split_ifs at harm with hnil
  · cases harm
    exact Or.inr ⟨by simp [leavesQueue, hask, hnil], rfl, rfl, fun _ => hpending⟩
  · obtain ⟨⟨outcome, s₁⟩, hrun, hend⟩ := Fallible.bind_eq_ok.mp harm
    exact Or.inl ⟨by simp [leavesQueue, hask, hnil],
      settled_runTurn s₁.shownPlan h hrun hend⟩

theorem answered_holdArm {filter : HoldFilter} (hpending : s.pending = none)
    (h : Waits s.events none s.carried) (harm : holdArm x s = .ok s') :
    Answered x (.hold filter) typedAtPrompt s s' := by
  unfold holdArm at harm
  split at harm
  next hheld =>
    cases harm
    exact Or.inl ⟨by simp only [leavesQueue, hheld], ⟨none, h, Or.inl rfl⟩, nofun⟩
  next hheld =>
    cases harm
    exact Or.inr ⟨by simp only [leavesQueue, hheld], rfl, rfl, fun _ => hpending⟩
  next => cases harm

theorem answered_proposeArm {instructions : String} (hpending : s.pending = none)
    (h : Waits s.events none s.carried) (harm : proposeArm c x s = .ok s') :
    Answered x (.sendIt (.propose instructions)) typedAtPrompt s s' := by
  unfold proposeArm at harm
  cases htemplate : x.template with
  | some use =>
    rw [htemplate] at harm
    cases harm
    exact Or.inr ⟨by simp [leavesQueue, htemplate], rfl, rfl, fun _ => hpending⟩
  | none =>
    cases hrefusal : x.refusal with
    | some refusal =>
      rw [htemplate, hrefusal] at harm
      cases harm
      exact Or.inr ⟨by simp [leavesQueue, hrefusal], rfl, rfl, fun _ => hpending⟩
    | none =>
      rw [htemplate, hrefusal] at harm
      obtain ⟨⟨outcome, s₁⟩, hrun, hend⟩ := Fallible.bind_eq_ok.mp harm
      exact Or.inl ⟨by simp [leavesQueue, htemplate, hrefusal], settled_runTurn x.screen h hrun hend⟩

theorem answered_sendItArm {command : SendItCommand} (hpending : s.pending = none)
    (h : Waits s.events none s.carried) (harm : sendItArm c x typedAtPrompt s command = .ok s') :
    Answered x (.sendIt command) typedAtPrompt s s' := by
  cases command with
  | propose instructions => exact answered_proposeArm hpending h harm
  | go =>
    cases harm
    obtain ⟨hcarried, hevents⟩ := goArm_keeps (c := c) (x := x) (s := s) typedAtPrompt
    refine Or.inr ⟨rfl, hcarried, hevents, ?_⟩
    rintro rfl
    rw [goArm_queued, hpending]
  | save | templates | usage | off | status | edit =>
    cases harm
    exact Or.inr ⟨rfl, rfl, rfl, fun _ => hpending⟩

theorem answered_arm {route : Route} (hpending : s.pending = none)
    (h : Waits s.events none s.carried) (harm : arm c x typedAtPrompt s route = .ok s') :
    Answered x route typedAtPrompt s s' := by
  cases route with
  | shell line => exact Or.inl ⟨rfl, settled_shellArm h harm⟩
  | send message => exact Or.inl ⟨rfl, settled_sendArm h harm⟩
  | switch parsed line => exact Or.inl ⟨rfl, settled_switchArm h harm⟩
  | threadOp op line => exact Or.inl ⟨rfl, settled_threadArm h harm⟩
  | readInbox selection => exact answered_readInboxArm hpending h harm
  | hold filter => exact answered_holdArm hpending h harm
  | sendIt command => exact answered_sendItArm hpending h harm
  | ignore =>
    cases harm
    exact Or.inr ⟨rfl, rfl, rfl, fun _ => hpending⟩
  | _ =>
    obtain ⟨_, -, harm⟩ := Fallible.bind_eq_ok.mp harm
    cases harm
    exact Or.inr ⟨rfl, rfl, rfl, fun _ => hpending⟩

/-- A round accounts for the queue. From an empty prompt it comes to one just in case the route that
came from the queue before its end is not one that ralph answers itself. -/
theorem round_spec (hsettled : Settled s) (hround : round c x s = .ok s') :
    Settled s' ∧ (Prompted s → (Prompted s' ↔ HandsOn x s)) := by
  obtain ⟨t, hwaits, ht⟩ := hsettled
  unfold round at hround
  split at hround
  next route hroute =>
    have htaken : Waits (s.events ++ [.acted route]) none s.carried := by
      rcases ht with rfl | rfl
      · exact hwaits.own route
      · rw [hroute] at hwaits
        exact hwaits.acted
    rcases answered_arm rfl htaken hround with ⟨hhands, hsettled', hprompted'⟩ |
      ⟨hleaves, hcarried, hevents, hnone⟩
    · refine ⟨hsettled', fun _ => ⟨fun _ r hr _ => ?_, fun _ => hprompted'⟩⟩
      rw [hroute] at hr
      cases hr
      exact hhands
    · refine ⟨⟨none, ?_, Or.inl rfl⟩, fun _ => ⟨fun hprompted' r _ hne => ?_, fun hhands _ => ?_⟩⟩
      · rwa [hcarried, hevents]
      · exact absurd (hcarried ▸ hprompted' (hnone rfl)) hne
      · rw [hcarried]
        by_contra hne
        rw [hhands route hroute hne] at hleaves
        cases hleaves
  next hnone =>
    have hhands : HandsOn x s := by
      intro route hroute
      rw [hnone] at hroute
      cases hroute
    have htaken : ∀ route, Waits (s.events ++ [.acted route]) none s.carried := by
      intro route
      rcases ht with rfl | rfl
      · exact hwaits.own route
      · rw [hnone] at hwaits
        exact hwaits.own route
    split at hround
    next => cases hround
    next => cases hround
    next line _ =>
      obtain ⟨route, hround⟩ : ∃ route, arm c x true (s.did (.acted route)) route = .ok s' := ⟨_, hround⟩
      rcases answered_arm (s := s.did (.acted route)) hnone (htaken route) hround with
        ⟨-, hsettled', hprompted'⟩ | ⟨-, hcarried, hevents, -⟩
      · exact ⟨hsettled', fun _ => ⟨fun _ => hhands, fun _ => hprompted'⟩⟩
      · refine ⟨⟨none, ?_, Or.inl rfl⟩, fun hprompted => ⟨fun _ => hhands, fun _ _ => ?_⟩⟩
        · rw [hcarried, hevents]
          exact htaken route
        · rw [hcarried]
          exact hprompted hnone

end Arms

section Runs

variable {c : ChatConfig} {answers before after : List Answers} {x : Answers} {s s' : Loop}

theorem rounds_concat : rounds c {} (before ++ [x]) = rounds c {} before >>= round c x := by
  rw [rounds, List.foldlM_append, rounds]
  exact bind_congr fun t => bind_pure (round c x t)

/-- A run that goes on has a state after each of its rounds. -/
theorem exists_round (h : (rounds c {} (before ++ x :: after)).isOk = true)
    (hs : rounds c {} before = .ok s) : ∃ s', round c x s = .ok s' := by
  unfold rounds at h hs
  rw [List.foldlM_append, hs, Fallible.ok_bind, List.foldlM_cons] at h
  cases hround : round c x s with
  | ok s' => exact ⟨s', rfl⟩
  | error left =>
    rw [hround] at h
    cases h

theorem settled_rounds (h : rounds c {} before = .ok s) : Settled s := by
  induction before using List.reverseRecOn generalizing s with
  | nil =>
    cases h
    exact ⟨none, .start, Or.inl rfl⟩
  | append_singleton before x ih =>
    obtain ⟨s₁, hs₁, hround⟩ := Fallible.bind_eq_ok.mp (rounds_concat ▸ h)
    exact (round_spec (ih hs₁) hround).1

theorem prompted_rounds (h : rounds c {} before = .ok s)
    (hands : ∀ first x rest t, before = first ++ x :: rest → rounds c {} first = .ok t → HandsOn x t) :
    Prompted s := by
  induction before using List.reverseRecOn generalizing s with
  | nil =>
    cases h
    exact fun _ => rfl
  | append_singleton before x ih =>
    obtain ⟨s₁, hs₁, hround⟩ := Fallible.bind_eq_ok.mp (rounds_concat ▸ h)
    have hprompted : Prompted s₁ := by
      apply ih hs₁
      rintro first y rest t rfl ht
      exact hands first y (rest ++ [x]) t (by simp) ht
    exact ((round_spec (settled_rounds hs₁) hround).2 hprompted).mpr (hands before x [] s₁ rfl hs₁)

/-- Whenever a run reads at the prompt nothing is carried, all that was queued is accounted for in
typed order, and who leaves there leaves nothing behind, if and only if ralph never answers a route
from the queue itself while other entries wait. -/
theorem queue_empty_at_prompt_iff (h : (rounds c {} answers).isOk = true) :
    (∀ before after s, answers = before ++ after → rounds c {} before = .ok s → s.pending = none →
      s.carried = [] ∧ Waits s.events none [] ∧
        ∀ x, x.submitted = .ok none → round c x s = .error ⟨.quit, s⟩) ↔
    ∀ before x after s, answers = before ++ x :: after → rounds c {} before = .ok s → HandsOn x s := by
  constructor
  · rintro hempty before x after s rfl hs
    obtain ⟨s', hround⟩ := exists_round h hs
    have hs' : rounds c {} (before ++ [x]) = .ok s' := by
      rw [rounds_concat, hs]
      exact hround
    have hprompted : Prompted s := fun hnone => (hempty before _ s rfl hs hnone).1
    have hprompted' : Prompted s' := fun hnone => (hempty _ after s' (by simp) hs' hnone).1
    exact ((round_spec (settled_rounds hs) hround).2 hprompted).mp hprompted'
  · rintro hands before after s rfl hs hnone
    have hcarried : s.carried = [] := by
      refine prompted_rounds hs ?_ hnone
      rintro first x rest t rfl ht
      exact hands first x (rest ++ after) t (by simp) ht
    refine ⟨hcarried, ?_, fun x hx => by simp only [round, hnone, hx]⟩
    obtain ⟨t, hwaits, ht⟩ := settled_rounds hs
    rw [hcarried] at hwaits
    rcases ht with rfl | rfl
    · exact hwaits
    · rwa [hnone] at hwaits

end Runs

def demoConfig : ChatConfig where
  env := { canonical := fun _ => "", sha256 := fun bytes => bytes, twoDecimals := fun _ => "" }
  empty := .inbox
  autoHold := false

/-- Every call succeeds, and the agent replies. -/
def quiet : Answers where
  submitted := .ok none
  promptStatus := ⟨0, ∅⟩
  queuedStatus := ⟨0, ∅⟩
  endStatus := ⟨0, ∅⟩
  buffer := ""
  terminated := false
  saves _ := true
  synced := .ok ()
  ran := .ok ""
  prepared := .ok ()
  turn := .ok .replied
  exits := []
  typed := ""
  reports := .ok []
  held := .left
  template := none
  refusal := none
  screen := none
  file := .ok none
  fileNow := .ok none
  fileSaves := .ok ()
  starts := true
  seen := ⟨fun _ => none, []⟩
  asked := false
  costUsd := 0
  judged := none
  unread := []
  answered := []
  watched := none
  refused := none
  suggestion := none
  switches _ := .ok ()
  threadRuns _ := .ok ""
  local_ _ := .ok ()

/-- The line at the prompt, and what is queued during its turn. -/
def typing (line : String) (entries : List String) : Answers :=
  { quiet with submitted := .ok (some line), exits := entries.map .submitted }

theorem demo_queue_empty :
    (∀ before after s, [typing "fix the test" ["!!ls", "then stop"], quiet, quiet] = before ++ after →
      rounds demoConfig {} before = .ok s → s.pending = none →
      s.carried = [] ∧ Waits s.events none [] ∧
        ∀ x, x.submitted = .ok none → round demoConfig x s = .error ⟨.quit, s⟩) ↔
    ∀ before x after s, [typing "fix the test" ["!!ls", "then stop"], quiet, quiet] =
      before ++ x :: after → rounds demoConfig {} before = .ok s → HandsOn x s :=
  queue_empty_at_prompt_iff (by decide +kernel)

/-- A cell that was queued behind a `/nudge` still waits when the prompt is read. -/
theorem nudge_leaves_queue : ¬ ∀ (c : ChatConfig) (answers : List Answers) (s : Loop),
    rounds c {} answers = .ok s → s.pending = none → s.carried = [] := by
  intro h
  have hleft : (match rounds demoConfig {} [typing "fix the test" ["/nudge GUZ-1", "!ls"], quiet] with
      | .ok s => s.pending.isNone && s.carried == ["!ls"]
      | .error _ => false) = true := by decide +kernel
  split at hleft
  next s hs =>
    rw [Bool.and_eq_true, Option.isNone_iff_eq_none, beq_iff_eq] at hleft
    have hempty := h demoConfig _ s hs hleft.1
    rw [hleft.2] at hempty
    cases hempty
  next => cases hleft

end Ralph.Chat
