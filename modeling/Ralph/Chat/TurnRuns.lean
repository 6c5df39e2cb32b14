import Ralph.Chat.ChatTurn

namespace Ralph.Chat.Turn
open ChatMemory

def Message.lines (sent : Message) : List Line := triggerEntries sent.trigger sent.logged

/-- The turn had a reply that counts, and left the process below its limit of tokens. -/
def Call.Replied (limits : ResetLimits) (c : Call) (reply : String) : Prop :=
  ∃ done, c.result = .ok done ∧ done.reply = some reply ∧ done.exitCode = 0 ∧
    hitBlockingLimit done.costs = false ∧
    ∀ tokens, done.costs.contextTokens = some tokens → tokens < limits.tokens

/-- The lines that the turns of this chat put in the log. -/
def own (log : List Entry) : List Line :=
  log.filterMap fun e => if e.1 = .turn then some e.2 else none

@[simp] theorem own_append (log more : List Entry) : own (log ++ more) = own log ++ own more :=
  List.filterMap_append

/-- What the turns of a process put in the log. Reports of workers whose turn was cancelled before
the process was there are in the log too: it was not told them. -/
inductive Told (limits : ResetLimits) : (missed : List Message) → List Call → List Line → Prop
  | launched : Told limits [] [] []
  | call {missed : List Message} {calls : List Call} {lines : List Line} (c : Call) (reply : String)
      (h : Told limits missed calls lines) (hreply : c.Replied limits reply) :
      Told limits missed (calls ++ [c]) (lines ++ (c.sent.lines ++ replyEntries reply))
  | missed {missed : List Message} {calls : List Call} {lines : List Line} (sent : Message)
      (h : Told limits missed calls lines) (hworker : sent.trigger = .worker) :
      Told limits (missed ++ [sent]) calls (lines ++ sent.lines)

/-- A process that was shown the log as it was, and was then told every line that the turns of this
chat put there, but for `rest` and the last of the reports that were cancelled. -/
def Knows (limits : ResetLimits) (cancelled : List Message) (view : List Line) (calls : List Call)
    (rest : List Line) (log : List Entry) : Prop :=
  ∃ n lines missed, n ≤ log.length ∧ view = (log.take n).map Prod.snd ∧
    own (log.drop n) = lines ++ rest ∧ Told limits missed calls lines ∧ missed <:+ cancelled

section Knows

variable {limits : ResetLimits} {cancelled : List Message} {view : List Line} {calls : List Call}
  {rest more : List Line} {log es : List Entry}

theorem Knows.append (h : Knows limits cancelled view calls rest log) (hes : own es = more) :
    Knows limits cancelled view calls (rest ++ more) (log ++ es) := by
  obtain ⟨n, lines, missed, hn, hview, hlines, htold⟩ := h
  refine ⟨n, lines, missed, ?_, ?_, ?_, htold⟩
  · rw [List.length_append]
    omega
  · rw [List.take_append_of_le_length hn, hview]
  · rw [List.drop_append_of_le_length hn, own_append, hlines, hes, List.append_assoc]

/-- Lines of others change nothing. -/
theorem Knows.others (h : Knows limits cancelled view calls rest log) (hes : own es = []) :
    Knows limits cancelled view calls rest (log ++ es) := by
  have := h.append hes
  rwa [List.append_nil] at this

theorem Knows.call {c : Call} {reply : String} (hreply : c.Replied limits reply)
    (h : Knows limits cancelled view calls (c.sent.lines ++ replyEntries reply) log) :
    Knows limits cancelled view (calls ++ [c]) [] log := by
  obtain ⟨n, lines, missed, hn, hview, hlines, htold, hmissed⟩ := h
  exact ⟨n, _, missed, hn, hview, by rw [hlines, List.append_nil], htold.call c reply hreply, hmissed⟩

theorem Knows.missed {sent : Message} (hworker : sent.trigger = .worker)
    (h : Knows limits cancelled view calls sent.lines log) :
    Knows limits (cancelled ++ [sent]) view calls [] log := by
  obtain ⟨n, lines, missed, hn, hview, hlines, htold, front, rfl⟩ := h
  refine ⟨n, _, missed ++ [sent], hn, hview, by rw [hlines, List.append_nil],
    htold.missed sent hworker, front, ?_⟩
  rw [List.append_assoc]

/-- A process that is launched is shown the log up to the lines of its first turn. -/
theorem Knows.launch {preLogLen : Option ℕ}
    (h : preLogLen.elim (rest = []) fun n => n ≤ log.length ∧ own (log.drop n) = rest) :
    Knows limits cancelled ((preLogLen.elim log log.take).map Prod.snd) [] rest log := by
  cases preLogLen with
  | none =>
    obtain rfl : rest = [] := h
    exact ⟨log.length, [], [], le_rfl, by rw [List.take_length]; rfl,
      by rw [List.drop_length]; rfl, .launched, List.nil_suffix⟩
  | some n => exact ⟨n, [], [], h.1, rfl, h.2, .launched, List.nil_suffix⟩

end Knows

/-- Why a process is gone: it had all the turns that are allowed, its last one filled the context,
it died or could not be reused, its last turn failed, or that turn was cancelled. -/
inductive Ends (limits : ResetLimits) (g : Gone) : ResetReason → Prop
  | turns (h : limits.turns ≤ g.process.calls.length) : Ends limits g .turns
  | tokens {calls : List Call} {sent : Message} {done : RunResult}
      (hcalls : g.process.calls = calls ++ [⟨sent, .ok done⟩])
      (h : done.costs.contextTokens.any (limits.tokens ≤ ·) || hitBlockingLimit done.costs) :
      Ends limits g .tokens
  | dead (h : g.process.alive = false) : Ends limits g .restart
  | failed {calls : List Call} {sent : Message} {done : RunResult}
      (hcalls : g.process.calls = calls ++ [⟨sent, .ok done⟩])
      (h : done.exitCode ≠ 0 ∨ done.reply = none) : Ends limits g .restart
  | cancelled (h : g.cancelled = true) : Ends limits g .restart

/-- Each launch but the first took the reason of the process that was let go before it, and the
reset that is noted is the one of the last of them. -/
structure Traced (limits : ResetLimits) (held : Bool) (s : State) : Prop where
  launched : held = true → s.launches ≠ []
  reset : s.reset = none ↔ held = true ∨ s.launches = []
  reasons : s.launches = [] ∧ s.gone = [] ∨ ∃ reasons : List ResetReason,
    s.launches = none :: reasons.map some ∧
      List.Forall₂ (Ends limits) s.gone (reasons ++ s.reset.toList)

section Notes

variable {limits : ResetLimits} {s s' : State} {held : Bool}

theorem Traced.letGo (h : Traced limits true s) {p : Session} {cancelled : Bool}
    {reason : ResetReason} (hends : Ends limits ⟨p, cancelled⟩ reason) :
    Traced limits false (s.letGo p cancelled reason) := by
  have hne := h.launched rfl
  have hreset : s.reset = none := h.reset.2 (.inl rfl)
  have hnoted : (s.letGo p cancelled reason).reset = some reason := by
    simp [State.letGo, State.noteReset, hreset]
  refine ⟨fun h => absurd h (by decide), by simp [State.letGo, State.noteReset, hne], ?_⟩
  obtain ⟨hnil, -⟩ | ⟨reasons, hlaunches, hall⟩ := h.reasons
  · exact absurd hnil hne
  · rw [hreset, Option.toList_none, List.append_nil] at hall
    refine .inr ⟨reasons, hlaunches, ?_⟩
    rw [hnoted]
    exact List.rel_append hall (.cons hends .nil)

theorem Traced.congr (h : Traced limits held s) (hreset : s'.reset = s.reset)
    (hlaunches : s'.launches = s.launches) (hgone : s'.gone = s.gone) : Traced limits held s' := by
  refine ⟨?_, ?_, ?_⟩
  · rw [hlaunches]
    exact h.launched
  · rw [hreset, hlaunches]
    exact h.reset
  · rw [hreset, hlaunches, hgone]
    exact h.reasons

theorem Traced.start (h : Traced limits false s) :
    Traced limits true { s with reset := none, launches := s.launches ++ [s.reset] } := by
  refine ⟨fun _ => by simp, by simp, .inr ?_⟩
  have hreset : s.reset = none ↔ s.launches = [] := by simpa using h.reset
  obtain ⟨hnil, hgone⟩ | ⟨reasons, hlaunches, hall⟩ := h.reasons
  · exact ⟨[], by simp [hnil, hreset.2 hnil], by simp [hgone]⟩
  · cases hnoted : s.reset with
    | none => simp [hreset.1 hnoted] at hlaunches
    | some reason =>
      rw [hnoted] at hall
      exact ⟨reasons ++ [reason], by simp [hlaunches], by simpa using hall⟩

/-- What changes at the end of a turn only. Others can write to the log. -/
structure Kept (s s' : State) : Prop where
  log : ∃ es, own es = [] ∧ s'.log = s.log ++ es
  turns : s'.processTurns = s.processTurns
  ended : s'.ended = s.ended

theorem Kept.of_eq (hlog : s'.log = s.log) (hturns : s'.processTurns = s.processTurns)
    (hended : s'.ended = s.ended) : Kept s s' :=
  ⟨⟨[], rfl, by rw [hlog, List.append_nil]⟩, hturns, hended⟩

theorem Kept.refl (s : State) : Kept s s := .of_eq rfl rfl rfl

theorem Kept.trans {s'' : State} (h : Kept s s') (h' : Kept s' s'') : Kept s s'' := by
  obtain ⟨es, hes, hlog⟩ := h.log
  obtain ⟨es', hes', hlog'⟩ := h'.log
  refine ⟨⟨es ++ es', by rw [own_append, hes, hes']; rfl, ?_⟩, h'.turns.trans h.turns,
    h'.ended.trans h.ended⟩
  rw [hlog', hlog, List.append_assoc]

theorem Kept.own_log (h : Kept s s') : own s'.log = own s.log := by
  obtain ⟨es, hes, hlog⟩ := h.log
  rw [hlog, own_append, hes, List.append_nil]

theorem dropSession_spec (h : Traced limits s.session.isSome s) {cancelled : Bool}
    {reason : ResetReason} (hends : ∀ p, s.session = some p → Ends limits ⟨p, cancelled⟩ reason) :
    Traced limits false (s.dropSession cancelled reason) ∧
      Kept s (s.dropSession cancelled reason) ∧ (s.dropSession cancelled reason).session = none := by
  rw [State.dropSession]
  cases hsession : s.session with
  | none =>
    rw [hsession] at h
    exact ⟨h, .refl s, hsession⟩
  | some p =>
    rw [hsession] at h
    have hheld : Traced limits true { s with session := none } := h.congr rfl rfl rfl
    exact ⟨hheld.letGo (hends p hsession), .of_eq rfl rfl rfl, rfl⟩

end Notes

section Attempt

variable {limits : ResetLimits} {cancelled : List Message} {lower : String → String} {s s' : State}
  {rest : List Line} {turns : ℕ} {sent : Message} {preLogLen : Option ℕ} {t : Tried} {a : Attempted}

/-- What an attempt leaves of a process: one that was asked this turn last, and that is dead behind
an error. -/
structure Attempted.Spec (limits : ResetLimits) (cancelled : List Message) (rest : List Line) (turns : ℕ)
    (sent : Message) (a : Attempted) (s : State) : Prop where
  told : ∀ p, a.session = some p → a.ran = true ∧ ∃ calls, p.calls = calls ++ [⟨sent, a.result⟩] ∧
    Knows limits cancelled p.view calls rest s.log ∧ calls.length = if a.launched then 0 else turns
  dead : ∀ p e, a.session = some p → a.result = .error e → (∀ r, e ≠ .interrupted r) →
    p.alive = false

/-- What a launch is shown is the log up to the lines of this turn that are in it. -/
def Shown (rest : List Line) (preLogLen : Option ℕ) (log : List Entry) : Prop :=
  preLogLen.elim (rest = []) fun n => n ≤ log.length ∧ own (log.drop n) = rest

theorem Kept.shown (h : Kept s s') (hshown : Shown rest preLogLen s.log) :
    Shown rest preLogLen s'.log := by
  obtain ⟨es, hes, hlog⟩ := h.log
  cases preLogLen with
  | none => exact hshown
  | some n =>
    obtain ⟨hn, hrest⟩ := hshown
    rw [hlog]
    refine ⟨?_, ?_⟩
    · rw [List.length_append]
      omega
    · rw [List.drop_append_of_le_length hn, own_append, hrest, hes, List.append_nil]

/-- The process knows the log up to the lines of this turn. -/
def Ready (limits : ResetLimits) (cancelled : List Message) (rest : List Line) (turns : ℕ) (log : List Entry)
    (p : Session) : Prop :=
  Knows limits cancelled p.view p.calls rest log ∧ p.calls.length = turns

/-- A process whose attempt failed is let go with a reason. -/
theorem Attempted.Spec.ends (h : a.Spec limits cancelled rest turns sent s) {p : Session}
    (hp : a.session = some p) {text : FailureText} (hfailure : failureOf a.result = some text) :
    Ends limits ⟨p, false⟩ .restart := by
  cases hresult : a.result with
  | ok done =>
    obtain ⟨-, calls, hcalls, -⟩ := h.told p hp
    rw [hresult] at hcalls hfailure
    refine .failed hcalls (.inl fun hexit => ?_)
    simp [failureOf, hexit] at hfailure
  | error e =>
    rw [hresult] at hfailure
    refine .dead (h.dead p e hp hresult fun r he => ?_)
    simp [he, failureOf] at hfailure

end Attempt

/-- Between two turns the process knows the log, and is below its limit of turns. -/
structure Inv (limits : ResetLimits) (cancelled : List Message) (s : State) : Prop where
  ready : ∀ p, s.session = some p → Ready limits cancelled [] s.processTurns s.log p
  turns : ∀ p, s.session = some p → 0 < s.processTurns ∧ s.processTurns < limits.turns
  traced : Traced limits s.session.isSome s

/-- What a turn adds to the log: a message and its reply, or no more than the report of a worker. -/
def Adds (turn : Message × TurnOutcome) (lines : List Line) : Prop :=
  match turn.2 with
  | .replied => ∃ reply, lines = turn.1.lines ++ replyEntries reply
  | .unanswered | .exit => lines = if loggedBeforeReply turn.1.trigger then turn.1.lines else []

section Turn

variable {limits : ResetLimits} {cancelled : List Message} {lower : String → String} {s s' : State}
  {before : List Line} {around : Around} {sent : Message} {done : RunResult}
  {outcome : Option TurnOutcome}

/-- The lines that are in the log ahead of the reply. -/
def Message.ahead (sent : Message) : List Line :=
  if loggedBeforeReply sent.trigger then sent.lines else []

/-- How a turn leaves the chat, unless it ends it by an error. -/
def Leaves (limits : ResetLimits) (cancelled : List Message) (before : List Line) (sent : Message) (s : State) :
    Option TurnOutcome → Prop
  | none => True
  | some outcome => (∃ lines, Adds (sent, outcome) lines ∧ own s.log = before ++ lines) ∧
    (outcome ≠ .exit → Inv limits cancelled s)

theorem inv_of_none (h : Traced limits false s) (hsession : s.session = none) : Inv limits cancelled s := by
  refine ⟨by simp [hsession], by simp [hsession], ?_⟩
  rw [hsession]
  exact h

/-- A turn that was run, before its result is looked at. -/
structure Ran (limits : ResetLimits) (cancelled : List Message) (before : List Line) (sent : Message)
    (result : SubprocessOutcome) (s : State) : Prop where
  told : ∀ p, s.session = some p → ∃ calls, p.calls = calls ++ [⟨sent, result⟩] ∧
    Knows limits cancelled p.view calls sent.ahead s.log ∧ s.processTurns = p.calls.length
  traced : Traced limits s.session.isSome s
  log : own s.log = before ++ sent.ahead

theorem Ran.dropped {result : SubprocessOutcome} (h : Ran limits cancelled before sent result s)
    {stopped : Bool} {reason : ResetReason}
    (hends : ∀ p, s.session = some p → Ends limits ⟨p, stopped⟩ reason) :
    Leaves limits cancelled before sent (s.dropSession stopped reason) (some .unanswered) := by
  obtain ⟨htraced, hkept, hsession⟩ := dropSession_spec h.traced hends
  exact ⟨⟨_, rfl, hkept.own_log.trans h.log⟩, fun _ => inv_of_none htraced hsession⟩

theorem resetReason_eq_none {turns : ℕ} {costs : IterationCosts}
    (h : resetReason limits turns costs = none) : turns < limits.turns ∧
      ∀ tokens, costs.contextTokens = some tokens → tokens < limits.tokens := by
  rw [resetReason] at h
  split_ifs at h with hturns htokens
  refine ⟨Nat.lt_of_not_le hturns, fun tokens heq => ?_⟩
  simp only [heq, Option.any_some, Bool.or_eq_true, decide_eq_true_eq, not_or] at htokens
  exact Nat.lt_of_not_le htokens.1

/-- A result without a reply that counts is a reason to let the process go. -/
theorem Ran.unanswered (h : Ran limits cancelled before sent (.ok done) s)
    (hbad : done.reply = none ∨ ¬(done.exitCode = 0 ∧ !hitBlockingLimit done.costs)) :
    Leaves limits cancelled before sent
      (s.dropSession false (if hitBlockingLimit done.costs then .tokens else .restart))
      (some .unanswered) := by
  refine h.dropped fun p hp => ?_
  obtain ⟨calls, hcalls, -⟩ := h.told p hp
  split_ifs with hblocked
  · exact .tokens hcalls (by rw [hblocked, Bool.or_true])
  · refine .failed hcalls (hbad.symm.imp_left fun hbad hexit => hbad ⟨hexit, ?_⟩)
    simpa using hblocked

/-- What the policy of the chat finds of the last turn of a process. -/
theorem Ran.policy (h : Ran limits cancelled before sent (.ok done) s) {reason : ResetReason}
    (hreset : resetReason limits s.processTurns done.costs = some reason) {p : Session}
    (hp : s.session = some p) : Ends limits ⟨p, false⟩ reason := by
  obtain ⟨calls, hcalls, -, hcount⟩ := h.told p hp
  rw [resetReason] at hreset
  split_ifs at hreset with hturns htokens
  · obtain rfl := Option.some.inj hreset
    exact .turns (hcount ▸ hturns)
  · obtain rfl := Option.some.inj hreset
    exact .tokens hcalls htokens

theorem Ran.replied (h : Ran limits cancelled before sent (.ok done) s) {reply : String}
    (hreply : done.reply = some reply) (hexit : done.exitCode = 0)
    (hblocked : hitBlockingLimit done.costs = false)
    (hreset : resetReason limits s.processTurns done.costs = none) {es : List Entry}
    (hes : sent.ahead ++ own es = sent.lines ++ replyEntries reply) :
    Inv limits cancelled { s with log := s.log ++ es } := by
  obtain ⟨hturns, htokens⟩ := resetReason_eq_none hreset
  refine ⟨fun p hp => ?_, fun p hp => ⟨?_, hturns⟩, h.traced.congr rfl rfl rfl⟩
  · obtain ⟨calls, hcalls, hknows, hcount⟩ := h.told p hp
    refine ⟨?_, hcount.symm⟩
    rw [hcalls]
    refine Knows.call (c := ⟨sent, .ok done⟩)
      ⟨done, rfl, hreply, hexit, hblocked, htokens⟩ ?_
    rw [← hes]
    exact hknows.append rfl
  · obtain ⟨calls, hcalls, -, hcount⟩ := h.told p hp
    rw [hcalls, List.length_append, List.length_singleton] at hcount
    change 0 < s.processTurns
    omega

/-- A reply behind which the process is over its limits: it is let go, and the reason is noted. -/
theorem Ran.reset {reason : ResetReason} (h : Ran limits cancelled before sent (.ok done) s)
    (hreset : resetReason limits s.processTurns done.costs = some reason) (log : List Entry) :
    Inv limits cancelled
      (match s.session with
      | some p => { s with
          log := log, session := none, reset := some reason, gone := s.gone ++ [⟨p, false⟩] }
      | none => { s with log := log }) := by
  have htraced := h.traced
  cases hsession : s.session with
  | none =>
    rw [hsession] at htraced
    exact inv_of_none (htraced.congr rfl rfl rfl) rfl
  | some p =>
    rw [hsession] at htraced
    have hnone : s.reset = none := htraced.reset.2 (.inl rfl)
    refine inv_of_none ((htraced.letGo (h.policy hreset hsession)).congr ?_ rfl rfl) rfl
    simp [State.letGo, State.noteReset, hnone]

/-- The report of a worker whose turn is cancelled before there is a process to tell. -/
def Event.missed : Event → List Message
  | .turn around sent =>
    if sent.trigger = .worker ∧ around.cancelledEarly = true then [sent] else []
  | _ => []

/-- A process that was not told a report misses it. -/
theorem Ready.early {turns : ℕ} {log : List Entry} {p : Session}
    (h : Ready limits cancelled sent.ahead turns log p) (hearly : around.cancelledEarly = true) :
    Ready limits (cancelled ++ (Event.turn around sent).missed) [] turns log p := by
  obtain ⟨hknows, hcount⟩ := h
  refine ⟨?_, hcount⟩
  rw [Message.ahead] at hknows
  split_ifs at hknows with hbefore
  · have hworker : sent.trigger = .worker := by simpa [loggedBeforeReply] using hbefore
    rw [Event.missed, if_pos ⟨hworker, hearly⟩]
    exact hknows.missed hworker
  · have hworker : sent.trigger ≠ .worker := by simpa [loggedBeforeReply] using hbefore
    rw [Event.missed, if_neg fun h => hworker h.1, List.append_nil]
    exact hknows

/-- A ping and the death of a process change nothing that it was told. -/
theorem Inv.map (h : Inv limits cancelled s) {f : Session → Session}
    (hf : ∀ p, (f p).view = p.view ∧ (f p).calls = p.calls) :
    Inv limits cancelled { s with session := s.session.map f } := by
  have hsession : ∀ q, s.session.map f = some q → ∃ p, s.session = some p ∧ f p = q := by
    simp [Option.map_eq_some_iff]
  refine ⟨fun q hq => ?_, fun q hq => ?_, ?_⟩
  · obtain ⟨p, hp, rfl⟩ := hsession q hq
    rw [Ready, (hf p).1, (hf p).2]
    exact h.ready p hp
  · obtain ⟨p, hp, rfl⟩ := hsession q hq
    exact h.turns p hp
  · simp only [Option.isSome_map]
    exact h.traced.congr rfl rfl rfl

theorem Inv.others (h : Inv limits cancelled s) {es : List Entry} (hes : own es = []) :
    Inv limits cancelled { s with log := s.log ++ es } :=
  ⟨fun p hp => ⟨(h.ready p hp).1.others hes, (h.ready p hp).2⟩, h.turns, h.traced.congr rfl rfl rfl⟩

end Turn

section Demo

def greeting : RunResult := ⟨0, "", some "hello", ⟨some 900, none⟩⟩

def greets : Answer := ⟨.ok greeting, true⟩

def calm (early : Bool) : Around where
  marks := true
  measures := true
  logs := ⟨[], none⟩
  cancelledEarly := early
  tries := fun _ => ⟨[], greets, .ok (), greets, false, true⟩
  signals := ⟨false, false⟩
  replies := ⟨[], none⟩

def asked : Message := ⟨.user, ["hi"], "hi"⟩

def report (text : String) : Message := ⟨.worker, [text], text⟩

/-- Each of two processes misses a report of its own. -/
def demo : List Event :=
  [.turn (calm false) asked, .turn (calm true) (report "w1 done"), .ping greets, .dies,
    .others [(.user, "else")], .turn (calm false) asked, .turn (calm true) (report "w2 done")]

end Demo

end Ralph.Chat.Turn
