import Mathlib.Tactic
import Ralph.Worker.PermissionQueue

namespace Ralph.Worker
open Opencode PermissionQueue

variable {ι R : Type*}

inductive PermissionCall (R : Type*)
  | enqueue (reply : R) (content : BlockedContent)
  | enqueueUnlessRefusing (reply : R) (content : BlockedContent)
  | takeAnswer (requestId text : String)
  | settle (matched : R → Bool)
  | drainAndRefuse
  | acceptAgain
  | drain

/-- A call that has changed the queue and still has to push its event. Only `drain` has let go
of the lock by then. -/
structure Push where
  event : PermissionEvent
  holds : Bool

/-- The queue with the events pushed so far and what became of the reply handles. -/
structure PermissionState (R : Type*) where
  q : PermissionQueue R
  events : List PermissionEvent
  given : Multiset (R × BlockedContent)
  returned : Multiset R
  refused : Multiset R
  dropped : Multiset R

namespace PermissionState

def start : PermissionState R := ⟨.new, [], 0, 0, 0, 0⟩

/-- The lock is kept until the event that names the queue is pushed. -/
def publish (s : PermissionState R) : PermissionState R × Option Push := (s, some ⟨s.q.published, true⟩)

def enqueued (process : String) (s : PermissionState R) (reply : R) (content : BlockedContent) :
    PermissionState R :=
  { s with q := s.q.push process reply content, given := (reply, content) ::ₘ s.given }

def emptied (s : PermissionState R) : PermissionState R :=
  { s with q := s.q.drained, returned := s.q.replies + s.returned }

/-- The locked part of a call, up to its push. -/
def locked (process : String) (s : PermissionState R) :
    PermissionCall R → PermissionState R × Option Push
  | .enqueue reply content => (s.enqueued process reply content).publish
  | .enqueueUnlessRefusing reply content =>
    if s.q.refusing then
      ({ s with given := (reply, content) ::ₘ s.given, refused := reply ::ₘ s.refused }, none)
    else (s.enqueued process reply content).publish
  | .takeAnswer requestId text =>
    match s.q.takeAnswer requestId text with
    | .error _ => (s, none)
    | .ok (reply, _, q) => { s with q := q, returned := reply ::ₘ s.returned }.publish
  | .settle matched =>
    -- nothing is published when no question matched
    if (s.q.settle matched).queue.length = s.q.queue.length then (s, none)
    else { s with q := s.q.settle matched, dropped := s.q.settled matched + s.dropped }.publish
  | .drainAndRefuse =>
    ({ s.emptied with q := { s.q.drained with refusing := true } }, some ⟨.settled, true⟩)
  | .acceptAgain => ({ s with q := { s.q with refusing := false } }, none)
  | .drain => (s.emptied, some ⟨.settled, false⟩)

def pushed (s : PermissionState R) (event : PermissionEvent) : PermissionState R :=
  { s with events := s.events ++ [event] }

end PermissionState

/-- The queue and the calls in progress. -/
structure PermissionWorld (ι R : Type*) where
  state : PermissionState R
  thread : ι → Option Push

namespace PermissionWorld

def start : PermissionWorld ι R := ⟨.start, fun _ => none⟩

/-- No call holds the lock. -/
def Unlocked (w : PermissionWorld ι R) : Prop := ∀ i, ∀ p ∈ w.thread i, p.holds = false

def Quiet (w : PermissionWorld ι R) : Prop := ∀ i, w.thread i = none

inductive PermissionStep (ι R : Type*)
  | call (i : ι) (call : PermissionCall R)
  | push (i : ι)

variable [DecidableEq ι]

/-- The locked part of a call of thread `i`. -/
def called (process : String) (w : PermissionWorld ι R) (i : ι) (call : PermissionCall R) :
    PermissionWorld ι R :=
  ⟨(w.state.locked process call).1, Function.update w.thread i (w.state.locked process call).2⟩

/-- Thread `i` pushes its event and its call is over. -/
def told (w : PermissionWorld ι R) (i : ι) (p : Push) : PermissionWorld ι R :=
  ⟨w.state.pushed p.event, Function.update w.thread i none⟩

/-- A thread gets the lock and changes the queue, or pushes its event. -/
inductive Step (process : String) : PermissionWorld ι R → PermissionStep ι R → PermissionWorld ι R → Prop
  | call {w : PermissionWorld ι R} (i : ι) (call : PermissionCall R) (hidle : w.thread i = none)
      (hlock : w.Unlocked) : Step process w (.call i call) (w.called process i call)
  | push {w : PermissionWorld ι R} (i : ι) (p : Push) (hpush : w.thread i = some p) :
      Step process w (.push i) (w.told i p)

/-- Any steps of any threads. -/
abbrev Run (process : String) : PermissionWorld ι R → PermissionWorld ι R → Prop :=
  Relation.ReflTransGen fun w w' => ∃ a, Step process w a w'

/-- A push without the lock comes while no request waits, or while a later event is due. -/
def Timely (w : PermissionWorld ι R) : PermissionStep ι R → Prop
  | .call _ _ => True
  | .push i => ∀ p ∈ w.thread i, p.holds = false → w.state.q.queue = [] ∨ ¬ w.Unlocked

abbrev TimelyRun (process : String) : PermissionWorld ι R → PermissionWorld ι R → Prop :=
  Relation.ReflTransGen fun w w' => ∃ a, w.Timely a ∧ Step process w a w'

end PermissionWorld

namespace PermissionState

/-- Each reply handle is queued, was returned, was refused at the door or was dropped. -/
def Accounted (s : PermissionState R) : Prop :=
  s.given.map Prod.fst = (s.q.replies : Multiset R) + s.returned + s.refused + s.dropped

/-- A waiting request was given in, and has an id of this process. -/
def Published (process : String) (s : PermissionState R) : Prop :=
  ∀ pending ∈ s.q.queue, ∃ content, (pending.reply, content) ∈ s.given ∧
    pending.content = { content with requestId := processRequestId process content.requestId }

theorem accounted_enqueued (process : String) {s : PermissionState R} (h : s.Accounted) (reply : R)
    (content : BlockedContent) : (s.enqueued process reply content).Accounted := by
  have hqueue : ((s.enqueued process reply content).q.replies : Multiset R) =
      reply ::ₘ (s.q.replies : Multiset R) := by
    simp [enqueued, PermissionQueue.push, replies, ← Multiset.cons_coe, ← Multiset.coe_add, add_comm]
  unfold Accounted at *
  rw [hqueue, enqueued, Multiset.map_cons, h]
  simp only [Multiset.cons_add]

theorem published_enqueued {process : String} {s : PermissionState R} (h : s.Published process) (reply : R)
    (content : BlockedContent) : (s.enqueued process reply content).Published process := by
  intro pending hpending
  obtain hpending | hpending := List.mem_append.mp hpending
  · obtain ⟨content', hgiven, heq⟩ := h pending hpending
    exact ⟨content', Multiset.mem_cons_of_mem hgiven, heq⟩
  · rw [List.mem_singleton.mp hpending]
    exact ⟨content, Multiset.mem_cons_self _ _, rfl⟩

theorem accounted_emptied {s : PermissionState R} (h : s.Accounted) : s.emptied.Accounted := by
  unfold Accounted at *
  have hqueue : (s.emptied.q.replies : Multiset R) = 0 := rfl
  rw [hqueue]
  show s.given.map Prod.fst = 0 + ((s.q.replies : Multiset R) + s.returned) + s.refused + s.dropped
  rw [h, zero_add]

theorem replies_settle (q : PermissionQueue R) (matched : R → Bool) :
    (q.replies : Multiset R) = ((q.settle matched).replies : Multiset R) + q.settled matched := by
  have hkept : (q.settle matched).replies = q.replies.filter fun reply => !matched reply := by
    rw [replies, replies, PermissionQueue.settle, List.filter_map]
    rfl
  rw [hkept, PermissionQueue.settled, Multiset.coe_add, Multiset.coe_eq_coe]
  exact (List.perm_append_comm.trans (List.filter_append_perm matched q.replies)).symm

theorem locked_of_error (process : String) {s : PermissionState R} {requestId text message : String}
    (h : s.q.takeAnswer requestId text = .error message) :
    s.locked process (.takeAnswer requestId text) = (s, none) := by
  rw [locked, h]

theorem locked_of_ok (process : String) {s : PermissionState R} {requestId text : String} {reply : R}
    {option : PermissionOption} {q : PermissionQueue R}
    (h : s.q.takeAnswer requestId text = .ok (reply, option, q)) :
    s.locked process (.takeAnswer requestId text) =
      { s with q := q, returned := reply ::ₘ s.returned }.publish := by
  rw [locked, h]

/-- Whatever the call does, each handle is in one place. -/
theorem accounted_locked (process : String) {s : PermissionState R} (h : s.Accounted)
    (call : PermissionCall R) : (s.locked process call).1.Accounted := by
  cases call with
  | enqueue reply content => exact accounted_enqueued process h reply content
  | enqueueUnlessRefusing reply content =>
    rw [locked]
    split_ifs
    · unfold Accounted at *
      rw [Multiset.map_cons, h]
      simp only [Multiset.cons_add, Multiset.add_cons]
    · exact accounted_enqueued process h reply content
  | takeAnswer requestId text =>
    cases hanswer : s.q.takeAnswer requestId text with
    | error message =>
      rw [locked_of_error process hanswer]
      exact h
    | ok answer =>
      obtain ⟨reply, option, q⟩ := answer
      rw [locked_of_ok process hanswer]
      -- the answered question leaves the queue, and its handle is returned
      obtain ⟨before, pending, after, hqueue, hqueue', -, rfl, -⟩ := takeAnswer_eq hanswer
      unfold Accounted at *
      show s.given.map Prod.fst = (q.replies : Multiset R) + (pending.reply ::ₘ s.returned) + s.refused + s.dropped
      have hreplies : (s.q.replies : Multiset R) = pending.reply ::ₘ (q.replies : Multiset R) := by
        rw [replies, replies, hqueue, hqueue', Multiset.cons_coe, Multiset.coe_eq_coe]
        simp
      rw [h, hreplies]
      simp only [Multiset.cons_add, Multiset.add_cons]
  | settle matched =>
    rw [locked]
    split_ifs
    · exact h
    · unfold Accounted at *
      show s.given.map Prod.fst = ((s.q.settle matched).replies : Multiset R) + s.returned + s.refused +
        (s.q.settled matched + s.dropped)
      rw [h, replies_settle s.q matched]
      ac_rfl
  | drainAndRefuse => exact accounted_emptied h
  | acceptAgain => exact h
  | drain => exact accounted_emptied h

theorem published_locked {process : String} {s : PermissionState R} (h : s.Published process)
    (call : PermissionCall R) : (s.locked process call).1.Published process := by
  cases call with
  | enqueue reply content => exact published_enqueued h reply content
  | enqueueUnlessRefusing reply content =>
    rw [locked]
    split_ifs
    · intro pending hpending
      obtain ⟨content', hgiven, heq⟩ := h pending hpending
      exact ⟨content', Multiset.mem_cons_of_mem hgiven, heq⟩
    · exact published_enqueued h reply content
  | takeAnswer requestId text =>
    cases hanswer : s.q.takeAnswer requestId text with
    | error message =>
      rw [locked_of_error process hanswer]
      exact h
    | ok answer =>
      obtain ⟨reply, option, q⟩ := answer
      rw [locked_of_ok process hanswer]
      obtain ⟨before, pending, after, hqueue, hqueue', -⟩ := takeAnswer_eq hanswer
      intro kept hkept
      apply h kept
      have hmem : kept ∈ before ++ after := hqueue' ▸ hkept
      rw [hqueue]
      exact (List.Sublist.append_left (List.sublist_cons_self pending after) before).subset hmem
  | settle matched =>
    rw [locked]
    split_ifs
    · exact h
    · exact fun pending hpending => h pending (List.mem_of_mem_filter hpending)
  | drainAndRefuse | drain => exact fun _ hpending => absurd hpending List.not_mem_nil
  | acceptAgain => exact h

/-- The locked part pushes nothing. It leaves the queue as it was, or it owes the event that
names the queue, under the lock or for an empty queue. -/
theorem owes_locked (process : String) (s : PermissionState R) (call : PermissionCall R) :
    (s.locked process call).1.events = s.events ∧
      match (s.locked process call).2 with
      | none => (s.locked process call).1.q.queue = s.q.queue
      | some p => p.event = (s.locked process call).1.q.published ∧
        (p.holds = false → (s.locked process call).1.q.queue = []) := by
  cases call with
  | enqueue reply content => exact ⟨rfl, rfl, nofun⟩
  | enqueueUnlessRefusing reply content =>
    rw [locked]
    split_ifs
    · exact ⟨rfl, rfl⟩
    · exact ⟨rfl, rfl, nofun⟩
  | takeAnswer requestId text =>
    cases hanswer : s.q.takeAnswer requestId text with
    | error message =>
      rw [locked_of_error process hanswer]
      exact ⟨rfl, rfl⟩
    | ok answer =>
      obtain ⟨reply, option, q⟩ := answer
      rw [locked_of_ok process hanswer]
      exact ⟨rfl, rfl, nofun⟩
  | settle matched =>
    rw [locked]
    split_ifs
    · exact ⟨rfl, rfl⟩
    · exact ⟨rfl, rfl, nofun⟩
  | drainAndRefuse => exact ⟨rfl, rfl, fun _ => rfl⟩
  | acceptAgain => exact ⟨rfl, rfl⟩
  | drain => exact ⟨rfl, rfl, fun _ => rfl⟩

/-- A refused answer changes nothing. A taken one gives the handle of the request with the very
id, which is an id of this process, and an option of that request. -/
structure AnswersTruly (process : String) (s : PermissionState R) : Prop where
  refused : ∀ {requestId text message}, s.q.takeAnswer requestId text = .error message →
    s.locked process (.takeAnswer requestId text) = (s, none)
  taken : ∀ {requestId text reply option q}, s.q.takeAnswer requestId text = .ok (reply, option, q) →
    ∃ content, (reply, content) ∈ s.given ∧
      Chat.trim requestId = processRequestId process content.requestId ∧
      option ∈ content.options ∧ option.optionId = Chat.trim text

theorem Published.answersTruly {process : String} {s : PermissionState R} (h : s.Published process) :
    s.AnswersTruly process where
  refused := locked_of_error process
  taken := by
    intro requestId text reply option q hanswer
    obtain ⟨before, pending, after, hqueue, -, -, rfl, hid, hoption, htext⟩ := takeAnswer_eq hanswer
    have hpending : pending ∈ s.q.queue := by
      rw [hqueue]
      exact List.mem_append_right _ List.mem_cons_self
    obtain ⟨content, hgiven, hcontent⟩ := h pending hpending
    rw [hcontent] at hid hoption
    exact ⟨content, hgiven, hid.symm, hoption, htext⟩

/-- The last event names the queue: the front with all waiting ids, or that all is settled. -/
def Names (s : PermissionState R) : Prop :=
  s.q.queue = [] ∧ s.events = [] ∨ s.events.getLast? = some s.q.published

end PermissionState

namespace PermissionQueue

theorem published_of_empty {q : PermissionQueue R} (h : q.queue = []) : q.published = .settled := by
  rw [published, h]
  rfl

theorem published_congr {q q' : PermissionQueue R} (h : q.queue = q'.queue) : q.published = q'.published := by
  rw [published, published, ids, ids, h]

end PermissionQueue

namespace PermissionWorld

variable [DecidableEq ι] {process : String} {w w' : PermissionWorld ι R} {a : PermissionStep ι R}

/-- One call holds the lock at most, and it owes the event that names the queue. -/
structure Ordered (w : PermissionWorld ι R) : Prop where
  held : ∀ i, ∀ p ∈ w.thread i, p.holds = true → p.event = w.state.q.published
  free : ∀ i, ∀ p ∈ w.thread i, p.holds = false → p.event = .settled
  one : ∀ i, ∀ p ∈ w.thread i, p.holds = true → ∀ j, ∀ p' ∈ w.thread j, p'.holds = true → i = j

theorem Ordered.step (h : w.Ordered) (hstep : Step process w a w') : w'.Ordered := by
  cases hstep with
  | call i call hidle hlock =>
    obtain ⟨-, howes⟩ := PermissionState.owes_locked process w.state call
    have hthread : ∀ j, ∀ p ∈ Function.update w.thread i (w.state.locked process call).2 j,
        p.holds = true → j = i := by
      intro j p hp hholds
      by_contra hne
      rw [Function.update_of_ne hne] at hp
      rw [hlock j p hp] at hholds
      exact Bool.noConfusion hholds
    have howed : ∀ p ∈ (w.state.locked process call).2,
        p.event = (w.state.locked process call).1.q.published ∧
          (p.holds = false → (w.state.locked process call).1.q.queue = []) := by
      intro p hp
      rw [Option.mem_def.mp hp] at howes
      exact howes
    refine ⟨fun j p hp hholds => ?_, fun j p hp hholds => ?_, fun j p hp hholds k p' hp' hholds' => ?_⟩
    · dsimp only [called] at hp
      rw [hthread j p hp hholds, Function.update_self] at hp
      exact (howed p hp).1
    · dsimp only [called] at hp
      by_cases hj : j = i
      · rw [hj, Function.update_self] at hp
        rw [(howed p hp).1, published_of_empty ((howed p hp).2 hholds)]
      · rw [Function.update_of_ne hj] at hp
        exact h.free j p hp hholds
    · exact (hthread j p hp hholds).trans (hthread k p' hp' hholds').symm
  | push i p hpush =>
    have hthread : ∀ j, ∀ p' ∈ Function.update w.thread i none j, p' ∈ w.thread j := by
      intro j p' hp'
      by_cases hj : j = i
      · rw [hj, Function.update_self] at hp'
        exact absurd hp' (Option.not_mem_none p')
      · rwa [Function.update_of_ne hj] at hp'
    exact ⟨fun j p' hp' => h.held j p' (hthread j p' hp'), fun j p' hp' => h.free j p' (hthread j p' hp'),
      fun j p' hp' hholds k p'' hp'' => h.one j p' (hthread j p' hp') hholds k p'' (hthread k p'' hp'')⟩

/-- While no call holds the lock, the last event names the queue, or an empty queue is still to
be told of. -/
def Shown (w : PermissionWorld ι R) : Prop :=
  w.Unlocked → w.state.events.getLast? = some w.state.q.published ∨
    w.state.q.queue = [] ∧ (w.state.events = [] ∨ ¬ w.Quiet)

theorem Shown.step (hordered : w.Ordered) (h : w.Shown) (htimely : w.Timely a)
    (hstep : Step process w a w') : w'.Shown := by
  intro hfree
  cases hstep with
  | call i call hidle hlock =>
    obtain ⟨hevents, howes⟩ := PermissionState.owes_locked process w.state call
    -- a call that changed the queue owes a push, which is now its own
    cases hpush : (w.state.locked process call).2 with
    | some p =>
      rw [hpush] at howes
      have hthread : Function.update w.thread i (w.state.locked process call).2 i = some p := by
        rw [Function.update_self, hpush]
      refine .inr ⟨howes.2 (hfree i p hthread), .inr fun hquiet => ?_⟩
      have hidle : (w.called process i call).thread i = none := hquiet i
      exact Option.some_ne_none p (hthread.symm.trans hidle)
    | none =>
      rw [hpush] at howes
      dsimp only [called]
      rw [hevents, howes, published_congr howes]
      obtain hlast | ⟨hempty, hnone | hbusy⟩ := h hlock
      · exact .inl hlast
      · exact .inr ⟨hempty, .inl hnone⟩
      · refine .inr ⟨hempty, .inr fun hquiet => hbusy fun j => ?_⟩
        by_cases hj : j = i
        · rw [hj, hidle]
        · have hother : Function.update w.thread i _ j = none := hquiet j
          rwa [Function.update_of_ne hj] at hother
  -- a push under the lock shows the queue, and a timely one outside it an empty queue
  | push i p hpush =>
    have hlast : (w.state.pushed p.event).events.getLast? = some p.event := List.getLast?_concat
    refine .inl (hlast.trans (congrArg some ?_))
    show p.event = w.state.q.published
    cases hholds : p.holds with
    | true => exact hordered.held i p hpush hholds
    | false =>
      rw [hordered.free i p hpush hholds]
      obtain hempty | hlocked := htimely p hpush hholds
      · exact (published_of_empty hempty).symm
      · refine absurd (fun j p' hp' => ?_) hlocked
        by_cases hj : j = i
        · rw [hj, hpush] at hp'
          cases hp'
          exact hholds
        · apply hfree j p'
          show p' ∈ Function.update w.thread i none j
          rw [Function.update_of_ne hj]
          exact hp'

theorem accounted_step (haccounted : w.state.Accounted) (hpublished : w.state.Published process)
    (hstep : Step process w a w') : w'.state.Accounted ∧ w'.state.Published process := by
  cases hstep with
  | call i call hidle hlock =>
    exact ⟨PermissionState.accounted_locked process haccounted call,
      PermissionState.published_locked hpublished call⟩
  | push i p hpush => exact ⟨haccounted, hpublished⟩

theorem accounted_run (h : Run process start w) : w.state.Accounted ∧ w.state.Published process := by
  induction h with
  | refl => exact ⟨rfl, fun _ hpending => absurd hpending List.not_mem_nil⟩
  | tail _ hstep ih =>
    obtain ⟨a, hstep⟩ := hstep
    exact accounted_step ih.1 ih.2 hstep

theorem shown_run (h : TimelyRun process start w) : w.Ordered ∧ w.Shown := by
  induction h with
  | refl => exact ⟨⟨nofun, nofun, nofun⟩, fun _ => .inr ⟨rfl, .inl rfl⟩⟩
  | tail _ hstep ih =>
    obtain ⟨a, htimely, hstep⟩ := hstep
    exact ⟨ih.1.step hstep, Shown.step ih.1 ih.2 htimely hstep⟩

/-- In every run each handle is in one place and each answer fits its request, and where `drain`
pushes its event in time the last event names the queue whenever no call is in progress. -/
theorem shown_truly_of_timely (process : String) :
    (∀ w : PermissionWorld ι R, Run process start w →
      w.state.Accounted ∧ w.state.AnswersTruly process) ∧
    ∀ w : PermissionWorld ι R, TimelyRun process start w → w.Quiet → w.state.Names := by
  constructor
  · intro w hrun
    obtain ⟨haccounted, hpublished⟩ := accounted_run hrun
    exact ⟨haccounted, hpublished.answersTruly⟩
  · intro w hrun hquiet
    have hfree : w.Unlocked := by
      intro i p hp
      rw [hquiet i] at hp
      exact absurd hp (Option.not_mem_none p)
    obtain hlast | ⟨hempty, hnone | hbusy⟩ := (shown_run hrun).2 hfree
    · exact .inr hlast
    · exact .inl ⟨hempty, hnone⟩
    · exact absurd hquiet hbusy

def asking : BlockedContent := ⟨"r1", "shell", "ls", [⟨"once", "once", "allow_once"⟩], []⟩

/-- A drain that still has to push its event. -/
def drained : PermissionWorld Bool ℕ := called "p" start false .drain

/-- A request that is about to be published, and the drain before it. -/
def met : PermissionWorld Bool ℕ := called "p" drained true (.enqueue 7 asking)

/-- The drain pushes its event while the other call holds the lock, and the last event names the
request. -/
theorem shown_truly_of_timely_met : ∃ w : PermissionWorld Bool ℕ, TimelyRun "p" start w ∧
    w.Quiet ∧ w.state.q.queue.length = 1 ∧ w.state.Names ∧ w.state.Accounted := by
  have hdrain : Step "p" start (.call false .drain) drained :=
    .call false .drain rfl fun _ _ hp => absurd hp (Option.not_mem_none _)
  have hunlocked : drained.Unlocked := by
    unfold Unlocked
    decide
  have hask : Step "p" drained (.call true (.enqueue 7 asking)) met := .call true _ rfl hunlocked
  have hheld : ¬ met.Unlocked := by
    unfold Unlocked
    decide
  have hsettle : Step "p" met (.push false) (met.told false ⟨.settled, false⟩) := .push false _ rfl
  have htell : Step "p" (met.told false ⟨.settled, false⟩) (.push true)
      ((met.told false ⟨.settled, false⟩).told true ⟨met.state.q.published, true⟩) := .push true _ rfl
  have hlate : Timely met (.push false) := fun _ _ _ => .inr hheld
  have hlocked : Timely (met.told false ⟨.settled, false⟩) (.push true) := by
    rintro p hp hfree
    obtain rfl : ⟨met.state.q.published, true⟩ = p := Option.some.inj hp
    exact absurd hfree (by decide)
  have htimely : TimelyRun "p" start
      ((met.told false ⟨.settled, false⟩).told true ⟨met.state.q.published, true⟩) :=
    .tail (.tail (.tail (.tail .refl ⟨.call false .drain, trivial, hdrain⟩)
      ⟨.call true (.enqueue 7 asking), trivial, hask⟩) ⟨_, hlate, hsettle⟩) ⟨_, hlocked, htell⟩
  have hrun : Run "p" start
      ((met.told false ⟨.settled, false⟩).told true ⟨met.state.q.published, true⟩) :=
    .tail (.tail (.tail (.tail .refl ⟨_, hdrain⟩) ⟨_, hask⟩) ⟨_, hsettle⟩) ⟨_, htell⟩
  have hquiet : ((met.told false ⟨.settled, false⟩).told true ⟨met.state.q.published, true⟩).Quiet := by
    unfold Quiet
    decide
  obtain ⟨hstate, hshown⟩ := @shown_truly_of_timely Bool ℕ _ "p"
  exact ⟨_, htimely, hquiet, rfl, hshown _ htimely hquiet, (hstate _ hrun).1⟩

/-- A request that came in meanwhile. -/
def waiting : PermissionWorld Bool ℕ :=
  (called "p" drained true (.enqueue 7 asking)).told true
    ⟨(drained.state.enqueued "p" 7 asking).q.published, true⟩

/-- A request comes in while `drain` has let go of the lock: it waits while all looks settled. -/
theorem late_drain_hides_request :
    ¬ ∀ w : PermissionWorld Bool ℕ, Run "p" start w → w.Quiet → w.state.Names := by
  intro h
  have hdrain : Step "p" start (.call false .drain) drained :=
    .call false .drain rfl fun _ _ hp => absurd hp (Option.not_mem_none _)
  have hunlocked : drained.Unlocked := by
    unfold Unlocked
    decide
  have hask : Step "p" drained (.call true (.enqueue 7 asking)) (called "p" drained true (.enqueue 7 asking)) :=
    .call true _ rfl hunlocked
  have htell : Step "p" (called "p" drained true (.enqueue 7 asking)) (.push true) waiting := .push true _ rfl
  have hsettle : Step "p" waiting (.push false) (waiting.told false ⟨.settled, false⟩) := .push false _ rfl
  have hrun : Run "p" start (waiting.told false ⟨.settled, false⟩) :=
    .tail (.tail (.tail (.tail .refl ⟨_, hdrain⟩) ⟨_, hask⟩) ⟨_, htell⟩) ⟨_, hsettle⟩
  have hquiet : (waiting.told false ⟨.settled, false⟩).Quiet := by
    unfold Quiet
    decide
  obtain ⟨hempty, -⟩ | hlast := h _ hrun hquiet
  · exact List.cons_ne_nil _ _ hempty
  · exact absurd hlast (by decide)

end PermissionWorld

end Ralph.Worker
