import Ralph.Snapshot.Turns

namespace Ralph.Snapshot
open Chat

inductive ChangeScope
  | worker (id : String)
  | workerTurn (id : String) (turn : ℕ)
  | workerSince (id : String) (turn : ℕ)
  | chatTurn (turn : ℕ)
  | chatSince (turn : ℕ)
  deriving DecidableEq, Repr

inductive TurnWindow
  | last (count : ℕ)
  | ago (count : ℕ)
  deriving DecidableEq, Repr

inductive ScopeQuery
  | chat (window : TurnWindow)
  | worker (id : String) (window : Option TurnWindow)
  deriving DecidableEq, Repr

structure SnapshotRange where
  start : String
  stop : Option String
  deriving DecidableEq, Repr

/-- The names of a list of refs. -/
def refSet (list : String) : List String := (Text.lines list).map trim

def require (refs : List String) (name missing : String) : Except String String :=
  if name ∈ refs then .ok name else .error missing

/-- The first and the last step that a window covers, the oldest first. -/
def windowSteps (window : TurnWindow) (steps : ℕ) : Option (ℕ × ℕ) :=
  match window with
  | .last count => if 1 ≤ count ∧ count ≤ steps then some (steps - count, steps - 1) else none
  | .ago count => if 1 ≤ count ∧ count ≤ steps then some (steps - count, steps - count) else none

def windowError (window : TurnWindow) (steps : ℕ) (owner : String) : String :=
  let (key, count) := match window with
    | .last count => ("last", count)
    | .ago count => ("ago", count)
  s!"{key}={count} is more than the {steps} finished turns of {owner}; use {key} {steps} or less"

def chatRange (refs : List String) (list : String) (window : TurnWindow) :
    Except String (ChangeScope × SnapshotRange) := do
  let finished := (parseTurns list).filter fun turn => chatRef turn .finish ∈ refs
  if finished = [] then .error "no finished chat turn snapshots yet"
  else
    match windowSteps window finished.length with
    | none => .error (windowError window finished.length "the chat")
    | some (first, last) =>
      let first := finished.getD first 0
      let last := finished.getD last 0
      let start ← require refs (chatRef first .start) s!"chat turn {first} has no start snapshot"
      return (if first = last then .chatTurn last else .chatSince first, ⟨start, some (chatRef last .finish)⟩)

def workerRange (refs : List String) (list id : String) (window : Option TurnWindow) :
    Except String (ChangeScope × SnapshotRange) := do
  let turns := parseWorkerTurns id list
  match turns.getLast? with
  | none => .error s!"no snapshots for worker {id}"
  | some highest =>
    let (scope, first, last) ← match window with
      | none => .ok (.worker id, 0, highest)
      | some window =>
        let steps := turns.length - 1
        match windowSteps window steps with
        | none => .error (windowError window steps s!"worker {id}")
        | some (first, last) =>
          let first := turns.getD first 0
          let last := turns.getD (last + 1) 0
          .ok (match window with
            | .ago _ => .workerTurn id last
            | .last _ => .workerSince id first, first, last)
    let start ← require refs (workerRef id first) s!"worker {id} has no snapshot for turn {first}"
    let stop ← require refs (workerRef id last) s!"worker {id} has no snapshot for turn {last}"
    return (scope, ⟨start, some stop⟩)

/-- `resolve_range`, without the format, the paths and the size of the request. -/
def resolveRange (scope : ScopeQuery) (list : String) : Except String (ChangeScope × SnapshotRange) :=
  match scope with
  | .chat window => chatRange (refSet list) list window
  | .worker id window => workerRange (refSet list) list id window

theorem mem_refSet {refs : Refs} (h : ∀ name ∈ refs, CleanRef name) (name : String) :
    name ∈ refSet (refList refs) ↔ name ∈ refs := by
  rw [refSet, lines_refList h, List.mem_map]
  constructor
  · rintro ⟨other, hother, rfl⟩
    rw [List.mem_mergeSort] at hother
    rw [(h other hother).trimmed]
    exact hother
  · intro hname
    exact ⟨name, List.mem_mergeSort.mpr hname, (h name hname).trimmed⟩

theorem require_of_mem {refs : List String} {name : String} (h : name ∈ refs) (missing : String) :
    require refs name missing = .ok name := if_pos h

theorem require_of_notMem {refs : List String} {name : String} (h : name ∉ refs) (missing : String) :
    require refs name missing = .error missing := if_neg h

theorem windowSteps_last (count steps : ℕ) : windowSteps (.last count) steps =
    if 1 ≤ count ∧ count ≤ steps then some (steps - count, steps - 1) else none := rfl

theorem windowSteps_ago (count steps : ℕ) : windowSteps (.ago count) steps =
    if 1 ≤ count ∧ count ≤ steps then some (steps - count, steps - count) else none := rfl

theorem exists_mem_some_if {α : Type*} {p : Prop} [Decidable p] {a : α} {q : α → Prop} :
    (∃ x ∈ if p then some a else none, q x) ↔ p ∧ q a := by
  split_ifs with h <;> simp [h]

/-- A window of a worker with `length` snapshots goes over the turns after the first one. -/
theorem lt_iff_le_pred_of_one_le {count length : ℕ} :
    (1 ≤ count ∧ count < length) ↔ (1 ≤ count ∧ count ≤ length - 1) := by
  omega

theorem windowSteps_lt {window : TurnWindow} {steps first last : ℕ}
    (h : windowSteps window steps = some (first, last)) : first < steps ∧ last < steps := by
  cases window with
  | last count =>
    rw [windowSteps_last] at h
    split_ifs at h with hcount
    cases h
    omega
  | ago count =>
    rw [windowSteps_ago] at h
    split_ifs at h with hcount
    cases h
    omega

theorem getLast?_range' (start : ℕ) {count : ℕ} (h : 0 < count) :
    (List.range' start count).getLast? = some (start + count - 1) := by
  obtain ⟨n, rfl⟩ := Nat.exists_eq_add_of_lt h
  rw [Nat.zero_add, List.range'_1_concat, List.getLast?_concat]
  rfl

theorem getD_range' {start count i : ℕ} (h : i < count) : (List.range' start count).getD i 0 = start + i := by
  rw [List.getD_eq_getElem?_getD, List.getElem?_range' h, Nat.one_mul]
  rfl

section Worker

variable {id : String} (hid : Text.OneLine id) {refs : Refs} {log : TurnLog Unit}
  (h : log.Holds 0 (fun _ turn => [workerRef id turn]) refs) (hfits : log.entries.length ≤ 2 ^ 64)

include hid h hfits

theorem parseWorkerTurns_of_holds : parseWorkerTurns id (refList refs) =
    List.range' log.pruned (log.entries.length - log.pruned) := by
  have hparsed := h.parseRefs (worker_numbering hid) (by omega)
  rw [Nat.zero_add] at hparsed
  exact hparsed

theorem workerRef_mem {turn : ℕ} (hturn : turn < log.entries.length) :
    workerRef id turn ∈ refSet (refList refs) ↔ log.pruned ≤ turn := by
  rw [mem_refSet (h.clean (worker_numbering hid)), h.mem]
  constructor
  · rintro ⟨i, entry, hi, hentry, hname⟩
    have hsmall : 0 + log.entries.length ≤ 2 ^ 64 := by omega
    have hnumber := (worker_numbering hid).number_of_mem hsmall hentry hname
    rw [workerTurn_workerRef hid (by omega)] at hnumber
    have hsame := Option.some.inj hnumber
    omega
  · intro hle
    exact ⟨turn, _, hle, List.getElem?_eq_getElem hturn, by rw [Nat.zero_add]; exact List.mem_singleton_self _⟩

theorem workerRange_none (hkept : log.pruned < log.entries.length) :
    resolveRange (.worker id none) (refList refs) =
      if log.pruned = 0 then
        .ok (.worker id, ⟨workerRef id 0, some (workerRef id (log.entries.length - 1))⟩)
      else .error s!"worker {id} has no snapshot for turn {0}" := by
  have hlast : (parseWorkerTurns id (refList refs)).getLast? = some (log.entries.length - 1) := by
    rw [parseWorkerTurns_of_holds hid h hfits, getLast?_range' _ (by omega)]
    congr 1
    omega
  have hstop := (workerRef_mem hid h hfits (by omega : log.entries.length - 1 < _)).mpr (by omega)
  rw [resolveRange, workerRange]
  dsimp only
  rw [hlast]
  dsimp only
  split_ifs with hzero
  · have hstart := (workerRef_mem hid h hfits (by omega : 0 < _)).mpr (by omega)
    simp only [bind, Except.bind, require_of_mem hstart, require_of_mem hstop]
    rfl
  · have hstart : workerRef id 0 ∉ refSet (refList refs) := by
      rw [workerRef_mem hid h hfits (by omega)]
      omega
    simp only [bind, Except.bind, require_of_notMem hstart]

theorem workerRange_some (hkept : log.pruned < log.entries.length) (window : TurnWindow) :
    resolveRange (.worker id (some window)) (refList refs) =
      match windowSteps window (log.entries.length - log.pruned - 1) with
      | none => .error (windowError window (log.entries.length - log.pruned - 1) s!"worker {id}")
      | some (first, last) =>
        .ok (match window with
          | .ago _ => .workerTurn id (log.pruned + last + 1)
          | .last _ => .workerSince id (log.pruned + first),
          ⟨workerRef id (log.pruned + first), some (workerRef id (log.pruned + last + 1))⟩) := by
  have hturns := parseWorkerTurns_of_holds hid h hfits
  have hlast : (parseWorkerTurns id (refList refs)).getLast? = some (log.entries.length - 1) := by
    rw [hturns, getLast?_range' _ (by omega)]
    congr 1
    omega
  rw [resolveRange, workerRange]
  dsimp only
  rw [hlast, hturns, List.length_range']
  dsimp only
  cases hsteps : windowSteps window (log.entries.length - log.pruned - 1) with
  | none => rfl
  | some steps =>
    rcases steps with ⟨first, last⟩
    have hlt := windowSteps_lt hsteps
    have hstart := (workerRef_mem hid h hfits (by omega : log.pruned + first < _)).mpr (by omega)
    have hstop := (workerRef_mem hid h hfits (by omega : log.pruned + last + 1 < _)).mpr (by omega)
    have hfirst : (List.range' log.pruned (log.entries.length - log.pruned)).getD first 0 = log.pruned + first :=
      getD_range' (by omega)
    have hnext : (List.range' log.pruned (log.entries.length - log.pruned)).getD (last + 1) 0 =
        log.pruned + last + 1 := getD_range' (by omega)
    simp only [bind, Except.bind, hfirst, hnext, require_of_mem hstart, require_of_mem hstop]
    rfl

theorem workerRange_empty (hnone : log.entries.length = log.pruned) (window : Option TurnWindow)
    (found : ChangeScope × SnapshotRange) : resolveRange (.worker id window) (refList refs) ≠ .ok found := by
  have hturns : parseWorkerTurns id (refList refs) = [] := by
    rw [parseWorkerTurns_of_holds hid h hfits, hnone, Nat.sub_self]
    rfl
  intro hok
  rw [resolveRange, workerRange, hturns] at hok
  cases hok

end Worker

/-- The kept turns with an end snapshot, by the turns that took one. -/
def finishedTurns (kept : List ℕ) (entries : List ChatEntry) : List ℕ :=
  kept.filter fun turn => entries[turn - 1]?.any ChatEntry.finished

/-- The turn has a start snapshot. -/
def StartTaken (entries : List ChatEntry) (turn : ℕ) : Prop := entries[turn - 1]?.any ChatEntry.started

section Chat

variable {refs : Refs} {log : TurnLog ChatEntry}
  (h : log.Holds 1 (fun entry turn => entry.edges.map (chatRef turn)) refs) (hfits : log.entries.length < 2 ^ 64)

theorem chatRef_injective {turn turn' : ℕ} (hturn : turn < 2 ^ 64) {edge edge' : Edge}
    (heq : chatRef turn edge = chatRef turn' edge') (hturn' : turn' < 2 ^ 64) : turn = turn' ∧ edge = edge' := by
  have hnumber := chatTurn_chatRef hturn edge
  rw [heq, chatTurn_chatRef hturn' edge'] at hnumber
  have hsame := Option.some.inj hnumber
  subst hsame
  refine ⟨rfl, ?_⟩
  have hlist := congrArg String.toList heq
  simp only [chatRef, String.toList_append, List.append_assoc, List.append_cancel_left_eq] at hlist
  cases edge with
  | start =>
    cases edge' with
    | start => rfl
    | finish => exact absurd hlist (by decide)
  | finish =>
    cases edge' with
    | start => exact absurd hlist (by decide)
    | finish => rfl

theorem mem_edges {entry : ChatEntry} {edge : Edge} : edge ∈ entry.edges ↔
    (edge = .start ∧ entry.started = true) ∨ (edge = .finish ∧ entry.finished = true) := by
  unfold ChatEntry.edges
  cases entry.started with
  | false =>
    cases entry.finished with
    | false => simp
    | true => simp
  | true =>
    cases entry.finished with
    | false => simp
    | true => simp

include h hfits

theorem parseTurns_of_holds : parseTurns (refList refs) =
    List.range' (1 + log.pruned) (log.entries.length - log.pruned) :=
  h.parseRefs chat_numbering (by omega)

theorem chatRef_mem {i : ℕ} (hi : i < log.entries.length) (edge : Edge) :
    chatRef (1 + i) edge ∈ refSet (refList refs) ↔ log.pruned ≤ i ∧ edge ∈ log.entries[i].edges := by
  rw [mem_refSet (h.clean chat_numbering), h.mem]
  constructor
  · rintro ⟨j, entry, hj, hentry, hname⟩
    rw [List.mem_map] at hname
    rcases hname with ⟨other, hother, heq⟩
    have hlt := (List.getElem?_eq_some_iff.mp hentry).1
    have hsame := chatRef_injective (by omega) heq (by omega)
    have hij : j = i := by omega
    subst hij
    rw [List.getElem?_eq_getElem hlt, Option.some_inj] at hentry
    rw [hentry, ← hsame.2]
    exact ⟨hj, hother⟩
  · rintro ⟨hle, hedge⟩
    exact ⟨i, _, hle, List.getElem?_eq_getElem hi, List.mem_map_of_mem hedge⟩

theorem chatRef_mem_of_kept {turn : ℕ} (hturn : turn ∈ parseTurns (refList refs)) :
    (chatRef turn .start ∈ refSet (refList refs) ↔ StartTaken log.entries turn) ∧
      (chatRef turn .finish ∈ refSet (refList refs) ↔ log.entries[turn - 1]?.any ChatEntry.finished) := by
  rw [parseTurns_of_holds h hfits, List.mem_range'_1] at hturn
  have hlt : turn - 1 < log.entries.length := by omega
  have hsum : 1 + (turn - 1) = turn := by omega
  have hstart := chatRef_mem h hfits hlt .start
  have hfinish := chatRef_mem h hfits hlt .finish
  rw [hsum, mem_edges] at hstart hfinish
  rw [hstart, hfinish, StartTaken, List.getElem?_eq_getElem hlt]
  have hle : log.pruned ≤ turn - 1 := by omega
  simp [hle]

theorem chatRange_of_holds (window : TurnWindow) :
    resolveRange (.chat window) (refList refs) =
      let finished := finishedTurns (parseTurns (refList refs)) log.entries
      if finished = [] then .error "no finished chat turn snapshots yet"
      else
        match windowSteps window finished.length with
        | none => .error (windowError window finished.length "the chat")
        | some (first, last) =>
          let first := finished.getD first 0
          let last := finished.getD last 0
          (require (refSet (refList refs)) (chatRef first .start) s!"chat turn {first} has no start snapshot").map
            fun start => (if first = last then .chatTurn last else .chatSince first,
              ⟨start, some (chatRef last .finish)⟩) := by
  have hfinished : (parseTurns (refList refs)).filter (fun turn => chatRef turn .finish ∈ refSet (refList refs)) =
      finishedTurns (parseTurns (refList refs)) log.entries := by
    apply List.filter_congr
    intro turn hturn
    rw [Bool.eq_iff_iff, decide_eq_true_iff]
    exact (chatRef_mem_of_kept h hfits hturn).2
  rw [resolveRange, chatRange]
  dsimp only
  rw [hfinished]
  split_ifs
  · rfl
  · cases windowSteps window (finishedTurns (parseTurns (refList refs)) log.entries).length with
    | none => rfl
    | some steps => rfl

/-- A window over the finished turns is resolved if its first turn has a start snapshot. -/
theorem chatRange_iff (window : TurnWindow) (found : ChangeScope × SnapshotRange) :
    resolveRange (.chat window) (refList refs) = .ok found ↔
      ∃ steps ∈ windowSteps window (finishedTurns (parseTurns (refList refs)) log.entries).length,
        let first := (finishedTurns (parseTurns (refList refs)) log.entries).getD steps.1 0
        let last := (finishedTurns (parseTurns (refList refs)) log.entries).getD steps.2 0
        StartTaken log.entries first ∧
          found = (if first = last then .chatTurn last else .chatSince first,
            ⟨chatRef first .start, some (chatRef last .finish)⟩) := by
  rw [chatRange_of_holds h hfits]
  dsimp only
  have hkept : ∀ i < (finishedTurns (parseTurns (refList refs)) log.entries).length,
      (finishedTurns (parseTurns (refList refs)) log.entries).getD i 0 ∈ parseTurns (refList refs) := by
    intro i hi
    rw [List.getD_eq_getElem?_getD, List.getElem?_eq_getElem hi, Option.getD_some]
    exact List.mem_of_mem_filter (List.getElem_mem hi)
  cases hsteps : windowSteps window (finishedTurns (parseTurns (refList refs)) log.entries).length with
  | none =>
    split_ifs
    · simp
    · simp
  | some steps =>
    have hlt := @windowSteps_lt _ _ steps.1 steps.2 hsteps
    have hne : finishedTurns (parseTurns (refList refs)) log.entries ≠ [] := by
      rw [← List.length_pos_iff]
      omega
    rw [if_neg hne]
    simp only [Option.mem_some_iff, exists_eq_left']
    have hstart := (chatRef_mem_of_kept h hfits (hkept steps.1 hlt.1)).1
    by_cases htaken : StartTaken log.entries ((finishedTurns (parseTurns (refList refs)) log.entries).getD steps.1 0)
    · rw [require_of_mem (hstart.mpr htaken), Except.map, Except.ok.injEq, eq_comm]
      exact (and_iff_right htaken).symm
    · rw [require_of_notMem (mt hstart.mp htaken), Except.map]
      constructor
      · intro herror
        cases herror
      · intro hok
        exact absurd hok.1 htaken

end Chat

/-- The spawn has a snapshot, and no prune has dropped it. -/
def SpawnKept (calls : List TurnTry) : Prop :=
  (∃ call ∈ calls.head?, call.taken = true) ∧
    ∀ before call, before ++ [call] <+: calls → call.taken = true → call.pruned = true →
      before.countP TurnTry.taken < keepTurns

theorem pruned_workerLog (calls : List TurnTry) : (workerLog calls).pruned = 0 ↔
    ∀ before call, before ++ [call] <+: calls → call.taken = true → call.pruned = true →
      before.countP TurnTry.taken < keepTurns := by
  induction calls using List.reverseRecOn with
  | nil =>
    refine iff_of_true rfl fun before call hbefore => ?_
    exact absurd (List.prefix_nil.mp hbefore) (List.append_ne_nil_of_right_ne_nil _ (List.cons_ne_nil _ _))
  | append_singleton calls last ih =>
    have hnext : (workerLog (calls ++ [last])).pruned = 0 ↔ (workerLog calls).pruned = 0 ∧
        (last.taken = true → last.pruned = true → calls.countP TurnTry.taken < keepTurns) := by
      have hlength := length_entries_workerLog calls
      rw [workerLog_concat, TurnLog.next, TurnTry.entry]
      cases htaken : last.taken with
      | false => simp
      | true =>
        cases hpruned : last.pruned with
        | false => simp
        | true =>
          simp only [Bool.and_self, if_true, Option.toList_some, List.length_append, List.length_singleton, hlength,
            forall_const]
          omega
    rw [hnext, ih]
    constructor
    · rintro ⟨hfront, hlast⟩ before call hbefore
      rcases List.prefix_concat_iff.mp hbefore with heq | hearlier
      · have hsame := List.append_inj' heq rfl
        rw [hsame.1, List.singleton_inj.mp hsame.2]
        exact hlast
      · exact hfront before call hearlier
    · intro hall
      exact ⟨fun before call hbefore => hall before call (hbefore.trans (List.prefix_append ..)),
        hall calls last List.prefix_rfl⟩

/-- The number of the snapshot so many snapshots back. -/
def back (numbers : List ℕ) (count : ℕ) : ℕ := numbers.getD (numbers.length - 1 - count) 0

theorem back_range' {first count length : ℕ} (h : count < length) :
    back (List.range' first length) count = first + (length - 1 - count) := by
  rw [back, List.length_range', getD_range' (by omega)]

section Runs

variable {id : String} (hid : Text.OneLine id) (calls : List TurnTry) (hcalls : calls.length ≤ 2 ^ 64)

include hid hcalls

/-- What a run of a worker leaves. -/
theorem worker_run :
    let refs := Machine.after (snapshotTurn id) [] calls
    (workerLog calls).Holds 0 (fun _ turn => [workerRef id turn]) refs ∧
      (workerLog calls).entries.length ≤ 2 ^ 64 ∧
      Machine.outputs (snapshotTurn id) [] calls = List.range' 0 (workerLog calls).entries.length ∧
      (parseWorkerTurns id (refList refs)).length = (workerLog calls).entries.length - (workerLog calls).pruned := by
  intro refs
  have hrun := worker_holds hid calls hcalls
  have hfits : (workerLog calls).entries.length ≤ 2 ^ 64 := by
    rw [length_entries_workerLog]
    exact List.countP_le_length.trans hcalls
  refine ⟨hrun.1, hfits, hrun.2, ?_⟩
  rw [parseWorkerTurns_of_holds hid hrun.1 hfits, List.length_range']

/-- A window of a worker, counted back from the newest snapshot. -/
theorem worker_window (window : TurnWindow) (found : ChangeScope × SnapshotRange) :
    let list := refList (Machine.after (snapshotTurn id) [] calls)
    let numbers := Machine.outputs (snapshotTurn id) [] calls
    let steps := (parseWorkerTurns id list).length - 1
    resolveRange (.worker id (some window)) list = .ok found ↔
      ∃ found' ∈ windowSteps window steps,
        let first := back numbers (steps - found'.1)
        let last := back numbers (steps - found'.2 - 1)
        found = (match window with
          | .ago _ => .workerTurn id last
          | .last _ => .workerSince id first,
          ⟨workerRef id first, some (workerRef id last)⟩) := by
  dsimp only
  obtain ⟨hholds, hfits, hnumbers, hlength⟩ := worker_run hid calls hcalls
  rw [hnumbers, hlength]
  rcases hholds.kept with hkept | ⟨hnil, hzero⟩
  · rw [workerRange_some hid hholds hfits hkept]
    cases hsteps : windowSteps window ((workerLog calls).entries.length - (workerLog calls).pruned - 1) with
    | none =>
      refine iff_of_false ?_ ?_
      · intro hok
        cases hok
      · rintro ⟨_, hnone, _⟩
        cases hnone
    | some pair =>
      obtain ⟨first, last⟩ := pair
      obtain ⟨hfirst, hlast⟩ := windowSteps_lt hsteps
      have hstart : (workerLog calls).pruned + first = 0 + ((workerLog calls).entries.length - 1 -
          ((workerLog calls).entries.length - (workerLog calls).pruned - 1 - first)) := by omega
      have hend : (workerLog calls).pruned + last + 1 = 0 + ((workerLog calls).entries.length - 1 -
          ((workerLog calls).entries.length - (workerLog calls).pruned - 1 - last - 1)) := by omega
      dsimp only
      rw [hstart, hend, ← back_range' (by omega), ← back_range' (by omega), Except.ok.injEq, eq_comm]
      refine ⟨fun hfound => ⟨_, rfl, hfound⟩, ?_⟩
      rintro ⟨_, hpair, hfound⟩
      cases hpair
      exact hfound
  · refine iff_of_false (workerRange_empty hid hholds hfits (by rw [hnil, hzero]; rfl) _ _) ?_
    rw [hnil, hzero]
    rintro ⟨_, hsteps, _⟩
    exact Nat.not_lt_zero _ (windowSteps_lt hsteps).1

theorem worker_last (count : ℕ) (found : ChangeScope × SnapshotRange) :
    let list := refList (Machine.after (snapshotTurn id) [] calls)
    let numbers := Machine.outputs (snapshotTurn id) [] calls
    resolveRange (.worker id (some (.last count))) list = .ok found ↔
      (1 ≤ count ∧ count < (parseWorkerTurns id list).length) ∧
        found = (.workerSince id (back numbers count),
          ⟨workerRef id (back numbers count), some (workerRef id (back numbers 0))⟩) := by
  refine (worker_window hid calls hcalls (.last count) found).trans ?_
  dsimp only
  rw [windowSteps_last, exists_mem_some_if, lt_iff_le_pred_of_one_le, and_congr_right_iff]
  intro hcount
  dsimp only
  rw [Nat.sub_sub_self hcount.2, Nat.sub_sub_self (hcount.1.trans hcount.2), Nat.sub_self]

theorem worker_ago (count : ℕ) (found : ChangeScope × SnapshotRange) :
    let list := refList (Machine.after (snapshotTurn id) [] calls)
    let numbers := Machine.outputs (snapshotTurn id) [] calls
    resolveRange (.worker id (some (.ago count))) list = .ok found ↔
      (1 ≤ count ∧ count < (parseWorkerTurns id list).length) ∧
        found = (.workerTurn id (back numbers (count - 1)),
          ⟨workerRef id (back numbers count), some (workerRef id (back numbers (count - 1)))⟩) := by
  refine (worker_window hid calls hcalls (.ago count) found).trans ?_
  dsimp only
  rw [windowSteps_ago, exists_mem_some_if, lt_iff_le_pred_of_one_le, and_congr_right_iff]
  intro hcount
  dsimp only
  rw [Nat.sub_sub_self hcount.2]

/-- Without a window a range starts at the spawn as long as its snapshot is there. -/
theorem worker_since_spawn :
    let list := refList (Machine.after (snapshotTurn id) [] calls)
    let numbers := Machine.outputs (snapshotTurn id) [] calls
    (∃ spawn newest, (∃ call ∈ calls.head?, (snapshotTurn id [] call).2 = [spawn]) ∧ numbers.getLast? = some newest ∧
      resolveRange (.worker id none) list =
        .ok (.worker id, ⟨workerRef id spawn, some (workerRef id newest)⟩)) ↔ SpawnKept calls := by
  dsimp only
  obtain ⟨hholds, hfits, hnumbers, -⟩ := worker_run hid calls hcalls
  have hspawn : ∀ call spawn, (snapshotTurn id [] call).2 = [spawn] ↔ call.taken = true ∧ spawn = 0 := by
    intro call spawn
    have hfirst : nextWorkerTurn (parseWorkerTurns id (refList [])) = 0 := by
      have hstart := @TurnLog.holds_start Unit 0 fun _ turn => [workerRef id turn]
      exact hstart.nextAfter (worker_numbering hid) (by simp)
    rw [snapshotTurn, hfirst]
    cases htaken : call.taken with
    | false => simp
    | true =>
      rw [if_pos rfl]
      constructor
      · intro hsame
        exact ⟨rfl, (List.singleton_inj.mp hsame).symm⟩
      · intro hsame
        rw [hsame.2]
  -- the spawn is the turn zero, which is there as long as nothing is pruned
  rw [SpawnKept, ← pruned_workerLog, hnumbers]
  constructor
  · rintro ⟨spawn, newest, ⟨call, hcall, hturn⟩, hnewest, hrange⟩
    refine ⟨⟨call, hcall, ((hspawn call spawn).mp hturn).1⟩, ?_⟩
    rcases hholds.kept with hkept | ⟨_, hzero⟩
    · by_contra hpruned
      rw [workerRange_none hid hholds hfits hkept, if_neg hpruned] at hrange
      cases hrange
    · exact hzero
  · rintro ⟨⟨call, hcall, htaken⟩, hzero⟩
    have hpos : 0 < (workerLog calls).entries.length := by
      rw [length_entries_workerLog, List.countP_pos_iff]
      exact ⟨call, List.mem_of_mem_head? hcall, htaken⟩
    refine ⟨0, (workerLog calls).entries.length - 1, ⟨call, hcall, (hspawn call 0).mpr ⟨htaken, rfl⟩⟩, ?_, ?_⟩
    · rw [getLast?_range' _ hpos, Nat.zero_add]
    · rw [workerRange_none hid hholds hfits (by omega), if_pos hzero]

omit hid hcalls in
theorem entries_chatLog (turns : List ChatTry) : (chatLog turns).entries = turns.filterMap ChatTry.entry := by
  induction turns using List.reverseRecOn with
  | nil => rfl
  | append_singleton turns turn ih =>
    rw [chatLog_concat, TurnLog.next, List.filterMap_append, ← ih]
    dsimp only
    cases hentry : turn.entry with
    | none => simp [hentry]
    | some entry => simp [hentry]

end Runs

section ChatRuns

variable (turns : List ChatTry) (hturns : turns.length < 2 ^ 64)

include hturns

theorem chat_run :
    let refs := Machine.after around [] turns
    (chatLog turns).Holds 1 (fun entry turn => entry.edges.map (chatRef turn)) refs ∧
      (chatLog turns).entries.length < 2 ^ 64 ∧
      Machine.outputs around [] turns = List.range' 1 (chatLog turns).entries.length := by
  intro refs
  have hrun := chat_holds turns hturns
  exact ⟨hrun.1, (length_entries_chatLog turns).trans_lt hturns, hrun.2⟩

theorem chat_last (count : ℕ) (found : ChangeScope × SnapshotRange) :
    let list := refList (Machine.after around [] turns)
    let entries := turns.filterMap ChatTry.entry
    let finished := finishedTurns (parseTurns list) entries
    resolveRange (.chat (.last count)) list = .ok found ↔
      (1 ≤ count ∧ count ≤ finished.length) ∧ StartTaken entries (back finished (count - 1)) ∧
        found = (if back finished (count - 1) = back finished 0 then .chatTurn (back finished 0)
          else .chatSince (back finished (count - 1)),
          ⟨chatRef (back finished (count - 1)) .start, some (chatRef (back finished 0) .finish)⟩) := by
  dsimp only
  obtain ⟨hholds, hfits, -⟩ := chat_run turns hturns
  rw [← entries_chatLog, chatRange_iff hholds hfits, windowSteps_last, exists_mem_some_if, and_congr_right_iff]
  generalize finishedTurns (parseTurns (refList (Machine.after around [] turns))) (chatLog turns).entries = finished
  intro hcount
  have hfirst : finished.length - count = finished.length - 1 - (count - 1) := by omega
  rw [back, back, ← hfirst]
  rfl

theorem chat_ago (count : ℕ) (found : ChangeScope × SnapshotRange) :
    let list := refList (Machine.after around [] turns)
    let entries := turns.filterMap ChatTry.entry
    let finished := finishedTurns (parseTurns list) entries
    resolveRange (.chat (.ago count)) list = .ok found ↔
      (1 ≤ count ∧ count ≤ finished.length) ∧ StartTaken entries (back finished (count - 1)) ∧
        found = (.chatTurn (back finished (count - 1)),
          ⟨chatRef (back finished (count - 1)) .start, some (chatRef (back finished (count - 1)) .finish)⟩) := by
  dsimp only
  obtain ⟨hholds, hfits, -⟩ := chat_run turns hturns
  rw [← entries_chatLog, chatRange_iff hholds hfits, windowSteps_ago, exists_mem_some_if, and_congr_right_iff]
  generalize finishedTurns (parseTurns (refList (Machine.after around [] turns))) (chatLog turns).entries = finished
  intro hcount
  have hfirst : finished.length - count = finished.length - 1 - (count - 1) := by omega
  dsimp only
  rw [back, ← hfirst, if_pos rfl]

theorem chat_refs_exist (window : TurnWindow) (found : ChangeScope × SnapshotRange)
    (h : resolveRange (.chat window) (refList (Machine.after around [] turns)) = .ok found) :
    found.2.start ∈ Machine.after around [] turns ∧
      ∀ stop ∈ found.2.stop, stop ∈ Machine.after around [] turns := by
  obtain ⟨hholds, hfits, -⟩ := chat_run turns hturns
  rw [chatRange_iff hholds hfits] at h
  rcases h with ⟨steps, hsteps, hstart, hfound⟩
  have hlt := @windowSteps_lt _ _ steps.1 steps.2 hsteps
  have hmem : ∀ i < (finishedTurns (parseTurns (refList (Machine.after around [] turns))) (chatLog turns).entries).length,
      (finishedTurns (parseTurns (refList (Machine.after around [] turns))) (chatLog turns).entries).getD i 0 ∈
        finishedTurns (parseTurns (refList (Machine.after around [] turns))) (chatLog turns).entries := by
    intro i hi
    rw [List.getD_eq_getElem?_getD, List.getElem?_eq_getElem hi, Option.getD_some]
    exact List.getElem_mem hi
  have hrefs := mem_refSet (hholds.clean chat_numbering)
  rw [hfound]
  constructor
  · rw [← hrefs]
    exact (chatRef_mem_of_kept hholds hfits (List.mem_of_mem_filter (hmem steps.1 hlt.1))).1.mpr hstart
  · intro stop hstop
    rw [← Option.some.inj hstop, ← hrefs]
    have hlast := hmem steps.2 hlt.2
    exact (chatRef_mem_of_kept hholds hfits (List.mem_of_mem_filter hlast)).2.mpr (List.mem_filter.mp hlast).2

end ChatRuns

/-- Turn numbers are not used again, and every range over the kept turns is resolved, except that a range
without a window needs the first turn of the worker, and one of the chat the start of its first turn. -/
theorem ranges_follow_turns {id : String} (hid : Text.OneLine id) (calls : List TurnTry)
    (hcalls : calls.length ≤ 2 ^ 64) (turns : List ChatTry) (hturns : turns.length < 2 ^ 64) :
    let list := refList (Machine.after (snapshotTurn id) [] calls)
    let numbers := Machine.outputs (snapshotTurn id) [] calls
    let kept := parseWorkerTurns id list
    let chat := Machine.after around [] turns
    let entries := turns.filterMap ChatTry.entry
    let finished := finishedTurns (parseTurns (refList chat)) entries
    numbers.Pairwise (· < ·) ∧ (Machine.outputs around [] turns).Pairwise (· < ·) ∧
    ((∃ spawn newest, (∃ call ∈ calls.head?, (snapshotTurn id [] call).2 = [spawn]) ∧
      numbers.getLast? = some newest ∧ resolveRange (.worker id none) list =
        .ok (.worker id, ⟨workerRef id spawn, some (workerRef id newest)⟩)) ↔ SpawnKept calls) ∧
    (∀ count found, resolveRange (.worker id (some (.last count))) list = .ok found ↔
      (1 ≤ count ∧ count < kept.length) ∧ found = (.workerSince id (back numbers count),
        ⟨workerRef id (back numbers count), some (workerRef id (back numbers 0))⟩)) ∧
    (∀ count found, resolveRange (.worker id (some (.ago count))) list = .ok found ↔
      (1 ≤ count ∧ count < kept.length) ∧ found = (.workerTurn id (back numbers (count - 1)),
        ⟨workerRef id (back numbers count), some (workerRef id (back numbers (count - 1)))⟩)) ∧
    (∀ count found, resolveRange (.chat (.last count)) (refList chat) = .ok found ↔
      (1 ≤ count ∧ count ≤ finished.length) ∧ StartTaken entries (back finished (count - 1)) ∧
        found = (if back finished (count - 1) = back finished 0 then .chatTurn (back finished 0)
          else .chatSince (back finished (count - 1)),
          ⟨chatRef (back finished (count - 1)) .start, some (chatRef (back finished 0) .finish)⟩)) ∧
    (∀ count found, resolveRange (.chat (.ago count)) (refList chat) = .ok found ↔
      (1 ≤ count ∧ count ≤ finished.length) ∧ StartTaken entries (back finished (count - 1)) ∧
        found = (.chatTurn (back finished (count - 1)),
          ⟨chatRef (back finished (count - 1)) .start, some (chatRef (back finished (count - 1)) .finish)⟩)) ∧
    ∀ window found, resolveRange (.chat window) (refList chat) = .ok found →
      found.2.start ∈ chat ∧ ∀ stop ∈ found.2.stop, stop ∈ chat := by
  dsimp only
  refine ⟨?_, ?_, worker_since_spawn hid calls hcalls, worker_last hid calls hcalls, worker_ago hid calls hcalls,
    chat_last turns hturns, chat_ago turns hturns, chat_refs_exist turns hturns⟩
  · rw [(worker_run hid calls hcalls).2.2.1]
    exact range'_sorted _ _
  · rw [(chat_run turns hturns).2.2]
    exact range'_sorted _ _

/-- The spawn and twenty turns, with every prune. -/
theorem since_spawn_lost :
    ¬ ∃ spawn newest, (∃ call ∈ (List.replicate 21 (TurnTry.mk true true)).head?,
        (snapshotTurn "A" [] call).2 = [spawn]) ∧
      (Machine.outputs (snapshotTurn "A") [] (List.replicate 21 ⟨true, true⟩)).getLast? = some newest ∧
      resolveRange (.worker "A" none) (refList (Machine.after (snapshotTurn "A") [] (List.replicate 21 ⟨true, true⟩))) =
        .ok (.worker "A", ⟨workerRef "A" spawn, some (workerRef "A" newest)⟩) := by
  have hid : Text.OneLine "A" := by decide
  have hiff := worker_since_spawn hid (List.replicate 21 ⟨true, true⟩) (by decide)
  intro hrange
  have hkept := hiff.mp hrange
  have hwhole : List.replicate 20 (TurnTry.mk true true) ++ [⟨true, true⟩] <+: List.replicate 21 ⟨true, true⟩ := by
    rw [← List.replicate_succ']
  have hlast := hkept.2 _ _ hwhole rfl rfl
  revert hlast
  decide

/-- A worker and a chat after one turn each. -/
theorem ranges_follow_turns_once :
    let list := refList (Machine.after (snapshotTurn "A") [] [⟨true, true⟩, ⟨true, true⟩])
    let numbers := Machine.outputs (snapshotTurn "A") [] [⟨true, true⟩, ⟨true, true⟩]
    numbers.Pairwise (· < ·) ∧
      ((∃ spawn newest, (∃ call ∈ [TurnTry.mk true true, ⟨true, true⟩].head?, (snapshotTurn "A" [] call).2 = [spawn]) ∧
        numbers.getLast? = some newest ∧ resolveRange (.worker "A" none) list =
          .ok (.worker "A", ⟨workerRef "A" spawn, some (workerRef "A" newest)⟩)) ↔
        SpawnKept [⟨true, true⟩, ⟨true, true⟩]) := by
  have hall := @ranges_follow_turns "A" (by decide) [⟨true, true⟩, ⟨true, true⟩] (by decide)
    [⟨true, true, true, true⟩] (by decide)
  exact ⟨hall.1, hall.2.2.1⟩

end Ralph.Snapshot
