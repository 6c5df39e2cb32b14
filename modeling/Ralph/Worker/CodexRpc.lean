import Mathlib.Data.Finset.Sort
import Ralph.JsonValue

namespace Ralph.Worker.CodexRpc

structure RpcError where
  code : ℤ
  message : String

inductive Incoming
  | response (id : ℕ) (outcome : Except RpcError JsonValue)
  | notification (method : String) (params : JsonValue)
  | serverRequest (id : JsonValue) (method : String) (params : JsonValue)

inductive FrameError
  | malformed (error : String)
  | unrecognized (line : String)
  | unknownId (id : ℕ)

/-- `value.as_i64()`. -/
def asI64 : JsonValue → Option ℤ
  | .number literal =>
    let digits := if literal.toList.head? = some '-' then literal.toList.tail else literal.toList
    let value : ℤ := Nat.ofDigitChars 10 digits 0
    let signed := if literal.toList.head? = some '-' then -value else value
    if digits ≠ [] ∧ digits.all Char.isDigit ∧ -2 ^ 63 ≤ signed ∧ signed < 2 ^ 63 then some signed else none
  | _ => none

structure Rpc where
  last : ℕ
  pending : Finset ℕ
  deferred : List Incoming

namespace Rpc

def empty : Rpc := ⟨0, ∅, []⟩

/-- The id and the frame that is written. -/
def request (r : Rpc) (method : String) (params : JsonValue) : Rpc × ℕ × JsonValue :=
  let id := r.last + 1
  ({ r with last := id, pending := insert id r.pending }, id,
    .object [("jsonrpc", .string "2.0"), ("id", .number (toString id)), ("method", .string method),
      ("params", params)])

def failPending (r : Rpc) : Rpc × List ℕ := ({ r with pending := ∅ }, r.pending.sort)

def settle (r : Rpc) (id : ℕ) (incoming : Incoming) : Rpc × Option (Except RpcError JsonValue) :=
  match incoming with
  | .response answered outcome =>
    if answered = id then (r, some outcome)
    else ({ r with deferred := r.deferred ++ [.response answered outcome] }, none)
  | other => ({ r with deferred := r.deferred ++ [other] }, none)

def nextDeferred (r : Rpc) : Rpc × Option Incoming :=
  match r.deferred with
  | [] => (r, none)
  | incoming :: rest => ({ r with deferred := rest }, some incoming)

/-- What a response says of its call. An `error` member decides, even a null one. -/
def outcomeOf (frame : JsonValue) : Except RpcError JsonValue :=
  match frame.member? "error" with
  | some error => .error
      { code := ((error.member? "code").bind asI64).getD 0
        message := ((error.member? "message").bind JsonValue.asStr).getD "" }
  | none => .ok ((frame.member? "result").getD .null)

/-- One line of the server, read as JSON by `parse`. -/
def receive (parse : String → Except String JsonValue) (r : Rpc) (line : String) :
    Rpc × Except FrameError Incoming :=
  match parse line with
  | .error e => (r, .error (.malformed e))
  | .ok frame =>
    let params := (frame.member? "params").getD .null
    match (frame.member? "method").bind JsonValue.asStr, frame.member? "id" with
    | some method, some id => (r, .ok (.serverRequest id method params))
    | some method, none => (r, .ok (.notification method params))
    | none, some id =>
      match id.asU64 with
      | none => (r, .error (.unrecognized line))
      | some id =>
        if id ∈ r.pending then
          ({ r with pending := r.pending.erase id }, .ok (.response id (outcomeOf frame)))
        else (r, .error (.unknownId id))
    | none, none => (r, .error (.unrecognized line))

end Rpc

/-- The request that a frame answers. -/
def Incoming.answers? : Incoming → Option ℕ
  | .response id _ => some id
  | _ => none

/-- The wire with the lines that the server has yet to send, beside what came of the frames: all that
were read, those that `next` gave out, the answers that calls got, the requests that were given up. -/
structure Session where
  rpc : Rpc
  lines : List String
  received : List Incoming
  delivered : List Incoming
  settled : List (ℕ × Except RpcError JsonValue)
  failed : List ℕ

namespace Session

variable (parse : String → Except String JsonValue)

def start (lines : List String) : Session := ⟨.empty, lines, [], [], [], []⟩

/-- `Wire::next_frame`: nothing while no line comes. -/
def nextFrame (s : Session) : Session × Option (Except FrameError Incoming) :=
  match s.lines with
  | [] => (s, none)
  | line :: lines =>
    match s.rpc.receive parse line with
    | (rpc, .error e) => ({ s with rpc, lines }, some (.error e))
    | (rpc, .ok incoming) =>
      ({ s with rpc, lines, received := s.received ++ [incoming] }, some (.ok incoming))

/-- The loop of `Wire::call`. It reads at most `patience` frames: the deadline and the closing flag
may end it before any of them. -/
def await (id : ℕ) : ℕ → Session → Session
  | 0, s => s
  | patience + 1, s =>
    match s.nextFrame parse with
    | (s, some (.ok incoming)) =>
      match s.rpc.settle id incoming with
      | (rpc, some outcome) => { s with rpc, settled := s.settled ++ [(id, outcome)] }
      | (rpc, none) => await id patience { s with rpc }
    | (s, _) => s

/-- `Wire::next`: a deferred frame before a new one. -/
def next (s : Session) : Session :=
  match s.rpc.nextDeferred with
  | (rpc, some incoming) => { s with rpc, delivered := s.delivered ++ [incoming] }
  | (rpc, none) =>
    match ({ s with rpc } : Session).nextFrame parse with
    | (s, some (.ok incoming)) => { s with delivered := s.delivered ++ [incoming] }
    | (s, _) => s

end Session

/-- What the worker does with its wire: a request whose answer it does not wait for, a call, a frame
for the pump, the end of the process. -/
inductive Op
  | send (method : String) (params : JsonValue)
  | call (method : String) (params : JsonValue) (patience : ℕ)
  | next
  | failPending

namespace Session

variable (parse : String → Except String JsonValue)

def step (s : Session) : Op → Session
  | .send method params => { s with rpc := (s.rpc.request method params).1 }
  | .call method params patience =>
    let (rpc, id, _) := s.rpc.request method params
    await parse id patience { s with rpc }
  | .next => s.next parse
  | .failPending =>
    let (rpc, ids) := s.rpc.failPending
    { s with rpc, failed := s.failed ++ ids }

def run (s : Session) (ops : List Op) : Session := ops.foldl (step parse) s

def answered (s : Session) : List ℕ := s.received.filterMap Incoming.answers?

/-- Frames that no call has taken for itself. -/
def kept (s : Session) (incoming : Incoming) : Bool :=
  match incoming.answers? with
  | some id => decide (id ∉ s.settled.map (·.1))
  | none => true

/-- What holds between the steps, with the frames that are read and not yet put anywhere. Every
request is pending, answered or given up, and only one of these. -/
structure Accounts (s : Session) (hand : List Incoming) : Prop where
  frames : s.delivered ++ s.rpc.deferred ++ hand = s.received.filter s.kept
  sent : ∀ id, id ∈ s.rpc.pending ∨ id ∈ s.failed ++ s.answered ↔ 1 ≤ id ∧ id ≤ s.rpc.last
  ended : (s.failed ++ s.answered).Nodup
  waiting : ∀ id ∈ s.rpc.pending, id ∉ s.failed ++ s.answered
  settled : ∀ answer ∈ s.settled, .response answer.1 answer.2 ∈ s.received
  once : (s.settled.map (·.1)).Nodup

end Session

/-- All that reading a line can do to the bookkeeping. -/
theorem receive_cases {parse : String → Except String JsonValue} {r r' : Rpc} {line : String}
    {read : Except FrameError Incoming} (h : r.receive parse line = (r', read)) :
    (∃ e, read = .error e ∧ r' = r) ∨
      (∃ incoming, read = .ok incoming ∧ incoming.answers? = none ∧ r' = r) ∨
      ∃ id outcome, read = .ok (.response id outcome) ∧ id ∈ r.pending ∧
        r' = { r with pending := r.pending.erase id } := by
  rw [Rpc.receive] at h
  split at h
  · obtain ⟨rfl, rfl⟩ := Prod.mk.inj h
    exact .inl ⟨_, rfl, rfl⟩
  · dsimp only at h
    split at h
    · obtain ⟨rfl, rfl⟩ := Prod.mk.inj h
      exact .inr (.inl ⟨_, rfl, rfl, rfl⟩)
    · obtain ⟨rfl, rfl⟩ := Prod.mk.inj h
      exact .inr (.inl ⟨_, rfl, rfl, rfl⟩)
    · split at h
      · obtain ⟨rfl, rfl⟩ := Prod.mk.inj h
        exact .inl ⟨_, rfl, rfl⟩
      · split_ifs at h with hpending
        · obtain ⟨rfl, rfl⟩ := Prod.mk.inj h
          exact .inr (.inr ⟨_, _, rfl, hpending, rfl⟩)
        · obtain ⟨rfl, rfl⟩ := Prod.mk.inj h
          exact .inl ⟨_, rfl, rfl⟩
    · obtain ⟨rfl, rfl⟩ := Prod.mk.inj h
      exact .inl ⟨_, rfl, rfl⟩

namespace Session

variable {parse : String → Except String JsonValue} {s : Session}

theorem accounts_start (lines : List String) : Accounts (start lines) [] where
  frames := rfl
  sent := by
    intro id
    simp only [start, answered, Rpc.empty, Finset.notMem_empty, List.filterMap_nil, List.append_nil,
      List.not_mem_nil, or_self, false_iff]
    omega
  ended := List.nodup_nil
  waiting := by simp [start, Rpc.empty]
  settled := by simp [start]
  once := List.nodup_nil

theorem Accounts.request {hand : List Incoming} (h : Accounts s hand) (method : String) (params : JsonValue) :
    Accounts { s with rpc := (s.rpc.request method params).1 } hand := by
  have hnew : s.rpc.last + 1 ∉ s.failed ++ s.answered := by
    intro hmem
    have hle := ((h.sent _).1 (.inr hmem)).2
    omega
  constructor
  case frames => exact h.frames
  case sent =>
    intro id
    have hsent := h.sent id
    change id ∈ insert (s.rpc.last + 1) s.rpc.pending ∨ id ∈ s.failed ++ s.answered ↔
      1 ≤ id ∧ id ≤ s.rpc.last + 1
    rw [Finset.mem_insert, or_assoc, hsent]
    omega
  case ended => exact h.ended
  case waiting =>
    intro id hid
    rcases Finset.mem_insert.1 hid with rfl | hid
    · exact hnew
    · exact h.waiting id hid
  case settled => exact h.settled
  case once => exact h.once

theorem Accounts.failPending (h : Accounts s []) :
    Accounts { s with rpc := s.rpc.failPending.1, failed := s.failed ++ s.rpc.failPending.2 } [] := by
  have hmem : ∀ id, id ∈ s.rpc.failPending.2 ↔ id ∈ s.rpc.pending := fun id => Finset.mem_sort _
  have hperm : (s.failed ++ s.rpc.failPending.2 ++ s.answered).Perm
      (s.rpc.failPending.2 ++ (s.failed ++ s.answered)) := by
    rw [← List.append_assoc]
    exact List.Perm.append_right _ List.perm_append_comm
  constructor
  case frames => exact h.frames
  case sent =>
    intro id
    have hsent := h.sent id
    change id ∈ (∅ : Finset ℕ) ∨ id ∈ s.failed ++ s.rpc.failPending.2 ++ s.answered ↔
      1 ≤ id ∧ id ≤ s.rpc.last
    rw [← hsent, hperm.mem_iff, List.mem_append, hmem]
    simp
  case ended =>
    refine hperm.nodup_iff.2 (List.Nodup.append (Finset.sort_nodup _ _) h.ended ?_)
    intro id hid
    exact h.waiting id ((hmem id).1 hid)
  case waiting => exact fun id hid => absurd hid (Finset.notMem_empty id)
  case settled => exact h.settled
  case once => exact h.once

theorem Accounts.mem_answered {hand : List Incoming} (h : Accounts s hand) {id : ℕ}
    (hid : id ∈ s.settled.map (·.1)) : id ∈ s.answered := by
  obtain ⟨answer, hanswer, rfl⟩ := List.mem_map.1 hid
  exact List.mem_filterMap.2 ⟨_, h.settled answer hanswer, rfl⟩

/-- The answer to a pending request ends it. -/
theorem Accounts.response (h : Accounts s []) {id : ℕ} (hid : id ∈ s.rpc.pending)
    (outcome : Except RpcError JsonValue) (lines : List String) :
    Accounts { s with
      rpc := { s.rpc with pending := s.rpc.pending.erase id }
      lines
      received := s.received ++ [.response id outcome] } [.response id outcome] := by
  have hnew := h.waiting id hid
  have hunsettled : id ∉ s.settled.map (·.1) := fun hmem =>
    hnew (List.mem_append_right _ (h.mem_answered hmem))
  have hanswered : (s.received ++ [Incoming.response id outcome]).filterMap Incoming.answers? = s.answered ++ [id] := by
    rw [List.filterMap_append]
    rfl
  constructor
  case frames =>
    have hframes := h.frames
    rw [List.append_nil] at hframes
    change s.delivered ++ s.rpc.deferred ++ [_] = (s.received ++ [_]).filter s.kept
    rw [List.filter_append, hframes, List.filter_singleton]
    simp [kept, Incoming.answers?, hunsettled]
  case sent =>
    intro id'
    have hsent := h.sent id'
    rw [answered, hanswered, ← List.append_assoc, List.mem_append, List.mem_singleton]
    change id' ∈ s.rpc.pending.erase id ∨ (id' ∈ s.failed ++ s.answered ∨ id' = id) ↔
      1 ≤ id' ∧ id' ≤ s.rpc.last
    rw [← hsent, Finset.mem_erase]
    by_cases heq : id' = id
    · simp [heq, hid]
    · simp [heq]
  case ended =>
    rw [answered, hanswered, ← List.append_assoc, ← List.concat_eq_append]
    exact h.ended.concat hnew
  case waiting =>
    intro id' hid'
    obtain ⟨hne, hid'⟩ := Finset.mem_erase.1 hid'
    rw [answered, hanswered, ← List.append_assoc, List.mem_append, List.mem_singleton]
    exact fun hmem => hmem.elim (h.waiting id' hid') hne
  case settled => exact fun answer hanswer => List.mem_append_left _ (h.settled answer hanswer)
  case once => exact h.once

/-- A frame that is no response belongs to no request. -/
theorem Accounts.message (h : Accounts s []) {incoming : Incoming} (hnone : incoming.answers? = none)
    (lines : List String) :
    Accounts { s with lines, received := s.received ++ [incoming] } [incoming] := by
  have hanswered : (s.received ++ [incoming]).filterMap Incoming.answers? = s.answered := by
    simp [answered, hnone]
  constructor
  case frames =>
    have hframes := h.frames
    rw [List.append_nil] at hframes
    change s.delivered ++ s.rpc.deferred ++ [incoming] = (s.received ++ [incoming]).filter s.kept
    rw [List.filter_append, hframes, List.filter_singleton, kept, hnone]
    rfl
  case sent =>
    intro id
    rw [answered, hanswered]
    exact h.sent id
  case ended =>
    rw [answered, hanswered]
    exact h.ended
  case waiting =>
    intro id hid
    rw [answered, hanswered]
    exact h.waiting id hid
  case settled => exact fun answer hanswer => List.mem_append_left _ (h.settled answer hanswer)
  case once => exact h.once

/-- A frame that is read comes into hand; nothing else changes the accounts. -/
theorem Accounts.nextFrame (h : Accounts s []) {s' : Session} {read : Option (Except FrameError Incoming)}
    (hread : s.nextFrame parse = (s', read)) :
    (∃ incoming, read = some (.ok incoming) ∧ Accounts s' [incoming]) ∨
      (∀ incoming, read ≠ some (.ok incoming)) ∧ Accounts s' [] := by
  rw [Session.nextFrame] at hread
  split at hread
  · obtain ⟨rfl, rfl⟩ := Prod.mk.inj hread
    exact .inr ⟨fun _ hne => (nomatch hne), h⟩
  · next line lines hlines =>
    split at hread
    · next rpc e hreceive =>
      obtain ⟨rfl, rfl⟩ := Prod.mk.inj hread
      rcases receive_cases hreceive with ⟨_, -, rfl⟩ | ⟨_, hok, -⟩ | ⟨_, _, hok, -⟩
      · exact .inr ⟨fun _ hne => (nomatch hne), ⟨h.frames, h.sent, h.ended, h.waiting, h.settled, h.once⟩⟩
      · exact nomatch hok
      · exact nomatch hok
    · next rpc incoming hreceive =>
      obtain ⟨rfl, rfl⟩ := Prod.mk.inj hread
      refine .inl ⟨incoming, rfl, ?_⟩
      rcases receive_cases hreceive with ⟨_, herror, -⟩ | ⟨_, hok, hnone, rfl⟩ | ⟨id, outcome, hok, hpending, rfl⟩
      · exact nomatch herror
      · obtain rfl := Except.ok.inj hok
        exact h.message hnone lines
      · obtain rfl := Except.ok.inj hok
        exact h.response hpending outcome lines

theorem kept_concat (s : Session) (id : ℕ) (outcome : Except RpcError JsonValue) (incoming : Incoming) :
    ({ s with settled := s.settled ++ [(id, outcome)] } : Session).kept incoming =
      (s.kept incoming && decide (incoming.answers? ≠ some id)) := by
  cases hid : incoming.answers? with
  | none => simp [kept, hid]
  | some answered => simp [kept, hid, List.mem_append, not_or, -List.mem_map]

/-- The frames in their places answer different requests. -/
theorem Accounts.nodup_kept {hand : List Incoming} (h : Accounts s hand) :
    ((s.delivered ++ s.rpc.deferred ++ hand).filterMap Incoming.answers?).Nodup := by
  rw [h.frames]
  exact (List.nodup_append.1 h.ended).2.1.sublist (List.filter_sublist.filterMap _)

theorem Accounts.settled_response {id : ℕ} {outcome : Except RpcError JsonValue}
    (h : Accounts s [.response id outcome]) :
    Accounts { s with settled := s.settled ++ [(id, outcome)] } [] := by
  have hmem : Incoming.response id outcome ∈ s.received.filter s.kept := by
    rw [← h.frames]
    simp
  obtain ⟨hreceived, hkept⟩ := List.mem_filter.1 hmem
  have hnew : id ∉ s.settled.map (·.1) := by simpa [kept, Incoming.answers?] using hkept
  constructor
  case frames =>
    have hnodup := h.nodup_kept
    rw [List.filterMap_append, List.nodup_append] at hnodup
    have hothers : ∀ incoming ∈ s.delivered ++ s.rpc.deferred, incoming.answers? ≠ some id := by
      intro incoming hin hid
      exact hnodup.2.2 id (List.mem_filterMap.2 ⟨incoming, hin, hid⟩) id (by simp [Incoming.answers?]) rfl
    have hfilter : s.received.filter ({ s with settled := s.settled ++ [(id, outcome)] } : Session).kept =
        (s.received.filter s.kept).filter fun incoming => decide (incoming.answers? ≠ some id) := by
      rw [List.filter_filter]
      exact List.filter_congr fun incoming _ => by rw [kept_concat, Bool.and_comm]
    change s.delivered ++ s.rpc.deferred ++ [] = _
    rw [hfilter, ← h.frames, List.filter_append, List.filter_eq_self.2 fun incoming hin =>
      decide_eq_true (hothers incoming hin)]
    simp [Incoming.answers?]
  case sent => exact h.sent
  case ended => exact h.ended
  case waiting => exact h.waiting
  case settled =>
    intro answer hanswer
    rcases List.mem_append.1 hanswer with hanswer | hanswer
    · exact h.settled answer hanswer
    · rw [List.mem_singleton.1 hanswer]
      exact hreceived
  case once =>
    rw [List.map_append, List.map_singleton, ← List.concat_eq_append]
    exact h.once.concat hnew

theorem Accounts.deferred {incoming : Incoming} (h : Accounts s [incoming]) :
    Accounts { s with rpc := { s.rpc with deferred := s.rpc.deferred ++ [incoming] } } [] where
  frames := by
    have hframes := h.frames
    change s.delivered ++ (s.rpc.deferred ++ [incoming]) ++ [] = s.received.filter s.kept
    rw [← hframes, List.append_nil, List.append_assoc]
  sent := h.sent
  ended := h.ended
  waiting := h.waiting
  settled := h.settled
  once := h.once

/-- The call that waits for a response takes it; any other frame is put behind the deferred ones. -/
theorem Accounts.settle {incoming : Incoming} (h : Accounts s [incoming]) (id : ℕ) :
    (∃ outcome, s.rpc.settle id incoming = (s.rpc, some outcome) ∧
        Accounts { s with settled := s.settled ++ [(id, outcome)] } []) ∨
      ∃ rpc, s.rpc.settle id incoming = (rpc, none) ∧ Accounts { s with rpc } [] := by
  cases incoming with
  | response answered outcome =>
    by_cases hid : answered = id
    · subst hid
      exact .inl ⟨outcome, if_pos rfl, h.settled_response⟩
    · exact .inr ⟨_, if_neg hid, h.deferred⟩
  | notification method params => exact .inr ⟨_, rfl, h.deferred⟩
  | serverRequest id method params => exact .inr ⟨_, rfl, h.deferred⟩

theorem Accounts.await (id patience : ℕ) (h : Accounts s []) : Accounts (await parse id patience s) [] := by
  induction patience generalizing s with
  | zero => exact h
  | succ patience ih =>
    rw [Session.await]
    cases hread : s.nextFrame parse with
    | mk s' read =>
      rcases h.nextFrame hread with ⟨incoming, rfl, hand⟩ | ⟨hno, hand⟩
      · rcases hand.settle id with ⟨outcome, hsettle, hdone⟩ | ⟨rpc, hsettle, hdone⟩
        · simpa only [hsettle] using hdone
        · simpa only [hsettle] using ih hdone
      · split
        · next _ _ incoming heq =>
          exact absurd (Prod.mk.inj heq).2 (hno incoming)
        · next _ hpair =>
          obtain ⟨rfl, -⟩ := Prod.mk.inj hpair
          exact hand

theorem deferred_nextFrame (parse : String → Except String JsonValue) (s : Session) : (s.nextFrame parse).1.rpc.deferred = s.rpc.deferred := by
  rw [Session.nextFrame]
  split
  · rfl
  · split
    · next hreceive =>
      rcases receive_cases hreceive with ⟨_, -, rfl⟩ | ⟨_, -, -, rfl⟩ | ⟨_, _, -, -, rfl⟩ <;> rfl
    · next hreceive =>
      rcases receive_cases hreceive with ⟨_, -, rfl⟩ | ⟨_, -, -, rfl⟩ | ⟨_, _, -, -, rfl⟩ <;> rfl

/-- The pump takes a frame only when none is deferred, so the order of arrival stays. -/
theorem Accounts.delivered {incoming : Incoming} (h : Accounts s [incoming]) (hnone : s.rpc.deferred = []) :
    Accounts { s with delivered := s.delivered ++ [incoming] } [] where
  frames := by
    have hframes := h.frames
    change s.delivered ++ [incoming] ++ s.rpc.deferred ++ [] = s.received.filter s.kept
    rw [← hframes, hnone]
    simp
  sent := h.sent
  ended := h.ended
  waiting := h.waiting
  settled := h.settled
  once := h.once

theorem Accounts.next (h : Accounts s []) : Accounts (s.next parse) [] := by
  rw [Session.next]
  cases hdeferred : s.rpc.deferred with
  | nil =>
    simp only [Rpc.nextDeferred, hdeferred]
    have hsame := deferred_nextFrame parse s
    cases hread : s.nextFrame parse with
    | mk s' read =>
      rw [hread, hdeferred] at hsame
      rcases h.nextFrame hread with ⟨incoming, rfl, hand⟩ | ⟨hno, hand⟩
      · exact hand.delivered hsame
      · split
        · next _ _ incoming heq =>
          exact absurd (Prod.mk.inj heq).2 (hno incoming)
        · next _ hpair =>
          obtain ⟨rfl, -⟩ := Prod.mk.inj hpair
          exact hand
  | cons incoming rest =>
    simp only [Rpc.nextDeferred, hdeferred]
    constructor
    case frames =>
      have hframes := h.frames
      rw [hdeferred] at hframes
      change s.delivered ++ [incoming] ++ rest ++ [] = s.received.filter s.kept
      rw [← hframes]
      simp
    case sent => exact h.sent
    case ended => exact h.ended
    case waiting => exact h.waiting
    case settled => exact h.settled
    case once => exact h.once

theorem Accounts.step (h : Accounts s []) (op : Op) : Accounts (s.step parse op) [] := by
  cases op with
  | send method params => exact h.request method params
  | call method params patience => exact (h.request method params).await _ patience
  | next => exact h.next
  | failPending => exact h.failPending

theorem accounts_run (parse : String → Except String JsonValue) (lines : List String) (ops : List Op) :
    Accounts ((start lines).run parse ops) [] := by
  induction ops using List.reverseRecOn with
  | nil => exact accounts_start lines
  | append_singleton ops op ih =>
    rw [run, List.foldl_concat]
    exact ih.step op

/-- In every run, whatever the server sends and wherever calls give up: the pump gets the frames in
the order of their arrival, none lost and none twice, but for the answers that calls took; every
request that was sent is pending, given up or answered, only one of these and only once; and what a
call took as its answer is the response to its own request. -/
theorem frames_of_run (parse : String → Except String JsonValue) (lines : List String) (ops : List Op) :
    let s := (start lines).run parse ops
    s.delivered ++ s.rpc.deferred = s.received.filter s.kept ∧
      (∀ id, id ∈ s.rpc.pending ∨ id ∈ s.failed ∨ id ∈ s.answered ↔ 1 ≤ id ∧ id ≤ s.rpc.last) ∧
      ((s.failed ++ s.answered).Nodup ∧ ∀ id ∈ s.rpc.pending, id ∉ s.failed ∧ id ∉ s.answered) ∧
      (s.settled.map (·.1)).Nodup ∧
      ∀ answer ∈ s.settled, .response answer.1 answer.2 ∈ s.received := by
  have h := accounts_run parse lines ops
  refine ⟨?_, ?_, ⟨h.ended, ?_⟩, h.once, h.settled⟩
  · have hframes := h.frames
    rwa [List.append_nil] at hframes
  · intro id
    rw [← h.sent id, List.mem_append]
  · intro id hid
    have hopen := h.waiting id hid
    exact ⟨fun hmem => hopen (List.mem_append_left _ hmem), fun hmem => hopen (List.mem_append_right _ hmem)⟩

end Session

end Ralph.Worker.CodexRpc
