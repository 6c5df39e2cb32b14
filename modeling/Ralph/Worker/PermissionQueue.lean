import Mathlib.Tactic
import Ralph.Chat.Command
import Ralph.Worker.OpencodeTurns

namespace Ralph.Worker
open Opencode

def processRequestId (process raw : String) : String := s!"{process}.{raw}"

def pendingMessage (requestId : String) (ids : List String) : String :=
  let listed := if ids = [] then "none" else ", ".intercalate ids
  if requestId = "" then
    s!"this worker is waiting on a permission request; pass request. pending: {listed}"
  else s!"stale request {requestId}; pending: {listed}"

def pendingPosition (pending : List String) (requestId : String) : Except String ℕ :=
  let requestId := Chat.trim requestId
  match pending.findIdx? fun id => requestId ≠ "" ∧ id = requestId with
  | some index => .ok index
  | none => .error (pendingMessage requestId pending)

def matchOption (options : List PermissionOption) (text : String) : Option PermissionOption :=
  let text := Chat.trim text
  options.find? fun option => option.optionId = text

def noOptionMessage (options : List PermissionOption) : String :=
  let ids := ", ".intercalate (options.map (·.optionId))
  s!"No permission option matches that answer. Valid optionIds: {ids}."

inductive PermissionEvent
  | asked (content : BlockedContent)
  | settled
  deriving DecidableEq, Repr

variable {R : Type*}

structure Pending (R : Type*) where
  reply : R
  content : BlockedContent

/-- What the lock of the queue guards: the waiting requests and whether new ones are refused. -/
structure PermissionQueue (R : Type*) where
  queue : List (Pending R)
  refusing : Bool

namespace PermissionQueue

def new : PermissionQueue R := ⟨[], false⟩

def ids (q : PermissionQueue R) : List String := q.queue.map (·.content.requestId)

def replies (q : PermissionQueue R) : List R := q.queue.map (·.reply)

/-- The event that `publish` pushes. -/
def published (q : PermissionQueue R) : PermissionEvent :=
  match q.queue.head? with
  | some front => .asked { front.content with pending := q.ids }
  | none => .settled

def push (process : String) (q : PermissionQueue R) (reply : R) (content : BlockedContent) :
    PermissionQueue R :=
  let content := { content with requestId := processRequestId process content.requestId }
  { q with queue := q.queue ++ [⟨reply, content⟩] }

/-- The answered request leaves the queue with its reply handle and the option. -/
def takeAnswer (q : PermissionQueue R) (requestId text : String) :
    Except String (R × PermissionOption × PermissionQueue R) :=
  match pendingPosition q.ids requestId with
  | .error message => .error message
  | .ok index =>
    match q.queue[index]? with
    | none => .error s!"stale request {requestId}"
    | some pending =>
      match matchOption pending.content.options text with
      | none => .error (noOptionMessage pending.content.options)
      | some option => .ok (pending.reply, option, { q with queue := q.queue.eraseIdx index })

def settle (q : PermissionQueue R) (matched : R → Bool) : PermissionQueue R :=
  { q with queue := q.queue.filter fun pending => !matched pending.reply }

/-- The reply handles that `settle` drops. -/
def settled (q : PermissionQueue R) (matched : R → Bool) : List R := q.replies.filter matched

def drained (q : PermissionQueue R) : PermissionQueue R := { q with queue := [] }

theorem pendingPosition_eq {pending : List String} {requestId : String} {index : ℕ}
    (h : pendingPosition pending requestId = .ok index) :
    pending[index]? = some (Chat.trim requestId) ∧ Chat.trim requestId ≠ "" := by
  unfold pendingPosition at h
  dsimp only at h
  split at h
  · next i hfind =>
    cases h
    obtain ⟨hlt, hfound, -⟩ := List.findIdx?_eq_some_iff_getElem.mp hfind
    rw [decide_eq_true_eq] at hfound
    exact ⟨by rw [List.getElem?_eq_getElem hlt, hfound.2], hfound.1⟩
  · cases h

/-- An answer is taken for a waiting request with the very id and one of its options, and only
this request leaves the queue. -/
theorem takeAnswer_eq {q q' : PermissionQueue R} {requestId text : String} {reply : R}
    {option : PermissionOption} (h : q.takeAnswer requestId text = .ok (reply, option, q')) :
    ∃ before pending after, q.queue = before ++ pending :: after ∧ q'.queue = before ++ after ∧
      q'.refusing = q.refusing ∧ pending.reply = reply ∧
      pending.content.requestId = Chat.trim requestId ∧
      option ∈ pending.content.options ∧ option.optionId = Chat.trim text := by
  unfold takeAnswer at h
  cases hindex : pendingPosition q.ids requestId with
  | error message => rw [hindex] at h; cases h
  | ok index =>
    obtain ⟨hid, -⟩ := pendingPosition_eq hindex
    rw [ids, List.getElem?_map, Option.map_eq_some_iff] at hid
    obtain ⟨pending, hpending, hid⟩ := hid
    simp only [hindex, hpending] at h
    cases hoption : matchOption pending.content.options text with
    | none => rw [hoption] at h; cases h
    | some found =>
      rw [hoption] at h
      cases h
      obtain ⟨hlt, hget⟩ := List.getElem?_eq_some_iff.mp hpending
      refine ⟨q.queue.take index, pending, q.queue.drop (index + 1), ?_, ?_, rfl, rfl, hid, ?_, ?_⟩
      · rw [← hget, List.getElem_cons_drop, List.take_append_drop]
      · exact List.eraseIdx_eq_take_drop_succ _ _
      · exact List.mem_of_find?_eq_some hoption
      · simpa using List.find?_some hoption

end PermissionQueue

end Ralph.Worker
