import Ralph.Worker.OpencodeTurns

namespace Ralph.Worker.Opencode

structure TurnResult where
  turnEnd : TurnEnd
  text : String
  deriving DecidableEq, Repr

structure SessionSnapshot where
  active : Bool
  pending : List PermissionAsked
  result : Option TurnResult
  deriving DecidableEq, Repr

def ids (asked : List PermissionAsked) : List String := asked.map (·.id)

/-- What the server does not ask any more. -/
def gone (t : TurnState) (snapshot : SessionSnapshot) : List PermissionAsked :=
  t.blocked.filter fun known => decide (known.id ∉ ids snapshot.pending)

/-- What the server asks and the state does not know. -/
def asked (t : TurnState) (snapshot : SessionSnapshot) : List PermissionAsked :=
  snapshot.pending.filter fun asked => decide (asked.id ∉ ids t.blocked)

/-- What the queue holds when every request has been brought up to date. -/
def synced (t : TurnState) (snapshot : SessionSnapshot) : List PermissionAsked :=
  (t.blocked.filter fun known => decide (known.id ∈ ids snapshot.pending)) ++ asked t snapshot

end Ralph.Worker.Opencode
