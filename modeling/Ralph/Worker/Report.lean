import Mathlib.Data.List.Basic

namespace Ralph.Worker

inductive HarnessId
  | claude
  | opencode
  | cursor
  | codex
  | claudeHeadless
  deriving DecidableEq, Repr

def HarnessId.asStr : HarnessId → String
  | .claude => "claude"
  | .cursor => "cursor"
  | .opencode => "opencode"
  | .codex => "codex"
  | .claudeHeadless => "claude-headless"

structure Report where
  worker : String
  at_ : String
  status : String
  text : String
  deriving DecidableEq, Repr

/-- `{seq:06}`. -/
def sixDigits (seq : ℕ) : String :=
  String.ofList (List.replicate (6 - (toString seq).length) '0') ++ toString seq

def inboxFileName (report : Report) (seq : ℕ) : String :=
  let stamp := String.ofList (report.at_.toList.filter Char.isDigit)
  let worker := String.ofList (report.worker.toList.map fun c =>
    if c.isAlphanum || c == '-' then c else '_')
  stamp ++ "-" ++ sixDigits seq ++ "-" ++ worker ++ ".json"

end Ralph.Worker
