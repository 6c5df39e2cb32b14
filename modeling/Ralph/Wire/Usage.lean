import Mathlib.Data.List.Sort
import Mathlib.Data.String.Basic
import Ralph.JsonValue

namespace Ralph.Wire

inductive CacheTier
  | ttl (seconds : ℕ)
  | unspecified
  deriving DecidableEq

def fiveMin : CacheTier := .ttl 300
def oneHour : CacheTier := .ttl 3600

structure CacheWrite where
  tier : CacheTier
  tokens : ℕ
  deriving DecidableEq

structure Usage where
  inputUncached : ℕ
  cacheRead : ℕ
  cacheWrites : List CacheWrite
  output : ℕ
  reasoning : Option ℕ
  other : List (String × ℕ)
  deriving DecidableEq

namespace Anthropic

def count (value : JsonValue) (key : String) : Option ℕ := (value.member? key).bind JsonValue.asU64

def cacheWrites (raw : JsonValue) : List CacheWrite :=
  match (raw.member? "cache_creation").filter JsonValue.isObject with
  | some breakdown =>
    ([(fiveMin, "ephemeral_5m_input_tokens"), (oneHour, "ephemeral_1h_input_tokens")].filterMap
      fun (tier, key) => (count breakdown key).map (CacheWrite.mk tier)).filter fun write => 0 < write.tokens
  | none =>
    match count raw "cache_creation_input_tokens" with
    | some tokens => if 0 < tokens then [⟨.unspecified, tokens⟩] else []
    | none => []

/-- The order of pairs of a name and a count. -/
def Before (a b : String × ℕ) : Prop := a.1 < b.1 ∨ a.1 = b.1 ∧ a.2 ≤ b.2

instance : DecidableRel Before := fun _ _ => inferInstanceAs (Decidable (_ ∨ _))

def serverToolUse (raw : JsonValue) : List (String × ℕ) :=
  match raw.member? "server_tool_use" with
  | some (.object members) =>
    (members.filterMap fun (name, n) => n.asU64.map fun n => (s!"server_tool_use.{name}", n)).insertionSort
      Before
  | _ => []

def mapUsage (raw : JsonValue) : Usage where
  inputUncached := (count raw "input_tokens").getD 0
  cacheRead := (count raw "cache_read_input_tokens").getD 0
  cacheWrites := cacheWrites raw
  output := (count raw "output_tokens").getD 0
  reasoning := (raw.member? "output_tokens_details").bind fun details => count details "thinking_tokens"
  other := serverToolUse raw

end Anthropic

end Ralph.Wire
