import Ralph.JsonPointer
import Ralph.Wire.Response
import Ralph.Wire.Usage

namespace Ralph.Wire

/-- A point in time, in nanoseconds. -/
abbrev Moment := ℤ

inductive ProviderId
  | anthropic
  | openAi
  deriving DecidableEq, Repr

inductive CallKind
  | inference
  | other
  deriving DecidableEq, Repr

structure RequestHead where
  method : String
  path : String
  headers : Headers
  deriving DecidableEq

structure RequestFacts where
  model : Option String
  params : List (String × JsonValue)

inductive UsageOutcome
  | reported (usage : Usage)
  | partly (usage : Usage)
  | missing
  deriving DecidableEq

structure ResponseUsage where
  raw : Option JsonValue
  outcome : UsageOutcome
  error : Option String

/-- What a provider makes of a response, and its prices: the input equivalent of a usage at the
rates of a model. `base64` is the standard engine of that crate. -/
structure Env (Amount : Type) extends Readers where
  base64 : Bytes → String
  usage : ProviderId → ResponseView → ResponseUsage
  inputEquivalent : ProviderId → String → Usage → Option Amount

namespace ProviderId

def storedResponseHeaders : ProviderId → StoredHeaders
  | anthropic => ⟨["request-id"], ["anthropic-ratelimit-"]⟩
  | openAi => ⟨["x-request-id", "openai-processing-ms", "openai-version"], ["x-ratelimit-"]⟩

def secretHeaders : ProviderId → List String
  | anthropic => []
  | openAi => []

def inferencePaths : ProviderId → List String
  | anthropic => ["/v1/messages"]
  | openAi => ["/v1/chat/completions", "/v1/responses"]

def classify (id : ProviderId) (call : RequestHead) : CallKind :=
  if eqIgnoreAsciiCase call.method "POST" ∧ before call.path '?' ∈ id.inferencePaths then .inference
  else .other

def paramKeys : ProviderId → List String
  | anthropic =>
    ["thinking", "tool_choice", "max_tokens", "output_config", "context_management", "metadata"]
  | openAi =>
    ["tool_choice", "reasoning_effort", "response_format", "prompt_cache_key",
      "prompt_cache_options", "prompt_cache_retention", "stream_options", "max_completion_tokens",
      "service_tier", "reasoning", "text", "previous_response_id", "store", "truncation",
      "max_output_tokens", "include"]

def requestFacts (id : ProviderId) (body : JsonValue) : RequestFacts where
  model := (body.member? "model").bind JsonValue.asStr
  params := id.paramKeys.filterMap fun key => (body.member? key).map fun v => (key, v)

end ProviderId

structure CallInputs where
  seq : ℕ
  startedAt : Moment
  firstByteAt : Option Moment
  endedAt : Moment
  head : RequestHead
  requestBody : Bytes
  status : Option ℕ
  responseHeaders : Headers
  responseBody : Bytes
  transportError : Option String
  storeEvents : Bool

inductive RequestBody
  | json (value : JsonValue)
  | base64 (text : String)

structure CallRecord (Amount : Type) where
  seq : ℕ
  startedAt : Moment
  firstByteAt : Option Moment
  endedAt : Moment
  method : String
  path : String
  status : Option ℕ
  kind : CallKind
  facts : RequestFacts
  requestHeaders : Headers
  responseHeaders : Headers
  requestBody : RequestBody
  rawUsage : Option JsonValue
  usage : UsageOutcome
  inputEquivalent : Option Amount
  complete : Bool
  error : Option String
  responseEvents : Option (List Sse.SseEvent)

structure ResponseSummary where
  usage : ResponseUsage
  events : Option (List Sse.SseEvent)

section Build

variable {Amount : Type} (env : Env Amount) (id : ProviderId)

def summarizeResponse (headers : Headers) (body : Bytes) : ResponseSummary :=
  if body = [] then ⟨⟨none, .missing, none⟩, none⟩
  else
    match view env.toReaders (headerValue headers "content-type")
      (headerValue headers "content-encoding") body with
    | .ok (.events events) => ⟨env.usage id (.events events), some events⟩
    | .ok (.json value) => ⟨env.usage id (.json value), none⟩
    | .error error => ⟨⟨none, .missing, some error.text⟩, none⟩

def redactMetadataUserId (body : JsonValue) : JsonValue :=
  .replaceAt (.string redacted) ["metadata", "user_id"] body

def parseRequest (body : Bytes) : RequestFacts × RequestBody :=
  match env.readJson body with
  | .ok json =>
    let json := redactMetadataUserId json
    (id.requestFacts json, .json json)
  | .error _ => (⟨none, []⟩, .base64 (env.base64 body))

def equivalent (model : Option String) : UsageOutcome → Option Amount
  | .reported usage | .partly usage => model.bind fun model => env.inputEquivalent id model usage
  | .missing => none

def buildCall (inputs : CallInputs) : CallRecord Amount :=
  let (facts, requestBody) := parseRequest env id inputs.requestBody
  let summary := summarizeResponse env id inputs.responseHeaders inputs.responseBody
  { seq := inputs.seq
    startedAt := inputs.startedAt
    firstByteAt := inputs.firstByteAt
    endedAt := inputs.endedAt
    method := inputs.head.method
    path := inputs.head.path
    status := inputs.status
    kind := id.classify inputs.head
    facts
    requestHeaders := redactHeaders inputs.head.headers id.secretHeaders
    responseHeaders := storedResponseHeaders inputs.responseHeaders id.storedResponseHeaders
    requestBody
    rawUsage := summary.usage.raw
    usage := summary.usage.outcome
    inputEquivalent := equivalent env id facts.model summary.usage.outcome
    complete := inputs.transportError.isNone
    error := inputs.transportError.or summary.usage.error
    responseEvents := summary.events.filter fun _ => inputs.storeEvents }

end Build

end Ralph.Wire
