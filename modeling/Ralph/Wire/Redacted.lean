import Ralph.Base64
import Ralph.Wire.Build

namespace Ralph.Wire

variable {Amount : Type} {env : Env Amount} {id : ProviderId}

/-- The same body, or JSON with another user id. -/
def SameBody (env : Env Amount) (body body' : Bytes) : Prop :=
  body = body' ∨ ∃ json json', env.readJson body = .ok json ∧ env.readJson body' = .ok json' ∧
    json.SameBut ["metadata", "user_id"] json'

/-- Two calls that differ in secrets at most. -/
structure SameButSecrets (env : Env Amount) (id : ProviderId) (inputs inputs' : CallInputs) : Prop where
  seq : inputs.seq = inputs'.seq
  startedAt : inputs.startedAt = inputs'.startedAt
  firstByteAt : inputs.firstByteAt = inputs'.firstByteAt
  endedAt : inputs.endedAt = inputs'.endedAt
  method : inputs.head.method = inputs'.head.method
  path : inputs.head.path = inputs'.head.path
  requestHeaders : AgreeBut (isSecret id.secretHeaders) inputs.head.headers inputs'.head.headers
  requestBody : SameBody env inputs.requestBody inputs'.requestBody
  status : inputs.status = inputs'.status
  responseHeaders : AgreeBut (fun name => !isStored id.storedResponseHeaders name)
    inputs.responseHeaders inputs'.responseHeaders
  responseBody : inputs.responseBody = inputs'.responseBody
  transportError : inputs.transportError = inputs'.transportError
  storeEvents : inputs.storeEvents = inputs'.storeEvents

/-- The request headers that are not secret, in order. -/
def openHeaders (id : ProviderId) (head : RequestHead) : Headers :=
  head.headers.filter fun header => !isSecret id.secretHeaders header.1

/-- Two requests that differ in something that is no secret. -/
inductive RequestsDiffer (env : Env Amount) (id : ProviderId) (inputs inputs' : CallInputs) : Prop
  | json (json json' : JsonValue) (h : env.readJson inputs.requestBody = .ok json)
      (h' : env.readJson inputs'.requestBody = .ok json')
      (hne : ¬json.SameBut ["metadata", "user_id"] json')
  | bytes (hne : inputs.requestBody ≠ inputs'.requestBody)
      (h : (∀ json, env.readJson inputs.requestBody ≠ .ok json) ∨
        ∀ json, env.readJson inputs'.requestBody ≠ .ok json)
  | method (h : inputs.head.method ≠ inputs'.head.method)
  | path (h : inputs.head.path ≠ inputs'.head.path)
  | headers (h : openHeaders id inputs.head ≠ openHeaders id inputs'.head)

theorem parseRequest_ok {body : Bytes} {json : JsonValue} (h : env.readJson body = .ok json) :
    parseRequest env id body =
      (id.requestFacts (redactMetadataUserId json), .json (redactMetadataUserId json)) := by
  rw [parseRequest, h]

theorem parseRequest_error {body : Bytes} (h : ∀ json, env.readJson body ≠ .ok json) :
    parseRequest env id body = (⟨none, []⟩, .base64 (env.base64 body)) := by
  unfold parseRequest
  split
  · next json hjson => exact absurd hjson (h json)
  · rfl

theorem parseRequest_eq {body body' : Bytes} (h : SameBody env body body') :
    parseRequest env id body = parseRequest env id body' := by
  obtain rfl | ⟨json, json', hbody, hbody', hsame⟩ := h
  · rfl
  · have hredacted : redactMetadataUserId json = redactMetadataUserId json' :=
      JsonValue.replaceAt_eq_iff.2 hsame
    rw [parseRequest_ok hbody, parseRequest_ok hbody', hredacted]

/-- What is recorded of a request body gives it back but for the user id. -/
theorem sameBody_of_parseRequest (hbase64 : Function.Injective env.base64) {body body' : Bytes}
    (h : parseRequest env id body = parseRequest env id body') : SameBody env body body' := by
  cases hbody : env.readJson body with
  | ok json =>
    cases hbody' : env.readJson body' with
    | ok json' =>
      rw [parseRequest_ok hbody, parseRequest_ok hbody', Prod.mk.injEq, RequestBody.json.injEq] at h
      exact .inr ⟨json, json', hbody, hbody', JsonValue.replaceAt_eq_iff.1 h.2⟩
    | error message =>
      rw [parseRequest_ok hbody, parseRequest_error (by simp [hbody'])] at h
      cases congrArg Prod.snd h
  | error message =>
    cases hbody' : env.readJson body' with
    | ok json' =>
      rw [parseRequest_error (by simp [hbody]), parseRequest_ok hbody'] at h
      cases congrArg Prod.snd h
    | error message' =>
      rw [parseRequest_error (by simp [hbody]), parseRequest_error (by simp [hbody']),
        Prod.mk.injEq, RequestBody.base64.injEq] at h
      exact .inl (hbase64 h.2)

/-- The summary of a response reads no header that is not stored. -/
theorem summarizeResponse_eq {headers headers' : Headers} {body : Bytes}
    (h : AgreeBut (fun name => !isStored id.storedResponseHeaders name) headers headers') :
    summarizeResponse env id headers body = summarizeResponse env id headers' body := by
  have hvalue : ∀ name ∈ alwaysStored, headerValue headers name = headerValue headers' name :=
    fun name hname => h.headerValue_eq fun n hn => by simp [isStored_of_eq hname hn]
  unfold summarizeResponse
  rw [hvalue "content-type" (by decide), hvalue "content-encoding" (by decide)]

theorem classify_eq {head head' : RequestHead} (hmethod : head.method = head'.method)
    (hpath : head.path = head'.path) : id.classify head = id.classify head' := by
  rw [ProviderId.classify, ProviderId.classify, hmethod, hpath]

theorem buildCall_of_same {inputs inputs' : CallInputs} (h : SameButSecrets env id inputs inputs') :
    buildCall env id inputs = buildCall env id inputs' := by
  have hstored : storedResponseHeaders inputs.responseHeaders id.storedResponseHeaders =
      storedResponseHeaders inputs'.responseHeaders id.storedResponseHeaders :=
    h.responseHeaders.filter (isStored id.storedResponseHeaders) fun name hname => by simp [hname]
  unfold buildCall
  rw [parseRequest_eq h.requestBody, h.responseBody, summarizeResponse_eq h.responseHeaders,
    h.seq, h.startedAt, h.firstByteAt, h.endedAt, h.status, classify_eq h.method h.path, h.method,
    h.path, redactHeaders_eq_iff.2 h.requestHeaders, hstored, h.transportError, h.storeEvents]

theorem requests_of_buildCall (hbase64 : Function.Injective env.base64)
    {inputs inputs' : CallInputs}
    (h : buildCall env id inputs = buildCall env id inputs') :
    inputs.head.method = inputs'.head.method ∧ inputs.head.path = inputs'.head.path ∧
      AgreeBut (isSecret id.secretHeaders) inputs.head.headers inputs'.head.headers ∧
      SameBody env inputs.requestBody inputs'.requestBody := by
  rw [buildCall, buildCall, CallRecord.mk.injEq] at h
  obtain ⟨-, -, -, -, hmethod, hpath, -, -, hfacts, hheaders, -, hbody, -⟩ := h
  exact ⟨hmethod, hpath, redactHeaders_eq_iff.1 hheaders,
    sameBody_of_parseRequest hbase64 (Prod.ext hfacts hbody)⟩

/-- The record of a call hides the secrets, and nothing else of the request. -/
theorem record_hides_secrets_alone (env : Env Amount) (id : ProviderId)
    (inputs inputs' : CallInputs) :
    (SameButSecrets env id inputs inputs' → buildCall env id inputs = buildCall env id inputs') ∧
    (Function.Injective env.base64 → RequestsDiffer env id inputs inputs' →
      buildCall env id inputs ≠ buildCall env id inputs') := by
  refine ⟨buildCall_of_same, fun hbase64 hdiffer heq => ?_⟩
  obtain ⟨hmethod, hpath, hheaders, hbody⟩ := requests_of_buildCall hbase64 heq
  cases hdiffer with
  | json json json' h h' hne =>
    obtain hsame | ⟨_, _, hread, hread', hsame⟩ := hbody
    · rw [hsame, h', Except.ok.injEq] at h
      exact hne (h ▸ .refl _ _)
    · rw [h, Except.ok.injEq] at hread
      rw [h', Except.ok.injEq] at hread'
      exact hne (hread ▸ hread' ▸ hsame)
  | bytes hne h =>
    obtain hsame | ⟨json, json', hread, hread', -⟩ := hbody
    · exact hne hsame
    · exact h.elim (fun h => h json hread) fun h => h json' hread'
  | method h => exact h hmethod
  | path h => exact h hpath
  | headers h =>
    exact h (hheaders.filter (!isSecret id.secretHeaders ·) fun name hname => by simpa using hname)

section Demo

def userBody (user : String) : Bytes :=
  ("\x7b\"metadata\":\x7b\"user_id\":\"" ++ user ++ "\"\x7d\x7d").toUTF8.data.toList

def userJson (user : String) : JsonValue := .object [("metadata", .object [("user_id", .string user)])]

/-- The reader as far as the two bodies need it. -/
def readUser (body : Bytes) : Except String JsonValue :=
  if body = userBody "ann" then .ok (userJson "ann")
  else if body = userBody "bob" then .ok (userJson "bob")
  else .error "expected value at line 1 column 1"

def redactedEnv : Env Unit where
  readJson := readUser
  gunzip := .ok
  inflateZlib := .ok
  inflateRaw := .ok
  base64 := Base64.standard.encode
  usage _ _ := ⟨none, .missing, none⟩
  inputEquivalent _ _ _ := none

/-- A call with a key in a request header and in a response header that is not stored. -/
def keyedCall (body : Bytes) (key : String) : CallInputs where
  seq := 1
  startedAt := 0
  firstByteAt := none
  endedAt := 5
  head := ⟨"POST", "/v1/messages", [("AUTHORIZATION", key), ("accept", "text/event-stream")]⟩
  requestBody := body
  status := some 200
  responseHeaders := [("x-echo", key)]
  responseBody := []
  transportError := none
  storeEvents := true

theorem sameBut_userJson (user user' : String) :
    (userJson user).SameBut ["metadata", "user_id"] (userJson user') :=
  .inr ⟨_, _, rfl, rfl, .here [] (.inr ⟨_, _, rfl, rfl, .here [] trivial⟩)⟩

/-- Two users with keys of their own, and two bodies that are no JSON. -/
theorem record_hides_secrets_alone_calls :
    buildCall redactedEnv .anthropic (keyedCall (userBody "ann") "key-1") =
        buildCall redactedEnv .anthropic (keyedCall (userBody "bob") "key-2") ∧
      buildCall redactedEnv .anthropic (keyedCall [0x68] "key-1") ≠
        buildCall redactedEnv .anthropic (keyedCall [0x69] "key-1") := by
  have hann : readUser (userBody "ann") = .ok (userJson "ann") := if_pos rfl
  have hbob : readUser (userBody "bob") = .ok (userJson "bob") := by
    have hother : userBody "bob" ≠ userBody "ann" := by decide
    rw [readUser, if_neg hother, if_pos rfl]
  have hnone : ∀ json, readUser [0x68] ≠ .ok json := by
    have hann : [0x68] ≠ userBody "ann" := by decide
    have hbob : [0x68] ≠ userBody "bob" := by decide
    rw [readUser, if_neg hann, if_neg hbob]
    exact nofun
  refine ⟨(record_hides_secrets_alone redactedEnv .anthropic _ _).1 ?_,
    (record_hides_secrets_alone redactedEnv .anthropic _ _).2
      Base64.standard_lawful.encode_injective (.bytes (by decide) (.inl hnone))⟩
  have hheaders : AgreeBut (isSecret []) (keyedCall [] "key-1").head.headers
      (keyedCall [] "key-2").head.headers :=
    .cons ⟨rfl, fun hopen => absurd hopen (by decide)⟩ (.cons ⟨rfl, fun _ => rfl⟩ .nil)
  exact {
    seq := rfl
    startedAt := rfl
    firstByteAt := rfl
    endedAt := rfl
    method := rfl
    path := rfl
    requestHeaders := hheaders
    requestBody := .inr ⟨_, _, hann, hbob, sameBut_userJson "ann" "bob"⟩
    status := rfl
    responseHeaders := .cons ⟨rfl, fun hopen => absurd hopen (by decide)⟩ .nil
    responseBody := rfl
    transportError := rfl
    storeEvents := rfl }

end Demo

end Ralph.Wire
