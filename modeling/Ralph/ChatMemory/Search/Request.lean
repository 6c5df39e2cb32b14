import Ralph.Chat.Words
import Ralph.ChatMemory.Index
import Ralph.ChatMemory.Search.Normalized
import Ralph.Fallible
import Ralph.Hex
import Ralph.JsonValue

namespace Ralph.ChatMemory.Search
open Chat Fallible

def defaultLimit : ℕ := 20
def maxLimit : ℕ := 50

/-- Why there is no request: the text of the error, or a panic on a date out of range. -/
inductive Refusal
  | message (text : String)
  | panic
  deriving DecidableEq, Repr

structure SearchCursor where
  offset : ℕ
  count : ℕ
  fingerprint : UInt64
  deriving DecidableEq, Repr

namespace SearchCursor

def parse (s : String) : Except Refusal SearchCursor :=
  let bad : Except Refusal SearchCursor := .error (.message
    s!"'{s}' is not a search cursor. Copy the `next cursor:` value from the last page.")
  match s.toList.splitOn '.' with
  | [offset, count, fingerprint] =>
    match parseUsize (String.ofList offset), parseUsize (String.ofList count),
        Hex.parseU64 fingerprint with
    | some offset, some count, some fingerprint => .ok ⟨offset, count, fingerprint⟩
    | _, _, _ => bad
  | _ => bad

def encode (c : SearchCursor) : String :=
  s!"{c.offset}.{c.count}.{String.ofList (Hex.padded c.fingerprint)}"

end SearchCursor

/-- What `chrono` does with the points in time `T`. -/
structure Dates (T : Type) where
  /-- `DateTime::parse_from_rfc3339`, in UTC. -/
  stamp : String → Option T
  /-- `NaiveDate::parse_from_str` with `%Y-%m-%d`, at midnight in UTC. -/
  day : String → Option T
  /-- `+ Duration` in nanoseconds, where `none` is its panic. -/
  plus : T → ℕ → Option T
  /-- `to_rfc3339`. -/
  text : T → String

variable {T : Type}

structure SearchRequest (T : Type) where
  text : String
  query : Query
  role : Option Role
  since : Option T
  before : Option T
  limit : ℕ
  cursor : Option SearchCursor
  fingerprint : UInt64

inductive Edge
  | since
  | until_
  deriving DecidableEq, Repr

def dayNanos : ℕ := 86400 * 1000000000

def Dates.add (dates : Dates T) (moment : T) (nanos : ℕ) : Except Refusal T :=
  match dates.plus moment nanos with
  | some moment => .ok moment
  | none => .error .panic

def parseEdge (dates : Dates T) (s : String) (edge : Edge) : Except Refusal T :=
  let s := trim s
  match dates.stamp s with
  | some stamp =>
    match edge with
    | .since => .ok stamp
    | .until_ => dates.add stamp 1
  | none =>
    match dates.day s with
    | none => .error (.message s!"'{s}' is not a date. Use an RFC 3339 timestamp or YYYY-MM-DD.")
    | some midnight =>
      match edge with
      | .since => .ok midnight
      | .until_ => dates.add midnight dayNanos

def parseRole (s : String) : Except Refusal Role :=
  let s := trim s
  if s = "user" then .ok .user
  else if s = "assistant" then .ok .assistant
  else if s = "worker" then .ok .worker
  else .error (.message s!"'{s}' is not a role. Use user, assistant, or worker.")

/-- `string_arg`. -/
def stringArg (args : JsonValue) (key : String) : Except Refusal String :=
  match (args.member? key).bind JsonValue.asStr with
  | some s =>
    if trim s = "" then .error (.message s!"Missing or empty string argument '{key}'.") else .ok s
  | none => .error (.message s!"Missing or empty string argument '{key}'.")

def optionalStr (args : JsonValue) (key : String) : Except Refusal (Option String) :=
  match args.member? key with
  | none | some .null => .ok none
  | some (.string s) => .ok (some s)
  | some _ => .error (.message s!"'{key}' must be a string.")

/-- `Value::as_u64` on the literal of a number. -/
def asU64 : JsonValue → Option ℕ
  | .number literal =>
    let value := Nat.ofDigitChars 10 literal.toList 0
    if literal.toList.all Char.isDigit ∧ value < 2 ^ 64 then some value else none
  | _ => none

def parseLimit (args : JsonValue) : Except Refusal ℕ :=
  match args.member? "limit" with
  | none | some .null => .ok defaultLimit
  | some v =>
    match (asU64 v).filter fun n => 1 ≤ n ∧ n ≤ maxLimit with
    | some n => .ok n
    | none => .error (.message s!"limit must be a whole number from 1 to {maxLimit}.")

/-- `map` and `transpose` on an optional text. -/
def parseOptional {α : Type} (text : Option String) (parse : String → Except Refusal α) :
    Except Refusal (Option α) :=
  match text with
  | none => .ok none
  | some s => (parse s).map some

/-- What the fingerprint is a hash of: the query, the filters and the limit. -/
def searchKey (dates : Dates T) (request : SearchRequest T) : String :=
  "\u001f".intercalate [request.query.normalized, request.role.elim "" Role.asStr,
    request.since.elim "" dates.text, request.before.elim "" dates.text, toString request.limit]

def fingerprint (dates : Dates T) (request : SearchRequest T) : UInt64 :=
  fnv1a (searchKey dates request).toUTF8.toList

section
variable [LinearOrder T]

def parseSearchArgs (u : Unicode) (dates : Dates T) (args : JsonValue) :
    Except Refusal (SearchRequest T) := do
  let text ← stringArg args "query"
  let query ← (Query.parse u text).mapError .message
  let role ← parseOptional (← optionalStr args "role") parseRole
  let since ← parseOptional (← optionalStr args "since") fun s => parseEdge dates s .since
  let before ← parseOptional (← optionalStr args "until") fun s => parseEdge dates s .until_
  let limit ← parseLimit args
  let cursor ← parseOptional (← optionalStr args "cursor") fun s => SearchCursor.parse (trim s)
  let request : SearchRequest T := ⟨text, query, role, since, before, limit, cursor, 0⟩
  if (since.bind fun since => before.map fun before => decide (since ≥ before)) = some true then
    .error (.message "'since' is later than 'until'.")
  else .ok { request with fingerprint := fingerprint dates request }

def checkCursor (request : SearchRequest T) (count : ℕ) : Except String Unit :=
  match request.cursor with
  | some c => if c.count ≠ count then .error "stale cursor; the log changed" else .ok ()
  | none => .ok ()

def checkFingerprint (request : SearchRequest T) : Except String Unit :=
  match request.cursor with
  | some c =>
    if c.fingerprint ≠ request.fingerprint then .error "cursor does not match this query" else .ok ()
  | none => .ok ()

def passes (dates : Dates T) (request : SearchRequest T) (entry : Entry) : Bool :=
  if request.role.any (· ≠ entry.role) then false
  else if request.since.isNone && request.before.isNone then true
  else
    match dates.stamp entry.at_ with
    | none => false
    | some moment =>
      request.since.all (fun since => moment ≥ since) && request.before.all fun before => moment < before

end

theorem parseUsize_toString {n : ℕ} (h : n ≤ usizeMax) : parseUsize (toString n) = some n := by
  have hdigits : ∀ c ∈ (toString n).toList, c.isDigit = true := fun c => Text.isDigit_of_mem_toString
  have hne : (toString n).toList ≠ [] := by
    rw [Nat.toString_eq_ofList_toDigits, String.toList_ofList]
    exact Nat.toDigits_ne_nil
  have hvalue : n = Nat.ofDigitChars 10 (toString n).toList 0 := by
    rw [Nat.toString_eq_ofList_toDigits, String.toList_ofList, Nat.ofDigitChars_ten_toDigits]
  have hfits : n < 2 ^ 64 := by
    unfold usizeMax at h
    omega
  rw [← String.ofList_toList (s := toString n)]
  exact (parseUsize_digits hdigits).2 ⟨hne, hvalue, hfits⟩

namespace SearchCursor

theorem toList_encode (c : SearchCursor) :
    c.encode.toList = ['.'].intercalate
      [(toString c.offset).toList, (toString c.count).toList, Hex.padded c.fingerprint] := by
  simp [encode, String.toList_append, List.intercalate_cons_cons]

theorem parse_encode {c : SearchCursor} (hoffset : c.offset ≤ usizeMax) (hcount : c.count ≤ usizeMax) :
    parse c.encode = .ok c := by
  have hdigits : ∀ n : ℕ, '.' ∉ (toString n).toList := by
    intro n hmem
    exact absurd (Text.isDigit_of_mem_toString hmem) (by decide)
  have hhex : '.' ∉ Hex.padded c.fingerprint := by
    intro hmem
    obtain ⟨d, hd, hchar⟩ := Hex.digit_of_mem_padded hmem
    interval_cases d <;> exact absurd hchar (by decide)
  have hfresh : ∀ part ∈ [(toString c.offset).toList, (toString c.count).toList,
      Hex.padded c.fingerprint], '.' ∉ part := by
    simp only [List.forall_mem_cons]
    exact ⟨hdigits _, hdigits _, hhex, by simp⟩
  have hparts := List.splitOn_intercalate '.' hfresh (List.cons_ne_nil _ _)
  rw [parse, toList_encode, hparts]
  simp only [String.ofList_toList, parseUsize_toString hoffset, parseUsize_toString hcount,
    Hex.parseU64_padded]

theorem trim_encode (c : SearchCursor) : trim c.encode = c.encode := by
  have hblank : ∀ x ∈ c.encode.toList, isWhitespace x = false := by
    intro x hx
    rw [toList_encode] at hx
    obtain rfl | ⟨part, hpart, hx⟩ := Text.mem_intercalate hx
    · decide
    · simp only [List.mem_cons, List.not_mem_nil, or_false] at hpart
      obtain rfl | rfl | rfl := hpart
      · exact isWhitespace_of_isDigit (Text.isDigit_of_mem_toString hx)
      · exact isWhitespace_of_isDigit (Text.isDigit_of_mem_toString hx)
      · obtain ⟨d, hd, rfl⟩ := Hex.digit_of_mem_padded hx
        interval_cases d <;> decide
  rw [trim, trimChars_of_not_whitespace hblank, String.ofList_toList]

end SearchCursor

/-- The same call with the cursor of the last page. -/
structure NextCall (args args' : JsonValue) (cursor : SearchCursor) : Prop where
  cursor : args'.member? "cursor" = some (.string cursor.encode)
  other : ∀ key ≠ "cursor", args'.member? key = args.member? key

theorem exists_nextCall (args : JsonValue) (cursor : SearchCursor)
    (hargs : ∃ key ≠ "cursor", args.member? key ≠ none) : ∃ args', NextCall args args' cursor := by
  obtain ⟨key, -, hkey⟩ := hargs
  cases args with
  | object members =>
    refine ⟨.object (("cursor", .string cursor.encode) :: members), ?_, ?_⟩
    · simp [JsonValue.member?]
    · intro key hne
      simp [JsonValue.member?, List.lookup_cons, beq_false_of_ne hne]
  | _ => exact absurd rfl hkey

section
variable [LinearOrder T] {u : Unicode} {dates : Dates T} {args args' : JsonValue}
  {request : SearchRequest T}

theorem stringArg_congr {key : String} (h : args'.member? key = args.member? key) :
    stringArg args' key = stringArg args key := by
  rw [stringArg, stringArg, h]

theorem optionalStr_congr {key : String} (h : args'.member? key = args.member? key) :
    optionalStr args' key = optionalStr args key := by
  rw [optionalStr, optionalStr, h]

theorem parseLimit_congr (h : args'.member? "limit" = args.member? "limit") :
    parseLimit args' = parseLimit args := by
  rw [parseLimit, parseLimit, h]

/-- What is known of a request that was parsed. -/
structure SearchRequest.Parsed (u : Unicode) (dates : Dates T) (args : JsonValue)
    (request : SearchRequest T) : Prop where
  args : ∃ key ≠ "cursor", args.member? key ≠ none
  query : Query.parse u request.text = .ok request.query
  limit : 1 ≤ request.limit
  fingerprint : request.fingerprint = Search.fingerprint dates request

theorem parsed_of_parseSearchArgs (h : parseSearchArgs u dates args = .ok request) :
    request.Parsed u dates args := by
  unfold parseSearchArgs at h
  simp only [bind_eq_ok] at h
  obtain ⟨text, htext, query, hquery, -, -, role, -, -, -, since, -, -, -, before, -, limit, hlimit,
    -, -, cursor, -, h⟩ := h
  split_ifs at h
  obtain rfl := Except.ok.inj h
  refine ⟨⟨"query", by decide, ?_⟩, ?_, ?_, rfl⟩
  · intro hnone
    rw [stringArg, hnone] at htext
    cases htext
  · exact mapError_eq_ok.1 hquery
  · unfold parseLimit at hlimit
    split at hlimit
    · obtain rfl := Except.ok.inj hlimit
      show 1 ≤ defaultLimit
      decide
    · obtain rfl := Except.ok.inj hlimit
      show 1 ≤ defaultLimit
      decide
    · split at hlimit
      · next n hn =>
        obtain ⟨-, hrange⟩ := Option.filter_eq_some_iff.mp hn
        rw [← Except.ok.inj hlimit]
        exact (of_decide_eq_true hrange).1
      · cases hlimit

/-- The next call is read as the same request at its cursor. -/
theorem parse_nextCall (h : parseSearchArgs u dates args = .ok request) {cursor : SearchCursor}
    (hnext : NextCall args args' cursor) (hoffset : cursor.offset ≤ usizeMax)
    (hcount : cursor.count ≤ usizeMax) :
    parseSearchArgs u dates args' = .ok { request with cursor := some cursor } := by
  unfold parseSearchArgs at h
  simp only [bind_eq_ok] at h
  obtain ⟨text, htext, query, hquery, roleText, hroleText, role, hrole, sinceText, hsinceText, since,
    hsince, beforeText, hbeforeText, before, hbefore, limit, hlimit, -, -, cursor', -, h⟩ := h
  split_ifs at h with hdates
  obtain rfl := Except.ok.inj h
  have hcursorText : optionalStr args' "cursor" = .ok (some cursor.encode) := by
    rw [optionalStr, hnext.cursor]
  have hcursor : parseOptional (some cursor.encode) (fun s => SearchCursor.parse (trim s)) =
      .ok (some cursor) := by
    simp only [parseOptional, SearchCursor.trim_encode, SearchCursor.parse_encode hoffset hcount]
    rfl
  unfold parseSearchArgs
  rw [stringArg_congr (hnext.other "query" (by decide)), htext, ok_bind, hquery, ok_bind,
    optionalStr_congr (hnext.other "role" (by decide)), hroleText, ok_bind, hrole, ok_bind,
    optionalStr_congr (hnext.other "since" (by decide)), hsinceText, ok_bind, hsince, ok_bind,
    optionalStr_congr (hnext.other "until" (by decide)), hbeforeText, ok_bind, hbefore, ok_bind,
    parseLimit_congr (hnext.other "limit" (by decide)), hlimit, ok_bind, hcursorText, ok_bind,
    hcursor, ok_bind, if_neg hdates]
  rfl

/-- What the search relies on: a written date is not empty, has no separator of a key, and stands for
one point in time. -/
structure Dates.Lawful (dates : Dates T) : Prop where
  injective : Function.Injective dates.text
  nonempty : ∀ moment, dates.text moment ≠ ""
  fresh : ∀ moment, '\u001f' ∉ (dates.text moment).toList

omit [LinearOrder T] in
theorem Dates.Lawful.bound_inj (hdates : dates.Lawful) {a b : Option T}
    (h : (a.elim "" dates.text).toList = (b.elim "" dates.text).toList) : a = b := by
  have htext := String.toList_injective h
  cases a with
  | none =>
    cases b with
    | none => rfl
    | some b => exact absurd htext.symm (hdates.nonempty b)
  | some a =>
    cases b with
    | none => exact absurd htext (hdates.nonempty a)
    | some b => exact congrArg some (hdates.injective htext)

theorem role_inj {a b : Option Role}
    (h : (a.elim "" Role.asStr).toList = (b.elim "" Role.asStr).toList) : a = b := by
  obtain _ | (_ | _ | _) := a <;> obtain _ | (_ | _ | _) := b <;> first | rfl | exact absurd h (by decide)

/-- The parts of a key. -/
def keyParts (dates : Dates T) (request : SearchRequest T) : List (List Char) :=
  [request.query.normalized.toList, (request.role.elim "" Role.asStr).toList,
    (request.since.elim "" dates.text).toList, (request.before.elim "" dates.text).toList,
    (toString request.limit).toList]

omit [LinearOrder T] in
theorem notMem_keyParts (hu : u.Lawful) (hdates : dates.Lawful) (h : request.Parsed u dates args) :
    ∀ part ∈ keyParts dates request, '\u001f' ∉ part := by
  have hbound : ∀ bound : Option T, '\u001f' ∉ (bound.elim "" dates.text).toList := by
    intro bound
    cases bound with
    | none => exact List.not_mem_nil
    | some moment => exact hdates.fresh moment
  simp only [keyParts, List.forall_mem_cons]
  refine ⟨notMem_normalized (wellFormed_of_parse hu h.query).2, ?_, hbound _, hbound _, ?_, by simp⟩
  · obtain _ | (_ | _ | _) := request.role <;> decide
  · exact fun hmem => absurd (Text.isDigit_of_mem_toString hmem) (by decide)

omit [LinearOrder T] in
/-- Two requests with one key ask for the same. -/
theorem searchKey_inj (hu : u.Lawful) (hdates : dates.Lawful) {request' : SearchRequest T}
    (h : request.Parsed u dates args) (h' : request'.Parsed u dates args')
    (hkey : searchKey dates request = searchKey dates request') :
    request.query = request'.query ∧ request.role = request'.role ∧
      request.since = request'.since ∧ request.before = request'.before ∧
      request.limit = request'.limit := by
  have htexts := congrArg String.toList hkey
  simp only [searchKey, String.toList_intercalate] at htexts
  have hparts : keyParts dates request = keyParts dates request' :=
    Text.intercalate_inj (notMem_keyParts hu hdates h) (notMem_keyParts hu hdates h')
      (List.cons_ne_nil _ _) (List.cons_ne_nil _ _) htexts
  simp only [keyParts, List.cons.injEq, and_true] at hparts
  obtain ⟨hnormalized, hrole, hsince, hbefore, hlimit⟩ := hparts
  obtain ⟨hne, hwell⟩ := wellFormed_of_parse hu h.query
  obtain ⟨hne', hwell'⟩ := wellFormed_of_parse hu h'.query
  refine ⟨?_, role_inj hrole, hdates.bound_inj hsince, hdates.bound_inj hbefore, ?_⟩
  · exact normalized_inj hwell hwell' hne hne' (String.toList_injective hnormalized)
  · have hvalue := congrArg (fun cs => Nat.ofDigitChars 10 cs 0) hlimit
    simpa only [Nat.toString_eq_ofList_toDigits, String.toList_ofList,
      Nat.ofDigitChars_ten_toDigits] using hvalue

end

end Ralph.ChatMemory.Search
