import Ralph.Chat.CellOutput
import Ralph.CharIndices
import Ralph.CommonPrefix
import Ralph.Splice
import Ralph.Wire.Build

namespace Ralph.Wire.Diff
open CharBoundary CommonPrefix String

structure PromptSegment where
  label : String
  text : String
  content : String
  breakpoint : Option CacheTier
  deriving DecidableEq

inductive PrefixCache
  | explicit (lookback : ℕ)
  | implicit (tier : CacheTier) (minTokens : Option ℕ)
  deriving DecidableEq

/-- What a provider makes of a request. -/
structure Provider where
  segments : JsonValue → List PromptSegment
  prefixCache : JsonValue → PrefixCache
  cacheRelevantHeaders : List String
  cacheRelevantParams : List String

/-- The equality of `serde_json` values and the two places with floating point numbers: whether the
tokens read are at least nine tenths of the servable ones, and the share of the prompt's tokens that
these bytes of all bytes are, rounded. -/
structure Arith where
  sameValue : JsonValue → JsonValue → Bool
  agrees : ℕ → ℕ → Bool
  scaled : ℕ → ℕ → ℕ → ℕ

def excerptBytes : ℕ := 40

def invisibleCauses : List String :=
  ["cache eviction", "different account or workspace (wire stores no credential fingerprint)",
    "provider-side change"]

structure FactDiff where
  name : String
  a : Option JsonValue
  b : Option JsonValue

structure HeaderDiff where
  name : String
  a : Option String
  b : Option String
  deriving DecidableEq

structure Divergence where
  index : ℕ
  labelA : String
  labelB : String
  offset : ℕ
  aExcerpt : String
  bExcerpt : String
  deriving DecidableEq

inductive Relation
  | extends_
  | prefixOf
  | identical
  deriving DecidableEq

inductive Verdict
  | noSegments
  | noBase
  | noSharedBreakpoint
  | usageMissing
  | prefixChanged (label : String)
  | prefixShared (relation : Relation)
  | modelChanged (a b : Option String)
  | headerChanged (names : List String)
  | paramChanged (names : List String)
  | prefixTooShort (servableTokens minTokens : ℕ)
  | ttlExpired (gapSecs : ℤ) (ttlSecs sinceSeq : ℕ)
  | unexplained (invisible : List String)
  deriving DecidableEq

inductive TokenMethod
  | anchor (seq : ℕ)
  | bytes
  deriving DecidableEq

structure Explanation where
  servableBytes : ℕ
  servableTokens : Option ℕ
  method : Option TokenMethod
  cacheRead : Option ℕ
  verdict : Verdict
  deriving DecidableEq

structure DiffView where
  a : Option ℕ
  b : ℕ
  basePicked : Bool
  facts : List FactDiff
  headers : List HeaderDiff
  sharedSegments : ℕ
  divergence : Option Divergence
  removed : List String
  added : List String
  explanation : Explanation

inductive DiffError
  | notInOrder (a b : ℕ)
  | notInference (seq : ℕ)
  deriving DecidableEq

/-- `&xs[..n]`, where `none` is the panic. -/
def upTo {α : Type*} (xs : List α) (n : ℕ) : Option (List α) :=
  if n ≤ xs.length then some (xs.take n) else none

/-- `filter_map` with a function that may panic. -/
def filterMapSome {α β : Type*} (f : α → Option (Option β)) : List α → Option (List β)
  | [] => some []
  | x :: xs => (f x).bind fun y => (filterMapSome f xs).map fun ys => y.toList ++ ys

/-- `Iterator::max_by_key`: the last of the largest. -/
def maxByKey {α : Type*} (key : α → ℕ) (xs : List α) : Option α :=
  xs.foldl (fun best x =>
    match best with
    | none => some x
    | some b => if key b ≤ key x then some x else some b) none

section Calls

variable {Amount : Type} (arith : Arith)

structure DiffInput (Amount : Type) where
  a : Option (CallRecord Amount)
  b : CallRecord Amount
  session : List (CallRecord Amount)
  provider : Provider
  basePicked : Bool

structure Pair (Amount : Type) where
  a : CallRecord Amount
  b : CallRecord Amount
  session : List (CallRecord Amount)
  provider : Provider

structure Prompts where
  a : List PromptSegment
  b : List PromptSegment
  prefixCache : PrefixCache

structure Breakpoint where
  index : ℕ
  tier : CacheTier
  deriving DecidableEq

def checkPair (a : Option (CallRecord Amount)) (b : CallRecord Amount) : Except DiffError Unit :=
  if b.kind ≠ .inference then .error (.notInference b.seq)
  else
    match a with
    | none => .ok ()
    | some a =>
      if a.kind ≠ .inference then .error (.notInference a.seq)
      else if b.seq ≤ a.seq then .error (.notInOrder a.seq b.seq)
      else .ok ()

def segmentsOf (provider : Provider) (call : CallRecord Amount) : Option (List PromptSegment) :=
  match call.requestBody with
  | .json body => some (provider.segments body)
  | .base64 _ => none

def sharedPrefix (a b : List PromptSegment) : ℕ :=
  shared (a.map PromptSegment.content) (b.map PromptSegment.content)

/-- The keys of both, in order, each once: a `BTreeSet`. -/
def paramKeys (a b : RequestFacts) : List String :=
  ((a.params ++ b.params).map Prod.fst).dedup.insertionSort (· ≤ ·)

def sameParam : Option JsonValue → Option JsonValue → Bool
  | none, none => true
  | some a, some b => arith.sameValue a b
  | _, _ => false

def factDiffs (a b : CallRecord Amount) : List FactDiff :=
  (if a.facts.model ≠ b.facts.model then
    [⟨"model", a.facts.model.map .string, b.facts.model.map .string⟩] else []) ++
  (paramKeys a.facts b.facts).filterMap fun key =>
    if sameParam arith (a.facts.params.lookup key) (b.facts.params.lookup key) then none
    else some ⟨key, a.facts.params.lookup key, b.facts.params.lookup key⟩

def headerDiffs (provider : Provider) (a b : CallRecord Amount) : List HeaderDiff :=
  provider.cacheRelevantHeaders.filterMap fun name =>
    if headerValue a.requestHeaders name = headerValue b.requestHeaders name then none
    else some ⟨name, headerValue a.requestHeaders name, headerValue b.requestHeaders name⟩

def textBytes (text : String) : List UInt8 := text.toUTF8.data.toList

/-- `text.len()`. -/
def textLen (text : String) : ℕ := utf8Len text.toList

def floorBoundary (text : String) (index : ℕ) : ℕ := Chat.floorBoundary text.toList (min index (textLen text))

def excerpt (text : String) (offset : ℕ) : Option String :=
  let start := floorBoundary text offset
  let stop := floorBoundary text (start + excerptBytes)
  (sliceTo text.toList stop).bind fun cut => (sliceFrom cut start).map String.ofList

def relation (aLen bLen shared : ℕ) : Relation :=
  if shared < bLen then .extends_
  else if shared < aLen then .prefixOf
  else .identical

def divergence (shared : ℕ) (a b : List PromptSegment) : Option (Option Divergence) :=
  match a[shared]?, b[shared]? with
  | some left, some right =>
    let offset := firstDifference (textBytes left.content) (textBytes right.content)
    (excerpt left.content offset).bind fun aExcerpt =>
      (excerpt right.content offset).map fun bExcerpt =>
        some ⟨shared, left.label, right.label, offset, aExcerpt, bExcerpt⟩
  | _, _ => some none

def labelsAfter (segments : List PromptSegment) (start : ℕ) : List String :=
  (segments.drop start).map PromptSegment.label

/-- Sums of tokens wrap at 64 bits. -/
def written (usage : Usage) : ℕ := (usage.cacheWrites.map CacheWrite.tokens).sum % 2 ^ 64

def promptTokens (usage : Usage) : ℕ := (usage.inputUncached + usage.cacheRead + written usage) % 2 ^ 64

def countedUsage (call : CallRecord Amount) : Option Usage :=
  match call.usage with
  | .reported usage | .partly usage => some usage
  | .missing => none

def reaches (segments : List PromptSegment) (index lookback : ℕ) : Bool :=
  ((segments.drop index).take lookback).any fun segment => segment.breakpoint.isSome

/-- Whether the segments go through `through` with the contents of `bSegments`. -/
def sharesThrough (through : ℕ) (bSegments segments : List PromptSegment) : Option Bool :=
  if through < segments.length then
    (upTo segments (through + 1)).bind fun left =>
      (upTo bSegments (through + 1)).map fun right =>
        (left.zip right).all fun (l, r) => l.content == r.content
  else some false

def touches (cache : PrefixCache) (through : ℕ) (bSegments segments : List PromptSegment) : Option Bool :=
  (sharesThrough through bSegments segments).map fun same =>
    same && match cache with
      | .explicit lookback => reaches segments through lookback
      | .implicit _ _ => true

/-- The call, where it is a touch. -/
def touchOf (input : Pair Amount) (through : ℕ) (bSegments : List PromptSegment) (cache : PrefixCache)
    (call : CallRecord Amount) : Option (Option (CallRecord Amount)) :=
  match segmentsOf input.provider call with
  | none => some none
  | some segments => (touches cache through bSegments segments).map fun touch => if touch then some call else none

def lastTouch (input : Pair Amount) (through : ℕ) (bSegments : List PromptSegment) (cache : PrefixCache) :
    Option (CallRecord Amount) :=
  let calls := input.session.filter fun call =>
    decide (input.a.seq ≤ call.seq) && decide (call.seq < input.b.seq) && (call.kind == .inference)
  (filterMapSome (touchOf input through bSegments cache) calls).map fun touching =>
    (maxByKey CallRecord.seq touching).getD input.a

def lastBreakpoint (segments : List PromptSegment) : Option ℕ :=
  Splice.rposition (fun segment => segment.breakpoint.isSome) segments

/-- The call, where its own last breakpoint is the segment at `index`, and its tokens up to there. -/
def anchorOf (input : Pair Amount) (index : ℕ) (bSegments : List PromptSegment) (call : CallRecord Amount) :
    Option (Option (CallRecord Amount × ℕ)) :=
  match countedUsage call, segmentsOf input.provider call with
  | some usage, some segments => (sharesThrough index bSegments segments).map fun same =>
      if same && (lastBreakpoint segments == some index) then
        some (call, (usage.cacheRead + written usage) % 2 ^ 64)
      else none
  | _, _ => some none

def anchorTokens (input : Pair Amount) (index : ℕ) (bSegments : List PromptSegment) :
    Option (Option (CallRecord Amount × ℕ)) :=
  let calls := input.session.filter fun call => decide (call.seq ≤ input.b.seq) && (call.kind == .inference)
  (filterMapSome (anchorOf input index bSegments) calls).map (maxByKey fun anchor => anchor.1.seq)

/-- The breakpoints, the last one first. -/
def marked (segments : List PromptSegment) : List Breakpoint :=
  segments.zipIdx.reverse.filterMap fun (segment, index) => segment.breakpoint.map (Breakpoint.mk index)

def servableBreakpoint (prompts : Prompts) (shared : ℕ) : Option (Option Breakpoint) :=
  (upTo prompts.a shared).map fun segments =>
    match prompts.prefixCache with
    | .explicit lookback => (marked segments).find? fun bp => reaches prompts.b bp.index lookback
    | .implicit tier _ =>
      if shared = 0 then none
      else some ⟨shared - 1, ((marked segments).head?.map Breakpoint.tier).getD tier⟩

def changedVerdict (input : Pair Amount) (facts : List FactDiff) (headers : List HeaderDiff) : Option Verdict :=
  if input.a.facts.model ≠ input.b.facts.model then
    some (.modelChanged input.a.facts.model input.b.facts.model)
  else if headers ≠ [] then some (.headerChanged (headers.map HeaderDiff.name))
  else
    let relevant := (facts.map FactDiff.name).filter (input.provider.cacheRelevantParams.contains ·)
    if relevant ≠ [] then some (.paramChanged relevant) else none

def tooShortVerdict (cache : PrefixCache) (servableTokens : ℕ) : Option Verdict :=
  match cache with
  | .implicit _ (some minTokens) =>
    if servableTokens < minTokens then some (.prefixTooShort servableTokens minTokens) else none
  | _ => none

/-- `seconds as i64`. -/
def asI64 (seconds : ℕ) : ℤ := (seconds : ℤ).bmod (2 ^ 64)

/-- `(b.started_at - touch.ended_at).num_seconds()`. -/
def gapSecs (b touch : CallRecord Amount) : ℤ := (b.startedAt - touch.endedAt).tdiv 1000000000

def lapseVerdict (input : Pair Amount) (bp : Breakpoint) (bSegments : List PromptSegment) (cache : PrefixCache) :
    Option Verdict :=
  match bp.tier with
  | .ttl seconds =>
    (lastTouch input bp.index bSegments cache).map fun touch =>
      if asI64 seconds < gapSecs input.b touch then .ttlExpired (gapSecs input.b touch) seconds touch.seq
      else .unexplained invisibleCauses
  | .unspecified => some (.unexplained invisibleCauses)

def totalBytes (segments : List PromptSegment) : ℕ := (segments.map fun segment => textLen segment.text).sum

def servableTokens (input : Pair Amount) (bp : Breakpoint) (bSegments : List PromptSegment) (servableBytes : ℕ)
    (usage : Usage) : Option (ℕ × TokenMethod) :=
  (anchorTokens input bp.index bSegments).map fun anchor =>
    match anchor with
    | some (call, tokens) => (tokens, .anchor call.seq)
    | none =>
      let total := totalBytes bSegments
      (if total = 0 then 0 else arith.scaled servableBytes (promptTokens usage) total, .bytes)

def missVerdict (input : Pair Amount) (facts : List FactDiff) (headers : List HeaderDiff) (prompts : Prompts)
    (bp : Breakpoint) (servable : ℕ) : Option Verdict :=
  match changedVerdict input facts headers, tooShortVerdict prompts.prefixCache servable with
  | some verdict, _ => some verdict
  | none, some verdict => some verdict
  | none, none => lapseVerdict input bp prompts.b prompts.prefixCache

def explain (input : Pair Amount) (facts : List FactDiff) (headers : List HeaderDiff) (prompts : Prompts)
    (shared : ℕ) (served : Verdict) : Option Explanation :=
  let usage := countedUsage input.b
  let cacheRead := usage.map Usage.cacheRead
  (servableBreakpoint prompts shared).bind fun bp =>
    match bp with
    | none => some ⟨0, none, none, cacheRead, .noSharedBreakpoint⟩
    | some bp =>
      (upTo prompts.b (bp.index + 1)).bind fun through =>
        let servableBytes := totalBytes through
        match usage with
        | none => some ⟨servableBytes, none, none, none, .usageMissing⟩
        | some usage =>
          (servableTokens arith input bp prompts.b servableBytes usage).bind fun (servable, method) =>
            (if arith.agrees usage.cacheRead servable then some served
              else missVerdict input facts headers prompts bp servable).map fun verdict =>
              ⟨servableBytes, some servable, some method, cacheRead, verdict⟩

def emptyView (input : DiffInput Amount) (verdict : Verdict) (cacheRead : Option ℕ) : DiffView where
  a := input.a.map CallRecord.seq
  b := input.b.seq
  basePicked := input.basePicked
  facts := []
  headers := []
  sharedSegments := 0
  divergence := none
  removed := []
  added := []
  explanation := ⟨0, none, none, cacheRead, verdict⟩

def promptsOf (provider : Provider) (a b : CallRecord Amount) : Option Prompts :=
  match a.requestBody, b.requestBody with
  | .json aBody, .json bBody =>
    some ⟨provider.segments aBody, provider.segments bBody, provider.prefixCache aBody⟩
  | _, _ => none

def servedVerdict (prompts : Prompts) (shared : ℕ) (div : Option Divergence) : Verdict :=
  match div with
  | some div => .prefixChanged div.labelB
  | none => .prefixShared (relation prompts.a.length prompts.b.length shared)

def diffView (input : DiffInput Amount) : Option DiffView :=
  let cacheRead := (countedUsage input.b).map Usage.cacheRead
  match input.a with
  | none =>
    some (emptyView input (if (segmentsOf input.provider input.b).isSome then .noBase else .noSegments) cacheRead)
  | some a =>
    let facts := factDiffs arith a input.b
    let headers := headerDiffs input.provider a input.b
    let base := { emptyView input .noSegments cacheRead with facts, headers }
    match promptsOf input.provider a input.b with
    -- without segments only the facts and the headers are compared
    | none => some base
    | some prompts =>
      let shared := sharedPrefix prompts.a prompts.b
      (divergence shared prompts.a prompts.b).bind fun div =>
        -- the segment where they part is shown on its own
        let skip := shared + if div.isSome then 1 else 0
        (explain arith ⟨a, input.b, input.session, input.provider⟩ facts headers prompts shared
            (servedVerdict prompts shared div)).map fun explanation =>
          { base with
            sharedSegments := shared
            removed := labelsAfter prompts.a skip
            added := labelsAfter prompts.b skip
            divergence := div
            explanation }

end Calls

end Ralph.Wire.Diff
