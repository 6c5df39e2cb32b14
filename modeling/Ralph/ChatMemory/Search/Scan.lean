import Ralph.CharBoundary
import Ralph.ChatMemory.ScanEntries
import Ralph.ChatMemory.Search.Request

namespace Ralph.ChatMemory
open CharBoundary

/-- `excerpt`: a stretch of the flat text around a match; `none` is a slice that panics. -/
def excerpt (text : String) (matchStart leadChars width : ℕ) : Option String :=
  (sliceTo text.toList matchStart).map fun before =>
    let lead := (collapse (String.ofList before)).length
    let flat := (collapse text).toList
    let total := flat.length
    let from_ := lead - leadChars
    let to_ := min (from_ + width) total
    let from_ := min (to_ - width) from_
    let body := String.ofList ((flat.drop from_).take (to_ - from_))
    let head := if from_ > 0 then "…" else ""
    let tail := if to_ < total then "…" else ""
    s!"{head}{body}{tail}"

namespace Search

def chunkEntries : ℕ := 256
def snippetChars : ℕ := 160
def snippetLeadChars : ℕ := 40

structure Candidate where
  id : ℕ
  role : Role
  at_ : String
  counts : List ℕ
  length : ℕ
  snippet : String
  deriving DecidableEq, Repr

variable {T : Type}

structure Scan (T : Type) where
  request : SearchRequest T
  eligible : ℕ
  totalLength : ℕ
  frequency : List ℕ
  candidates : List Candidate

namespace Scan

def new (request : SearchRequest T) : Scan T :=
  ⟨request, 0, 0, List.replicate request.query.units.length 0, []⟩

end Scan

/-- What an entry with these tokens puts on the list of hits; `none` outside is a panic. -/
def candidateOf (u : Unicode) (units : List QueryUnit) (id : ℕ) (entry : Entry) (tokens : List Token) :
    Option (Option Candidate) :=
  let found := units.map fun unit => unit.occurrences u tokens
  let requiredMet := (units.zip found).all fun (unit, count, _) => !unit.required || decide (count > 0)
  let first := (found.filterMap Prod.snd).min?
  match first.filter fun _ => requiredMet with
  | none => some none
  | some first =>
    (excerpt entry.text first snippetLeadChars snippetChars).map fun snippet =>
      some ⟨id, entry.role, entry.at_, found.map Prod.fst, tokens.length, snippet⟩

variable [LinearOrder T]

/-- `Scan::push`; `none` is a panic. -/
def Scan.push (u : Unicode) (dates : Dates T) (scan : Scan T) (id : ℕ) (entry : Entry) :
    Option (Scan T) :=
  if entry.corrupt || !passes dates scan.request entry then some scan
  else
    let units := scan.request.query.units
    let tokens := tokenize u entry.text
    let found := units.map fun unit => unit.occurrences u tokens
    (candidateOf u units id entry tokens).map fun candidate =>
      { scan with
        eligible := scan.eligible + 1
        totalLength := scan.totalLength + tokens.length
        frequency := scan.frequency.zipWith (fun seen (count, _) => seen + if count > 0 then 1 else 0)
          found
        candidates := scan.candidates ++ candidate.toList }

/-- The surroundings of a search: what the program calls, and the `f64` scores with `total_cmp` as
some fixed total order. -/
structure Env (T S : Type) where
  json : Json
  unicode : Unicode
  dates : Dates T
  score : (eligible totalLength : ℕ) → (frequency : List ℕ) → Candidate → S

variable {S : Type} [LinearOrder S]

def Scan.score (env : Env T S) (scan : Scan T) (candidate : Candidate) : S :=
  env.score scan.eligible scan.totalLength scan.frequency candidate

/-- `sort_by` on the score and then the id, the higher ones first. -/
def Scan.ranked (env : Env T S) (scan : Scan T) : List Candidate :=
  ((scan.candidates.map fun c => (scan.score env c, c)).mergeSort fun a b =>
    decide (b.1 < a.1 ∨ a.1 = b.1 ∧ b.2.id ≤ a.2.id)).map Prod.snd

/-- What a page shows of the hits, and where the next page begins. -/
structure SearchPage where
  hits : List Candidate
  next : Option SearchCursor
  deriving DecidableEq, Repr

def pageOf (request : SearchRequest T) (count : ℕ) (ranked : List Candidate) : SearchPage :=
  let offset := min (request.cursor.elim 0 SearchCursor.offset) ranked.length
  let stop := min (offset + request.limit) ranked.length
  ⟨(ranked.take stop).drop offset,
    if stop < ranked.length then some ⟨stop, count, request.fingerprint⟩ else none⟩

def hitLine (hit : Candidate) : String :=
  s!"#{hit.id} · {hit.role.asStr} · {hit.at_} · {hit.snippet}"

def render (request : SearchRequest T) (count : ℕ) (ranked : List Candidate) : String :=
  if ranked = [] then s!"no hits for {request.text}"
  else
    let page := pageOf request count ranked
    let footer := match page.next with
      | some next => s!"next cursor: {next.encode}"
      | none => "(end of results)"
    "\n".intercalate (page.hits.map hitLine ++ [footer, "(read <id> for the full text)"])

/-- The hits of `search` in their order, with the number of entries; `none` is a panic. -/
def searchRanked (env : Env T S) (limit : ℕ) (a : Archive) (request : SearchRequest T) :
    Option (Except IoError (Except String (ℕ × List Candidate) × Archive)) :=
  match checkFingerprint request with
  | .error message => some (.ok (.error message, a))
  | .ok () =>
    match scanEntries env.json limit
        (fun (scan : Option (Scan T)) id entry =>
          scan.bind fun scan => scan.push env.unicode env.dates id entry)
        a chunkEntries (some (Scan.new request)) with
    | .error e => some (.error e)
    | .ok (scan, count, a) =>
      scan.map fun scan =>
        match checkCursor request count with
        | .error message => .ok (.error message, a)
        | .ok () => .ok (.ok (count, scan.ranked env), a)

/-- `search`, where `limit` is what `limit_to` has set. -/
def search (env : Env T S) (limit : ℕ) (a : Archive) (request : SearchRequest T) :
    Option (Except IoError (Except String String × Archive)) :=
  (searchRanked env limit a request).map fun answer => answer.map fun (hits, a) =>
    (hits.map fun (count, ranked) => render request count ranked, a)

end Search

end Ralph.ChatMemory
