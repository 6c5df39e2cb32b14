import Ralph.ChatMemory.Search.Scan
import Ralph.ChatMemory.Store
import Ralph.Thread.Basic

namespace Ralph.ChatMemory
open Thread

def recallMaxLines : ℕ := 50
def recallChunkEntries : ℕ := 256
def previewChars : ℕ := 80
def previewLeadChars : ℕ := 20

def preview (text : String) (matchStart : ℕ) : Option String :=
  excerpt text matchStart previewLeadChars previewChars

def dateOf (at_ : String) : String := String.ofList (at_.toList.takeWhile (· ≠ 'T'))

def formatRecall (pattern : String) (hits : List (ℕ × Entry × String)) : String :=
  if hits = [] then s!"no hits for {pattern}"
  else
    let lines := (hits.take recallMaxLines).map fun (i, entry, preview) =>
      s!"#{i} · {entry.role.asStr} · {dateOf entry.at_} · {preview}"
    let more := if hits.length > recallMaxLines then
        [s!"{hits.length - recallMaxLines} more, narrow the pattern"]
      else []
    "\n".intercalate (lines ++ more ++ ["(zoom <id> for the full text)"])

/-- `RegexBuilder`, case-insensitive: the text of its error, or where the first match in a text
starts. -/
abbrev Regex := String → Except String (String → Option ℕ)

/-- The hits of `recall`, newest first; `none` is a slice that panics. -/
def recall_ (regex : Regex) (entries : List Entry) (pattern : String) :
    Option (Except String String) :=
  match regex pattern with
  | .error e => some (.error s!"bad regex: {e}")
  | .ok find =>
    let found := (entries.zipIdx.reverse.filter fun (entry, _) => !entry.corrupt).filterMap
      fun (entry, i) => (find entry.text).map fun start => (i, entry, start)
    let hits := found.mapM fun (i, entry, start) =>
      (preview entry.text start).map fun preview => (i, entry, preview)
    hits.map fun hits => .ok (formatRecall pattern hits)

inductive Tool (T : Type)
  | zoom (node : Block)
  | recall_ (pattern : String)
  | read (request : RangeRequest)
  | search (request : Search.SearchRequest T)

/-- How much of a store a call sees, and the thread that its ids are labelled with. -/
structure Reach where
  limit : Option ℕ
  label : Option ThreadName

namespace Reach

def item (reach : Reach) (text : String) : String :=
  match reach.label with
  | some name => labelItem name text
  | none => text

def lines (reach : Reach) (text : String) : String :=
  match reach.label with
  | some name => labelLines name text
  | none => text

end Reach

/-- What the tools call outside the store. -/
structure ToolEnv (T S : Type) extends Search.Env T S where
  regex : Regex

variable {T S : Type} [LinearOrder T] [LinearOrder S] (env : ToolEnv T S)

/-- `limit_to` where the reach has an end, and one tool over the archive; `none` is a panic. -/
def Archive.callTool (a : Archive) (reach : Reach) :
    Tool T → Option (Except IoError (Except String String))
  | .zoom node => some ((a.zoom env.json node).map fun (items, _) =>
      items.map fun items => "\n".intercalate (items.map reach.item))
  | .read request => some ((a.read env.json request).map fun (page, _) =>
      page.map fun page => { page with blocks := page.blocks.map reach.item }.render)
  | .recall_ pattern =>
    match scanEntries env.json (reach.limit.getD usizeMax) (fun entries _ entry => entries ++ [entry]) a
        recallChunkEntries [] with
    | .error e => some (.error e)
    | .ok (entries, _, _) => (recall_ env.regex entries pattern).map fun answer =>
        .ok (answer.map reach.lines)
  | .search request =>
    (Search.search env.toEnv (reach.limit.getD usizeMax) a request).map fun answer =>
      answer.map fun (answer, _) => answer.map reach.lines

namespace Store

/-- `open_archive`. -/
def openArchive (J : Json) (s : Store) : Except IoError Archive :=
  Archive.open_ J (readOptional s.log) (stored logSlot s.logIndex) (readOptional s.tree)
    (stored (nodeSlot J) s.treeIndex)

def load (J : Json) (s : Store) : List Entry × Tree :=
  ((parseLog J (readOptional s.log)).1, (s.readTree J).1)

def call (s : Store) (tool : Tool T) (reach : Reach) : Option (Except String String) :=
  match s.openArchive env.json with
  | .error e => some (.error s!"Could not read chat memory: {e.message}")
  | .ok a => (a.callTool env reach tool).map fun result =>
      match result with
      | .ok answer => answer
      | .error e => .error s!"Could not read chat memory: {e.message}"

end Store

end Ralph.ChatMemory
