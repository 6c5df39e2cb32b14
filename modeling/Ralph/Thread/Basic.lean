import Ralph.Chat.Command
import Ralph.ChatMemory.View
import Ralph.Text
import Ralph.Worker.Report

namespace Ralph.Thread
open Worker

def maxNameChars : ℕ := 32
def maxViewBlockBytes : ℕ := 64 * 1024
def maxDigestBytes : ℕ := 2048
def maxMergeAttempts : ℕ := 3
def viewLines : ℕ := 200
def viewBlockLines : ℕ := 100
def mainPrefixLines : ℕ := 100
def threadReportPrefix : String := "thread:"
def externalReportPrefix : String := "external:"
def mergedStatus : String := "merged"
def viewStatus : String := "view"

def isNameChar (c : Char) : Bool := c.isLower || c.isDigit || c == '-'

def isName (s : String) : Bool :=
  1 ≤ s.utf8ByteSize && s.utf8ByteSize ≤ maxNameChars && s.toList.head? != some '-' &&
    s.toList.all isNameChar

structure ThreadName where
  name : String
  valid : isName name = true ∧ name ≠ "main"

def ThreadName.parse (s : String) : Except String ThreadName :=
  if hname : isName s = true then
    if hmain : s = "main" then .error "'main' is the main chat, not a thread name."
    else .ok ⟨s, hname, hmain⟩
  else .error (s!"'{s}' is not a thread name. Use 1 to {maxNameChars} lowercase letters, " ++
    "digits or dashes, not starting with a dash.")

structure Merged where
  at_ : String
  digest : String
  deriving DecidableEq, Repr

structure Parked where
  at_ : String
  deriving DecidableEq, Repr

structure ThreadMeta where
  base : ℕ
  created : String
  merged : Option Merged
  parked : Option Parked
  deriving DecidableEq, Repr

variable (name : ThreadName)

def mergedCheck (m : ThreadMeta) : Except String Unit :=
  match m.merged with
  | none => .ok ()
  | some _ => .error (s!"thread {name.name} is merged into main and stays read-only; " ++
      s!"`ralph chat --thread {name.name} history` still reads it.")

def openCheck (m : ThreadMeta) : Except String Unit := do
  mergedCheck name m
  match m.parked with
  | none => .ok ()
  | some _ => .error s!"thread {name.name} is parked; `ralph thread revive {name.name}` opens it again."

def reviveCheck (m : ThreadMeta) : Except String Unit := do
  mergedCheck name m
  match m.parked with
  | some _ => .ok ()
  | none => .error s!"thread {name.name} is not parked."

def pullMessage (from_ to_ : ℕ) : String :=
  match to_ - from_ with
  | 0 => s!"thread {name.name} is already at main's end (#{to_})."
  | 1 => s!"pulled thread {name.name}: fork point #{from_} -> #{to_}, 1 new main message."
  | new => s!"pulled thread {name.name}: fork point #{from_} -> #{to_}, {new} new main messages."

def labelItem (item : String) : String :=
  match Chat.stripPrefix item "#" with
  | some rest => "#" ++ name.name ++ ":" ++ rest
  | none =>
    match Chat.stripPrefix item "[#" with
    | some rest => "[#" ++ name.name ++ ":" ++ rest
    | none => item

def labelLines (text : String) : String :=
  "\n".intercalate ((Text.lines text).map (labelItem name))

def mergePrompt (base : ℕ) (lines : List String) : String :=
  s!"Write the merge digest of chat thread {name.name}, forked from main at #{base}. " ++
  "Main reads it once, as one inbox message, instead of the whole thread.\n" ++
  "Keep the decisions, results and open items; drop the chatter. " ++
  s!"Cite the thread ids behind each point as #{name.name}:a-b or #{name.name}:a.\n" ++
  s!"At most {maxDigestBytes} bytes of plain text. Return only the digest, with no preface.\n\n" ++
  "<thread>\n" ++ "\n".intercalate lines ++ "\n</thread>"

/-- The names before a colon in the text cut at each `#`. -/
def citedThreads (text : String) : List String :=
  (((text.toList.splitOn '#').drop 1).filterMap fun rest =>
    let cited := rest.takeWhile isNameChar
    if (rest.drop cited.length).head? = some ':' then some (String.ofList cited) else none).filter
      (· ≠ "")

def checkDigest (reply : String) : Except String String :=
  let digest := Chat.trim reply
  if digest = "" then .error "the digest is empty."
  else if digest.utf8ByteSize > maxDigestBytes then
    .error s!"the digest is {digest.utf8ByteSize} bytes; the limit is {maxDigestBytes}."
  else
    match (citedThreads digest).find? (· ≠ name.name) with
    | some other => .error s!"the digest cites #{other}: ids; cite only #{name.name}: ids."
    | none =>
      if citedThreads digest = [] then .error s!"the digest cites no #{name.name}: ids."
      else .ok digest

def mergedReport (digest at_ : String) : Report :=
  ⟨threadReportPrefix ++ name.name, at_, mergedStatus, digest⟩

def viewBlock (base : ℕ) (lines : List String) : Except String String :=
  if lines = [] then .error s!"thread {name.name} has no messages to post."
  else
    let block := s!"Thread {name.name}, forked from main at #{base}, with its memory view posted to main:\n" ++
      "\n".intercalate (lines.map (labelItem name))
    if block.utf8ByteSize > maxViewBlockBytes then
      .error (s!"thread {name.name}'s view block is {block.utf8ByteSize} bytes; " ++
        s!"the limit is {maxViewBlockBytes}. To merge it, use squash: `ralph thread merge {name.name}`.")
    else .ok block

def viewReport (block at_ : String) : Report := { mergedReport name block at_ with status := viewStatus }

def markUntrusted (text : String) : String :=
  "\n".intercalate ((Text.lines text).map fun line => if line = "" then "|" else "| " ++ line)

def chatMessage (reports : List Report) : String :=
  "\n\n".intercalate (reports.map fun r =>
    match Chat.stripPrefix r.worker threadReportPrefix with
    | some name => s!"[thread {name} · {r.status}]\n{r.text}"
    | none =>
      match Chat.stripPrefix r.worker externalReportPrefix with
      | some source => s!"[external {source} · {r.status}]\n" ++ markUntrusted r.text
      | none => s!"[worker {r.worker} · {r.status}]\n{r.text}")

inductive Guarded
  | drop
  | merge
  | park
  deriving DecidableEq, Repr

structure Live where
  workers : List String
  records : ℕ

def counted (count : ℕ) (one many : String) : String :=
  s!"{count} " ++ if count = 1 then one else many

def savedRecords (count : ℕ) : String :=
  counted count "saved watch or schedule" "saved watches or schedules"

def guardCheck (verb : Guarded) (live : Live) : Except String Unit :=
  if live.workers ≠ [] then
    .error (s!"thread {name.name} has running workers (" ++ ", ".intercalate live.workers ++
      s!"); close them from thread {name.name}'s chat first.")
  else if verb = .merge ∧ live.records > 0 then
    let them := if live.records = 1 then "it" else "them"
    .error (s!"thread {name.name} has " ++ savedRecords live.records ++
      s!"; stop {them} from thread {name.name}'s chat before merging.")
  else .ok ()

end Ralph.Thread
