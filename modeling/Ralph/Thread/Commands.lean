import Ralph.Program
import Ralph.Thread.Json

namespace Ralph.Thread
open ChatMemory Worker

/-- What a command of the process `me` asks of the outside. -/
inductive Op (ι : Type)
  | isFile
  | readMeta
  | live
  | claim (me : ι)
  | now
  | load
  | curate (prompt : String)
  | mainLen
  | checkPath
  | truncateMeta
  | writeMeta (text : Bytes)
  | post (report : Report)
  | release (me : ι)

abbrev Op.Answer {ι : Type} : Op ι → Type
  | isFile => Bool
  | readMeta => Except String Bytes
  | live => ℕ
  | claim _ => Except String (Except (Option ℕ) Unit)
  | now => String
  | load => Except String (List Entry × Tree)
  | curate _ => Except String String
  | mainLen => Except String ℕ
  | checkPath => Except String Unit
  | truncateMeta => Except String Unit
  | writeMeta _ => Except String Unit
  | post _ => Except String Unit
  | release _ => Unit

abbrev Io (ι α : Type) := ExceptT String (Program (Op ι) Op.Answer) α

variable {ι : Type}

def ask {α : Type} (p : Program (Op ι) Op.Answer (Except String α)) (context : String → String) : Io ι α :=
  ExceptT.mk do
    match ← p with
    | .ok a => pure (.ok a)
    | .error e => pure (.error (context e))

/-- One thread of a main store; `dir` is the thread's folder. -/
structure ThreadDir where
  json : Json
  name : ThreadName
  dir : String

namespace ThreadDir

variable (t : ThreadDir)

def readMeta : Program (Op ι) Op.Answer (Except String ThreadMeta) := do
  match ← Program.op Op.readMeta with
  | .ok text => pure (t.json.threadMeta text)
  | .error e => pure (.error e)

/-- `fs::write` truncates the file before it writes. -/
def writeMeta (m : ThreadMeta) : Program (Op ι) Op.Answer (Except String Unit) :=
  ExceptT.run do
    ExceptT.mk (Program.op Op.checkPath)
    ExceptT.mk (Program.op Op.truncateMeta)
    ExceptT.mk (Program.op (Op.writeMeta (t.json.metaText m)))

def knownMeta : Io ι ThreadMeta := do
  if !(← ExceptT.lift (Program.op Op.isFile)) then
    throw s!"no thread {t.name.name}; `ralph thread ls` lists them."
  ask t.readMeta fun e => s!"thread {t.name.name}: {e}"

/-- A claim that is taken is released when the command returns, on every path. -/
def claimClosed {α : Type} (me : ι) (body : Io ι α) : Io ι α := ExceptT.mk do
  match ← Program.op (Op.claim me) with
  | .error e => pure (.error s!"could not claim thread {t.name.name}: {e}")
  | .ok (.error holder) =>
    let by_ := match holder with
      | some pid => s!" by pid {pid}"
      | none => ""
    pure (.error s!"thread {t.name.name} is in use{by_}; close its chat first.")
  | .ok (.ok ()) => do
    let r ← body.run
    Program.op (Op.release me)
    pure r

def check (r : Except String Unit) : Io ι Unit := ExceptT.mk (pure r)

def guard (verb : Guarded) (running : List String) : Io ι Unit := do
  let records ← ExceptT.lift (Program.op Op.live)
  check (guardCheck t.name verb ⟨running, records⟩)

/-- What a merge reports to main, from the thread's memory. -/
abbrev Reporter (ι : Type) := ThreadMeta → List Entry → Tree → String → Io ι Report

def mergeWith (me : ι) (running : List String) (report : Reporter ι) : Io ι String := do
  let m ← t.knownMeta
  check (mergedCheck t.name m)
  t.guard .merge running
  t.claimClosed me do
    let failed := fun e => s!"could not merge thread {t.name.name}: {e}"
    let (entries, tree) ← ask (Program.op Op.load) failed
    let at_ ← ExceptT.lift (Program.op Op.now)
    let report ← report m entries tree at_
    ask (t.writeMeta { m with merged := some ⟨at_, report.text⟩, parked := none }) failed
    ask (Program.op (Op.post report)) fun e =>
      s!"thread {t.name.name} is merged, but its digest did not reach main's inbox: {e}. " ++
        s!"The digest is in {t.dir}/thread.json."
    pure (chatMessage [report])

/-- The loop of `digest_with`: the attempts that are left, what to ask, and the last refusal. -/
def digestLoop (prompt : String) : (left : ℕ) → (asked last : String) → Io ι String
  | 0, _, last => throw s!"the digest was rejected {maxMergeAttempts} times; last: {last}"
  | left + 1, asked, _ => do
    let reply ← ExceptT.mk (Program.op (Op.curate asked))
    match checkDigest t.name reply with
    | .ok digest => pure digest
    | .error e =>
      digestLoop prompt left (prompt ++ "\n\nYour previous digest was rejected:\n" ++ e ++
        "\n\nReturn a corrected digest only.") e

def mergeReport : Reporter ι := fun m entries tree at_ => do
  let lines := (view entries tree viewLines).map (labelItem t.name)
  let digest ← ask (t.digestLoop (mergePrompt t.name m.base lines) maxMergeAttempts
    (mergePrompt t.name m.base lines) "").run fun e => s!"thread {t.name.name} was not merged: {e}"
  pure (mergedReport t.name digest at_)

def viewReporter : Reporter ι := fun m entries tree at_ => do
  let block ← ExceptT.mk (pure (viewBlock t.name m.base (view entries tree viewBlockLines)))
  pure (viewReport t.name block at_)

def mergeThread (me : ι) (running : List String) : Io ι String := t.mergeWith me running t.mergeReport

def viewThread (me : ι) (running : List String) : Io ι String := t.mergeWith me running t.viewReporter

def parkThread (me : ι) (running : List String) : Io ι Unit := do
  let m ← t.knownMeta
  check (openCheck t.name m)
  t.guard .park running
  t.claimClosed me do
    let at_ ← ExceptT.lift (Program.op Op.now)
    ask (t.writeMeta { m with parked := some ⟨at_⟩ }) fun e => s!"could not park thread {t.name.name}: {e}"

def reviveThread (me : ι) : Io ι Unit := do
  let m ← t.knownMeta
  check (reviveCheck t.name m)
  t.claimClosed me do
    ask (t.writeMeta { m with parked := none }) fun e => s!"could not revive thread {t.name.name}: {e}"

def pullThread (me : ι) : Io ι String := do
  let m ← t.knownMeta
  check (mergedCheck t.name m)
  t.claimClosed me do
    let failed := fun e => s!"could not pull thread {t.name.name}: {e}"
    let stop ← ask (Program.op Op.mainLen) failed
    if stop ≠ m.base then
      ask (t.writeMeta { m with base := stop }) failed
    pure (pullMessage t.name m.base stop)

end ThreadDir

inductive Command
  | merge (running : List String)
  | view (running : List String)
  | park (running : List String)
  | revive
  | pull

def Command.run (t : ThreadDir) (me : ι) : Command → Io ι String
  | merge running => t.mergeThread me running
  | view running => t.viewThread me running
  | park running => (fun _ => "") <$> t.parkThread me running
  | revive => (fun _ => "") <$> t.reviveThread me
  | pull => t.pullThread me

/-- The commands of one process, one after the other. -/
def commands (t : ThreadDir) (me : ι) : List Command → Program (Op ι) Op.Answer (List (Except String String))
  | [] => pure []
  | c :: cs => do
    let r ← (c.run t me).run
    let rs ← commands t me cs
    pure (r :: rs)

end Ralph.Thread
