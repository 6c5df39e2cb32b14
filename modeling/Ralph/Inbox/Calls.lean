import Ralph.Inbox.Json
import Ralph.Program

namespace Ralph

namespace Inbox
open Worker ChatMemory.CompactJson

inductive Failure
  | notFound
  | other (message : String)
  deriving DecidableEq, Repr

/-- What a call asks of the outside. -/
inductive Op
  | readLedger
  | readDir
  | readMessage (name : String)
  | now
  | appendDropLog (line : Bytes)
  | writeTemp (bytes : Bytes)
  | renameTemp
  | removeMessage (name : String)
  | warn (text : String)
  deriving DecidableEq

abbrev Op.Answer : Op → Type
  | readLedger => Except Failure Bytes
  | readDir => Except Failure (List String)
  | readMessage _ => Except Failure Bytes
  | now => String
  | appendDropLog _ => Except Failure Unit
  | writeTemp _ => Except Failure Unit
  | renameTemp => Except Failure Unit
  | removeMessage _ => Except Failure Unit
  | warn _ => Unit

abbrev Io (α : Type) := ExceptT Failure (Program Op Op.Answer) α

/-- A worker's file, not one that is still being written. -/
def isMessage (name : String) : Bool :=
  ".json".toList.isSuffixOf name.toList && name.toList.head? != some '.'

def dropLogLine (entry : Entry) (now : String) : Bytes :=
  0x7B :: (ascii "\"timestamp\":\"" ++ quoted now) ++ (ascii ",\"worker\":\"" ++ quoted entry.report.worker) ++
    (ascii ",\"status\":\"" ++ quoted entry.report.status) ++
    (ascii ",\"text\":\"" ++ quoted entry.report.text) ++ [0x7D]

end Inbox

/-- The ledger and the drop log stand beside `dir`. -/
structure Inbox where
  dir : String
  json : Inbox.Json

namespace Inbox
open Worker ChatMemory.CompactJson

variable (inbox : Inbox)

def pending : Io (List String) := ExceptT.mk do
  match ← Program.op Op.readDir with
  | .ok names => pure (.ok ((names.filter isMessage).mergeSort (· ≤ ·)))
  | .error .notFound => pure (.ok [])
  | .error e => pure (.error e)

def loadLedger : Io Ledger := ExceptT.mk do
  match ← Program.op Op.readLedger with
  | .ok bytes =>
    match inbox.json.ledger bytes with
    | .ok stored => pure (.ok (.ofStored stored))
    | .error e => pure (.error (.other e))
  | .error .notFound => pure (.ok ⟨[]⟩)
  | .error e => pure (.error e)

def saveLedger (ledger : Ledger) : Io Unit := do
  ExceptT.mk (Program.op (Op.writeTemp (inbox.json.ledgerText ledger)))
  ExceptT.mk (Program.op Op.renameTemp)

/-- The loop of `sync` over the pending files. -/
def readMessages : List String → Io (List (String × Report))
  | [] => pure []
  | name :: names => do
    let bytes ← ExceptT.mk (Program.op (Op.readMessage name))
    match inbox.json.report bytes with
    | .ok report =>
      let arrivals ← readMessages names
      pure ((name, report) :: arrivals)
    | .error e =>
      ExceptT.lift (Program.op
        (Op.warn ("dropping malformed inbox file " ++ inbox.dir ++ "/" ++ name ++ ": " ++ e)))
      readMessages names

/-- A missing file counts as removed. -/
def removeIfPresent (name : String) : Io Unit := ExceptT.mk do
  match ← Program.op (Op.removeMessage name) with
  | .error .notFound => pure (.ok ())
  | r => pure r

/-- The removals at the end of `sync`. -/
def removeMessages : List String → Io Unit
  | [] => pure ()
  | name :: names => do
    removeIfPresent name
    removeMessages names

/-- `act` gives its value, whether it changed the ledger, and the ledger after it. -/
def sync {T : Type} (act : Ledger → Program Op Op.Answer (T × Bool × Ledger)) : Io T := do
  let ledger ← inbox.loadLedger
  let pending ← pending
  let arrivals ← inbox.readMessages pending
  let (value, changed, ledger) ← ExceptT.lift (act (ledger.ingest arrivals))
  if !pending.isEmpty || changed then
    inbox.saveLedger ledger
  removeMessages pending
  pure value

def peek : Io (List Report) := inbox.sync fun ledger => pure (ledger.reports, false, ledger)

def drain (selection : Selection) : Io (List Report) :=
  inbox.sync fun ledger =>
    let (reports, ledger) := ledger.take selection
    pure (reports, !reports.isEmpty, ledger)

def appendLine (line : Bytes) : Program Op Op.Answer (Except Failure Unit) :=
  Program.op (Op.appendDropLog (line ++ [0x0A]))

/-- What `drop_report` does to the ledger: no line in the drop log, no removal. -/
def dropFrom (position : Position) (ledger : Ledger) :
    Program Op Op.Answer (Except Failure (Option Entry) × Bool × Ledger) :=
  match ledger.get position with
  | none => pure (.ok none, false, ledger)
  | some entry => do
    let now ← Program.op Op.now
    match ← appendLine (dropLogLine entry now) with
    | .error e => pure (.error e, false, ledger)
    | .ok () => pure (.ok (some entry), true, (ledger.remove position).2)

def dropReport (position : Position) : Io (Option Entry) := do
  let outcome ← inbox.sync (dropFrom position)
  ExceptT.mk (pure outcome)

def ledger : Io Ledger := inbox.sync fun ledger => pure (ledger, false, ledger)

inductive Call
  | peek
  | drain (selection : Selection)
  | dropReport (position : Position)
  | ledger

inductive Value
  | reports (reports : List Report)
  | dropped (entry : Option Entry)
  | ledger (ledger : Ledger)
  deriving DecidableEq

def Call.run (inbox : Inbox) : Call → Io Value
  | peek => Value.reports <$> inbox.peek
  | drain selection => Value.reports <$> inbox.drain selection
  | dropReport position => Value.dropped <$> inbox.dropReport position
  | ledger => Value.ledger <$> inbox.ledger

/-- One call after the other. -/
def session (inbox : Inbox) : List Call → Program Op Op.Answer (List (Except Failure Value))
  | [] => pure []
  | call :: calls => do
    let r ← (call.run inbox).run
    let rs ← session inbox calls
    pure (r :: rs)

namespace Call

/-- The entries that the call hands over and removes. -/
def taken : Call → Ledger → List Entry
  | drain selection, l => selection.taken l
  | dropReport position, l => (l.get position).toList
  | _, _ => []

def left : Call → Ledger → Ledger
  | drain selection, l => selection.left l
  | dropReport position, l => (l.remove position).2
  | _, l => l

def value : Call → Ledger → Value
  | peek, l => .reports l.reports
  | drain selection, l => .reports ((selection.taken l).map Entry.report)
  | dropReport position, l => .dropped (l.get position)
  | ledger, l => .ledger l

theorem taken_append_left_perm (c : Call) (l : Ledger) :
    (c.taken l ++ (c.left l).entries).Perm l.entries := by
  cases c with
  | peek => exact List.Perm.refl _
  | drain selection => exact selection.taken_append_left_perm l
  | dropReport position => exact l.get_append_remove_perm position
  | ledger => exact List.Perm.refl _

end Call

end Inbox

end Ralph
