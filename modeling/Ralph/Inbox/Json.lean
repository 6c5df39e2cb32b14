import Ralph.ChatMemory.CompactJson
import Ralph.Inbox.Ledger

namespace Ralph.Inbox
open Worker ChatMemory.CompactJson

/-- The `serde_json` calls of the inbox: `from_slice` with the text of its error, and `to_vec`. -/
structure Json where
  report : Bytes → Except String Report
  ledger : Bytes → Except String (List StoredEntry)
  reportText : Report → Bytes
  ledgerText : Ledger → Bytes

/-- What the inbox relies on: what is written reads back. -/
structure Json.Lawful (J : Json) : Prop where
  report_text : ∀ r, J.report (J.reportText r) = .ok r
  ledger_text : ∀ l, J.ledger (J.ledgerText l) = .ok l.stored

/-- A report in the compact format, whose reader reads exactly that format. -/
def reportBytes (r : Report) : Bytes :=
  0x7B :: (ascii "\"worker\":\"" ++ quoted r.worker) ++ (ascii ",\"at\":\"" ++ quoted r.at_) ++
    (ascii ",\"status\":\"" ++ quoted r.status) ++ (ascii ",\"text\":\"" ++ quoted r.text) ++ [0x7D]

def entryBytes (e : Entry) : Bytes :=
  0x7B :: (ascii "\"source\":\"" ++ quoted e.source) ++ (ascii ",\"report\":" ++ reportBytes e.report) ++
    [0x7D]

/-- What follows an entry in its array. -/
def tailBytes : List Entry → Bytes
  | [] => [0x5D]
  | e :: es => 0x2C :: entryBytes e ++ tailBytes es

def entriesBytes : List Entry → Bytes
  | [] => [0x5D]
  | e :: es => entryBytes e ++ tailBytes es

def ledgerBytes (l : Ledger) : Bytes :=
  0x7B :: ascii "\"entries\":[" ++ entriesBytes l.entries ++ [0x7D]

def parseReport (x : Bytes) : Option (Report × Bytes) := do
  let (worker, x) ← member (0x7B :: ascii "\"worker\":\"") x
  let (at_, x) ← member (ascii ",\"at\":\"") x
  let (status, x) ← member (ascii ",\"status\":\"") x
  let (text, x) ← member (ascii ",\"text\":\"") x
  let x ← x.dropPrefix? [0x7D]
  pure (⟨worker, at_, status, text⟩, x)

def parseStored (x : Bytes) : Option (StoredEntry × Bytes) := do
  let (source, x) ← member (0x7B :: ascii "\"source\":\"") x
  let x ← x.dropPrefix? (ascii ",\"report\":")
  let (report, x) ← parseReport x
  let x ← x.dropPrefix? [0x7D]
  pure (⟨source, false, report⟩, x)

def parseTail : ℕ → Bytes → Option (List StoredEntry × Bytes)
  | fuel + 1, 0x2C :: x => do
    let (e, x) ← parseStored x
    let (es, x) ← parseTail fuel x
    pure (e :: es, x)
  | _, 0x5D :: x => some ([], x)
  | _, _ => none

def parseEntries : Bytes → Option (List StoredEntry × Bytes)
  | 0x5D :: x => some ([], x)
  | x => do
    let (e, x) ← parseStored x
    let (es, x) ← parseTail x.length x
    pure (e :: es, x)

def invalid : String := "expected value at line 1 column 1"

def compactJson : Json where
  report x :=
    match parseReport x with
    | some (r, []) => .ok r
    | _ => .error invalid
  ledger x :=
    match (x.dropPrefix? (0x7B :: ascii "\"entries\":[")).bind parseEntries with
    | some (es, [0x7D]) => .ok es
    | _ => .error invalid
  reportText := reportBytes
  ledgerText := ledgerBytes

theorem parseReport_reportBytes (r : Report) (rest : Bytes) :
    parseReport (reportBytes r ++ rest) = some (r, rest) := by
  have hbytes : reportBytes r ++ rest = (0x7B :: ascii "\"worker\":\"") ++ (quoted r.worker ++
      (ascii ",\"at\":\"" ++ (quoted r.at_ ++ (ascii ",\"status\":\"" ++ (quoted r.status ++
      (ascii ",\"text\":\"" ++ (quoted r.text ++ ([0x7D] ++ rest)))))))) := by
    simp [reportBytes]
  rw [hbytes, parseReport]
  simp only [member_quoted, dropPrefix_append, Option.bind_eq_bind, Option.bind_some]
  rfl

theorem parseStored_entryBytes (e : Entry) (rest : Bytes) :
    parseStored (entryBytes e ++ rest) = some (⟨e.source, false, e.report⟩, rest) := by
  have hbytes : entryBytes e ++ rest = (0x7B :: ascii "\"source\":\"") ++ (quoted e.source ++
      (ascii ",\"report\":" ++ (reportBytes e.report ++ ([0x7D] ++ rest)))) := by
    simp [entryBytes]
  rw [hbytes, parseStored]
  simp only [member_quoted, dropPrefix_append, parseReport_reportBytes, Option.bind_eq_bind,
    Option.bind_some]
  rfl

theorem parseTail_tailBytes (es : List Entry) (rest : Bytes) {fuel : ℕ} (hfuel : es.length < fuel) :
    parseTail fuel (tailBytes es ++ rest) = some ((Ledger.mk es).stored, rest) := by
  obtain ⟨fuel, rfl⟩ := Nat.exists_eq_succ_of_ne_zero (by omega : fuel ≠ 0)
  induction es generalizing fuel with
  | nil => rfl
  | cons e es ih =>
    obtain ⟨fuel, rfl⟩ := Nat.exists_eq_succ_of_ne_zero (by simp at hfuel; omega : fuel ≠ 0)
    have hes : es.length < fuel + 1 := by simpa using hfuel
    rw [tailBytes, List.append_assoc, List.cons_append, parseTail, parseStored_entryBytes]
    simp only [Option.bind_eq_bind, Option.bind_some]
    rw [ih fuel hes]
    rfl

theorem length_le_tailBytes (es : List Entry) : es.length < (tailBytes es).length := by
  induction es with
  | nil => decide
  | cons e es ih =>
    simp only [tailBytes, List.length_append, List.length_cons]
    omega

theorem parseEntries_entriesBytes (es : List Entry) (rest : Bytes) :
    parseEntries (entriesBytes es ++ rest) = some ((Ledger.mk es).stored, rest) := by
  cases es with
  | nil => rfl
  | cons e es =>
    have hfuel := length_le_tailBytes es
    have hentry : parseEntries (entryBytes e ++ (tailBytes es ++ rest)) = (do
        let (e, x) ← parseStored (entryBytes e ++ (tailBytes es ++ rest))
        let (es, x) ← parseTail x.length x
        pure (e :: es, x)) := rfl
    rw [entriesBytes, List.append_assoc, hentry, parseStored_entryBytes]
    simp only [Option.bind_eq_bind, Option.bind_some]
    rw [parseTail_tailBytes es rest (by rw [List.length_append]; omega)]
    rfl

theorem compactJson_lawful : compactJson.Lawful where
  report_text r := by
    have hread := parseReport_reportBytes r []
    rw [List.append_nil] at hread
    simp [compactJson, hread]
  ledger_text l := by
    have hbytes : ledgerBytes l = (0x7B :: ascii "\"entries\":[") ++ (entriesBytes l.entries ++ [0x7D]) := by
      simp [ledgerBytes]
    simp only [compactJson, hbytes, dropPrefix_append, Option.bind_some, parseEntries_entriesBytes]

end Ralph.Inbox
