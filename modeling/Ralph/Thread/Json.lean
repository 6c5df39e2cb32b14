import Ralph.ChatMemory.CompactJson
import Ralph.Thread.Basic

namespace Ralph.Thread
open ChatMemory.CompactJson

/-- The `serde_json` calls on `thread.json`: `from_str` with the text of its error, and `to_string`. -/
structure Json where
  threadMeta : Bytes → Except String ThreadMeta
  metaText : ThreadMeta → Bytes

/-- A record reads back, and an empty file is none. -/
structure Json.Lawful (J : Json) : Prop where
  meta_text : ∀ m, J.threadMeta (J.metaText m) = .ok m
  empty : ∃ e, J.threadMeta [] = .error e

/-- The compact format, whose reader reads exactly that format. -/
def mergedBytes : Option Merged → Bytes
  | none => []
  | some m => ascii ",\"merged\":" ++ 0x7B :: ascii "\"at\":\"" ++ quoted m.at_ ++
      ascii ",\"digest\":\"" ++ quoted m.digest ++ [0x7D]

def parkedBytes : Option Parked → Bytes
  | none => []
  | some p => ascii ",\"parked\":" ++ 0x7B :: ascii "\"at\":\"" ++ quoted p.at_ ++ [0x7D]

def metaBytes (m : ThreadMeta) : Bytes :=
  0x7B :: ascii "\"base\":" ++ digits m.base ++ ascii ",\"created\":\"" ++ quoted m.created ++
    mergedBytes m.merged ++ parkedBytes m.parked ++ [0x7D]

def parseMerged (x : Bytes) : Option (Option Merged × Bytes) :=
  match x.dropPrefix? (ascii ",\"merged\":") with
  | none => some (none, x)
  | some x => do
    let (at_, x) ← member (0x7B :: ascii "\"at\":\"") x
    let (digest, x) ← member (ascii ",\"digest\":\"") x
    let x ← x.dropPrefix? [0x7D]
    pure (some ⟨at_, digest⟩, x)

def parseParked (x : Bytes) : Option (Option Parked × Bytes) :=
  match x.dropPrefix? (ascii ",\"parked\":") with
  | none => some (none, x)
  | some x => do
    let (at_, x) ← member (0x7B :: ascii "\"at\":\"") x
    let x ← x.dropPrefix? [0x7D]
    pure (some ⟨at_⟩, x)

def parseMeta (x : Bytes) : Option ThreadMeta := do
  let x ← x.dropPrefix? (0x7B :: ascii "\"base\":")
  let (base, x) := number x
  let (created, x) ← member (ascii ",\"created\":\"") x
  let (merged, x) ← parseMerged x
  let (parked, x) ← parseParked x
  if x = [0x7D] then pure ⟨base, created, merged, parked⟩ else none

def compactJson : Json where
  threadMeta x :=
    match parseMeta x with
    | some m => .ok m
    | none => .error "expected value at line 1 column 1"
  metaText := metaBytes

theorem parseParked_parkedBytes (p : Option Parked) :
    parseParked (parkedBytes p ++ [0x7D]) = some (p, [0x7D]) := by
  cases p with
  | none => rfl
  | some p =>
    have hbytes : parkedBytes (some p) ++ [0x7D] = ascii ",\"parked\":" ++
        ((0x7B :: ascii "\"at\":\"") ++ (quoted p.at_ ++ ([0x7D] ++ [0x7D]))) := by
      simp [parkedBytes]
    rw [hbytes, parseParked]
    simp only [dropPrefix_append, member_quoted, Option.bind_eq_bind, Option.bind_some]
    rfl

theorem parseMerged_mergedBytes (m : Option Merged) (p : Option Parked) :
    parseMerged (mergedBytes m ++ (parkedBytes p ++ [0x7D])) = some (m, parkedBytes p ++ [0x7D]) := by
  cases m with
  | none =>
    cases p with
    | none => rfl
    | some p => rfl
  | some m =>
    have hbytes : mergedBytes (some m) ++ (parkedBytes p ++ [0x7D]) = ascii ",\"merged\":" ++
        ((0x7B :: ascii "\"at\":\"") ++ (quoted m.at_ ++ (ascii ",\"digest\":\"" ++ (quoted m.digest ++
        ([0x7D] ++ (parkedBytes p ++ [0x7D])))))) := by
      simp [mergedBytes]
    rw [hbytes, parseMerged]
    simp only [dropPrefix_append, member_quoted, Option.bind_eq_bind, Option.bind_some]
    rfl

theorem parseMeta_metaBytes (m : ThreadMeta) : parseMeta (metaBytes m) = some m := by
  have hbytes : metaBytes m = (0x7B :: ascii "\"base\":") ++ (digits m.base ++ (ascii ",\"created\":\"" ++
      (quoted m.created ++ (mergedBytes m.merged ++ (parkedBytes m.parked ++ [0x7D]))))) := by
    simp [metaBytes]
  have hbase : ∀ x, number (digits m.base ++ (ascii ",\"created\":\"" ++ x)) =
      (m.base, ascii ",\"created\":\"" ++ x) := fun x => number_digits m.base _ rfl
  rw [hbytes, parseMeta]
  simp only [dropPrefix_append, hbase, member_quoted, parseMerged_mergedBytes, parseParked_parkedBytes,
    Option.bind_eq_bind, Option.bind_some]
  rfl

theorem compactJson_lawful : compactJson.Lawful where
  meta_text m := by simp only [compactJson, parseMeta_metaBytes]
  empty := ⟨_, rfl⟩

end Ralph.Thread
