import Ralph.ChatMemory.Lookup
import Ralph.ChatMemory.Range
import Ralph.ChatMemory.Refresh

namespace Ralph.ChatMemory
open Fallible

/-- An index that does not match its file: `Archive` rebuilds and retries. -/
def stale (e : String) : IoError := ⟨.invalidData, e⟩

/-- The text of one tree slot. -/
def readSlot (J : Json) (file : Bytes) (index : TreeIndex) (slot : NodeSlot) :
    Except IoError (Node × String) :=
  if slot.stop ≥ index.covered then .error (stale "a tree slot ends past the index")
  else do
    let bytes ← readSnapshot file slot.start slot.stop
    match J.record bytes with
    | .error e => .error (stale e)
    | .ok record =>
      if (record.lo, record.hi) ≠ (slot.node.lo, slot.node.hi) then
        .error (stale "a tree slot points at another node")
      else .ok (slot.node, record.text)

/-- `collect` into a map. -/
def Tree.ofList (pairs : List (Node × String)) : Tree :=
  pairs.foldl (fun tree (node, text) => tree.insert node text) Tree.empty

/-- `IndexedTree::nodes`: the asked nodes that have a summary, one read per node. -/
def indexedNodes (J : Json) (file : Bytes) (index : TreeIndex) (wanted : List Node) :
    Except IoError Tree := do
  let pairs ← (index.find wanted).mapM (readSlot J file index)
  pure (Tree.ofList pairs)

/-- Warnings in order, each once. -/
abbrev Notes := List String

def Notes.push (notes : Notes) (note : String) : Notes :=
  if note ∈ notes then notes else notes ++ [note]

/-- Which indexes of an `Archive` differ from the files on disk. -/
structure Stale where
  log : Bool
  tree : Bool
  deriving DecidableEq, Repr

/-- The log, the tree and their indexes for one `read` or `zoom`. -/
structure Archive where
  log : Bytes
  logIndex : LogIndex
  tree : Bytes
  treeIndex : TreeIndex
  stale : Stale
  notes : Notes

def load (J : Json) (log : Bytes) (index : LogIndex) (notes : Notes) (from_ to_ : ℕ) :
    Except IoError (List Entry × Notes) :=
  match index.span from_ to_ with
  | none => .ok ([], notes)
  | some (start, stop) => do
    -- one byte early, so an offset into the middle of a line scans as another line
    let before := start - 1
    let data ← readSnapshot log before stop
    let lines := scanLines data before
    if lines.map Line.start ≠ (index.slots.take to_).drop from_ then
      .error (stale "log offsets do not match the line starts")
    else
      let parsed := (lines.zipIdx from_).map fun (line, id) =>
        entryOrCorrupt J (slice data (line.start - before) (line.stop - before)) id line.start
      pure (parsed.map Prod.fst, (parsed.filterMap Prod.snd).foldl Notes.push notes)

theorem LogIndex.lt_count_of_span {index : LogIndex} {from_ to_ : ℕ} {span : ℕ × ℕ}
    (h : index.span from_ to_ = some span) : from_ < index.count := by
  unfold LogIndex.span at h
  split_ifs at h with hr
  omega

/-- The loop of `first_window`, with the bytes used and the entries counted so far. -/
def windowBody (index : LogIndex) (start want : ℕ) : Loop.Body (ℕ × ℕ) ℕ where
  step := fun (used, count) =>
    if used < want then
      match index.span (start + count) (start + count + 1) with
      | none => .inr count
      | some (a, b) => .inl (used + (b - a), count + 1)
    else .inr count
  measure := fun (_, count) => index.count - (start + count)
  decreases := by
    rintro ⟨used, count⟩ ⟨used', count'⟩ h
    simp only at h
    split_ifs at h
    split at h
    · cases h
    · next hspan =>
      obtain ⟨-, rfl⟩ := Prod.mk.inj (Sum.inl.inj h)
      exact Nat.sub_lt_sub_left (LogIndex.lt_count_of_span hspan) (Nat.lt_succ_self _)

/-- Entries from `start` whose lines hold at least the page budget in bytes. -/
def firstWindow (index : LogIndex) (start budget : ℕ) : ℕ :=
  max ((windowBody index start (budget * bytesPerToken)).run (0, 0)) 1

def longLeaves (start : ℕ) (entries : List Entry) : List Node :=
  ((entries.zipIdx start).filter fun (entry, _) => entry.text.utf8ByteSize > summaryBytes).map
    fun (_, i) => Node.leaf i

def missedRange : String := "the read window missed its range."

abbrev PageAnswer := Except IoError (Except String RangePage × Notes)

/-- The summaries that a page over loaded entries can show. -/
def pageTree (nodes : List Node → Except IoError Tree) (mode : Mode) (start : ℕ)
    (entries : List Entry) : Except IoError Tree :=
  match mode with
  | .summary => nodes (longLeaves start entries)
  | .raw => pure Tree.empty

/-- The entries `[start, end)` and their summaries. -/
def loadPart (J : Json) (log : Bytes) (index : LogIndex) (nodes : List Node → Except IoError Tree)
    (mode : Mode) (notes : Notes) (start stop : ℕ) : Except IoError (List Entry × Notes × Tree) := do
  let (entries, notes) ← load J log index notes start stop
  let tree ← pageTree nodes mode start entries
  pure (entries, notes, tree)

/-- One round of `read_page`: the window is the `count` entries from `start` on. -/
def pageRound (J : Json) (log : Bytes) (index : LogIndex) (nodes : List Node → Except IoError Tree)
    (request : RangeRequest) (start : ℕ) (count : {n : ℕ // 0 < n}) (notes : Notes) :
    ({n : ℕ // 0 < n} × Notes) ⊕ PageAnswer :=
  let total := index.count
  let stop := min (start + count) total
  match loadPart J log index nodes request.mode notes start stop with
  | .error e => .inr (.error e)
  | .ok (entries, notes, tree) =>
    match readRange ⟨start, total, entries⟩ tree request with
    | .ok (.page page) => .inr (.ok (.ok page, notes))
    | .ok .more =>
      if stop < total then .inl (⟨count * 2, double_pos count⟩, notes)
      else .inr (.ok (.error missedRange, notes))
    | .error message => .inr (.ok (.error message, notes))

def pageBody (J : Json) (log : Bytes) (index : LogIndex) (nodes : List Node → Except IoError Tree)
    (request : RangeRequest) (start : ℕ) : Loop.Body ({n : ℕ // 0 < n} × Notes) PageAnswer where
  step := fun (count, notes) => pageRound J log index nodes request start count notes
  measure := fun (count, _) => index.count - count
  decreases := by
    rintro ⟨count, notes⟩ ⟨count', notes'⟩ h
    have hpos := count.2
    simp only [pageRound] at h
    split at h
    · cases h
    · split at h
      · cases h
      · split_ifs at h with hlt
        obtain ⟨rfl, -⟩ := Prod.mk.injEq .. ▸ Sum.inl.inj h
        simp only
        omega
      · cases h

/-- One `read` page, loading only a window of entries from the cursor on. -/
def readPage (J : Json) (log : Bytes) (index : LogIndex) (nodes : List Node → Except IoError Tree)
    (notes : Notes) (request : RangeRequest) : PageAnswer :=
  let start := min (request.cursor.elim request.from_ Cursor.next) index.count
  let budget := min request.budget budgetMax
  let count := firstWindow index start budget
  (pageBody J log index nodes request start).run (⟨count, by simp [count, firstWindow]⟩, notes)

/-- `zoom` reading at most two entries and the two half summaries. -/
def zoomNode (J : Json) (log : Bytes) (index : LogIndex) (nodes : List Node → Except IoError Tree)
    (notes : Notes) (node : Node) : Except IoError (Except String (List String) × Notes) := do
  let total := index.count
  let (start, stop) := zoomEntries node total
  let (entries, notes) ← load J log index notes start stop
  let tree ← if node.size > 1 then nodes [node.halves.1, node.halves.2] else pure Tree.empty
  pure (zoom ⟨start, total, entries⟩ tree node, notes)

namespace Archive

/-- `Archive::open`: brings the stored indexes up to date in memory. -/
def open_ (J : Json) (log : Bytes) (storedLog : Option LogIndex) (tree : Bytes)
    (storedTree : Option TreeIndex) : Except IoError Archive := do
  let (logIndex, logHow) ← refresh logSlot storedLog log
  let (treeIndex, treeHow) ← refresh (nodeSlot J) storedTree tree
  pure ⟨log, logIndex, tree, treeIndex, ⟨logHow ≠ .fresh, treeHow ≠ .fresh⟩, []⟩

/-- Runs `call`, and once more over rebuilt indexes when it finds one wrong. -/
def retry {α : Type} (J : Json) (a : Archive) (call : Archive → Except IoError (α × Notes)) :
    Except IoError (α × Archive) :=
  match call a with
  | .ok (answer, notes) => .ok (answer, { a with notes := notes })
  | .error e =>
    if e.kind = .invalidData then do
      let (logIndex, _) ← refresh logSlot none a.log
      let (treeIndex, _) ← refresh (nodeSlot J) none a.tree
      let a := { a with logIndex, treeIndex, stale := ⟨true, true⟩, notes := [] }
      let (answer, notes) ← call a
      pure (answer, { a with notes := notes })
    else .error e

def read (J : Json) (a : Archive) (request : RangeRequest) :
    Except IoError (Except String RangePage × Archive) :=
  a.retry J fun a => readPage J a.log a.logIndex (indexedNodes J a.tree a.treeIndex) a.notes request

def zoom (J : Json) (a : Archive) (node : Node) :
    Except IoError (Except String (List String) × Archive) :=
  a.retry J fun a => zoomNode J a.log a.logIndex (indexedNodes J a.tree a.treeIndex) a.notes node

end Archive

end Ralph.ChatMemory
