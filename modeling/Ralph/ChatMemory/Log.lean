import Ralph.ChatMemory.Json
import Ralph.Lines

namespace Ralph.ChatMemory

/-- `&data[start..end]`. -/
def slice (data : Bytes) (start stop : ℕ) : Bytes := (data.take stop).drop start

/-- Byte span of one complete, non-blank line, newline excluded. -/
structure Line where
  start : ℕ
  stop : ℕ
  deriving DecidableEq, Repr

/-- The loop of `scan_lines` over the bytes from index `i` on; the current line began at `start`. -/
def scanLoop (data : Bytes) (base : ℕ) : Bytes → (i start : ℕ) → List Line
  | [], _, _ => []
  | b :: rest, i, start =>
    if b ≠ newline then scanLoop data base rest (i + 1) start
    else if !blank (slice data start i) then
      ⟨base + start, base + i⟩ :: scanLoop data base rest (i + 1) (i + 1)
    else scanLoop data base rest (i + 1) (i + 1)

/-- Complete, non-blank lines of `data`, which starts at file offset `base`. -/
def scanLines (data : Bytes) (base : ℕ) : List Line := scanLoop data base data 0 0

def completeLines (data : Bytes) : List Bytes :=
  let stop := (Lines.rposition newline data).elim 0 (· + 1)
  ((data.take stop).splitOn newline).filter fun line => !blank line

inductive LogTail
  | whole
  | torn (at_ : ℕ)
  | needMore
  deriving DecidableEq, Repr

def logTail (chunk : Bytes) (chunkStart : ℕ) : LogTail :=
  if chunk.getLast?.elim true (· == newline) then .whole
  else
    match Lines.rposition newline chunk with
    | some i => .torn (chunkStart + i + 1)
    | none => if chunkStart = 0 then .torn 0 else .needMore

theorem logTail_zero_ne_needMore (chunk : Bytes) : logTail chunk 0 ≠ .needMore := by
  unfold logTail
  split
  · simp
  · split <;> simp

def entryOrCorrupt (J : Json) (bytes : Bytes) (id offset : ℕ) : Entry × Option String :=
  match J.entry bytes with
  | .ok e => (e.read, none)
  | .error e => (Entry.placeholder,
      some s!"chat log entry {id} at byte {offset} is corrupt and shows as {corruptText}: {e}")

def parseLog (J : Json) (data : Bytes) : List Entry × List String :=
  let parsed := (scanLines data 0).zipIdx.map fun (line, id) =>
    entryOrCorrupt J (slice data line.start line.stop) id line.start
  (parsed.map Prod.fst, parsed.filterMap Prod.snd)

/-- A line as a record of a valid node. -/
def parseRecord (J : Json) (line : Bytes) : Except String (Node × String) := do
  let r ← J.record line
  let node ← Node.new r.lo r.hi
  pure (node, r.text)

def parseTree (J : Json) (data : Bytes) : Tree × List String :=
  (completeLines data).foldl (fun (tree, warnings) line =>
    match parseRecord J line with
    | .ok (node, text) => (tree.orInsert node text, warnings)
    | .error e => (tree, warnings ++ [s!"chat tree record skipped: {e}"])) (Tree.empty, [])

def encodeEntry (J : Json) (e : NewEntry) : Except String Bytes := do
  let line ← J.entryText e
  pure (line ++ [newline])

def encodeRecord (J : Json) (node : Node) (text : String) : Except String Bytes := do
  let line ← J.recordText ⟨node.lo, node.hi, text⟩
  pure (line ++ [newline])

/-- The complete, non-blank lines with the offset each starts at. -/
def lineRecords (base : ℕ) (data : Bytes) : List (ℕ × Bytes) :=
  Lines.records newline (fun line => !blank line) base data

@[simp] theorem lineRecords_nil (base : ℕ) : lineRecords base [] = [] := rfl

theorem lineRecords_of_notMem {data : Bytes} (h : newline ∉ data) (base : ℕ) :
    lineRecords base data = [] := Lines.records_of_notMem h base

theorem lineRecords_line_append {line : Bytes} (h : newline ∉ line) (base : ℕ) (data : Bytes) :
    lineRecords base (line ++ newline :: data) =
      (if !blank line then [(base, line)] else []) ++ lineRecords (base + line.length + 1) data :=
  Lines.records_line_append h base data

theorem lineRecords_append {x : Bytes} (h : Lines.Whole newline x) (base : ℕ) (y : Bytes) :
    lineRecords base (x ++ y) = lineRecords base x ++ lineRecords (base + x.length) y :=
  Lines.records_append h base y

/-- Before each line record, and after the last one, the data splits at a line boundary. -/
theorem exists_lineSplit (base : ℕ) (data : Bytes) {i : ℕ}
    (hi : i ≤ (lineRecords base data).length) :
    ∃ a b, data = a ++ b ∧ Lines.Whole newline a ∧
      base + a.length = Lines.offset base (lineRecords base data) i ∧
      lineRecords base a = (lineRecords base data).take i ∧
      lineRecords (base + a.length) b = (lineRecords base data).drop i :=
  Lines.exists_split base data hi

theorem slice_append_append {a b c : Bytes} {start stop : ℕ} (hs : start = a.length)
    (ht : stop = a.length + b.length) : slice (a ++ b ++ c) start stop = b := by
  rw [slice, hs, ht, ← List.length_append, List.take_left, List.drop_left]

theorem scanLoop_eq (data : Bytes) (base : ℕ) (rest pre cur : Bytes)
    (hd : data = pre ++ cur ++ rest) (hc : newline ∉ cur) :
    scanLoop data base rest (pre.length + cur.length) pre.length =
      (lineRecords (base + pre.length) (cur ++ rest)).map fun s => ⟨s.1, s.1 + s.2.length⟩ := by
  induction rest generalizing pre cur with
  | nil =>
    rw [List.append_nil, lineRecords_of_notMem hc]
    rfl
  | cons b rest ih =>
    unfold scanLoop
    by_cases hb : b = newline
    · subst hb
      have hslice : slice data pre.length (pre.length + cur.length) = cur := by
        rw [hd]
        exact slice_append_append rfl rfl
      have hrest := ih (pre ++ cur ++ [newline]) [] (by simpa using hd) (by simp)
      simp only [List.length_append, List.length_singleton, List.length_nil, Nat.add_zero,
        List.nil_append, ← Nat.add_assoc] at hrest
      rw [if_neg (by simp), hslice, hrest, lineRecords_line_append hc]
      cases hk : blank cur <;> simp [Nat.add_assoc]
    · rw [if_pos hb]
      have hrest := ih pre (cur ++ [b]) (by simpa using hd) (by
        simp only [List.mem_append, List.mem_singleton, not_or]
        exact ⟨hc, Ne.symm hb⟩)
      simpa [Nat.add_assoc] using hrest

theorem scanLines_eq (data : Bytes) (base : ℕ) :
    scanLines data base = (lineRecords base data).map fun s => ⟨s.1, s.1 + s.2.length⟩ :=
  scanLoop_eq data base data [] [] rfl (by simp)

/-- A record is the slice of the data that its line spans. -/
theorem slice_lineRecord {base : ℕ} {data : Bytes} {s : ℕ × Bytes} (h : s ∈ lineRecords base data) :
    slice data (s.1 - base) (s.1 + s.2.length - base) = s.2 := by
  obtain ⟨a, b, rfl, hs, -, -⟩ := Lines.mem_records h
  exact slice_append_append (by omega) (by omega)

theorem completeLines_eq (data : Bytes) :
    completeLines data = (lineRecords 0 data).map Prod.snd := by
  have hsplit : ∀ ls : List Bytes, (∀ l ∈ ls, newline ∉ l) →
      (Lines.join newline ls).splitOn newline = ls ++ [[]] := by
    intro ls
    induction ls with
    | nil => intro _; rfl
    | cons l ls ih =>
      intro h
      rw [List.forall_mem_cons] at h
      rw [Lines.join_cons, List.splitOn_eq_splitOnP, List.splitOnP_append_cons_of_forall_mem,
        ← List.splitOn_eq_splitOnP, ih h.2]
      · rfl
      · intro b hb
        simp only [beq_eq_false_iff_ne]
        rintro rfl
        exact h.1 hb
      · simp
  have htake : data.take (Lines.join newline (Lines.cut newline data).1).length =
      Lines.join newline (Lines.cut newline data).1 := by
    conv_lhs => arg 2; rw [← Lines.join_cut newline data]
    exact List.take_left
  rw [completeLines, ← Lines.length_join_cut, htake, hsplit _ (Lines.notMem_cut newline data).1,
    lineRecords, Lines.map_snd_records]
  simp [blank]

/-- The entry of one line. -/
def Json.readEntry (J : Json) (line : Bytes) : Entry :=
  match J.entry line with
  | .ok e => e.read
  | .error _ => Entry.placeholder

theorem entryOrCorrupt_fst (J : Json) (bytes : Bytes) (id offset : ℕ) :
    (entryOrCorrupt J bytes id offset).1 = J.readEntry bytes := by
  unfold entryOrCorrupt Json.readEntry
  cases J.entry bytes <;> rfl

theorem map_fst_entryOrCorrupt (J : Json) (bytes : Line → Bytes) (lines : List Line) (id : ℕ) :
    ((lines.zipIdx id).map fun p => (entryOrCorrupt J (bytes p.1) p.2 p.1.start).1) =
      lines.map fun line => J.readEntry (bytes line) := by
  simp only [entryOrCorrupt_fst]
  conv_rhs => rw [← List.zipIdx_map_fst id lines, List.map_map]
  rfl

/-- Ids are line positions: entry `i` is the `i`-th complete, non-blank line. -/
theorem parseLog_fst (J : Json) (data : Bytes) :
    (parseLog J data).1 = (lineRecords 0 data).map fun s => J.readEntry s.2 := by
  have hlines := map_fst_entryOrCorrupt J (fun line => slice data line.start line.stop)
    (scanLines data 0) 0
  simp only [parseLog, List.map_map, Function.comp_def]
  rw [hlines, scanLines_eq, List.map_map]
  refine List.map_congr_left fun s hs => ?_
  simpa using congrArg J.readEntry (slice_lineRecord hs)

/-- The text that a line gives a node. -/
def Json.textOf (J : Json) (node : Node) (line : Bytes) : Option String :=
  match parseRecord J line with
  | .ok (n, text) => if n = node then some text else none
  | .error _ => none

theorem orInsert_apply (t : Tree) (n m : Node) (text : String) :
    t.orInsert n text m = (t m).or (if n = m then some text else none) := by
  unfold Tree.orInsert Tree.containsKey Tree.insert
  by_cases hm : n = m
  · subst hm
    cases h : t n <;> simp [h]
  · cases h : t n <;> simp [hm, Ne.symm hm]

/-- The first record of a node wins. -/
theorem parseTree_fst (J : Json) (data : Bytes) (node : Node) :
    (parseTree J data).1 node = (lineRecords 0 data).findSome? fun s => J.textOf node s.2 := by
  have hfold : ∀ (lines : List Bytes) (acc : Tree × List String),
      (lines.foldl (fun (tree, warnings) line =>
        match parseRecord J line with
        | .ok (node, text) => (tree.orInsert node text, warnings)
        | .error e => (tree, warnings ++ [s!"chat tree record skipped: {e}"])) acc).1 node =
      (acc.1 node).or (lines.findSome? (J.textOf node)) := by
    intro lines
    induction lines with
    | nil => intro acc; simp
    | cons line lines ih =>
      intro acc
      rw [List.foldl_cons, ih, List.findSome?_cons]
      unfold Json.textOf
      cases hp : parseRecord J line with
      | error e => rfl
      | ok p =>
        simp only [orInsert_apply, Option.or_assoc]
        congr 1
        split_ifs <;> rfl
  rw [parseTree, hfold, completeLines_eq, List.findSome?_map]
  rfl

end Ralph.ChatMemory
