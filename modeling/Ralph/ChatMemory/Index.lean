import Ralph.ChatMemory.Log
import Ralph.Words

namespace Ralph.ChatMemory
open Words

def version : ℕ := 3
def headerBytes : ℕ := 52

/-- What one complete line adds to an index. -/
inductive Scan (S : Type)
  | add (slot : S)
  | skip

/-- The `Slot` trait: one fixed-size record of an index over a JSONL file. -/
structure Slot (S : Type) where
  magic : Bytes
  bytes : ℕ
  scan : Bytes → Line → Scan S
  start : S → ℕ
  write : S → Bytes
  read : Bytes → Option S

/-- `impl Slot for u64`: the start of a `log.jsonl` line, a corrupt one too. -/
def logSlot : Slot ℕ where
  magic := [0x52, 0x4C, 0x50, 0x48, 0x4C, 0x4F, 0x47, 0x58]
  bytes := 8
  scan _ line := .add line.start
  start s := s
  write s := leBytes 8 s
  read bytes := some (wordAt 8 0 bytes)

/-- A `tree.jsonl` record of `node` on bytes `[start, end)`. -/
structure NodeSlot where
  node : Node
  start : ℕ
  stop : ℕ
  deriving DecidableEq, Repr

/-- The node of a line that holds a record of a valid one. -/
def recordNode (J : Json) (bytes : Bytes) : Option Node :=
  match J.record bytes with
  | .error _ => none
  | .ok r => (Node.new r.lo r.hi).toOption

def nodeSlot (J : Json) : Slot NodeSlot where
  magic := [0x52, 0x4C, 0x50, 0x48, 0x54, 0x52, 0x45, 0x58]
  bytes := 32
  scan bytes line :=
    match recordNode J bytes with
    | some node => .add ⟨node, line.start, line.stop⟩
    | none => .skip
  start s := s.start
  write s := [s.node.lo, s.node.hi, s.start, s.stop].flatMap (leBytes 8)
  read bytes :=
    let word := fun k => wordAt 8 (8 * k) bytes
    if word 2 < word 3 then (Node.new (word 0) (word 1)).toOption.map (⟨·, word 2, word 3⟩) else none

/-- Slots for the lines of a JSONL file in `[0, covered)`. `covered` ends on the newline of
the last scanned line, which starts at `tail`; `hash` is over the bytes `[tail, covered)`. -/
structure Index (S : Type) where
  slots : List S
  covered : ℕ
  tail : ℕ
  hash : UInt64
  skipped : ℕ
  deriving DecidableEq, Repr

abbrev LogIndex := Index ℕ
abbrev TreeIndex := Index NodeSlot

inductive Freshness
  | fresh
  | extend
  | rebuild
  deriving DecidableEq, Repr

def fnv1a (bytes : Bytes) : UInt64 :=
  bytes.foldl (fun hash b => (hash ^^^ b.toUInt64) * 0x0100000001b3) 0xcbf29ce484222325

namespace Index

variable {S : Type}

/-- `Index::default`. -/
def empty : Index S := ⟨[], 0, 0, fnv1a [], 0⟩

def count (index : Index S) : ℕ := index.slots.length

/-- Scans `data`, the file bytes from `covered` on. -/
def extend (K : Slot S) (index : Index S) (data : Bytes) : Index S :=
  let base := index.covered
  let scanned := (scanLines data base).foldl (fun (acc : Index S × Option Line) line =>
    match K.scan (slice data (line.start - base) (line.stop - base)) line with
    | .add slot => ({ acc.1 with slots := acc.1.slots ++ [slot] }, some line)
    | .skip => ({ acc.1 with skipped := acc.1.skipped + 1 }, some line)) (index, none)
  match scanned.2 with
  | none => scanned.1
  | some line =>
    { scanned.1 with
      tail := line.start
      covered := line.stop + 1
      hash := fnv1a (slice data (line.start - base) (line.stop + 1 - base)) }

/-- Compares the index with a file of `len` bytes whose bytes `[tail, covered)` are `tail`. -/
def freshness (index : Index S) (len : ℕ) (tail : Bytes) : Freshness :=
  if len < index.covered ∨ fnv1a tail ≠ index.hash then .rebuild
  else if len = index.covered then .fresh
  else .extend

def encodeHeader (K : Slot S) (index : Index S) : Bytes :=
  K.magic ++ leBytes 4 version ++
    [index.covered, index.tail, index.hash.toNat, index.skipped, index.count].flatMap (leBytes 8)

/-- The slots from `from_` on. -/
def encodeSlots (K : Slot S) (index : Index S) (from_ : ℕ) : Bytes :=
  (index.slots.drop from_).flatMap K.write

def encode (K : Slot S) (index : Index S) : Bytes := index.encodeHeader K ++ index.encodeSlots K 0

/-- File offset of slot `count`. -/
def slotOffset (K : Slot S) (count : ℕ) : ℕ := headerBytes + count * K.bytes

/-- `none` for a missing, foreign, torn or inconsistent file. A slot count whose byte length
overflows `usize` differs from the length of any body. -/
def decode (K : Slot S) (bytes : Bytes) : Option (Index S) :=
  if bytes.length < headerBytes ∨ bytes.take 8 ≠ K.magic then none
  else if wordAt 4 8 bytes ≠ version then none
  else
    let word := fun k => wordAt 8 (12 + 8 * k) bytes
    let body := bytes.drop headerBytes
    if body.length ≠ word 4 * K.bytes then none
    else
      match (chunksExact K.bytes body).mapM K.read with
      | none => none
      | some slots =>
        -- the slots are in order, and inside the part of the log that the header covers
        let ordered := (slots.zip slots.tail).all fun (a, b) => K.start a < K.start b
        let inside := slots.getLast?.elim true fun last => K.start last ≤ word 1
        let tailOk := word 1 < word 0 ∨ (word 1 = 0 ∧ word 0 = 0)
        if ordered ∧ inside ∧ tailOk then
          some ⟨slots, word 0, word 1, UInt64.ofNat (word 2), word 3⟩
        else none

end Index

/-- Byte span of entries `[from, to)`; `none` when the range is empty or past the index. -/
def LogIndex.span (index : LogIndex) (from_ to_ : ℕ) : Option (ℕ × ℕ) :=
  if from_ ≥ to_ ∨ to_ > index.count then none
  else some (index.slots[from_]!, index.slots[to_]?.getD index.covered)

/-- The `parse_tree` warning for skipped records, as one line. -/
def TreeIndex.warning (index : TreeIndex) : Option String :=
  if index.skipped > 0 then some s!"chat tree: {index.skipped} records skipped" else none

/-- The first record of each wanted node, as `parse_tree` keeps it. -/
def TreeIndex.find (index : TreeIndex) (wanted : List Node) : List NodeSlot :=
  (index.slots.foldl (fun (acc : List Node × List NodeSlot) slot =>
    if slot.node ∈ acc.1 then (acc.1.filter (· ≠ slot.node), acc.2 ++ [slot]) else acc)
    (wanted, [])).2

/-- What one line record adds to the slots. -/
def Slot.scanned {S : Type} (K : Slot S) (s : ℕ × Bytes) : Option S :=
  match K.scan s.2 ⟨s.1, s.1 + s.2.length⟩ with
  | .add slot => some slot
  | .skip => none

namespace Index

variable {S : Type}

/-- An index with further line records taken in. -/
def addRecords (K : Slot S) (index : Index S) (rs : List (ℕ × Bytes)) : Index S where
  slots := index.slots ++ rs.filterMap K.scanned
  covered := (rs.getLast?.map fun s => s.1 + s.2.length + 1).getD index.covered
  tail := (rs.getLast?.map Prod.fst).getD index.tail
  hash := (rs.getLast?.map fun s => fnv1a (s.2 ++ [newline])).getD index.hash
  skipped := index.skipped + rs.countP fun s => (K.scanned s).isNone

theorem addRecords_nil (K : Slot S) (index : Index S) : index.addRecords K [] = index := by
  simp [addRecords]

theorem addRecords_append (K : Slot S) (index : Index S) (rs rs' : List (ℕ × Bytes)) :
    (index.addRecords K rs).addRecords K rs' = index.addRecords K (rs ++ rs') := by
  rcases List.eq_nil_or_concat rs' with rfl | ⟨init, last, rfl⟩
  · rw [addRecords_nil, List.append_nil]
  · simp [addRecords, Nat.add_assoc]

/-- The loop of `extend`: slots and skips add up, and the last line is kept. -/
theorem foldl_extend (K : Slot S) (data : Bytes) (base : ℕ) (rs : List (ℕ × Bytes))
    (hrs : ∀ s ∈ rs, slice data (s.1 - base) (s.1 + s.2.length - base) = s.2)
    (index : Index S) (last : Option Line) :
    (rs.map fun s => (⟨s.1, s.1 + s.2.length⟩ : Line)).foldl
      (fun (acc : Index S × Option Line) line =>
        match K.scan (slice data (line.start - base) (line.stop - base)) line with
        | .add slot => ({ acc.1 with slots := acc.1.slots ++ [slot] }, some line)
        | .skip => ({ acc.1 with skipped := acc.1.skipped + 1 }, some line)) (index, last) =
    ({ index with
        slots := index.slots ++ rs.filterMap K.scanned
        skipped := index.skipped + rs.countP fun s => (K.scanned s).isNone },
      (rs.getLast?.map fun s => (⟨s.1, s.1 + s.2.length⟩ : Line)).or last) := by
  induction rs generalizing index last with
  | nil => simp
  | cons s rs ih =>
    rw [List.forall_mem_cons] at hrs
    have hlast : (((s :: rs).getLast?.map fun s => (⟨s.1, s.1 + s.2.length⟩ : Line)).or last) =
        (rs.getLast?.map fun s => (⟨s.1, s.1 + s.2.length⟩ : Line)).or
          (some ⟨s.1, s.1 + s.2.length⟩) := by
      rw [List.getLast?_cons]
      cases rs.getLast? <;> rfl
    rw [List.map_cons, List.foldl_cons, hrs.1, hlast]
    cases hs : K.scan s.2 ⟨s.1, s.1 + s.2.length⟩ with
    | add slot => simp [ih hrs.2, Slot.scanned, hs]
    | skip => simp [ih hrs.2, Slot.scanned, hs, Nat.add_assoc, Nat.add_comm 1]

/-- The bytes of a record with the newline that ends it. -/
theorem slice_line {base : ℕ} {data : Bytes} {s : ℕ × Bytes} (h : s ∈ lineRecords base data) :
    slice data (s.1 - base) (s.1 + s.2.length + 1 - base) = s.2 ++ [newline] := by
  obtain ⟨a, b, rfl, hs, -, -⟩ := Lines.mem_records h
  have hab : a ++ s.2 ++ newline :: b = a ++ (s.2 ++ [newline]) ++ b := by simp
  rw [hab]
  exact slice_append_append (by omega) (by simp only [List.length_append, List.length_singleton]; omega)

theorem extend_eq (K : Slot S) (index : Index S) (data : Bytes) :
    index.extend K data = index.addRecords K (lineRecords index.covered data) := by
  have hfold := foldl_extend K data index.covered (lineRecords index.covered data)
    (fun s hs => slice_lineRecord hs) index none
  unfold extend
  simp only [scanLines_eq, hfold, Option.or_none]
  cases hlast : (lineRecords index.covered data).getLast? with
  | none =>
    rw [List.getLast?_eq_none_iff] at hlast
    simp [addRecords, hlast]
  | some s => simp [addRecords, hlast, slice_line (List.mem_of_getLast? hlast)]

/-- The index of one `extend` over a whole file. -/
def build (K : Slot S) (data : Bytes) : Index S := (empty : Index S).extend K data

theorem build_eq (K : Slot S) (data : Bytes) : build K data = empty.addRecords K (lineRecords 0 data) :=
  extend_eq K empty data

theorem covered_build (K : Slot S) (data : Bytes) :
    (build K data).covered = Lines.offset 0 (lineRecords 0 data) (lineRecords 0 data).length := by
  rw [build_eq, Lines.offset_length]
  rfl

/-- The file up to `covered` holds every line that was scanned, and a whole number of lines. -/
theorem exists_covered (K : Slot S) (data : Bytes) :
    ∃ a b, data = a ++ b ∧ Lines.Whole newline a ∧ a.length = (build K data).covered ∧
      lineRecords 0 a = lineRecords 0 data ∧ lineRecords a.length b = [] := by
  obtain ⟨a, b, hab, ha, hoff, htake, hdrop⟩ := exists_lineSplit 0 data le_rfl
  rw [Nat.zero_add] at hoff hdrop
  rw [List.take_length] at htake
  rw [List.drop_length] at hdrop
  exact ⟨a, b, hab, ha, by rw [covered_build]; exact hoff, htake, hdrop⟩

/-- Extending over what a grown file holds past `covered` gives the index of the whole file. -/
theorem extend_build (K : Slot S) (data more : Bytes) :
    (build K data).extend K ((data ++ more).drop (build K data).covered) =
      build K (data ++ more) := by
  obtain ⟨a, b, hab, ha, hlen, hrec, -⟩ := exists_covered K data
  have hdrop : (data ++ more).drop (build K data).covered = b ++ more := by
    rw [← hlen, hab, List.append_assoc, List.drop_left]
  have hall : lineRecords 0 (data ++ more) = lineRecords 0 data ++ lineRecords a.length (b ++ more) := by
    rw [← hrec, hab, List.append_assoc, lineRecords_append ha, Nat.zero_add]
  rw [hdrop, extend_eq, ← hlen, build_eq, build_eq, addRecords_append, hall]

end Index

end Ralph.ChatMemory
