import Ralph.ChatMemory.CompactJson
import Ralph.ChatMemory.IndexFile

namespace Ralph.ChatMemory
open Words Fallible

inductive ErrorKind
  | invalidData
  | notFound
  | other
  deriving DecidableEq, Repr

/-- `io::Error`. -/
structure IoError where
  kind : ErrorKind
  message : String
  deriving DecidableEq, Repr

/-- `FileSource::read` over the bytes of a snapshot. A missing file reads as empty. -/
def readSnapshot (file : Bytes) (start stop : ℕ) : Except IoError Bytes :=
  if stop > file.length then .error ⟨.invalidData, "read past the chat store snapshot"⟩
  else .ok (slice file start stop)

/-- What `refresh` did, so a writer knows what to persist. -/
inductive Refresh
  | fresh
  | extended (count : ℕ)
  | rebuilt
  deriving DecidableEq, Repr

section
variable {S : Type} (K : Slot S)

def rebuild (file : Bytes) (size : ℕ) : Except IoError (Index S × Refresh) := do
  let data ← readSnapshot file 0 size
  pure (Index.empty.extend K data, .rebuilt)

/-- Brings `stored` up to date with `file`. -/
def refresh (stored : Option (Index S)) (file : Bytes) : Except IoError (Index S × Refresh) :=
  let size := file.length
  match stored with
  | none => rebuild K file size
  | some index => do
    let stop := min index.covered size
    let tail ← readSnapshot file (min index.tail stop) stop
    match index.freshness size tail with
    | .fresh => pure (index, .fresh)
    | .rebuild => rebuild K file size
    | .extend =>
      let data ← readSnapshot file index.covered size
      let extended := index.extend K data
      -- new bytes without a whole line leave the stored index as it is
      let how := if extended.encodeHeader K ≠ index.encodeHeader K then .extended index.count
        else .fresh
      pure (extended, how)

/-- How a writer persists a refreshed index. -/
inductive IndexWrite
  | keep
  | inPlace (at_ : ℕ) (body header : Bytes)
  | replace (bytes : Bytes)
  deriving DecidableEq, Repr

def writePlan (index : Index S) : Refresh → IndexWrite
  | .fresh => .keep
  | .extended from_ =>
    .inPlace (Index.slotOffset K from_) (index.encodeSlots K from_) (index.encodeHeader K)
  | .rebuilt => .replace (index.encode K)

/-- Applies a write to an index file. An in-place write opens the file without creating or
truncating it, and a replacement is renamed into place. -/
def persist (old : Option Bytes) : IndexWrite → Except IoError (Option Bytes)
  | .keep => .ok old
  | .inPlace at_ body header =>
    match old with
    | none => .error ⟨.notFound, "No such file or directory"⟩
    | some bytes => .ok (some (writeAt (writeAt bytes at_ body) 0 header))
  | .replace bytes => .ok (some bytes)

/-- The index that an index file holds; a missing file reads as empty. -/
def stored (indexFile : Option Bytes) : Option (Index S) := Index.decode K (indexFile.getD [])

/-- Brings the index of `file` up to date on disk, and returns it with the new index file. -/
def updateIndex (file : Bytes) (indexFile : Option Bytes) :
    Except IoError (Index S × Option Bytes) := do
  let (index, how) ← refresh K (stored K indexFile) file
  let indexFile ← persist indexFile (writePlan K index how)
  pure (index, indexFile)

variable {K}

theorem readSnapshot_of_le {file : Bytes} (start : ℕ) {stop : ℕ} (h : stop ≤ file.length) :
    readSnapshot file start stop = .ok (slice file start stop) := if_neg (by omega)

theorem slice_length (file : Bytes) (start : ℕ) : slice file start file.length = file.drop start := by
  rw [slice, List.take_length]

theorem rebuild_eq (file : Bytes) :
    rebuild K file file.length = .ok (Index.build K file, .rebuilt) := by
  rw [rebuild, readSnapshot_of_le 0 le_rfl, slice_length]
  rfl

/-- The hashed bytes stay where they are when the file grows. -/
theorem hash_build (data more : Bytes) :
    fnv1a (slice (data ++ more) (Index.build K data).tail (Index.build K data).covered) =
      (Index.build K data).hash := by
  rw [Index.build_eq]
  rcases List.eq_nil_or_concat (lineRecords 0 data) with hl | ⟨init, last, hl⟩
  · simp [hl, Index.addRecords_nil, Index.empty, slice]
  · have hlast : last ∈ lineRecords 0 data := by simp [hl]
    obtain ⟨a, b, rfl, hs, -, -⟩ := Lines.mem_records hlast
    simp only [Index.addRecords, hl, List.concat_eq_append, List.getLast?_append,
      List.getLast?_singleton, Option.some_or, Option.map_some, Option.getD_some]
    have hdata : a ++ last.2 ++ newline :: b ++ more = a ++ (last.2 ++ [newline]) ++ (b ++ more) := by
      simp
    rw [hdata, slice_append_append (by omega)]
    simp only [List.length_append, List.length_singleton]
    omega

/-- The index of an earlier state of the file is never taken for stale. -/
theorem freshness_build (data more : Bytes) :
    (Index.build K data).freshness (data ++ more).length
        (slice (data ++ more) (Index.build K data).tail (Index.build K data).covered) =
      if (data ++ more).length = (Index.build K data).covered then .fresh else .extend := by
  have hcovered := Index.covered_le K data
  have hlen : (data ++ more).length = data.length + more.length := List.length_append
  rw [Index.freshness, if_neg]
  rw [hash_build]
  simp only [ne_eq, not_true_eq_false, or_false]
  omega

theorem covered_lt_or_eq (data more : Bytes) :
    (Index.build K data).covered < (Index.build K (data ++ more)).covered ∨
      Index.build K (data ++ more) = Index.build K data := by
  have hextend := Index.extend_build K data more
  rw [Index.extend_eq] at hextend
  rw [← hextend]
  rcases List.eq_nil_or_concat (lineRecords (Index.build K data).covered
    ((data ++ more).drop (Index.build K data).covered)) with hl | ⟨init, last, hl⟩
  · right
    rw [hl, Index.addRecords_nil]
  · left
    have hlast : last ∈ lineRecords (Index.build K data).covered
      ((data ++ more).drop (Index.build K data).covered) := by simp [hl]
    obtain ⟨a, b, -, hs, -, -⟩ := Lines.mem_records hlast
    simp only [Index.addRecords, hl, List.concat_eq_append, List.getLast?_append,
      List.getLast?_singleton, Option.some_or, Option.map_some, Option.getD_some]
    omega

/-- A refresh of an earlier index ends at the index of the whole file. -/
theorem refresh_build (data more : Bytes) :
    ∃ how, refresh K (some (Index.build K data)) (data ++ more) =
        .ok (Index.build K (data ++ more), how) ∧
      (how = .extended (Index.build K data).count ∨ how = .fresh ∧
        (Index.build K (data ++ more)).encodeHeader K = (Index.build K data).encodeHeader K) := by
  have hcovered := Index.covered_le K data
  have hlen : (data ++ more).length = data.length + more.length := List.length_append
  have htail : (Index.build K data).tail ≤ (Index.build K data).covered := by
    rcases Index.tail_lt_covered K data with h | h
    · omega
    · simp [h, Index.empty]
  have hmin : min (Index.build K data).covered (data ++ more).length =
    (Index.build K data).covered := by omega
  have hread := readSnapshot_of_le (Index.build K data).tail
    (show (Index.build K data).covered ≤ (data ++ more).length by omega)
  simp only [refresh, hmin, Nat.min_eq_left htail, hread, ok_bind, freshness_build]
  by_cases hfull : (data ++ more).length = (Index.build K data).covered
  · obtain rfl : more = [] := List.eq_nil_of_length_eq_zero (by omega)
    rw [List.append_nil] at hfull ⊢
    rw [if_pos hfull]
    exact ⟨.fresh, rfl, .inr ⟨rfl, rfl⟩⟩
  · simp only [if_neg hfull, readSnapshot_of_le _ le_rfl, slice_length, ok_bind,
      Index.extend_build]
    refine ⟨_, rfl, ?_⟩
    split_ifs with hheader
    · exact .inl rfl
    · exact .inr ⟨rfl, not_not.mp hheader⟩

theorem refresh_none (file : Bytes) :
    refresh K none file = .ok (Index.build K file, .rebuilt) := rebuild_eq file

/-- Whatever an earlier writer stored, the refreshed index is the one of the whole file. -/
theorem refresh_fst {stored : Option (Index S)} {file : Bytes}
    (h : ∀ index, stored = some index → ∃ k, index = Index.build K (file.take k)) :
    ∃ how, refresh K stored file = .ok (Index.build K file, how) := by
  cases stored with
  | none => exact ⟨_, refresh_none file⟩
  | some index =>
    obtain ⟨k, rfl⟩ := h index rfl
    obtain ⟨how, hr, -⟩ := refresh_build (K := K) (file.take k) (file.drop k)
    rw [List.take_append_drop] at hr
    exact ⟨how, hr⟩

/-- An unchanged header means an unchanged index, as long as sizes fit a `u64`. -/
theorem build_eq_of_encodeHeader_eq (hK : K.Lawful) {data more : Bytes}
    (hsize : (data ++ more).length ≤ usizeMax)
    (h : (Index.build K (data ++ more)).encodeHeader K = (Index.build K data).encodeHeader K) :
    Index.build K (data ++ more) = Index.build K data := by
  have hdata : data.length ≤ usizeMax := by rw [List.length_append] at hsize; omega
  have hold := Index.wordAt_encodeHeader hK (Index.encodable_build hK hdata).bits [] (i := 0)
    (by omega)
  have hnew := Index.wordAt_encodeHeader hK (Index.encodable_build hK hsize).bits [] (i := 0)
    (by omega)
  rw [h, hold] at hnew
  rcases covered_lt_or_eq (K := K) data more with hlt | heq
  · simp only [List.getElem_cons_zero] at hnew
    omega
  · exact heq

/-- Appending the new slots and rewriting the header leaves the encoding of the new index. -/
theorem writeAt_encode (hK : K.Lawful) (data more : Bytes) :
    writeAt (writeAt ((Index.build K data).encode K)
        (Index.slotOffset K (Index.build K data).count)
        ((Index.build K (data ++ more)).encodeSlots K (Index.build K data).count)) 0
      ((Index.build K (data ++ more)).encodeHeader K) = (Index.build K (data ++ more)).encode K := by
  obtain ⟨added, hslots⟩ : ∃ added, (Index.build K (data ++ more)).slots =
      (Index.build K data).slots ++ added := by
    rw [← Index.extend_build K data more, Index.extend_eq]
    exact ⟨_, rfl⟩
  have hsuffix : (Index.build K (data ++ more)).encodeSlots K (Index.build K data).count =
      added.flatMap K.write := by
    rw [Index.encodeSlots, hslots, Index.count, List.drop_left]
  rw [← Index.length_encode hK, writeAt_length, Index.encode, List.append_assoc,
    writeAt_zero _ (by rw [Index.length_encodeHeader hK, Index.length_encodeHeader hK]),
    Index.encode, hsuffix]
  simp only [Index.encodeSlots, hslots, List.drop_zero, List.flatMap_append]

/-- The index file of `file`, and what a reader makes of it. -/
structure IndexFileOf (K : Slot S) (file : Bytes) (indexFile : Option Bytes) : Prop where
  bytes : indexFile = some ((Index.build K file).encode K)
  stored : stored K indexFile = some (Index.build K file)

theorem indexFileOf_encode (hK : K.Lawful) {file : Bytes} (hsize : file.length ≤ usizeMax) :
    IndexFileOf K file (some ((Index.build K file).encode K)) where
  bytes := rfl
  stored := Index.decode_encode hK (Index.encodable_build hK hsize)

/-- One step of a writer, from an index file that is missing or up to date with an earlier
state of the file. -/
theorem updateIndex_step (hK : K.Lawful) {data more : Bytes} {indexFile : Option Bytes}
    (hsize : (data ++ more).length ≤ usizeMax)
    (h : indexFile = none ∨ IndexFileOf K data indexFile) :
    ∃ indexFile', updateIndex K (data ++ more) indexFile =
        .ok (Index.build K (data ++ more), indexFile') ∧ IndexFileOf K (data ++ more) indexFile' := by
  have hnew := indexFileOf_encode hK hsize
  refine ⟨_, ?_, hnew⟩
  rcases h with rfl | ⟨hbytes, hstored⟩
  · have hstored : stored K none = none := by simp [stored, Index.decode, headerBytes]
    rw [updateIndex, hstored, refresh_none]
    rfl
  · obtain ⟨how, hrefresh, hhow⟩ := refresh_build (K := K) data more
    rw [updateIndex, hstored, hrefresh]
    rcases hhow with rfl | ⟨rfl, hheader⟩
    · simp only [ok_bind, writePlan, hbytes, persist, writeAt_encode hK]
      rfl
    · rw [hbytes, build_eq_of_encodeHeader_eq hK hsize hheader]
      rfl

/-- A JSONL file after a writer's step, with the index of the refresh and the index file. -/
structure Written (S : Type) where
  file : Bytes
  index : Index S
  indexFile : Option Bytes

/-- The steps of a writer that brings the index up to date after each append. -/
def writerRun (K : Slot S) : Bytes → Option Bytes → List Bytes → Except IoError (List (Written S))
  | _, _, [] => .ok []
  | file, indexFile, more :: rest => do
    let (index, indexFile) ← updateIndex K (file ++ more) indexFile
    let later ← writerRun K (file ++ more) indexFile rest
    pure (⟨file ++ more, index, indexFile⟩ :: later)

/-- The index is the one of a single `extend` over the whole file, and the index file holds it. -/
structure Written.Tracks (K : Slot S) (w : Written S) : Prop where
  index : w.index = Index.empty.extend K w.file
  bytes : w.indexFile = some (w.index.encode K)
  decode : w.indexFile.bind (Index.decode K) = some w.index

theorem writerRun_tracks (hK : K.Lawful) (file : Bytes) (indexFile : Option Bytes)
    (h : indexFile = none ∨ IndexFileOf K file indexFile) (chunks : List Bytes)
    (hsize : (file ++ chunks.flatten).length ≤ usizeMax) :
    ∃ run, writerRun K file indexFile chunks = .ok run ∧
      run.map Written.file = (chunks.inits.tail.map fun before => file ++ before.flatten) ∧
      ∀ w ∈ run, w.Tracks K := by
  induction chunks generalizing file indexFile with
  | nil => exact ⟨[], rfl, rfl, by simp⟩
  | cons more rest ih =>
    rw [List.flatten_cons, ← List.append_assoc] at hsize
    have hmore : (file ++ more).length ≤ usizeMax := by
      rw [List.length_append] at hsize
      omega
    obtain ⟨indexFile', hstep, hnew⟩ := updateIndex_step hK hmore h
    obtain ⟨run, hrun, hfiles, htracks⟩ := ih (file ++ more) indexFile' (.inr hnew) hsize
    refine ⟨⟨file ++ more, Index.build K (file ++ more), indexFile'⟩ :: run, ?_, ?_, ?_⟩
    · simp [writerRun, hstep, hrun]
    · cases rest <;> simp [hfiles]
    · rw [List.forall_mem_cons]
      refine ⟨⟨rfl, hnew.bytes, ?_⟩, htracks⟩
      have hstored := hnew.stored
      rw [hnew.bytes] at hstored ⊢
      exact hstored

end

/-- Both indexes of the store follow their files exactly, however the files grow. -/
theorem index_tracks_file (J : Json) (hJ : J.Fits) (chunks : List Bytes)
    (hsize : chunks.flatten.length ≤ usizeMax) :
    (∃ run, writerRun logSlot [] none chunks = .ok run ∧
      run.map Written.file = chunks.inits.tail.map List.flatten ∧ ∀ w ∈ run, w.Tracks logSlot) ∧
    (∃ run, writerRun (nodeSlot J) [] none chunks = .ok run ∧
      run.map Written.file = chunks.inits.tail.map List.flatten ∧
      ∀ w ∈ run, w.Tracks (nodeSlot J)) :=
  ⟨writerRun_tracks logSlot_lawful [] none (.inl rfl) chunks hsize,
    writerRun_tracks (nodeSlot_lawful hJ) [] none (.inl rfl) chunks hsize⟩

/-- A line in two torn appends, then a blank line. -/
theorem index_tracks_torn_line :
    (∃ run, writerRun logSlot [] none [[0x7B], [0x7D, newline], [newline]] = .ok run ∧
      run.map Written.file = [[0x7B], [0x7B, 0x7D, newline], [0x7B, 0x7D, newline, newline]] ∧
      ∀ w ∈ run, w.Tracks logSlot) ∧
    (∃ run, writerRun (nodeSlot CompactJson.compactJson) [] none
        [[0x7B], [0x7D, newline], [newline]] = .ok run ∧
      run.map Written.file = [[0x7B], [0x7B, 0x7D, newline], [0x7B, 0x7D, newline, newline]] ∧
      ∀ w ∈ run, w.Tracks (nodeSlot CompactJson.compactJson)) :=
  index_tracks_file CompactJson.compactJson CompactJson.compactJson_fits
    [[0x7B], [0x7D, newline], [newline]] (by decide)

end Ralph.ChatMemory
