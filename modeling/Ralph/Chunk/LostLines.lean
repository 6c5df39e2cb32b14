import Ralph.Chunk.Sections

namespace Ralph.Chunk

def linesWeight (lines : List String) : ℕ := (lines.map fun line => line.length + 1).sum

def chunksWeight (chunks : List ParsedChunk) : ℕ := (chunks.map fun chunk => chunk.content.length + 1).sum

def bufferWeight (buffer : String) : ℕ := if buffer = "" then 0 else buffer.length + 1

theorem chunksWeight_cons (chunk : ParsedChunk) (chunks : List ParsedChunk) :
    chunksWeight (chunk :: chunks) = chunk.content.length + 1 + chunksWeight chunks := List.sum_cons

theorem chunksWeight_append (a b : List ParsedChunk) : chunksWeight (a ++ b) = chunksWeight a + chunksWeight b := by
  rw [chunksWeight, List.map_append, List.sum_append]
  rfl

theorem chunksWeight_joinProse (chunks : List ParsedChunk) : chunksWeight (joinProse chunks) = chunksWeight chunks := by
  induction chunks with
  | nil => rfl
  | cons chunk chunks ih =>
    rw [joinProse_cons, chunksWeight_cons, ← ih]
    cases joinProse chunks with
    | nil => rfl
    | cons next rest =>
      rw [joinNext]
      split_ifs
      · rw [chunksWeight_cons, chunksWeight_cons]
        change (chunk.content ++ "\n" ++ next.content).length + 1 + _ = _
        rw [String.length_append, String.length_append]
        have hone : "\n".length = 1 := rfl
        omega
      · rw [chunksWeight_cons]

theorem length_joinLines {lines : List String} (h : lines ≠ []) : (joinLines lines).length + 1 = linesWeight lines := by
  induction lines using List.reverseRecOn with
  | nil => exact absurd rfl h
  | append_singleton lines line ih =>
    rw [linesWeight, List.map_append, List.sum_append, List.map_singleton, List.sum_singleton, ← linesWeight]
    by_cases hnil : lines = []
    · rw [hnil, List.nil_append, joinLines_singleton]
      exact (Nat.zero_add _).symm
    · rw [joinLines_concat hnil, String.length_append, String.length_append, ← ih hnil]
      have hone : "\n".length = 1 := rfl
      omega

theorem linesWeight_concat (lines : List String) (line : String) :
    linesWeight (lines ++ [line]) = linesWeight lines + (line.length + 1) := by
  rw [linesWeight, List.map_append, List.sum_append]
  rfl

theorem chunksWeight_proseChunks (lines : List String) : chunksWeight (proseChunks lines) = linesWeight lines := by
  by_cases hnil : lines = []
  · rw [hnil]
    rfl
  · rw [proseChunks_of_ne hnil, ← length_joinLines hnil]
    rfl

/-- Lines that are read already add their weight. -/
theorem chunksWeight_prose (read lines : List String) :
    chunksWeight (chunksFrom .prose read lines) = linesWeight read + chunksWeight (chunksFrom .prose [] lines) := by
  induction lines generalizing read with
  | nil => exact chunksWeight_proseChunks read
  | cons line lines ih =>
    rw [chunksFrom, chunksFrom, sectionsFrom_prose, sectionsFrom_prose]
    cases parseFenceOpen line with
    | some language =>
      dsimp only
      rw [List.flatMap_append, List.flatMap_append, chunksWeight_append, chunksWeight_append]
      have hread := chunksWeight_proseChunks read
      rw [proseChunks] at hread
      rw [hread]
      change _ = _ + (0 + _)
      omega
    | none =>
      dsimp only
      rw [← chunksFrom, ← chunksFrom, ih, ih ([] ++ [line]), linesWeight_concat, linesWeight_concat]
      change _ = _ + (0 + _ + _)
      omega

theorem bufferWeight_appendLine (buffer line : String) :
    bufferWeight (appendLine buffer line) ≤ bufferWeight buffer + (line.length + 1) := by
  rw [appendLine]
  by_cases hempty : buffer = ""
  · rw [if_pos hempty, hempty, String.empty_append, bufferWeight]
    split_ifs <;> omega
  · rw [if_neg hempty, bufferWeight, bufferWeight, if_neg hempty, if_neg (append_newline_ne _ _), String.length_append,
      String.length_append]
    have hone : "\n".length = 1 := rfl
    omega

namespace StreamingChunkBuffer

variable {threshold : ℕ}

/-- A flush moves the text of the buffer into a chunk or leaves it there. -/
theorem exists_flush (threshold : ℕ) (state : BufferState) (buffer : String) (count : ℕ) :
    ∃ chunks rest count', flushProseBuffer ⟨state, buffer, threshold, count⟩ =
      (chunks, ⟨state, rest, threshold, count'⟩) ∧
        chunksWeight chunks + bufferWeight rest = bufferWeight buffer := by
  rw [flushProseBuffer]
  split_ifs with hskip
  · exact ⟨_, _, _, rfl, Nat.zero_add _⟩
  · rw [not_or] at hskip
    refine ⟨_, _, _, rfl, ?_⟩
    change (buffer.length + 1 + 0) + bufferWeight "" = _
    rw [bufferWeight, if_pos rfl, bufferWeight, if_neg hskip.2]

theorem chunksWeight_blockChunk (language : Option String) (content : String) (chunks : List ParsedChunk) :
    chunksWeight (blockChunk language (language = some "diff") content :: chunks) =
      content.length + 1 + chunksWeight chunks := by
  rw [chunksWeight_cons, blockChunk]
  split_ifs <;> rfl

theorem chunksFrom_line {line : String} (h : parseFenceOpen line = none) (lines : List String) :
    chunksWeight (chunksFrom .prose [] (line :: lines)) =
      line.length + 1 + chunksWeight (chunksFrom .prose [] lines) := by
  have hread : chunksFrom .prose [] (line :: lines) = chunksFrom .prose [line] lines := by
    rw [chunksFrom, sectionsFrom_prose, h]
    rfl
  rw [hread, chunksWeight_prose, linesWeight, List.map_singleton, List.sum_singleton]

theorem chunksFrom_fence {line : String} {language : Option String} (h : parseFenceOpen line = some language)
    (lines : List String) : chunksFrom .prose [] (line :: lines) = chunksFrom (.block language) [] lines := by
  rw [chunksFrom, sectionsFrom_prose, h]
  rfl

theorem chunksWeight_close {line : String} (h : isFenceClose line = true) (language : Option String)
    (read lines : List String) : chunksWeight (chunksFrom (.block language) read (line :: lines)) =
      (joinLines read).length + 1 + chunksWeight (chunksFrom .prose [] lines) := by
  rw [chunksFrom, sectionsFrom_block, if_pos h, List.flatMap_cons, Section.chunks,
    if_neg fun hopen => Bool.false_ne_true hopen.1.symm, List.singleton_append, chunksWeight_blockChunk]
  rfl

theorem chunksFrom_inside {line : String} (h : isFenceClose line = false) (language : Option String)
    (read lines : List String) :
    chunksFrom (.block language) read (line :: lines) = chunksFrom (.block language) (read ++ [line]) lines := by
  rw [chunksFrom, sectionsFrom_block, h]
  rfl

theorem length_appendLine_le {buffer : String} {read : List String} {missing : ℕ}
    (h : buffer.length + missing ≤ (joinLines read).length) (line : String) :
    (appendLine buffer line).length + missing ≤ (joinLines (read ++ [line])).length := by
  have hone : "\n".length = 1 := rfl
  by_cases hread : read = []
  · rw [hread, joinLines_nil, String.length_empty] at h
    have hbuffer : buffer = "" := by
      rw [← String.length_eq_zero_iff]
      omega
    rw [hread, List.nil_append, joinLines_singleton, hbuffer, appendLine, if_pos rfl, String.empty_append]
    omega
  · rw [joinLines_concat hread, String.length_append, String.length_append, appendLine, String.length_append]
    split_ifs with hempty
    · rw [String.length_empty]
      omega
    · rw [String.length_append]
      omega

/-- A stream adds no character to the text of its buffer and the lines. What the buffer of a block is short of
stays missing. -/
theorem feed_weight (lines : List String) :
    (∀ buffer count, chunksWeight (feed ⟨.prose, buffer, threshold, count⟩ lines).1 ≤
      bufferWeight buffer + chunksWeight (chunksFrom .prose [] lines)) ∧
    ∀ language buffer count read missing, buffer.length + missing ≤ (joinLines read).length →
      chunksWeight (feed ⟨.code language (language = some "diff"), buffer, threshold, count⟩ lines).1 + missing ≤
        chunksWeight (chunksFrom (.block language) read lines) := by
  induction lines with
  | nil =>
    constructor
    · intro buffer count
      obtain ⟨chunks, rest, count', hflush, hweight⟩ := exists_flush threshold .prose buffer count
      have hfeed : (feed ⟨.prose, buffer, threshold, count⟩ []).1 = chunks := congrArg Prod.fst hflush
      rw [hfeed]
      omega
    -- at the end a block is closed with what its buffer holds
    · intro language buffer count read missing h
      by_cases hread : read = []
      · rw [hread, joinLines_nil, String.length_empty] at h
        have hbuffer : buffer = "" := by
          rw [← String.length_eq_zero_iff]
          omega
        have hfeed : (feed ⟨.code language (language = some "diff"), buffer, threshold, count⟩ []).1 = [] := by
          rw [hbuffer]
          rfl
        rw [hfeed]
        change 0 + missing ≤ _
        omega
      · have hchunks : chunksWeight (chunksFrom (.block language) read []) = (joinLines read).length + 1 := by
          change chunksWeight ((if _ ∧ _ then _ else _) ++ []) = _
          rw [if_neg fun h => hread h.2, List.append_nil, chunksWeight_blockChunk]
          rfl
        rw [hchunks, feed, finish]
        dsimp only
        split_ifs
        · change chunksWeight [blockChunk _ _ _] + missing ≤ _
          rw [chunksWeight_blockChunk]
          change buffer.length + 1 + 0 + missing ≤ _
          omega
        · change 0 + missing ≤ _
          omega
  | cons line lines ih =>
    obtain ⟨hprose, hblock⟩ := ih
    constructor
    · intro buffer count
      rw [feed_cons, chunksWeight_append, processLine]
      dsimp only
      cases hfence : parseFenceOpen line with
      | some language =>
        -- a fence flushes the prose and opens a block with an empty buffer
        obtain ⟨chunks, rest, count', hflush, hweight⟩ := exists_flush threshold .prose buffer count
        dsimp only
        rw [startCodeBlock, hflush, chunksFrom_fence hfence]
        dsimp only
        have hrest := hblock language "" count' [] 0 (Nat.zero_le _)
        omega
      | none =>
        rw [chunksFrom_line hfence]
        dsimp only
        -- with no threshold each line is a chunk of its own
        by_cases hthreshold : threshold = 0
        · rw [if_pos hthreshold]
          dsimp only
          have hrest := hprose buffer count
          change line.length + 1 + 0 + _ ≤ _
          omega
        · rw [if_neg hthreshold, accumulateProseLine]
          dsimp only
          have hline := bufferWeight_appendLine buffer line
          split_ifs with hfull
          · obtain ⟨chunks, rest, count', hflush, hweight⟩ :=
              exists_flush threshold .prose (appendLine buffer line) (count + 1)
            rw [hflush]
            dsimp only
            have hrest := hprose rest count'
            omega
          · have hrest := hprose (appendLine buffer line) (count + 1)
            dsimp only
            change 0 + _ ≤ _
            omega
    -- inside a block the buffer stays as far behind the lines read as it was
    · intro language buffer count read missing h
      rw [feed_cons, chunksWeight_append, processLine]
      dsimp only
      cases hclose : isFenceClose line with
      | true =>
        rw [if_pos rfl, closeCodeBlock, chunksWeight_close hclose]
        dsimp only
        rw [chunksWeight_blockChunk]
        have hrest := hprose "" count
        change _ + 0 + _ + _ ≤ _
        have hempty : bufferWeight "" = 0 := rfl
        omega
      | false =>
        rw [if_neg Bool.false_ne_true, chunksFrom_inside hclose]
        dsimp only
        have hrest := hblock language (appendLine buffer line) count (read ++ [line]) missing
          (length_appendLine_le h line)
        change 0 + _ + _ ≤ _
        omega

def Loses (threshold : ℕ) (lines : List String) : Prop :=
  (∀ group, (threshold = 0 → group = []) → (group ≠ [] → joinLines group ≠ "") →
    keeps threshold (.prose group.length) lines = false →
    chunksWeight (feed ⟨.prose, joinLines group, threshold, group.length⟩ lines).1 <
      linesWeight group + chunksWeight (chunksFrom .prose [] lines)) ∧
  ∀ language spot read, SpotOf spot read → keeps threshold spot lines = false →
    chunksWeight (feed ⟨.code language (language = some "diff"), joinLines read, threshold, 0⟩ lines).1 <
      chunksWeight (chunksFrom (.block language) read lines)

theorem loses_nil : Loses threshold [] := by
  constructor
  · intro group _ _ hkeeps
    exact absurd hkeeps.symm Bool.false_ne_true
  · intro language spot read hspot hkeeps
    cases spot with
    | prose count => exact hspot.elim
    | fresh | inside => exact absurd hkeeps.symm Bool.false_ne_true
    | blank =>
      obtain rfl : read = [""] := hspot
      have hchunks : chunksFrom (.block language) [""] [] = [blockChunk language (language = some "diff") ""] := rfl
      have hfeed : (feed ⟨.code language (language = some "diff"), joinLines [""], threshold, 0⟩ []).1 = [] := rfl
      rw [hchunks, hfeed, chunksWeight_blockChunk]
      exact Nat.succ_pos _

theorem loses_prose {line : String} {lines : List String} (ih : Loses threshold lines) {group : List String}
    (hzero : threshold = 0 → group = []) (hgroup : group ≠ [] → joinLines group ≠ "")
    (hkeeps : keeps threshold (.prose group.length) (line :: lines) = false) :
    chunksWeight (feed ⟨.prose, joinLines group, threshold, group.length⟩ (line :: lines)).1 <
      linesWeight group + chunksWeight (chunksFrom .prose [] (line :: lines)) := by
  rw [feed_cons, chunksWeight_append, processLine]
  rw [keeps_prose] at hkeeps
  dsimp only
  cases hfence : parseFenceOpen line with
  | some language =>
    rw [hfence] at hkeeps
    dsimp only at hkeeps ⊢
    rw [startCodeBlock, flush_joinLines hgroup, chunksFrom_fence hfence]
    dsimp only
    rw [chunksWeight_proseChunks]
    exact Nat.add_lt_add_left (ih.2 language .fresh [] rfl hkeeps) _
  | none =>
    rw [hfence] at hkeeps
    dsimp only at hkeeps ⊢
    rw [chunksFrom_line hfence]
    -- with no threshold nothing is buffered, and the loss comes later
    by_cases hthreshold : threshold = 0
    · obtain rfl := hzero hthreshold
      rw [if_pos hthreshold]
      have hkept : (threshold = 0 || ([] : List String).length ≠ 0 || line ≠ "") = true := by simp [hthreshold]
      rw [hkept, Bool.true_and, if_pos (by omega)] at hkeeps
      have hrest := ih.1 [] (fun _ => rfl) (fun h => absurd rfl h) hkeeps
      dsimp only
      change line.length + 1 + 0 + _ < _
      have hnil : linesWeight [] = 0 := rfl
      change _ < _ at hrest
      omega
    · rw [if_neg hthreshold, accumulateProseLine]
      dsimp only
      by_cases hlost : group = [] ∧ line = ""
      · -- the buffer stays empty, so the newline of this line is missing
        obtain ⟨rfl, rfl⟩ := hlost
        have hempty : appendLine (joinLines []) "" = "" := rfl
        rw [hempty, List.length_nil]
        have hnil : linesWeight [] = 0 := rfl
        have hbuffer : bufferWeight "" = 0 := rfl
        have hlater : ∀ buffer count, chunksWeight (feed ⟨.prose, buffer, threshold, count⟩ lines).1 ≤
            bufferWeight buffer + chunksWeight (chunksFrom .prose [] lines) := (feed_weight lines).1
        split_ifs with hfull
        · obtain ⟨chunks, rest, count', hflush, hweight⟩ := exists_flush threshold .prose "" (0 + 1)
          rw [hflush]
          dsimp only
          have hrest := hlater rest count'
          omega
        · have hrest := hlater "" (0 + 1)
          dsimp only
          change 0 + _ < _
          omega
      -- the line is kept, so the loss comes later
      · have hkept : (threshold = 0 || group.length ≠ 0 || line ≠ "") = true := by
          simpa [hthreshold, List.length_eq_zero_iff, imp_iff_not_or] using hlost
        rw [hkept, Bool.true_and] at hkeeps
        have hnext : group ++ [line] ≠ [] → joinLines (group ++ [line]) ≠ "" := fun _ =>
          joinLines_concat_ne fun hnil hempty => hlost ⟨hnil, hempty⟩
        have hlength : group.length + 1 = (group ++ [line]).length := by
          rw [List.length_append, List.length_singleton]
        have hweight := linesWeight_concat group line
        rw [appendLine_joinLines hgroup, hlength]
        rw [hlength] at hkeeps
        -- a full buffer starts a new group
        by_cases hfull : threshold ≤ (group ++ [line]).length
        · rw [if_pos hfull, flush_joinLines hnext]
          rw [if_pos hfull] at hkeeps
          dsimp only
          rw [chunksWeight_proseChunks]
          have hrest : chunksWeight (feed ⟨.prose, "", threshold, 0⟩ lines).1 <
              0 + chunksWeight (chunksFrom .prose [] lines) :=
            ih.1 [] (fun _ => rfl) (fun h => absurd rfl h) hkeeps
          omega
        · rw [if_neg hfull]
          rw [if_neg hfull] at hkeeps
          dsimp only
          have hrest := ih.1 (group ++ [line]) (fun h => absurd h hthreshold) hnext hkeeps
          change 0 + _ < _
          omega

theorem loses_block {line : String} {lines : List String} (ih : Loses threshold lines) {language : Option String}
    {spot : Spot} {read : List String} (hspot : SpotOf spot read)
    (hkeeps : keeps threshold spot (line :: lines) = false) :
    chunksWeight (feed ⟨.code language (language = some "diff"), joinLines read, threshold, 0⟩ (line :: lines)).1 <
      chunksWeight (chunksFrom (.block language) read (line :: lines)) := by
  rw [feed_cons, chunksWeight_append, processLine]
  dsimp only
  cases hclose : isFenceClose line with
  | true =>
    rw [if_pos rfl, closeCodeBlock, chunksWeight_close hclose]
    dsimp only
    rw [chunksWeight_blockChunk]
    have hrest : keeps threshold (.prose 0) lines = false := by
      cases spot with
      | prose count => exact hspot.elim
      | fresh =>
        rw [keeps_fresh, if_pos hclose] at hkeeps
        exact hkeeps
      | inside =>
        rw [keeps_inside, if_pos hclose] at hkeeps
        exact hkeeps
      | blank =>
        rw [keeps_blank, hclose, Bool.true_and] at hkeeps
        exact hkeeps
    have hlater : chunksWeight (feed ⟨.prose, "", threshold, 0⟩ lines).1 <
        0 + chunksWeight (chunksFrom .prose [] lines) :=
      ih.1 [] (fun _ => rfl) (fun h => absurd rfl h) hrest
    change _ + 0 + _ < _
    omega
  | false =>
    rw [if_neg Bool.false_ne_true, chunksFrom_inside hclose]
    dsimp only
    change 0 + _ < _
    rw [Nat.zero_add]
    cases spot with
    | prose count => exact hspot.elim
    | blank =>
      -- the empty first line is gone, and the newline behind it
      obtain rfl : read = [""] := hspot
      have hempty : appendLine (joinLines [""]) line = line := String.empty_append
      have hlines : (joinLines ([""] ++ [line])).length = line.length + 1 := by
        rw [joinLines_concat (List.cons_ne_nil _ _), String.length_append, String.length_append]
        exact Nat.add_comm 1 line.length
      rw [hempty]
      exact (feed_weight lines).2 language line 0 ([""] ++ [line]) 1 hlines.ge
    | fresh =>
      obtain rfl : read = [] := hspot
      rw [keeps_fresh, hclose, if_neg Bool.false_ne_true] at hkeeps
      rw [appendLine_joinLines fun h => absurd rfl h, List.nil_append]
      refine ih.2 language _ [line] ?_ hkeeps
      split_ifs with hempty
      · rw [hempty]
        rfl
      · change joinLines [line] ≠ ""
        rw [joinLines_singleton]
        exact hempty
    | inside =>
      have hne : joinLines read ≠ "" := hspot
      have hread : read ≠ [] := fun h => hne (h ▸ joinLines_nil)
      rw [keeps_inside, hclose, if_neg Bool.false_ne_true] at hkeeps
      rw [appendLine_joinLines fun _ => hne]
      refine ih.2 language .inside (read ++ [line]) ?_ hkeeps
      exact joinLines_concat_ne fun hnil => absurd hnil hread

/-- Where `keeps` fails the stream is short of a newline. -/
theorem loses_of_not_keeps (lines : List String) : Loses threshold lines := by
  induction lines with
  | nil => exact loses_nil
  | cons line lines ih =>
    exact ⟨fun _ hzero hgroup hkeeps => loses_prose ih hzero hgroup hkeeps,
      fun _ _ _ hspot hkeeps => loses_block ih hspot hkeeps⟩

/-- The stream gives the chunks of the sections exactly where `keeps` holds. -/
theorem joinProse_feed_iff {lines : List String} :
    joinProse ((withProseThreshold threshold).feed lines).1 = sectionChunks lines ↔
      keeps threshold (.prose 0) lines = true := by
  refine ⟨fun h => ?_, joinProse_feed_of_keeps⟩
  by_contra hkeeps
  rw [Bool.not_eq_true] at hkeeps
  have hlost := (loses_of_not_keeps lines).1 [] (fun _ => rfl) (fun h => absurd rfl h) hkeeps
  have hweight := congrArg chunksWeight h
  rw [chunksWeight_joinProse] at hweight
  change chunksWeight ((withProseThreshold threshold).feed lines).1 < 0 + chunksWeight (sectionChunks lines) at hlost
  omega

end StreamingChunkBuffer

end Ralph.Chunk
