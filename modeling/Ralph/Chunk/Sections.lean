import Ralph.Chunk.Streaming

namespace Ralph.Chunk

/-- The lines outside of blocks in a row, or a block with the language of its fence. -/
inductive Section
  | prose (lines : List String)
  | block (language : Option String) (lines : List String) (closed : Bool)
  deriving DecidableEq, Repr

inductive Place
  | prose
  | block (language : Option String)

def proseSection (lines : List String) : List Section := if lines = [] then [] else [.prose lines]

/-- The sections from a place on, where some lines of the first one are read already. -/
def sectionsFrom : Place → List String → List String → List Section
  | .prose, read, [] => proseSection read
  | .block language, read, [] => [.block language read false]
  | .prose, read, line :: lines =>
    match parseFenceOpen line with
    | some language => proseSection read ++ sectionsFrom (.block language) [] lines
    | none => sectionsFrom .prose (read ++ [line]) lines
  | .block language, read, line :: lines =>
    if isFenceClose line then .block language read true :: sectionsFrom .prose [] lines
    else sectionsFrom (.block language) (read ++ [line]) lines

theorem sectionsFrom_prose (read : List String) (line : String) (lines : List String) :
    sectionsFrom .prose read (line :: lines) =
      match parseFenceOpen line with
      | some language => proseSection read ++ sectionsFrom (.block language) [] lines
      | none => sectionsFrom .prose (read ++ [line]) lines := rfl

theorem sectionsFrom_block (language : Option String) (read : List String) (line : String) (lines : List String) :
    sectionsFrom (.block language) read (line :: lines) =
      if isFenceClose line then .block language read true :: sectionsFrom .prose [] lines
      else sectionsFrom (.block language) (read ++ [line]) lines := rfl

def joinLines (lines : List String) : String := "\n".intercalate lines

/-- The chunk of a section; a block without lines that no fence closes has none. -/
def Section.chunks : Section → List ParsedChunk
  | .prose lines => [.prose (joinLines lines)]
  | .block language lines closed =>
    if closed = false ∧ lines = [] then [] else [blockChunk language (language = some "diff") (joinLines lines)]

def chunksFrom (place : Place) (read lines : List String) : List ParsedChunk :=
  (sectionsFrom place read lines).flatMap Section.chunks

def sectionChunks (lines : List String) : List ParsedChunk := chunksFrom .prose [] lines

def ParsedChunk.isProse (chunk : ParsedChunk) : Bool := chunk.chunkType = .prose

def joinNext (chunk : ParsedChunk) : List ParsedChunk → List ParsedChunk
  | [] => [chunk]
  | next :: chunks =>
    if chunk.isProse && next.isProse then .prose (chunk.content ++ "\n" ++ next.content) :: chunks
    else chunk :: next :: chunks

/-- Prose chunks next to each other, joined by newlines. -/
def joinProse (chunks : List ParsedChunk) : List ParsedChunk := chunks.foldr joinNext []

/-- Behind so many lines of a group of prose lines, at the start of a block, behind an empty line there, or
further inside. -/
inductive Spot
  | prose (count : ℕ)
  | fresh
  | blank
  | inside
  deriving DecidableEq, Repr

/-- With groups of `threshold` lines no group of prose lines and no block starts with an empty line, unless the block
is closed right behind it. -/
def keeps (threshold : ℕ) : Spot → List String → Bool
  | .blank, [] => false
  | .prose _, [] | .fresh, [] | .inside, [] => true
  | .prose count, line :: lines =>
    match parseFenceOpen line with
    | some _ => keeps threshold .fresh lines
    | none =>
      (threshold = 0 || count ≠ 0 || line ≠ "") &&
        keeps threshold (.prose (if threshold ≤ count + 1 then 0 else count + 1)) lines
  | .fresh, line :: lines =>
    if isFenceClose line then keeps threshold (.prose 0) lines
    else keeps threshold (if line = "" then .blank else .inside) lines
  | .blank, line :: lines => isFenceClose line && keeps threshold (.prose 0) lines
  | .inside, line :: lines =>
    if isFenceClose line then keeps threshold (.prose 0) lines else keeps threshold .inside lines

theorem keeps_prose (threshold count : ℕ) (line : String) (lines : List String) :
    keeps threshold (.prose count) (line :: lines) =
      match parseFenceOpen line with
      | some _ => keeps threshold .fresh lines
      | none =>
        (threshold = 0 || count ≠ 0 || line ≠ "") &&
          keeps threshold (.prose (if threshold ≤ count + 1 then 0 else count + 1)) lines := rfl

theorem keeps_fresh (threshold : ℕ) (line : String) (lines : List String) :
    keeps threshold .fresh (line :: lines) =
      if isFenceClose line then keeps threshold (.prose 0) lines
      else keeps threshold (if line = "" then .blank else .inside) lines := rfl

theorem keeps_blank (threshold : ℕ) (line : String) (lines : List String) :
    keeps threshold .blank (line :: lines) = (isFenceClose line && keeps threshold (.prose 0) lines) := rfl

theorem keeps_inside (threshold : ℕ) (line : String) (lines : List String) :
    keeps threshold .inside (line :: lines) =
      if isFenceClose line then keeps threshold (.prose 0) lines else keeps threshold .inside lines := rfl

theorem joinLines_nil : joinLines [] = "" := rfl

theorem joinLines_singleton (line : String) : joinLines [line] = line := String.intercalate_singleton

theorem joinLines_concat {lines : List String} (h : lines ≠ []) (line : String) :
    joinLines (lines ++ [line]) = joinLines lines ++ "\n" ++ line := by
  rw [joinLines, String.intercalate_append_of_ne_nil h (List.cons_ne_nil _ _), String.intercalate_singleton]
  rfl

theorem blockChunk_isProse (language : Option String) (isDiff : Bool) (content : String) :
    (blockChunk language isDiff content).isProse = false := by
  cases isDiff <;> rfl

theorem joinProse_cons (chunk : ParsedChunk) (chunks : List ParsedChunk) :
    joinProse (chunk :: chunks) = joinNext chunk (joinProse chunks) := rfl

theorem joinNext_of_block {chunk : ParsedChunk} (h : chunk.isProse = false) (chunks : List ParsedChunk) :
    joinNext chunk chunks = chunk :: chunks := by
  cases chunks with
  | nil => rfl
  | cons next chunks =>
    rw [joinNext, h]
    rfl

theorem joinNext_prose_block {chunk : ParsedChunk} (h : chunk.isProse = false) (content : String)
    (chunks : List ParsedChunk) : joinNext (.prose content) (chunk :: chunks) = .prose content :: chunk :: chunks := by
  rw [joinNext, h, Bool.and_false]
  rfl

/-- Two prose chunks next to each other count as one. -/
theorem joinProse_prose_prose (a b : String) (chunks : List ParsedChunk) :
    joinProse (.prose a :: .prose b :: chunks) = joinProse (.prose (a ++ "\n" ++ b) :: chunks) := by
  simp only [joinProse_cons]
  cases joinProse chunks with
  | nil => rfl
  | cons next rest =>
    cases hnext : next.isProse with
    | false =>
      rw [joinNext_prose_block hnext, joinNext_prose_block hnext]
      rfl
    | true =>
      have hprose : ∀ c : String, (ParsedChunk.prose c).isProse = true := fun c => rfl
      simp only [joinNext, hnext, hprose, Bool.and_self, if_true]
      change [ParsedChunk.prose _] ++ rest = [ParsedChunk.prose _] ++ rest
      simp only [ParsedChunk.prose, String.append_assoc]

theorem joinLines_append {a b : List String} (ha : a ≠ []) (hb : b ≠ []) :
    joinLines (a ++ b) = joinLines a ++ "\n" ++ joinLines b := String.intercalate_append_of_ne_nil ha hb

theorem append_newline_ne (a b : String) : a ++ "\n" ++ b ≠ "" := by
  intro h
  have hlength := congrArg String.length h
  simp at hlength

/-- Two lines, or one line with text in it. -/
theorem joinLines_concat_ne {lines : List String} {line : String} (h : lines = [] → line ≠ "") :
    joinLines (lines ++ [line]) ≠ "" := by
  by_cases hnil : lines = []
  · rw [hnil, List.nil_append, joinLines_singleton]
    exact h hnil
  · rw [joinLines_concat hnil]
    exact append_newline_ne _ _

/-- The lines of a buffer, unless its first line is lost. -/
theorem appendLine_joinLines {lines : List String} (h : lines ≠ [] → joinLines lines ≠ "") (line : String) :
    appendLine (joinLines lines) line = joinLines (lines ++ [line]) := by
  by_cases hnil : lines = []
  · rw [hnil, List.nil_append, joinLines_singleton, joinLines_nil, appendLine, if_pos rfl, String.empty_append]
  · rw [appendLine, if_neg (h hnil), joinLines_concat hnil]

def proseChunks (lines : List String) : List ParsedChunk := (proseSection lines).flatMap Section.chunks

theorem proseChunks_nil : proseChunks [] = [] := rfl

theorem proseChunks_of_ne {lines : List String} (h : lines ≠ []) : proseChunks lines = [.prose (joinLines lines)] := by
  rw [proseChunks, proseSection, if_neg h]
  rfl

theorem joinProse_proseChunks (a b : List String) (chunks : List ParsedChunk) :
    joinProse (proseChunks a ++ (proseChunks b ++ chunks)) = joinProse (proseChunks (a ++ b) ++ chunks) := by
  by_cases ha : a = []
  · rw [ha, proseChunks_nil, List.nil_append, List.nil_append]
  by_cases hb : b = []
  · rw [hb, proseChunks_nil, List.nil_append, List.append_nil]
  · have hab : a ++ b ≠ [] := List.append_ne_nil_of_left_ne_nil ha b
    rw [proseChunks_of_ne ha, proseChunks_of_ne hb, proseChunks_of_ne hab, joinLines_append ha hb]
    exact joinProse_prose_prose _ _ _

theorem joinProse_block {chunk : ParsedChunk} (h : chunk.isProse = false) (lines : List String)
    (chunks : List ParsedChunk) :
    joinProse (proseChunks lines ++ chunk :: chunks) = proseChunks lines ++ chunk :: joinProse chunks := by
  by_cases hnil : lines = []
  · rw [hnil, proseChunks_nil, List.nil_append, List.nil_append, joinProse_cons, joinNext_of_block h]
  · rw [proseChunks_of_ne hnil, List.singleton_append, List.singleton_append, joinProse_cons, joinProse_cons,
      joinNext_of_block h, joinNext_prose_block h]

theorem joinProse_only (lines : List String) : joinProse (proseChunks lines) = proseChunks lines := by
  by_cases hnil : lines = []
  · rw [hnil]
    rfl
  · rw [proseChunks_of_ne hnil]
    rfl

namespace StreamingChunkBuffer

variable {threshold : ℕ}

/-- A buffer whose text is not empty is flushed. -/
theorem flush_joinLines {state : BufferState} {group : List String} (h : group ≠ [] → joinLines group ≠ "") :
    flushProseBuffer ⟨state, joinLines group, threshold, group.length⟩ =
      (proseChunks group, ⟨state, "", threshold, 0⟩) := by
  rw [flushProseBuffer]
  by_cases hnil : group = []
  · subst hnil
    rfl
  · rw [if_neg, proseChunks_of_ne hnil]
    rw [not_or]
    exact ⟨fun hzero => hnil (List.length_eq_zero_iff.mp hzero), h hnil⟩

def SpotOf : Spot → List String → Prop
  | .prose _, _ => False
  | .fresh, read => read = []
  | .blank, read => read = [""]
  | .inside, read => joinLines read ≠ ""

def Streams (threshold : ℕ) (lines : List String) : Prop :=
  (∀ flushed group, (threshold = 0 → group = []) → (group ≠ [] → joinLines group ≠ "") →
    keeps threshold (.prose group.length) lines = true →
    joinProse (proseChunks flushed ++ (feed ⟨.prose, joinLines group, threshold, group.length⟩ lines).1) =
      chunksFrom .prose (flushed ++ group) lines) ∧
  ∀ flushed language spot read, SpotOf spot read → keeps threshold spot lines = true →
    joinProse (proseChunks flushed ++
      (feed ⟨.code language (language = some "diff"), joinLines read, threshold, 0⟩ lines).1) =
        proseChunks flushed ++ chunksFrom (.block language) read lines

theorem streams_nil : Streams threshold [] := by
  constructor
  · intro flushed group _ hgroup _
    have hfeed : (feed ⟨.prose, joinLines group, threshold, group.length⟩ []).1 = proseChunks group :=
      congrArg Prod.fst (flush_joinLines hgroup)
    have hjoin := joinProse_proseChunks flushed group []
    rw [List.append_nil, List.append_nil, joinProse_only] at hjoin
    rw [hfeed, hjoin]
    rfl
  · intro flushed language spot read hspot hkeeps
    cases spot with
    | prose count => exact hspot.elim
    | blank => exact absurd hkeeps Bool.false_ne_true
    | fresh =>
      obtain rfl : read = [] := hspot
      change joinProse (proseChunks flushed ++ []) = proseChunks flushed ++ []
      rw [List.append_nil, joinProse_only]
    | inside =>
      have hne : joinLines read ≠ "" := hspot
      have hread : read ≠ [] := fun h => hne (h ▸ joinLines_nil)
      have hfeed : (feed ⟨.code language (language = some "diff"), joinLines read, threshold, 0⟩ []).1 =
          [blockChunk language (language = some "diff") (joinLines read)] := by
        rw [feed, finish]
        dsimp only
        rw [if_pos hne]
        rfl
      have hchunks : chunksFrom (.block language) read [] =
          [blockChunk language (language = some "diff") (joinLines read)] := by
        change (if _ ∧ _ then _ else _) ++ [] = _
        rw [if_neg fun h => hread h.2, List.append_nil]
      rw [hfeed, hchunks, joinProse_block (blockChunk_isProse _ _ _)]
      rfl

theorem feed_cons (s : StreamingChunkBuffer) (line : String) (lines : List String) :
    (s.feed (line :: lines)).1 = (s.processLine line).1 ++ ((s.processLine line).2.feed lines).1 := rfl

theorem streams_prose {line : String} {lines : List String} (ih : Streams threshold lines) {flushed group : List String}
    (hzero : threshold = 0 → group = []) (hgroup : group ≠ [] → joinLines group ≠ "")
    (hkeeps : keeps threshold (.prose group.length) (line :: lines) = true) :
    joinProse (proseChunks flushed ++ (feed ⟨.prose, joinLines group, threshold, group.length⟩ (line :: lines)).1) =
      chunksFrom .prose (flushed ++ group) (line :: lines) := by
  rw [feed_cons, processLine, chunksFrom, sectionsFrom_prose]
  rw [keeps_prose] at hkeeps
  dsimp only
  cases hfence : parseFenceOpen line with
  | some language =>
    rw [hfence] at hkeeps
    dsimp only at hkeeps ⊢
    rw [startCodeBlock, flush_joinLines hgroup]
    dsimp only
    rw [joinProse_proseChunks, List.flatMap_append]
    exact ih.2 (flushed ++ group) language .fresh [] rfl hkeeps
  | none =>
    rw [hfence] at hkeeps
    dsimp only at hkeeps ⊢
    rw [Bool.and_eq_true] at hkeeps
    obtain ⟨hline, hrest⟩ := hkeeps
    by_cases hthreshold : threshold = 0
    · -- every line is a chunk of its own
      obtain rfl := hzero hthreshold
      rw [if_pos hthreshold, List.append_nil]
      rw [if_pos (by omega)] at hrest
      have hone : [ParsedChunk.prose line] = proseChunks [line] := by
        rw [proseChunks_of_ne (List.cons_ne_nil _ _), joinLines_singleton]
      dsimp only
      rw [hone, joinProse_proseChunks]
      have hlater := ih.1 (flushed ++ [line]) [] (fun _ => rfl) (fun h => absurd rfl h) hrest
      rw [List.append_nil] at hlater
      exact hlater
    · rw [if_neg hthreshold, accumulateProseLine]
      dsimp only
      rw [appendLine_joinLines hgroup]
      have hnext : joinLines (group ++ [line]) ≠ "" := joinLines_concat_ne fun hnil => by
        subst hnil
        simpa [hthreshold] using hline
      have hlength : group.length + 1 = (group ++ [line]).length := by
        rw [List.length_append, List.length_singleton]
      rw [hlength] at hrest ⊢
      by_cases hfull : threshold ≤ (group ++ [line]).length
      · rw [if_pos hfull, flush_joinLines fun _ => hnext]
        rw [if_pos hfull] at hrest
        dsimp only
        rw [joinProse_proseChunks]
        have hlater := ih.1 (flushed ++ (group ++ [line])) [] (fun _ => rfl) (fun h => absurd rfl h) hrest
        rw [List.append_nil, ← List.append_assoc] at hlater
        rw [← List.append_assoc]
        exact hlater
      · rw [if_neg hfull, List.nil_append]
        rw [if_neg hfull] at hrest
        have hlater := ih.1 flushed (group ++ [line]) (fun h => absurd h hthreshold) (fun _ => hnext) hrest
        rw [← List.append_assoc] at hlater
        exact hlater

theorem streams_block {line : String} {lines : List String} (ih : Streams threshold lines) {flushed : List String}
    {language : Option String} {spot : Spot} {read : List String} (hspot : SpotOf spot read)
    (hkeeps : keeps threshold spot (line :: lines) = true) :
    joinProse (proseChunks flushed ++
      (feed ⟨.code language (language = some "diff"), joinLines read, threshold, 0⟩ (line :: lines)).1) =
        proseChunks flushed ++ chunksFrom (.block language) read (line :: lines) := by
  rw [feed_cons, processLine, chunksFrom, sectionsFrom_block]
  dsimp only
  by_cases hclose : isFenceClose line = true
  · rw [if_pos hclose, if_pos hclose, closeCodeBlock, List.flatMap_cons]
    dsimp only
    have hrest : keeps threshold (.prose 0) lines = true := by
      cases spot with
      | prose count => exact hspot.elim
      | fresh =>
        rw [keeps_fresh, if_pos hclose] at hkeeps
        exact hkeeps
      | inside =>
        rw [keeps_inside, if_pos hclose] at hkeeps
        exact hkeeps
      | blank =>
        rw [keeps_blank, hclose, Bool.true_and] at hkeeps
        exact hkeeps
    have hchunk : (Section.block language read true).chunks =
        [blockChunk language (language = some "diff") (joinLines read)] := by
      rw [Section.chunks, if_neg fun h => Bool.false_ne_true h.1.symm]
    rw [hchunk, List.singleton_append, List.singleton_append, joinProse_block (blockChunk_isProse _ _ _)]
    exact congrArg (proseChunks flushed ++ _ :: ·) (ih.1 [] [] (fun _ => rfl) (fun h => absurd rfl h) hrest)
  · rw [if_neg hclose, if_neg hclose, List.nil_append]
    cases spot with
    | prose count => exact hspot.elim
    | blank =>
      rw [keeps_blank, Bool.and_eq_true] at hkeeps
      exact absurd hkeeps.1 hclose
    | fresh =>
      obtain rfl : read = [] := hspot
      rw [keeps_fresh, if_neg hclose] at hkeeps
      rw [appendLine_joinLines fun h => absurd rfl h, List.nil_append]
      refine ih.2 flushed language _ [line] ?_ hkeeps
      split_ifs with hempty
      · rw [hempty]
        rfl
      · change joinLines [line] ≠ ""
        rw [joinLines_singleton]
        exact hempty
    | inside =>
      have hne : joinLines read ≠ "" := hspot
      have hread : read ≠ [] := fun h => hne (h ▸ joinLines_nil)
      rw [keeps_inside, if_neg hclose] at hkeeps
      rw [appendLine_joinLines fun _ => hne]
      refine ih.2 flushed language .inside (read ++ [line]) ?_ hkeeps
      exact joinLines_concat_ne fun hnil => absurd hnil hread

/-- The stream keeps the lines of the text where `keeps` holds. -/
theorem streams_of_keeps (lines : List String) : Streams threshold lines := by
  induction lines with
  | nil => exact streams_nil
  | cons line lines ih =>
    exact ⟨fun _ _ hzero hgroup hkeeps => streams_prose ih hzero hgroup hkeeps,
      fun _ _ _ _ hspot hkeeps => streams_block ih hspot hkeeps⟩

theorem joinProse_feed_of_keeps {lines : List String} (h : keeps threshold (.prose 0) lines = true) :
    joinProse ((withProseThreshold threshold).feed lines).1 = sectionChunks lines :=
  (streams_of_keeps lines).1 [] [] (fun _ => rfl) (fun h => absurd rfl h) h

end StreamingChunkBuffer

end Ralph.Chunk
