import Ralph.Chunk.LostLines

namespace Ralph.Chunk

theorem splitOnceText_newline (cs : List Char) : (Text.splitOnceText ['\n'] cs = none ∧ '\n' ∉ cs) ∨
    ∃ before rest, Text.splitOnceText ['\n'] cs = some (before, rest) ∧ cs = before ++ '\n' :: rest ∧
      '\n' ∉ before := by
  induction cs with
  | nil => exact .inl ⟨rfl, List.not_mem_nil⟩
  | cons c cs ih =>
    rw [Text.splitOnceText]
    by_cases hc : c = '\n'
    · refine .inr ⟨[], cs, ?_, ?_, List.not_mem_nil⟩
      · rw [hc]
        rfl
      · rw [hc, List.nil_append]
    · have hpre : ['\n'].isPrefixOf (c :: cs) = false := by
        simpa [List.isPrefixOf] using fun h => hc h.symm
      rw [hpre, if_neg Bool.false_ne_true]
      obtain ⟨hnone, hmem⟩ | ⟨before, rest, hsplit, hcs, hmem⟩ := ih
      · refine .inl ⟨by rw [hnone]; rfl, ?_⟩
        rw [List.mem_cons, not_or]
        exact ⟨fun h => hc h.symm, hmem⟩
      · refine .inr ⟨c :: before, rest, by rw [hsplit]; rfl, by rw [hcs, List.cons_append], ?_⟩
        rw [List.mem_cons, not_or]
        exact ⟨fun h => hc h.symm, hmem⟩

/-- The lines that parts stand for, the last part too when nothing is in it. -/
def partLines (ps : List (List Char)) : List String :=
  ps.dropLast.map (Text.chomp ∘ String.ofList) ++ (ps.getLast?.map String.ofList).toList

theorem partLines_cons {ps : List (List Char)} (h : ps ≠ []) (p : List Char) :
    partLines (p :: ps) = Text.chomp (String.ofList p) :: partLines ps := by
  obtain ⟨q, rest, rfl⟩ := List.exists_cons_of_ne_nil h
  rfl

theorem splitLinesBody_again {acc : List String} {s s' : SplitLinesIter} {line : String}
    (h : s.next = some (line, s')) : splitLinesBody.run (acc, s) = splitLinesBody.run (acc ++ [line], s') := by
  apply Loop.Body.run_of_again
  simp only [splitLinesBody, h]

theorem splitLinesBody_done {acc : List String} {s : SplitLinesIter} (h : s.next = none) :
    splitLinesBody.run (acc, s) = acc := by
  apply Loop.Body.run_of_done
  simp only [splitLinesBody, h]

theorem run_splitLinesBody (acc : List String) {cs : List Char} (h : cs ≠ []) :
    splitLinesBody.run (acc, ⟨cs, false, false⟩) = acc ++ partLines (cs.splitOn '\n') := by
  -- on the length: a round takes a whole line
  induction hn : cs.length using Nat.strong_induction_on generalizing acc cs with
  | _ n ih =>
    obtain ⟨hnone, hmem⟩ | ⟨before, rest, hsplit, rfl, hmem⟩ := splitOnceText_newline cs
    · have hnext : SplitLinesIter.next ⟨cs, false, false⟩ = some (String.ofList cs, ⟨[], true, false⟩) := by
        simp [SplitLinesIter.next, h, hnone]
      rw [splitLinesBody_again hnext, splitLinesBody_done rfl, List.splitOn_eq_singleton hmem]
      rfl
    · have hnext : SplitLinesIter.next ⟨before ++ '\n' :: rest, false, false⟩ =
          some (Text.chomp (String.ofList before), ⟨rest, false, rest = []⟩) := by
        simp [SplitLinesIter.next, hsplit]
      rw [splitLinesBody_again hnext, List.splitOn_append_cons_self, List.splitOn_eq_singleton hmem,
        List.singleton_append, partLines_cons (List.splitOn_ne_nil _ _)]
      by_cases hrest : rest = []
      · subst hrest
        have hlast : SplitLinesIter.next ⟨[], false, true⟩ = some ("", ⟨[], true, false⟩) := rfl
        rw [decide_eq_true rfl, splitLinesBody_again hlast, splitLinesBody_done rfl, List.append_assoc]
        rfl
      · have hshort : rest.length < n := by
          rw [← hn, List.length_append, List.length_cons]
          omega
        rw [decide_eq_false hrest, ih _ hshort _ hrest rfl, List.append_assoc, List.singleton_append]

theorem splitLinesPreserveTrailing_eq {text : String} (h : text ≠ "") :
    splitLinesPreserveTrailing text = partLines (Text.parts text) := by
  have hchars : text.toList ≠ [] := by simpa using h
  rw [splitLinesPreserveTrailing, run_splitLinesBody [] hchars, List.nil_append, Text.parts]

/-- The lines of the stream are those of `str::lines`, and an empty one where the text ends in a newline. -/
theorem splitLinesPreserveTrailing_cases (text : String) :
    (splitLinesPreserveTrailing text = Text.lines text ∧ (Text.lines text).getLast? ≠ some "") ∨
      splitLinesPreserveTrailing text = Text.lines text ++ [""] := by
  by_cases htext : text = ""
  · subst htext
    refine .inl ⟨?_, ?_⟩
    · rw [Text.lines_empty]
      exact splitLinesBody_done rfl
    · simp [Text.lines_empty]
  · rw [splitLinesPreserveTrailing_eq htext, Text.lines_eq, partLines, Text.ended]
    obtain hnil | ⟨init, last, hlast⟩ := List.eq_nil_or_concat (Text.parts text)
    · exact absurd hnil (Text.parts_ne_nil text)
    rw [hlast, List.concat_eq_append, List.dropLast_concat, List.getLast?_concat]
    by_cases hempty : String.ofList last = ""
    · refine .inr ?_
      simp [hempty]
    · refine .inl ⟨by simp [hempty], ?_⟩
      simp [hempty]

/-- The chunks without the empty line at the end of the last one. -/
def dropEmptyLine (chunks : List ParsedChunk) : List ParsedChunk :=
  chunks.dropLast ++ chunks.getLast?.toList.flatMap fun last =>
    if last.content = "" then [] else [{ last with content := Text.pop last.content }]

/-- The chunks of lines without a last empty line. -/
def dropLastEmpty (lines : List String) (chunks : List ParsedChunk) : List ParsedChunk :=
  if lines.getLast? = some "" then dropEmptyLine chunks else chunks

theorem dropEmptyLine_append (chunks : List ParsedChunk) {last : List ParsedChunk} (h : last ≠ []) :
    dropEmptyLine (chunks ++ last) = chunks ++ dropEmptyLine last := by
  rw [dropEmptyLine, dropEmptyLine, List.dropLast_append_of_ne_nil h, List.getLast?_append_of_ne_nil _ h,
    List.append_assoc]

theorem dropEmptyLine_blank {chunk : ParsedChunk} (h : chunk.content = "") : dropEmptyLine [chunk] = [] := by
  simp [dropEmptyLine, h]

theorem dropEmptyLine_newline {chunk : ParsedChunk} {content : String} (h : chunk.content = content ++ "\n" ++ "") :
    dropEmptyLine [chunk] = [{ chunk with content := content }] := by
  have hpop : Text.pop chunk.content = content := by
    rw [h, String.append_empty, Text.pop, String.toList_append]
    have hone : "\n".toList = ['\n'] := by decide
    rw [hone, List.dropLast_concat, String.ofList_toList]
  have hne : chunk.content ≠ "" := by
    rw [h, String.append_empty]
    have hlast := append_newline_ne content ""
    rwa [String.append_empty] at hlast
  simp [dropEmptyLine, hne, hpop]

theorem chunks_open (language : Option String) {read : List String} (h : read ≠ []) :
    (Section.block language read false).chunks =
      [blockChunk language (language = some "diff") (joinLines read)] := by
  rw [Section.chunks, if_neg fun hopen => h hopen.2]

theorem blockChunk_content (language : Option String) (isDiff : Bool) (content : String) :
    (blockChunk language isDiff content).content = content := by
  cases isDiff <;> rfl

theorem blockChunk_setContent (language : Option String) (isDiff : Bool) (content content' : String) :
    { blockChunk language isDiff content with content := content' } = blockChunk language isDiff content' := by
  cases isDiff <;> rfl

/-- An empty line behind the others is the one that is dropped. -/
theorem chunksFrom_concat_blank (place : Place) (read lines : List String) :
    chunksFrom place read (lines ++ [""]) ≠ [] ∧
      dropEmptyLine (chunksFrom place read (lines ++ [""])) = chunksFrom place read lines := by
  have hfence : parseFenceOpen "" = none := by decide
  have hclose : isFenceClose "" = false := by decide
  induction lines generalizing place read with
  | nil =>
    rw [List.nil_append]
    cases place with
    -- the empty line is the last of the prose, or all of it
    | prose =>
      have hchunks : chunksFrom .prose read [""] = [.prose (joinLines (read ++ [""]))] := by
        rw [chunksFrom, sectionsFrom_prose, hfence]
        exact proseChunks_of_ne (List.append_ne_nil_of_right_ne_nil _ (List.cons_ne_nil _ _))
      rw [hchunks]
      refine ⟨List.cons_ne_nil _ _, ?_⟩
      change _ = proseChunks read
      by_cases hread : read = []
      · rw [hread, proseChunks_nil]
        exact dropEmptyLine_blank rfl
      · rw [joinLines_concat hread, proseChunks_of_ne hread]
        exact dropEmptyLine_newline rfl
    -- the open block ends with the empty line
    | block language =>
      have hchunks : chunksFrom (.block language) read [""] =
          [blockChunk language (language = some "diff") (joinLines (read ++ [""]))] := by
        rw [StreamingChunkBuffer.chunksFrom_inside hclose]
        change (Section.block language (read ++ [""]) false).chunks ++ [] = _
        rw [List.append_nil, chunks_open language (List.append_ne_nil_of_right_ne_nil _ (List.cons_ne_nil _ _))]
      rw [hchunks]
      refine ⟨List.cons_ne_nil _ _, ?_⟩
      change _ = (Section.block language read false).chunks ++ []
      rw [List.append_nil]
      by_cases hread : read = []
      · rw [hread, Section.chunks, if_pos ⟨rfl, rfl⟩]
        exact dropEmptyLine_blank (blockChunk_content _ _ _)
      · rw [joinLines_concat hread, chunks_open language hread,
          dropEmptyLine_newline (blockChunk_content _ _ _), blockChunk_setContent]
  | cons line lines ih =>
    rw [List.cons_append]
    cases place with
    | prose =>
      cases hline : parseFenceOpen line with
      | none =>
        have hread : ∀ more, chunksFrom .prose read (line :: more) = chunksFrom .prose (read ++ [line]) more := by
          intro more
          rw [chunksFrom, sectionsFrom_prose, hline]
          rfl
        rw [hread, hread]
        exact ih .prose (read ++ [line])
      -- the chunks in front of the fence do not change
      | some language =>
        have hread : ∀ more, chunksFrom .prose read (line :: more) =
            proseChunks read ++ chunksFrom (.block language) [] more := by
          intro more
          rw [chunksFrom, sectionsFrom_prose, hline]
          exact List.flatMap_append
        obtain ⟨hne, hdrop⟩ := ih (.block language) []
        rw [hread, hread, dropEmptyLine_append _ hne, hdrop]
        exact ⟨List.append_ne_nil_of_right_ne_nil _ hne, rfl⟩
    | block language =>
      cases hline : isFenceClose line with
      | false =>
        rw [StreamingChunkBuffer.chunksFrom_inside hline, StreamingChunkBuffer.chunksFrom_inside hline]
        exact ih (.block language) (read ++ [line])
      | true =>
        have hread : ∀ more, chunksFrom (.block language) read (line :: more) =
            (Section.block language read true).chunks ++ chunksFrom .prose [] more := by
          intro more
          rw [chunksFrom, sectionsFrom_block, if_pos hline]
          rfl
        obtain ⟨hne, hdrop⟩ := ih .prose []
        rw [hread, hread, dropEmptyLine_append _ hne, hdrop]
        exact ⟨List.append_ne_nil_of_right_ne_nil _ hne, rfl⟩

/-- The sections of the streamed lines are those of the text's lines, without a last empty line. -/
theorem dropLastEmpty_sectionChunks (text : String) :
    dropLastEmpty (splitLinesPreserveTrailing text) (sectionChunks (splitLinesPreserveTrailing text)) =
      sectionChunks (Text.lines text) := by
  obtain ⟨hlines, hlast⟩ | hlines := splitLinesPreserveTrailing_cases text
  · rw [hlines, dropLastEmpty, if_neg hlast]
  · rw [hlines, dropLastEmpty, List.getLast?_concat, if_pos rfl]
    exact (chunksFrom_concat_blank .prose [] (Text.lines text)).2

namespace BatchState

/-- The chunks of a run over the lines. -/
def chunksOf (s : BatchState) (lines : List String) : List ParsedChunk :=
  let s := lines.foldl readLine s
  let s := if s.inCodeBlock ∧ s.codeBlockContent ≠ "" then s.emitCodeBlock else s
  s.flushProse.chunks

theorem chunksOf_cons (s : BatchState) (line : String) (lines : List String) :
    chunksOf s (line :: lines) = chunksOf (s.readLine line) lines := rfl

def flushed (buffer : String) : List ParsedChunk := if buffer = "" then [] else [.prose buffer]

theorem flushProse_eq (chunks : List ParsedChunk) (buffer : String) (inside : Bool) (content : String)
    (language : Option String) (isDiff : Bool) :
    flushProse ⟨chunks, buffer, inside, content, language, isDiff⟩ =
      ⟨chunks ++ flushed buffer, "", inside, content, language, isDiff⟩ := by
  rw [flushProse, flushed]
  by_cases hempty : buffer = ""
  · rw [if_pos hempty, if_pos hempty, List.append_nil, hempty]
  · rw [if_neg hempty, if_neg hempty]

open StreamingChunkBuffer in
theorem flushProseBuffer_eq {buffer : String} {count : ℕ} (h : buffer ≠ "" → count ≠ 0) (state : BufferState)
    (threshold : ℕ) : ∃ count' ≤ count, flushProseBuffer ⟨state, buffer, threshold, count⟩ =
      (flushed buffer, ⟨state, "", threshold, count'⟩) := by
  rw [flushProseBuffer, flushed]
  by_cases hempty : buffer = ""
  · rw [if_pos (.inr hempty), if_pos hempty, hempty]
    exact ⟨count, le_rfl, rfl⟩
  · rw [if_neg (by simp [h hempty, hempty]), if_neg hempty]
    exact ⟨0, Nat.zero_le _, rfl⟩

/-- Both parsers give the same chunks from the same buffer on, when the stream's threshold is out of reach. -/
theorem chunksOf_eq_feed {threshold : ℕ} (lines : List String) :
    (∀ chunks buffer content language isDiff count, (buffer ≠ "" → count ≠ 0) → count + lines.length < threshold →
      chunksOf ⟨chunks, buffer, false, content, language, isDiff⟩ lines =
        chunks ++ (StreamingChunkBuffer.feed ⟨.prose, buffer, threshold, count⟩ lines).1) ∧
    ∀ chunks buffer language count, count + lines.length < threshold →
      chunksOf ⟨chunks, "", true, buffer, language, language = some "diff"⟩ lines = chunks ++
        (StreamingChunkBuffer.feed ⟨.code language (language = some "diff"), buffer, threshold, count⟩ lines).1 := by
  induction lines with
  | nil =>
    constructor
    · intro chunks buffer content language isDiff count hcount _
      obtain ⟨count', -, hflush⟩ := flushProseBuffer_eq hcount .prose threshold
      have hfeed : (StreamingChunkBuffer.feed ⟨.prose, buffer, threshold, count⟩ []).1 = flushed buffer :=
        congrArg Prod.fst hflush
      rw [hfeed, chunksOf, List.foldl_nil]
      dsimp only
      rw [if_neg (by simp), flushProse_eq]
    · intro chunks buffer language count _
      rw [chunksOf, List.foldl_nil, StreamingChunkBuffer.feed, StreamingChunkBuffer.finish]
      dsimp only
      by_cases hempty : buffer = ""
      · rw [if_neg (by simp [hempty]), if_neg (by simp [hempty]), flushProse_eq]
        rfl
      · rw [if_pos ⟨rfl, hempty⟩, if_pos hempty, emitCodeBlock, flushProse_eq]
        exact List.append_nil _
  | cons line lines ih =>
    obtain ⟨hprose, hblock⟩ := ih
    constructor
    · intro chunks buffer content language isDiff count hcount hlength
      rw [List.length_cons] at hlength
      rw [StreamingChunkBuffer.feed_cons, StreamingChunkBuffer.processLine, chunksOf_cons, readLine]
      dsimp only
      rw [Bool.not_false, if_pos rfl]
      cases hfence : parseFenceOpen line with
      | some opened =>
        obtain ⟨count', hle, hflush⟩ := flushProseBuffer_eq hcount .prose threshold
        dsimp only
        rw [StreamingChunkBuffer.startCodeBlock, hflush, flushProse_eq]
        dsimp only
        rw [hblock _ _ _ count' (by omega), List.append_assoc]
      | none =>
        dsimp only
        have hline : appendLine buffer line ≠ "" → count + 1 ≠ 0 := fun _ => Nat.succ_ne_zero count
        rw [if_neg (by omega), StreamingChunkBuffer.accumulateProseLine]
        dsimp only
        rw [if_neg (by omega)]
        exact hprose chunks (appendLine buffer line) content language isDiff (count + 1) hline (by omega)
    · intro chunks buffer language count hlength
      rw [List.length_cons] at hlength
      rw [StreamingChunkBuffer.feed_cons, StreamingChunkBuffer.processLine, chunksOf_cons, readLine]
      dsimp only
      rw [Bool.not_true, if_neg Bool.false_ne_true]
      cases hclose : isFenceClose line with
      | true =>
        rw [if_pos rfl, if_pos rfl, StreamingChunkBuffer.closeCodeBlock, emitCodeBlock]
        dsimp only
        rw [hprose _ "" "" _ false count (fun h => absurd rfl h) (by omega), List.append_assoc]
      | false =>
        rw [if_neg Bool.false_ne_true, if_neg Bool.false_ne_true]
        exact hblock chunks (appendLine buffer line) language count (by omega)

end BatchState

theorem parseChunks_eq_feed (text : String) : parseChunks text =
    ((StreamingChunkBuffer.withProseThreshold ((Text.lines text).length + 1)).feed (Text.lines text)).1 := by
  have hlength : 0 + (Text.lines text).length < (Text.lines text).length + 1 := by omega
  exact (BatchState.chunksOf_eq_feed (Text.lines text)).1 [] "" "" none false 0 (fun h => absurd rfl h) hlength

namespace StreamingChunkBuffer

theorem processLine_threshold (s : StreamingChunkBuffer) (line : String) :
    (s.processLine line).2.proseBufferThreshold = s.proseBufferThreshold := by
  have hflush : ∀ s : StreamingChunkBuffer, s.flushProseBuffer.2.proseBufferThreshold = s.proseBufferThreshold := by
    intro s
    rw [flushProseBuffer]
    split_ifs <;> rfl
  rw [processLine]
  cases s.state with
  | prose =>
    cases parseFenceOpen line with
    | some language => exact hflush s
    | none =>
      dsimp only
      split_ifs
      · rfl
      · rw [accumulateProseLine]
        split_ifs
        · exact hflush _
        · rfl
  | code language isDiff =>
    dsimp only
    split_ifs
    · rw [closeCodeBlock]
      cases s.state <;> rfl
    · rfl

/-- The end of a stream is its start again. -/
theorem feed_end (s : StreamingChunkBuffer) (lines : List String) :
    (s.feed lines).2 = withProseThreshold s.proseBufferThreshold := by
  induction lines generalizing s with
  | nil =>
    have hflush : s.flushProseBuffer.2.proseBufferThreshold = s.proseBufferThreshold := by
      rw [flushProseBuffer]
      split_ifs <;> rfl
    rw [feed, finish]
    cases hstate : s.state with
    | prose =>
      dsimp only
      rw [hflush]
      rfl
    | code language isDiff =>
      dsimp only
      split_ifs
      · rw [closeCodeBlock, hstate]
        rfl
      · rfl
  | cons line lines ih =>
    rw [feed]
    dsimp only
    rw [ih, processLine_threshold]

end StreamingChunkBuffer

open StreamingChunkBuffer

/-- The stream ends as it began, its chunks are those of the sections once neighbouring prose is joined, and the
batch parser gives the same ones without a last empty line. -/
def StreamsText (threshold : ℕ) (text : String) : Prop :=
  let lines := splitLinesPreserveTrailing text
  let streamed := (withProseThreshold threshold).feed lines
  streamed.2 = withProseThreshold threshold ∧ joinProse streamed.1 = sectionChunks lines ∧
    dropLastEmpty lines (joinProse streamed.1) = joinProse (parseChunks text)

/-- Nothing is lost exactly where no group of prose lines, no block and no run of prose starts with an empty line. -/
theorem streams_text_iff (threshold : ℕ) (text : String) : StreamsText threshold text ↔
    keeps threshold (.prose 0) (splitLinesPreserveTrailing text) = true ∧
      keeps ((Text.lines text).length + 1) (.prose 0) (Text.lines text) = true := by
  have hstream : joinProse ((withProseThreshold threshold).feed (splitLinesPreserveTrailing text)).1 =
      sectionChunks (splitLinesPreserveTrailing text) ↔
        keeps threshold (.prose 0) (splitLinesPreserveTrailing text) = true := joinProse_feed_iff
  have hbatch : joinProse (parseChunks text) = sectionChunks (Text.lines text) ↔
      keeps ((Text.lines text).length + 1) (.prose 0) (Text.lines text) = true := by
    rw [parseChunks_eq_feed]
    exact joinProse_feed_iff
  have hsections := dropLastEmpty_sectionChunks text
  rw [← hstream, ← hbatch]
  constructor
  · rintro ⟨-, hstreamed, hsame⟩
    rw [hstreamed, hsections] at hsame
    exact ⟨hstreamed, hsame.symm⟩
  · rintro ⟨hstreamed, hparsed⟩
    refine ⟨feed_end _ _, hstreamed, ?_⟩
    rw [hstreamed, hsections, hparsed]

/-- The empty first line of a block is lost, with every prose line a chunk of its own. -/
theorem not_streams_block_blank : ¬ StreamsText 0 "```\n\nx\n```" := by
  rintro ⟨-, hstreamed, -⟩
  rw [joinProse_feed_iff, splitLinesPreserveTrailing_eq (by decide)] at hstreamed
  exact absurd hstreamed (by decide)

end Ralph.Chunk
