import Ralph.Chat.Words
import Ralph.Chunk.Basic
import Ralph.Loop
import Ralph.Text

namespace Ralph.Chunk
open ChatMemory Chat

def parseFenceOpen (line : String) : Option (Option String) :=
  match stripPrefix (trimStart line) "```" with
  | none => none
  | some afterFence =>
    let afterFence := (trim afterFence).toList
    if afterFence = [] then some none
    else some (some (String.ofList (afterFence.takeWhile fun c => !isWhitespace c)))

def isFenceClose (line : String) : Bool := trim line = "```"

/-- A line put behind others, with a newline unless nothing stands in front of it. -/
def appendLine (buffer line : String) : String := (if buffer = "" then "" else buffer ++ "\n") ++ line

def blockChunk (language : Option String) (isDiff : Bool) (content : String) : ParsedChunk :=
  if isDiff then .diff content else .code content language

/-- What is left of the text in `SplitLinesIter`. -/
structure SplitLinesIter where
  text : List Char
  finished : Bool
  emitTrailingEmpty : Bool

def SplitLinesIter.next (s : SplitLinesIter) : Option (String × SplitLinesIter) :=
  if s.finished then none
  else if s.emitTrailingEmpty then some ("", ⟨s.text, true, false⟩)
  else if s.text = [] then none
  else
    match Text.splitOnceText ['\n'] s.text with
    | some (line, rest) => some (Text.chomp (String.ofList line), ⟨rest, false, rest = []⟩)
    | none => some (String.ofList s.text, ⟨[], true, false⟩)

theorem SplitLinesIter.next_cases {s s' : SplitLinesIter} {line : String} (h : s.next = some (line, s')) :
    s.finished = false ∧ (s.emitTrailingEmpty = true ∧ line = "" ∧ s' = ⟨s.text, true, false⟩ ∨
      s.emitTrailingEmpty = false ∧ s.text ≠ [] ∧
        ((∃ before rest, Text.splitOnceText ['\n'] s.text = some (before, rest) ∧
          line = Text.chomp (String.ofList before) ∧ s' = ⟨rest, false, rest = []⟩) ∨
        Text.splitOnceText ['\n'] s.text = none ∧ line = String.ofList s.text ∧ s' = ⟨[], true, false⟩)) := by
  unfold next at h
  split_ifs at h with hfinished hempty htext
  · obtain ⟨rfl, rfl⟩ := Prod.mk.inj (Option.some.inj h)
    exact ⟨by simpa using hfinished, .inl ⟨hempty, rfl, rfl⟩⟩
  · refine ⟨by simpa using hfinished, .inr ⟨by simpa using hempty, htext, ?_⟩⟩
    split at h
    · next before rest hsplit =>
      obtain ⟨rfl, rfl⟩ := Prod.mk.inj (Option.some.inj h)
      exact .inl ⟨before, rest, hsplit, rfl, rfl⟩
    · next hsplit =>
      obtain ⟨rfl, rfl⟩ := Prod.mk.inj (Option.some.inj h)
      exact .inr ⟨hsplit, rfl, rfl⟩

/-- A bound on the lines still to come: the newline at the end stands for one more. -/
def SplitLinesIter.bound (s : SplitLinesIter) : ℕ :=
  2 * s.text.length + (if s.emitTrailingEmpty then 1 else 0) + if s.finished then 0 else 1

/-- The lines of the iterator, one round for each. -/
def splitLinesBody : Loop.Body (List String × SplitLinesIter) (List String) where
  step s :=
    match s.2.next with
    | some (line, rest) => .inl (s.1 ++ [line], rest)
    | none => .inr s.1
  measure s := s.2.bound
  decreases s s' hs := by
    split at hs
    · next line rest hnext =>
      obtain rfl := Sum.inl.inj hs
      obtain ⟨hfinished, ⟨hempty, -, rfl⟩ | ⟨hempty, htext, ⟨before, after, hsplit, -, rfl⟩ | ⟨-, -, rfl⟩⟩⟩ :=
        SplitLinesIter.next_cases hnext
      · simp [SplitLinesIter.bound, hfinished, hempty]
      · have hlen := congrArg List.length (Text.eq_of_splitOnceText hsplit)
        simp only [List.length_append, List.length_singleton] at hlen
        simp only [SplitLinesIter.bound, hfinished, hempty, Bool.false_eq_true, if_false]
        split_ifs <;> omega
      · simp [SplitLinesIter.bound, hfinished]
    · exact absurd hs (by simp)

def splitLinesPreserveTrailing (text : String) : List String :=
  splitLinesBody.run ([], ⟨text.toList, false, false⟩)

inductive BufferState
  | prose
  | code (language : Option String) (isDiff : Bool)
  deriving DecidableEq, Repr

structure StreamingChunkBuffer where
  state : BufferState
  buffer : String
  proseBufferThreshold : ℕ
  bufferedProseLines : ℕ
  deriving DecidableEq, Repr

namespace StreamingChunkBuffer

def withProseThreshold (threshold : ℕ) : StreamingChunkBuffer := ⟨.prose, "", threshold, 0⟩

def flushProseBuffer (s : StreamingChunkBuffer) : List ParsedChunk × StreamingChunkBuffer :=
  if s.bufferedProseLines = 0 ∨ s.buffer = "" then ([], s)
  else ([.prose s.buffer], { s with buffer := "", bufferedProseLines := 0 })

def accumulateProseLine (s : StreamingChunkBuffer) (line : String) :
    List ParsedChunk × StreamingChunkBuffer :=
  let s := { s with buffer := appendLine s.buffer line, bufferedProseLines := s.bufferedProseLines + 1 }
  if s.proseBufferThreshold ≤ s.bufferedProseLines then s.flushProseBuffer else ([], s)

def startCodeBlock (s : StreamingChunkBuffer) (language : Option String) :
    List ParsedChunk × StreamingChunkBuffer :=
  let (result, s) := s.flushProseBuffer
  (result, { s with state := .code language (language = some "diff"), buffer := "" })

def closeCodeBlock (s : StreamingChunkBuffer) : List ParsedChunk × StreamingChunkBuffer :=
  match s.state with
  | .code language isDiff => ([blockChunk language isDiff s.buffer], { s with state := .prose, buffer := "" })
  | .prose => ([], s)

def processLine (s : StreamingChunkBuffer) (line : String) : List ParsedChunk × StreamingChunkBuffer :=
  match s.state with
  | .prose =>
    match parseFenceOpen line with
    | some language => s.startCodeBlock language
    | none => if s.proseBufferThreshold = 0 then ([.prose line], s) else s.accumulateProseLine line
  | .code _ _ =>
    if isFenceClose line then s.closeCodeBlock
    else ([], { s with buffer := appendLine s.buffer line })

def finish (s : StreamingChunkBuffer) : List ParsedChunk × StreamingChunkBuffer :=
  let (result, s) := match s.state with
    | .prose => s.flushProseBuffer
    | .code _ _ => if s.buffer ≠ "" then s.closeCodeBlock else ([], s)
  (result, { s with state := .prose, buffer := "", bufferedProseLines := 0 })

/-- The lines one by one and then the end. -/
def feed (s : StreamingChunkBuffer) : List String → List ParsedChunk × StreamingChunkBuffer
  | [] => s.finish
  | line :: lines =>
    let (chunks, s) := s.processLine line
    let (rest, s) := s.feed lines
    (chunks ++ rest, s)

end StreamingChunkBuffer

structure BatchState where
  chunks : List ParsedChunk
  currentProse : String
  inCodeBlock : Bool
  codeBlockContent : String
  codeBlockLanguage : Option String
  isDiffBlock : Bool

namespace BatchState

def start : BatchState := ⟨[], "", false, "", none, false⟩

def flushProse (s : BatchState) : BatchState :=
  if s.currentProse = "" then s
  else { s with chunks := s.chunks ++ [.prose s.currentProse], currentProse := "" }

def emitCodeBlock (s : BatchState) : BatchState :=
  { s with
    chunks := s.chunks ++ [blockChunk s.codeBlockLanguage s.isDiffBlock s.codeBlockContent]
    codeBlockContent := ""
    codeBlockLanguage := if s.isDiffBlock then s.codeBlockLanguage else none }

def readLine (s : BatchState) (line : String) : BatchState :=
  if !s.inCodeBlock then
    match parseFenceOpen line with
    | some language =>
      { s.flushProse with
        inCodeBlock := true, isDiffBlock := language = some "diff", codeBlockLanguage := language
        codeBlockContent := "" }
    | none => { s with currentProse := appendLine s.currentProse line }
  else if isFenceClose line then { s.emitCodeBlock with inCodeBlock := false, isDiffBlock := false }
  else { s with codeBlockContent := appendLine s.codeBlockContent line }

end BatchState

def parseChunks (text : String) : List ParsedChunk :=
  let s := (Text.lines text).foldl BatchState.readLine .start
  let s := if s.inCodeBlock ∧ s.codeBlockContent ≠ "" then s.emitCodeBlock else s
  s.flushProse.chunks

end Ralph.Chunk
