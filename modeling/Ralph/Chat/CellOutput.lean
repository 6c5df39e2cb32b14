import Ralph.CharBoundary
import Ralph.Chat.Cell
import Ralph.Chat.Sanitizer
import Ralph.Fallible

namespace Ralph.Chat
open CharBoundary ChatMemory String

structure CellRun where
  cell : Cell
  exit : Option ℤ
  stdout : String
  stderr : String
  deriving DecidableEq, Repr

structure CellLimits where
  lines : Option ℕ
  bytes : Option ℕ
  deriving DecidableEq, Repr

def apcStart : List Char := [esc, '_', 'G']
def apcEnd : List Char := [esc, '\\']

inductive ApcPiece
  | text (cs : List Char)
  | apc (cs : List Char)
  deriving DecidableEq, Repr

theorem length_splitOnceText {sep cs before after : List Char} (hsep : sep ≠ [])
    (h : Text.splitOnceText sep cs = some (before, after)) : after.length < cs.length := by
  have hpos := List.length_pos_iff.mpr hsep
  rw [Text.eq_of_splitOnceText h, List.length_append, List.length_append]
  omega

/-- The loop of `split_apc` over what is left of the text. -/
def apcBody : Loop.Body (List ApcPiece × List Char) (List ApcPiece) where
  step s :=
    match Text.splitOnceText apcStart s.2 with
    | none => .inr (if s.2 = [] then s.1 else s.1 ++ [.text s.2])
    | some (before, body) =>
      let pieces := if before = [] then s.1 else s.1 ++ [.text before]
      match Text.splitOnceText apcEnd body with
      -- a sequence without its end is left out
      | none => .inr pieces
      | some (inside, rest) => .inl (pieces ++ [.apc (apcStart ++ inside ++ apcEnd)], rest)
  measure s := s.2.length
  decreases s s' hs := by
    split at hs
    · exact absurd hs (by simp)
    · next before body hstart =>
      dsimp only at hs
      split at hs
      · exact absurd hs (by simp)
      · next inside rest hend =>
        rw [← Sum.inl.inj hs]
        exact (length_splitOnceText (by decide) hend).trans (length_splitOnceText (by decide) hstart)

def splitApc (text : List Char) : List ApcPiece := apcBody.run ([], text)

def stripKittyApc (text : String) : String :=
  String.ofList ((splitApc text.toList).flatMap fun piece =>
    match piece with
    | .text cs => cs
    | .apc _ => [])

/-- `while !text.is_char_boundary(at) { at -= 1 }`. -/
def floorBoundary (text : List Char) : ℕ → ℕ
  | 0 => 0
  | at_ + 1 => if isCharBoundary text (at_ + 1) then at_ + 1 else floorBoundary text at_

theorem floorBoundary_spec (text : List Char) (at_ : ℕ) :
    isCharBoundary text (floorBoundary text at_) = true ∧ floorBoundary text at_ ≤ at_ := by
  induction at_ with
  | zero => exact ⟨isCharBoundary_zero text, le_rfl⟩
  | succ at_ ih =>
    rw [floorBoundary]
    split_ifs with h
    · exact ⟨h, le_rfl⟩
    · exact ⟨ih.1, ih.2.trans (Nat.le_succ _)⟩

theorem le_floorBoundary {text : List Char} {i at_ : ℕ} (hi : i ≤ at_) (h : isCharBoundary text i = true) :
    i ≤ floorBoundary text at_ := by
  induction at_ with
  | zero => exact hi
  | succ at_ ih =>
    rw [floorBoundary]
    split_ifs with hhere
    · exact hi
    · apply ih
      have hne : i ≠ at_ + 1 := fun heq => hhere (heq ▸ h)
      omega

/-- `str::split_inclusive` on newlines. -/
def splitInclusive : List Char → List (List Char)
  | [] => []
  | c :: cs =>
    if c = '\n' then [c] :: splitInclusive cs
    else
      match splitInclusive cs with
      | [] => [[c]]
      | line :: lines => (c :: line) :: lines

def trimLines (output : String) (limit : ℕ) : String :=
  let lines := splitInclusive output.toList
  if lines.length ≤ limit then output
  else
    let head := limit / 2
    let tail := limit - head
    let first := String.ofList (lines.take head).flatten
    let last := String.ofList (lines.drop (lines.length - tail)).flatten
    s!"{first}… {lines.length - limit} lines trimmed …\n{last}"

/-- `trim_bytes`; `none` is a slice that panics. -/
def trimBytes (output : String) (limit : ℕ) : Option String :=
  let text := output.toList
  if h : utf8Len text ≤ limit then some output
  else
    let headEnd := floorBoundary text (limit / 2)
    let tailStart := nextBoundary text ⟨utf8Len text - (limit - limit / 2), by omega⟩
    let tailStart := max tailStart headEnd
    (sliceTo text headEnd).bind fun head =>
      (sliceFrom text tailStart).map fun tail =>
        s!"{String.ofList head}\n… {tailStart - headEnd} bytes trimmed …\n{String.ofList tail}"

def trimOutput (output : String) (limits : CellLimits) : Option String :=
  let byLines := match limits.lines with
    | some limit => trimLines output limit
    | none => output
  match limits.bytes with
  | some limit => trimBytes byLines limit
  | none => some byLines

theorem slices_boundary {text : List Char} {i : ℕ} (h : isCharBoundary text i = true) :
    (sliceTo text i).isSome ∧ (sliceFrom text i).isSome := by
  obtain ⟨l, r, rfl, rfl⟩ := isCharBoundary_iff.mp h
  obtain ⟨-, hto, hfrom⟩ := slices_append l r
  rw [hto, hfrom]
  exact ⟨rfl, rfl⟩

/-- Whatever the limits, no character is cut. -/
theorem trimOutput_isSome (output : String) (limits : CellLimits) :
    (trimOutput output limits).isSome := by
  have hbytes : ∀ (output : String) (limit : ℕ), (trimBytes output limit).isSome := by
    intro output limit
    unfold trimBytes
    dsimp only
    split_ifs with hfits
    · rfl
    · obtain ⟨hhead, -⟩ := floorBoundary_spec output.toList (limit / 2)
      have htail : isCharBoundary output.toList (max
          (nextBoundary output.toList ⟨utf8Len output.toList - (limit - limit / 2), by omega⟩)
          (floorBoundary output.toList (limit / 2))) = true := by
        obtain h | h := max_choice
          (nextBoundary output.toList ⟨utf8Len output.toList - (limit - limit / 2), by omega⟩)
          (floorBoundary output.toList (limit / 2))
        · rw [h]
          exact (nextBoundary_spec _ _).1
        · rw [h]
          exact hhead
      obtain ⟨head, hto⟩ := Option.isSome_iff_exists.mp (slices_boundary hhead).1
      obtain ⟨tail, hfrom⟩ := Option.isSome_iff_exists.mp (slices_boundary htail).2
      rw [hto, hfrom]
      rfl
  unfold trimOutput
  dsimp only
  split
  · exact hbytes _ _
  · rfl

/-- `line.replacen('!', "", 1)`. -/
def withoutBang (line : String) : String := String.ofList (line.toList.erase '!')

def displayMessage (message : String) : String :=
  let opening := ((fences message).filter fun fence => fence.runtime.isSome).map Fence.openLine
  let shown := opening.foldl (fun shown line => shown.modify line withoutBang) (Text.lines message)
  let trailing := if message.toList.getLast? = some '\n' then "\n" else ""
  "\n".intercalate shown ++ trailing

def fenceFor (text : String) : String :=
  let longest := (((Text.lines text).filterMap backtickRun).map Prod.fst).foldl max 0
  String.ofList (List.replicate (max (longest + 1) 3) '`')

/-- `str::trim_end_matches('\n')`. -/
def trimNewline (s : String) : String := String.ofList (s.toList.rdropWhile (· = '\n'))

def fenced (info body : String) : String :=
  let fence := fenceFor body
  s!"{fence}{info}\n{trimNewline body}\n{fence}"

/-- One of the `stream_blocks`; no block for a stream without output, and `none` is a panic. -/
def streamBlock (limits : CellLimits) (name output : String) : Option (List String) :=
  let output := stripKittyApc output
  if output = "" then some [] else (trimOutput output limits).map fun body => [fenced name body]

def streamBlocks (run : CellRun) (limits : CellLimits) : Option String := do
  let stdout ← streamBlock limits "stdout" run.stdout
  let stderr ← streamBlock limits "stderr" run.stderr
  let blocks := stdout ++ stderr
  return if blocks = [] then "(no output)" else "\n".intercalate blocks

def exitText : Option ℤ → String
  | some code => toString code
  | none => "killed by signal"

/-- What the message says about one run. -/
def resultOf (limits : CellLimits) (index : ℕ) (run : CellRun) : Option String := do
  let exit := exitText run.exit
  let blocks ← streamBlocks run limits
  return s!"[cell {index + 1} · {run.cell.runtime} · exit {exit}]\n{fenced run.cell.runtime run.cell.code}\n{blocks}"

def buildMessage (message : String) (runs : List CellRun) (limits : CellLimits) : Option String := do
  let results ← runs.zipIdx.mapM fun run => resultOf limits run.2 run.1
  let shown := String.ofList (trimEnd (displayMessage message).toList)
  return shown ++ "\n\n" ++ "\n\n".intercalate results

end Ralph.Chat
