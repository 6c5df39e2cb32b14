import Ralph.Chat.Args
import Ralph.Text

namespace Ralph.Chat
open ChatMemory

structure Cell where
  runtime : String
  code : String
  deriving DecidableEq, Repr

structure Fence where
  openLine : ℕ
  closeLine : ℕ
  runtime : Option String
  code : String
  deriving DecidableEq, Repr

/-- Three backticks or more at the start of a line: how many, and what follows them. -/
def backtickRun (line : String) : Option (ℕ × String) :=
  let trimmed := (trimStart line).toList
  let ticks := (trimmed.takeWhile (· = '`')).length
  if 3 ≤ ticks then some (ticks, trim (String.ofList (trimmed.drop ticks))) else none

def cellRuntime (info : String) : Option String :=
  match stripPrefix info "!" with
  | none => none
  | some runtime =>
    if runtime ≠ "" ∧ !runtime.toList.any isWhitespace then some runtime else none

/-- The line ends a fence that was opened with `ticks` backticks. -/
def closes (ticks : ℕ) (line : String) : Bool :=
  (backtickRun line).any fun (run, rest) => ticks ≤ run && rest = ""

theorem length_lt_of_dropWhile {α : Type*} {p : α → Bool} {x y : α} {xs ys : List α}
    (h : xs.dropWhile p = y :: ys) : ys.length < (x :: xs).length := by
  have hle := (List.dropWhile_sublist p (l := xs)).length_le
  rw [h, List.length_cons] at hle
  rw [List.length_cons]
  omega

/-- The loop of `fences` from a line number on. An opening line that nothing closes ends it. -/
def fencesFrom (index : ℕ) : List String → List Fence
  | [] => []
  | line :: rest =>
    match backtickRun line with
    | none => fencesFrom (index + 1) rest
    | some (ticks, info) =>
      let code := rest.takeWhile fun l => !closes ticks l
      match h : rest.dropWhile fun l => !closes ticks l with
      | [] => []
      | _ :: after =>
        { openLine := index, closeLine := index + 1 + code.length, runtime := cellRuntime info,
          code := "\n".intercalate code } :: fencesFrom (index + code.length + 2) after
termination_by lines => lines.length
decreasing_by
  · simp
  · exact length_lt_of_dropWhile h

def fences (message : String) : List Fence := fencesFrom 0 (Text.lines message)

def fenceCells (found : List Fence) : List Cell :=
  found.filterMap fun fence => fence.runtime.map fun runtime => { runtime, code := fence.code }

def parseCells (message : String) : List Cell := fenceCells (fences message)

/-- `str::trim_end_matches(['\n', '\r'])`. -/
def trimNewlines (s : String) : String :=
  String.ofList (s.toList.rdropWhile fun c => c = '\n' || c = '\r')

def shellCell (body : String) : String :=
  let body := trimNewlines body
  let longest := ((Text.lines body).map fun line =>
    ((trimStart line).toList.takeWhile (· = '`')).length).foldl max 0
  let fence := String.ofList (List.replicate (max (longest + 1) 3) '`')
  s!"{fence}!shell\n{body}\n{fence}"

def expand (message : String) : String :=
  match bang message with
  | .send body | .local_ body => shellCell body
  | .plain => message

/-- The cells that `prepare` runs before it sends a message. -/
def preparedCells (message : String) : List Cell := parseCells (expand message)

theorem dropWhile_concat {p : Char → Bool} {c : Char} (h : p c = true) (cs : List Char) :
    (cs ++ [c]).dropWhile p = if cs.dropWhile p = [] then [] else cs.dropWhile p ++ [c] := by
  rw [List.dropWhile_append]
  cases hcs : cs.dropWhile p <;> simp [h]

theorem trimChars_concat {c : Char} (h : isWhitespace c = true) (cs : List Char) :
    trimChars (cs ++ [c]) = trimChars cs := by
  rw [trimChars, trimChars, dropWhile_concat h]
  split_ifs with hcs
  · rw [hcs]
  · exact List.rdropWhile_concat_pos _ _ _ h

/-- Whitespace at the end of a line is nothing to it. -/
theorem backtickRun_concat {c : Char} (h : isWhitespace c = true) (cs : List Char) :
    backtickRun (String.ofList (cs ++ [c])) = backtickRun (String.ofList cs) := by
  have hticks : ∀ x : List Char, (x ++ [c]).takeWhile (· = '`') = x.takeWhile (· = '`') := by
    intro x
    have hc : c ≠ '`' := by
      rintro rfl
      exact absurd h (by decide)
    rw [List.takeWhile_append]
    split_ifs with hall
    · rw [List.takeWhile_cons_of_neg (by simpa using hc), List.append_nil]
      exact ((List.takeWhile_sublist _).eq_of_length hall).symm
    · rfl
  by_cases hnil : cs.dropWhile isWhitespace = []
  · simp only [backtickRun, trimStart, String.toList_ofList, dropWhile_concat h, hnil, if_true]
  · have hle := (List.takeWhile_sublist (· = '`') (l := cs.dropWhile isWhitespace)).length_le
    simp only [backtickRun, trimStart, String.toList_ofList, dropWhile_concat h, hnil, if_false,
      hticks, List.drop_append_of_le_length hle, trim, trimChars_concat h]

/-- A carriage return at the end of a line is whitespace to it. -/
theorem backtickRun_chomp (line : String) : backtickRun (Text.chomp line) = backtickRun line := by
  unfold Text.chomp
  split_ifs with hcr
  · obtain ⟨cs, hcs⟩ := List.getLast?_eq_some_iff.1 hcr
    obtain rfl : line = String.ofList (cs ++ ['\r']) := by rw [← hcs, String.ofList_toList]
    have hpop : Text.pop (String.ofList (cs ++ ['\r'])) = String.ofList cs := by
      simp only [Text.pop, String.toList_ofList, List.dropLast_concat]
    rw [hpop, backtickRun_concat (by decide)]
  · rfl

/-- The runtimes of the fences, from the lines of backticks alone. -/
def runtimesOf : List (ℕ × String) → List (Option String)
  | [] => []
  | (ticks, info) :: rest =>
    match _h : rest.dropWhile fun m => !(ticks ≤ m.1 && m.2 = "") with
    | [] => []
    | _ :: after => cellRuntime info :: runtimesOf after
termination_by marks => marks.length
decreasing_by exact length_lt_of_dropWhile _h

theorem filterMap_dropWhile {α β : Type*} {f : α → Option β} {p : α → Bool} {q : β → Bool}
    (h : ∀ a, p a = (f a).all q) (xs : List α) :
    (xs.dropWhile p = [] ↔ (xs.filterMap f).dropWhile q = []) ∧
      (xs.dropWhile p).tail.filterMap f = ((xs.filterMap f).dropWhile q).tail := by
  induction xs with
  | nil => simp
  | cons x xs ih =>
    have hx := h x
    rw [List.dropWhile_cons, List.filterMap_cons]
    cases hfx : f x with
    | none =>
      rw [hfx] at hx
      rw [if_pos (by rw [hx]; rfl)]
      exact ih
    | some b =>
      rw [hfx, Option.all_some] at hx
      dsimp only
      rw [List.dropWhile_cons, hx]
      split_ifs
      · exact ih
      · simp

/-- Which runtimes the fences name depends on the lines of backticks only. -/
theorem runtime_fencesFrom (index : ℕ) (lines : List String) :
    (fencesFrom index lines).map (·.runtime) = runtimesOf (lines.filterMap backtickRun) := by
  -- on the number of lines: a fence takes all up to its end
  induction hn : lines.length using Nat.strong_induction_on generalizing index lines with
  | _ n ih =>
    subst hn
    cases lines with
    | nil => simp [fencesFrom, runtimesOf]
    | cons line rest =>
      rw [fencesFrom]
      cases hline : backtickRun line with
      | none =>
        rw [List.filterMap_cons_none hline]
        exact ih rest.length (by simp) _ rest rfl
      | some mark =>
        obtain ⟨ticks, info⟩ := mark
        rw [List.filterMap_cons_some hline, runtimesOf]
        have hmarks : ∀ l, (!closes ticks l) =
            (backtickRun l).all fun m => !(decide (ticks ≤ m.1) && decide (m.2 = "")) := fun l => by
          unfold closes
          cases backtickRun l <;> rfl
        obtain ⟨hnil, htail⟩ := filterMap_dropWhile hmarks rest
        dsimp only
        split
        · next hdrop =>
          split
          · rfl
          · next hdrop' =>
            rw [hnil.1 hdrop] at hdrop'
            cases hdrop'
        · next c after hdrop =>
          split
          · next hdrop' =>
            rw [hnil.2 hdrop'] at hdrop
            cases hdrop
          · next c' after' hdrop' =>
            rw [hdrop, hdrop', List.tail_cons, List.tail_cons] at htail
            rw [List.map_cons, ih after.length (length_lt_of_dropWhile hdrop) _ after rfl, htail]

/-- No fence among the lines is a cell. -/
def Quiet (lines : List String) : Prop := fenceCells (fencesFrom 0 lines) = []

instance (lines : List String) : Decidable (Quiet lines) := by
  unfold Quiet
  infer_instance

@[simp] theorem quiet_nil : Quiet [] := by simp [Quiet, fencesFrom, fenceCells]

/-- The lines of backticks of a text. -/
def marks (text : String) : List (ℕ × String) := (Text.lines text).filterMap backtickRun

theorem fenceCells_eq_nil_iff (index : ℕ) (lines : List String) :
    fenceCells (fencesFrom index lines) = [] ↔
      ∀ runtime ∈ runtimesOf (lines.filterMap backtickRun), runtime = none := by
  rw [← runtime_fencesFrom index]
  simp [fenceCells]

theorem quiet_iff (lines : List String) :
    Quiet lines ↔ ∀ runtime ∈ runtimesOf (lines.filterMap backtickRun), runtime = none :=
  fenceCells_eq_nil_iff 0 lines

theorem parseCells_eq_nil_iff (text : String) :
    parseCells text = [] ↔ ∀ runtime ∈ runtimesOf (marks text), runtime = none :=
  fenceCells_eq_nil_iff 0 _

/-- The lines of backticks in the part of a text. -/
def partMark : List Char → Option (ℕ × String) := backtickRun ∘ String.ofList

theorem marks_eq (text : String) : marks text = (Text.parts text).filterMap partMark := by
  have hempty : backtickRun "" = none := by simp [backtickRun, trimStart]
  rw [marks, Text.lines_eq, Text.filterMap_ended backtickRun_chomp hempty, partMark]

theorem marks_newline (a b : String) : marks (a ++ "\n" ++ b) = marks a ++ marks b := by
  rw [marks_eq, marks_eq, marks_eq, Text.parts_newline, List.filterMap_append]

theorem marks_intercalate (items : List String) :
    marks ("\n".intercalate items) = items.flatMap marks := by
  induction items with
  | nil => simp [marks_eq, Text.parts, partMark, backtickRun, trimStart]
  | cons item items ih =>
    cases items with
    | nil => simp
    | cons next items =>
      rw [String.intercalate_cons_cons, marks_newline, ih, List.flatMap_cons (x := item)]

/-- The lines of a text after its first one. -/
def moreLines (text : String) : List String := (Text.lines text).tail

/-- The lines of backticks after the first line. -/
def moreMarks (text : String) : List (ℕ × String) := (moreLines text).filterMap backtickRun

theorem moreMarks_eq (text : String) :
    moreMarks text = (Text.parts text).tail.filterMap partMark := by
  have hempty : backtickRun "" = none := by simp [backtickRun, trimStart]
  obtain ⟨p, ps, hps⟩ := List.exists_cons_of_ne_nil (Text.parts_ne_nil text)
  rw [moreMarks, moreLines, Text.lines_eq, hps]
  cases ps with
  | nil =>
    rw [Text.tail_ended_singleton]
    rfl
  | cons q ps =>
    rw [Text.ended_cons_cons, List.tail_cons, List.tail_cons,
      Text.filterMap_ended backtickRun_chomp hempty, partMark]

/-- A text that stays on its line and starts it with something else than a backtick. -/
structure Opener (text : String) : Prop where
  newline : Text.OneLine text
  head : ∃ c ∈ text.toList.dropWhile isWhitespace |>.head?, c ≠ '`'

theorem opener_of_head {text : String} {c : Char} (hline : Text.OneLine text)
    (hhead : (text.toList.dropWhile isWhitespace).head? = some c) (hne : c ≠ '`') : Opener text :=
  ⟨hline, c, hhead, hne⟩

theorem Opener.append {a b : String} (ha : Opener a) (hb : Text.OneLine b) : Opener (a ++ b) := by
  refine ⟨ha.newline.append hb, ?_⟩
  obtain ⟨c, hc, hne⟩ := ha.head
  obtain ⟨cs, hcs⟩ := List.head?_eq_some_iff.1 hc
  refine ⟨c, ?_, hne⟩
  rw [String.toList_append, List.dropWhile_append, hcs]
  simp

theorem Opener.partMark_append {text : String} (h : Opener text) (p : List Char) :
    partMark (text.toList ++ p) = none := by
  obtain ⟨c, hc, hne⟩ := h.head
  obtain ⟨cs, hcs⟩ := List.head?_eq_some_iff.1 hc
  have hdrop : (text.toList ++ p).dropWhile isWhitespace = c :: cs ++ p := by
    rw [List.dropWhile_append, hcs]
    rfl
  simp [partMark, backtickRun, trimStart, hdrop, hne]

/-- What follows an opener is on a line of its own only after a newline. -/
theorem Opener.marks_append {text : String} (h : Opener text) (s : String) :
    marks (text ++ s) = moreMarks s := by
  obtain ⟨p, ps, hps⟩ := List.exists_cons_of_ne_nil (Text.parts_ne_nil s)
  rw [marks_eq, moreMarks_eq, Text.parts_append h.newline, hps]
  simp [h.partMark_append]

theorem Opener.marks_eq_nil {text : String} (h : Opener text) {s : String}
    (hs : Text.OneLine s) : marks (text ++ s) = [] := by
  rw [h.marks_append, moreMarks_eq, Text.parts_of_notMem hs]
  rfl

theorem Opener.marks_self {text : String} (h : Opener text) : marks text = [] := by
  have hself := h.marks_eq_nil (s := "") (by decide)
  rwa [String.append_empty] at hself

end Ralph.Chat
