import Ralph.ChatMemory.Basic
import Ralph.Fallible
import Ralph.Loop

namespace Ralph.ChatMemory
open Fallible

def budgetMin : ℕ := 1
def budgetMax : ℕ := 16384
def bytesPerToken : ℕ := 3

inductive Mode
  | raw
  | summary
  deriving DecidableEq, Repr

namespace Mode

def marker : Mode → Char
  | .raw => 'r'
  | .summary => 's'

def name : Mode → String
  | .raw => "raw"
  | .summary => "summary"

end Mode

/-- The next character of a paged read: character `offset` of entry `next`, up to entry `end`. -/
structure Cursor where
  next : ℕ
  offset : ℕ
  stop : ℕ
  mode : Mode
  deriving DecidableEq, Repr

def Cursor.encode (c : Cursor) : String := s!"{c.next}.{c.offset}@{c.stop}{c.mode.marker}"

structure RangeRequest where
  from_ : ℕ
  to_ : ℕ
  mode : Mode
  budget : ℕ
  cursor : Option Cursor
  deriving DecidableEq, Repr

structure RangePage where
  blocks : List String
  next : Option Cursor
  deriving DecidableEq, Repr

namespace RangePage

def text (page : RangePage) : String := "\n\n".intercalate page.blocks

def render (page : RangePage) : String :=
  match page.next with
  | some cursor => s!"{page.text}\n\nnext cursor: {cursor.encode}"
  | none => s!"{page.text}\n\n(end of range)"

end RangePage

/-- `more`: the page needs an entry past the window. -/
inductive Read
  | page (page : RangePage)
  | more
  deriving DecidableEq, Repr

/-- `UNAVAILABLE_MARK.trim_end()`. -/
def unavailableText : String := "[not summarized]"

def viewText (entry : Entry) (tree : Tree) (index : ℕ) (mode : Mode) : String :=
  if mode = .raw ∨ entry.text.utf8ByteSize ≤ summaryBytes then entry.text
  else (tree (Node.leaf index)).getD unavailableText

/-- The part of an entry's text from character `offset` on. -/
structure Slice where
  index : ℕ
  entry : Entry
  total : ℕ
  offset : ℕ

namespace Slice

def header (s : Slice) (count : ℕ) : String :=
  let base := s!"#{s.index} · {s.entry.role.asStr} · {s.entry.at_} · {s.total} chars"
  if s.offset = 0 ∧ count = s.total then base
  else s!"{base} · chars {s.offset + 1}-{s.offset + count}"

def block (s : Slice) (text : String) (count : ℕ) : String :=
  let part := String.ofList ((text.toList.drop s.offset).take count)
  s!"{s.header count}\n{part}"

/-- The `take_while` of `fitting_chars`, with the bytes used so far. -/
def fitting (room : ℕ) : ℕ → List Char → ℕ
  | _, [] => 0
  | used, c :: cs => if used + c.utf8Size ≤ room then fitting room (used + c.utf8Size) cs + 1 else 0

def fittingChars (s : Slice) (text : String) (room : ℕ) : ℕ :=
  fitting room 0 (text.toList.drop s.offset)

end Slice

structure CursorBounds where
  from_ : ℕ
  limit : ℕ
  len : ℕ
  mode : Mode

def validateCursor (cursor : Cursor) (bounds : CursorBounds) : Except String Unit :=
  if cursor.mode ≠ bounds.mode then
    .error s!"cursor {cursor.encode} was issued in {cursor.mode.name} mode but this read uses {bounds.mode.name} mode. Pass mode {cursor.mode.name}, or restart without a cursor."
  else if cursor.stop > bounds.len ∨ cursor.stop > bounds.limit then
    .error s!"cursor {cursor.encode} is stale: its end is past the requested range or the chat."
  else if cursor.next < bounds.from_ ∨ cursor.next ≥ cursor.stop then
    .error s!"cursor {cursor.encode} is outside the range {bounds.from_}-{bounds.limit - 1}."
  else .ok ()

/-- The locals of the page loop. -/
structure Page where
  cursor : Cursor
  left : ℕ
  blocks : List String

namespace Page

def finish (p : Page) : Except String Read :=
  .ok (.page ⟨p.blocks, if p.cursor.next < p.cursor.stop then some p.cursor else none⟩)

/-- The cursor after the rest of its entry is shown. -/
def nextEntry (c : Cursor) : Cursor := { c with next := c.next + 1, offset := 0 }

/-- The page after a block of `count` characters, up to the end of the entry's text or not. -/
def showPart (p : Page) (slice : Slice) (text : String) (count : ℕ) : Page :=
  let remaining := slice.total - p.cursor.offset
  let cursor := if count = remaining then nextEntry p.cursor
    else { p.cursor with offset := p.cursor.offset + count }
  ⟨cursor, p.left, p.blocks ++ [slice.block text count]⟩

/-- One round of the page loop over an entry of the window. -/
def roundOf (entry : Entry) (text : String) (p : Page) : Page ⊕ Except String Read :=
  let total := text.length
  if p.cursor.offset > 0 ∧ p.cursor.offset ≥ total then
    .inr (.error s!"cursor {p.cursor.encode} is stale: #{p.cursor.next} has only {total} chars in this mode.")
  else
    let slice : Slice := ⟨p.cursor.next, entry, total, p.cursor.offset⟩
    let remaining := total - p.cursor.offset
    let whole := slice.block text remaining
    if whole.utf8ByteSize ≤ p.left ∨ (p.blocks = [] ∧ remaining = 0) then
      .inl ⟨nextEntry p.cursor, p.left - (whole.utf8ByteSize + 2), p.blocks ++ [whole]⟩
    else
      let overhead := (slice.header (remaining - 1)).utf8ByteSize + 1
      let fit := slice.fittingChars text (p.left - overhead)
      if fit = 0 ∧ p.blocks ≠ [] then .inr p.finish
      else
        -- the first entry of a page always shows a character
        let count := if fit = 0 then 1 else fit
        .inr (p.showPart slice text count).finish

def round (window : Window) (tree : Tree) (mode : Mode) (p : Page) : Page ⊕ Except String Read :=
  if p.cursor.next < p.cursor.stop then
    match window.get p.cursor.next with
    | none => .inr (.ok .more)
    | some entry => roundOf entry (viewText entry tree p.cursor.next mode) p
  else .inr p.finish

theorem roundOf_inl {entry : Entry} {text : String} {p q : Page} (h : roundOf entry text p = .inl q) :
    q.cursor = nextEntry p.cursor := by
  unfold roundOf at h
  simp only at h
  split_ifs at h with h1 h2
  simp only [Sum.inl.injEq] at h
  rw [← h]

/-- A round that goes on shows the rest of one entry. -/
theorem round_inl {window : Window} {tree : Tree} {mode : Mode} {p q : Page}
    (h : round window tree mode p = .inl q) :
    p.cursor.next < p.cursor.stop ∧ q.cursor = nextEntry p.cursor := by
  unfold round at h
  split_ifs at h with hlt
  split at h
  · cases h
  · exact ⟨hlt, roundOf_inl h⟩

/-- The `while` loop of `read_range`. -/
def body (window : Window) (tree : Tree) (mode : Mode) : Loop.Body Page (Except String Read) where
  step := round window tree mode
  measure p := p.cursor.stop - p.cursor.next
  decreases p q h := by
    obtain ⟨hlt, hq⟩ := round_inl h
    simp only [hq, nextEntry]
    omega

end Page

/-- The entry after the last one that a read of `to_` shows. `to + 1` saturates at `usize::MAX`,
which is no shorter than any chat. -/
def rangeLimit (to_ len : ℕ) : ℕ := min (to_ + 1) len

/-- The cursor that a read starts from. -/
def startCursor (request : RangeRequest) (len : ℕ) : Except String Cursor :=
  let limit := rangeLimit request.to_ len
  match request.cursor with
  | none => .ok ⟨request.from_, 0, limit, request.mode⟩
  | some c => do
    validateCursor c ⟨request.from_, limit, len, request.mode⟩
    pure c

/-- The checks of `read_range` before its loop, and the cursor they lead to. -/
def checkRequest (request : RangeRequest) (len : ℕ) : Except String Cursor :=
  if request.from_ > request.to_ then
    .error s!"range {request.from_}-{request.to_} is backwards."
  else if request.from_ ≥ len then
    .error s!"#{request.from_} is beyond the chat: it holds {len} entries."
  else if ¬(budgetMin ≤ request.budget ∧ request.budget ≤ budgetMax) then
    .error s!"budget {request.budget} is out of range. Use {budgetMin} to {budgetMax} tokens."
  else startCursor request len

def readRange (window : Window) (tree : Tree) (request : RangeRequest) : Except String Read := do
  let cursor ← checkRequest request window.total
  (Page.body window tree request.mode).run ⟨cursor, request.budget * bytesPerToken, []⟩

end Ralph.ChatMemory
