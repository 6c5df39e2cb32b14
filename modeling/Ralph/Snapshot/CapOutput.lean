import Ralph.CharIndices
import Ralph.Chat.CellOutput
import Ralph.TextSize

namespace Ralph.Snapshot
open Chat (splitInclusive)
open CharBoundary
open String (utf8Len utf8Len_append)

/-- `str::contains`. -/
def contains (line part : String) : Bool := decide (part.toList <:+: line.toList)

/-- The `scan` over the lines: the bytes up to the end of each. -/
def ends : ℕ → List (List Char) → List ℕ
  | _, [] => []
  | used, line :: lines => (used + utf8Len line) :: ends (used + utf8Len line) lines

end Ralph.Snapshot
