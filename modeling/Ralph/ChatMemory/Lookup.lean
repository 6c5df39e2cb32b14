import Ralph.ChatMemory.Tree
import Ralph.Fallible

namespace Ralph.ChatMemory
open Fallible

/-- Entries that `zoom` reads: the leaf itself, or both leaves of a pair. -/
def zoomEntries (node : Node) (total : ℕ) : ℕ × ℕ :=
  let start := min node.lo total
  let stop := if node.size ≤ 2 then min node.hi total else start
  (start, stop)

def zoomEntry (window : Window) (i : ℕ) : Except String Entry :=
  match window.get i with
  | some entry => .ok entry
  | none => .error s!"#{i} is not loaded."

def zoomHalf (window : Window) (tree : Tree) (half : Node) : Except String String := do
  let line ← if half.size = 1 then do
      let entry ← zoomEntry window half.lo
      pure (leafLine half.lo entry tree)
    else pure (blockLine tree half)
  pure (line.getD s!"#{half.id} not compressed yet")

def zoom (window : Window) (tree : Tree) (node : Node) : Except String (List String) :=
  let t := window.total
  if node.lo ≥ t then .error s!"#{node.id} is beyond the chat: it holds {t} entries."
  else if node.size = 1 then do
    let entry ← zoomEntry window node.lo
    pure [entryLine node.lo entry entry.text]
  else
    let (left, right) := node.halves
    ([left, right].filter fun half => half.lo < t).mapM (zoomHalf window tree)

end Ralph.ChatMemory
