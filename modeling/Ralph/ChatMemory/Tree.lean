import Ralph.ChatMemory.Basic
import Ralph.Loop

namespace Ralph.ChatMemory

/-- `char::is_whitespace`: the Unicode `White_Space` property. -/
def isWhitespace (c : Char) : Bool :=
  let n := c.toNat
  (9 ≤ n && n ≤ 13) || n == 0x20 || n == 0x85 || n == 0xA0 || n == 0x1680 ||
    (0x2000 ≤ n && n ≤ 0x200A) || n == 0x2028 || n == 0x2029 || n == 0x202F || n == 0x205F ||
    n == 0x3000

def splitWhitespace (text : String) : List String :=
  ((text.toList.splitOnP isWhitespace).filter (· ≠ [])).map String.ofList

def isLong (entry : Entry) : Bool := entry.text.utf8ByteSize > summaryBytes

/-- How many of the first `i` entries are corrupt, for each `i`. -/
def damagedPrefix (entries : List Entry) : List ℕ :=
  entries.scanl (fun seen entry => seen + if entry.corrupt then 1 else 0) 0

/-- The long leaves without a summary. -/
def pendingLeaves (entries : List Entry) (tree : Tree) : List Node :=
  ((entries.zipIdx.filter fun (entry, _) => isLong entry).map fun (_, i) => Node.leaf i).filter
    fun n => !tree.containsKey n

/-- The blocks of one size that are inside the log, intact and without a summary. -/
def pendingLevel (entries : List Entry) (tree : Tree) (size : ℕ) : List Node :=
  let damaged := damagedPrefix entries
  ((List.range (entries.length / size)).map fun k => (⟨k * size, (k + 1) * size⟩ : Node)).filter
    fun n => !tree.containsKey n && damaged[n.hi]! == damaged[n.lo]!

/-- The `while` loop of `pending` over the block sizes. -/
def pendingBody (entries : List Entry) (tree : Tree) :
    Loop.Body (List Node × {size : ℕ // 0 < size}) (List Node) where
  step := fun (todo, size) =>
    if size.1 ≤ entries.length then
      .inl (todo ++ pendingLevel entries tree size, ⟨size * 2, double_pos size⟩)
    else .inr todo
  measure := fun (_, size) => entries.length + 1 - size
  decreases := by
    rintro ⟨todo, size⟩ ⟨todo', size'⟩ h
    have hpos := size.2
    simp only at h
    split_ifs at h with hle
    obtain ⟨-, rfl⟩ := Prod.mk.injEq .. ▸ Sum.inl.inj h
    simp only
    omega

/-- The nodes that a nap summarizes, children before parents. -/
def pending (entries : List Entry) (tree : Tree) : List Node :=
  (pendingBody entries tree).run (pendingLeaves entries tree, ⟨2, two_pos⟩)

def collapse (text : String) : String := " ".intercalate (splitWhitespace text)

def entryLine (i : ℕ) (entry : Entry) (body : String) : String :=
  s!"#{i} {entry.role.asStr} {entry.at_} {body}"

def leafLine (i : ℕ) (entry : Entry) (tree : Tree) : Option String :=
  if isLong entry then (tree (Node.leaf i)).map (entryLine i entry)
  else some (entryLine i entry (collapse entry.text))

def blockLine (tree : Tree) (node : Node) : Option String :=
  (tree node).map fun s => s!"#{node.id} {s}"

def nodeLine (entries : List Entry) (tree : Tree) (node : Node) : Option String :=
  if node.size = 1 then leafLine node.lo entries[node.lo]! tree else blockLine tree node

theorem nodeLine_leaf (entries : List Entry) (tree : Tree) (i : ℕ) :
    nodeLine entries tree (Node.leaf i) = leafLine i entries[i]! tree := if_pos (Node.size_leaf i)

theorem nodeLine_block (entries : List Entry) (tree : Tree) (k m : ℕ) :
    nodeLine entries tree (Node.block (k + 1) m) = blockLine tree (Node.block (k + 1) m) := by
  refine if_neg ?_
  rw [Node.size_block]
  exact (Nat.one_lt_two_pow (Nat.succ_ne_zero k)).ne'

theorem getElem!_append {entries : List Entry} (more : List Entry) {i : ℕ} (hi : i < entries.length) :
    (entries ++ more)[i]! = entries[i]! := by
  simp only [List.getElem!_eq_getElem?_getD, List.getElem?_append_left hi]

theorem nodeLine_append {entries : List Entry} (more : List Entry) (tree : Tree) {node : Node}
    (hnode : node.lo < entries.length) :
    nodeLine (entries ++ more) tree node = nodeLine entries tree node := by
  rw [nodeLine, nodeLine, getElem!_append more hnode]

/-- Only a long entry needs a summary for its line. -/
theorem exists_leafLine {i : ℕ} {entry : Entry} {tree : Tree}
    (h : isLong entry → ∃ text, tree (Node.leaf i) = some text) :
    ∃ line, leafLine i entry tree = some line := by
  unfold leafLine
  by_cases hlong : isLong entry
  · obtain ⟨text, htext⟩ := h hlong
    exact ⟨entryLine i entry text, by rw [if_pos hlong, htext]; rfl⟩
  · exact ⟨_, if_neg hlong⟩

end Ralph.ChatMemory
