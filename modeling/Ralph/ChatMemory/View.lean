import Ralph.ChatMemory.Nap
import Ralph.ChatMemory.Notice
import Ralph.Splice

namespace Ralph.ChatMemory
open Splice

def olderViewStep : ℕ := 256
def tailStep : ℕ := 32

/-- `usize::next_power_of_two`. -/
def nextPowerOfTwo (t : ℕ) : ℕ := 2 ^ Nat.clog 2 t

/-- The numbers that `alpha` ranges over: `f64` in the program, and exact fractions. -/
class AlphaNumber (A : Type) where
  zero : A
  one : A
  mid : A → A → A
  /-- `size > alpha * n`. -/
  exceeds : (size : ℕ) → (alpha : A) → (n : ℕ) → Bool

instance : AlphaNumber Float where
  zero := 0.0
  one := 1.0
  mid lo hi := (lo + hi) / 2.0
  exceeds size alpha n := decide (size.toFloat > alpha * n.toFloat)

instance : AlphaNumber ℚ where
  zero := 0
  one := 1
  mid lo hi := (lo + hi) / 2
  exceeds size alpha n := decide ((size : ℚ) > alpha * (n : ℚ))

variable {A : Type} [AlphaNumber A]

/-- The loop of `cover_at`; the head of the list is the top of the stack. -/
def coverBody (t : ℕ) (alpha : A) :
    Loop.Body (List (ℕ × ℕ) × List (ℕ × ℕ)) (List (ℕ × ℕ)) where
  step := fun (stack, out) =>
    match stack with
    | [] => .inr out
    | (lo, hi) :: stack =>
      if lo ≥ t then .inl (stack, out)
      else
        let size := hi - lo
        if size > 1 ∧ (hi > t ∨ AlphaNumber.exceeds size alpha (t - hi + 1) = true) then
          let mid := (lo + hi) / 2
          .inl ((lo, mid) :: (mid, hi) :: stack, out)
        else .inl (stack, out ++ [(lo, hi)])
  -- a block of size `s` takes at most `2 s - 1` rounds, and an empty one takes one
  measure := fun (stack, _) => (stack.map fun p => max (2 * (p.2 - p.1) - 1) 1).sum
  decreases := by
    rintro ⟨stack, out⟩ s' h
    rcases stack with _ | ⟨⟨lo, hi⟩, stack⟩
    · cases h
    simp only at h
    split_ifs at h with ht hsplit
    · obtain rfl := Sum.inl.inj h
      simp only [List.map_cons, List.sum_cons]
      omega
    · obtain rfl := Sum.inl.inj h
      have hsize := hsplit.1
      simp only [List.map_cons, List.sum_cons]
      omega
    · obtain rfl := Sum.inl.inj h
      simp only [List.map_cons, List.sum_cons]
      omega

def coverAt (t : ℕ) (alpha : A) : List (ℕ × ℕ) :=
  ((coverBody t alpha).run ([(0, nextPowerOfTwo t)], [])).mergeSort
    fun a b => a.1 < b.1 || (a.1 == b.1 && a.2 ≤ b.2)

/-- The loop of `cover` that spends what is left of the budget: the last block that can be split
is. -/
def fillBody (budget : ℕ) : Loop.Body (List (ℕ × ℕ)) (List (ℕ × ℕ)) where
  step out :=
    if out.length < budget then
      -- the last block of more than one entry is halved
      match rposition (fun p => p.2 - p.1 > 1) out with
      | none => .inr out
      | some i =>
        let (lo, hi) := out[i]!
        let mid := (lo + hi) / 2
        .inl (splice out i (i + 1) [(lo, mid), (mid, hi)])
    else .inr out
  measure out := budget - out.length
  decreases := by
    rintro out out' h
    simp only at h
    split_ifs at h with hlt
    cases hi : rposition (fun p => decide (p.2 - p.1 > 1)) out with
    | none => simp [hi] at h
    | some i =>
      rw [hi] at h
      obtain rfl := Sum.inl.inj h
      obtain ⟨p, hp, -⟩ := getElem?_of_rposition hi
      have hlen := length_splice (List.getElem?_eq_some_iff.mp hp).1
        [(out[i]!.1, (out[i]!.1 + out[i]!.2) / 2), ((out[i]!.1 + out[i]!.2) / 2, out[i]!.2)]
      simp only [List.length_cons, List.length_nil] at hlen
      omega

/-- One halving of the interval that holds the smallest `alpha` whose cover fits. -/
def halve (t budget : ℕ) (range : A × A) : A × A :=
  let mid := AlphaNumber.mid range.1 range.2
  if (coverAt t mid).length > budget then (mid, range.2) else (range.1, mid)

def bisect (A : Type) [AlphaNumber A] (t budget : ℕ) : A × A :=
  (List.range 60).foldl (fun range _ => halve t budget range) (AlphaNumber.zero, AlphaNumber.one)

/-- `cover`, over the numbers that its bisection uses. -/
def coverWith (A : Type) [AlphaNumber A] (t budget : ℕ) : List Node :=
  if t = 0 then []
  else if t ≤ budget then (List.range t).map Node.leaf
  else ((fillBody budget).run (coverAt t (bisect A t budget).2)).map fun (lo, hi) => ⟨lo, hi⟩

def cover (t budget : ℕ) : List Node := coverWith Float t budget

def displayLine (entries : List Entry) (tree : Tree) (node : Node) : String :=
  (nodeLine entries tree node).getD
    (if node.size = 1 then
      let entry := entries[node.lo]!
      entryLine node.lo entry (fallbackSummary entry.text)
    else
      let id := node.id
      s!"#{id} {unavailableMark}zoom {id} for its parts")

def shownNode (entries : List Entry) (tree : Tree) (node : Node) : Shown :=
  if node.size = 1 ∧ entries[node.lo]!.corrupt then .unreadable node.lo
  else .line (displayLine entries tree node)

/-- The node of the highest `lo` that has no line and can be split; `max_by_key` keeps the last. -/
def splitTarget (entries : List Entry) (tree : Tree) (nodes : List Node) : Option Node :=
  (nodes.filter fun node => node.size > 1 && (nodeLine entries tree node).isNone).foldl
    (fun best node =>
      match best with
      | some b => if b.lo ≤ node.lo then some node else some b
      | none => some node) none

/-- The first two neighbours that are the halves of a summarized block. -/
def mergeablePair (tree : Tree) (nodes : List Node) (target : Node) : Option ℕ :=
  (nodes.zip nodes.tail).findIdx? fun (left, right) =>
    left.size == right.size && left.lo % (2 * left.size) == 0 && left.hi == right.lo &&
      left != target && right != target && tree.containsKey ⟨left.lo, right.hi⟩

/-- A block of two entries or more that has no line. -/
def Missing (entries : List Entry) (tree : Tree) (node : Node) : Prop :=
  1 < node.size ∧ nodeLine entries tree node = none

theorem splitTarget_spec (entries : List Entry) (tree : Tree) (nodes : List Node) :
    (splitTarget entries tree nodes = none ∧ ∀ node ∈ nodes, ¬Missing entries tree node) ∨
    ∃ target ∈ nodes, splitTarget entries tree nodes = some target ∧ Missing entries tree target ∧
      ∀ node ∈ nodes, Missing entries tree node → node.lo ≤ target.lo := by
  let candidates := nodes.filter fun node => node.size > 1 && (nodeLine entries tree node).isNone
  have hmem : ∀ node, node ∈ candidates ↔ node ∈ nodes ∧ Missing entries tree node := by
    intro node
    simp [candidates, Missing]
  have hfold : (splitTarget entries tree nodes = none ∧ candidates = []) ∨
      ∃ target ∈ candidates, splitTarget entries tree nodes = some target ∧
        ∀ node ∈ candidates, node.lo ≤ target.lo := by
    apply foldl_max Node.lo
    · exact fun _ => rfl
    · exact fun _ _ => rfl
  obtain ⟨hnone, hnil⟩ | ⟨target, htarget, hsome, hmax⟩ := hfold
  · refine .inl ⟨hnone, fun node hnode hmissing => ?_⟩
    have hin := (hmem node).mpr ⟨hnode, hmissing⟩
    rw [hnil] at hin
    cases hin
  · obtain ⟨hin, hmissing⟩ := (hmem target).mp htarget
    refine .inr ⟨target, hin, hsome, hmissing, fun node hnode h => ?_⟩
    exact hmax node ((hmem node).mpr ⟨hnode, h⟩)

/-- The neighbours of a mergeable pair. -/
theorem mergeablePair_some {tree : Tree} {nodes : List Node} {target : Node} {i : ℕ}
    (h : mergeablePair tree nodes target = some i) :
    ∃ left right, nodes[i]? = some left ∧ nodes[i + 1]? = some right ∧ left.size = right.size ∧
      left.lo % (2 * left.size) = 0 ∧ left.hi = right.lo ∧ left ≠ target ∧ right ≠ target ∧
      tree ⟨left.lo, right.hi⟩ ≠ none := by
  obtain ⟨⟨left, right⟩, hpair, hp⟩ := getElem?_of_findIdx? h
  rw [List.getElem?_zip_eq_some, List.getElem?_tail] at hpair
  simp only [Bool.and_eq_true, beq_iff_eq, bne_iff_ne, Tree.containsKey] at hp
  obtain ⟨⟨⟨⟨⟨hsize, haligned⟩, hadjacent⟩, hleft⟩, hright⟩, htree⟩ := hp
  exact ⟨left, right, hpair.1, hpair.2, hsize, haligned, hadjacent, hleft, hright,
    Option.isSome_iff_ne_none.mp htree⟩

theorem mergeablePair_none {tree : Tree} {nodes : List Node} {target : Node}
    (h : mergeablePair tree nodes target = none) {i : ℕ} {left right : Node}
    (hleft : nodes[i]? = some left) (hright : nodes[i + 1]? = some right)
    (hsize : left.size = right.size) (haligned : left.lo % (2 * left.size) = 0)
    (hadjacent : left.hi = right.lo) (hl : left ≠ target) (hr : right ≠ target) :
    tree ⟨left.lo, right.hi⟩ = none := by
  have hpair : (nodes.zip nodes.tail)[i]? = some (left, right) := by
    rw [List.getElem?_zip_eq_some, List.getElem?_tail]
    exact ⟨hleft, hright⟩
  have hfalse := List.findIdx?_eq_none_iff.mp h _ (List.mem_of_getElem? hpair)
  by_contra hsome
  rw [← ne_eq, ← Option.isSome_iff_ne_none] at hsome
  simp [hsize ▸ haligned, hsize, hadjacent, hl, hr, Tree.containsKey, hsome] at hfalse

/-- Puts the block of a mergeable pair in its place. -/
def mergePair (tree : Tree) (nodes : List Node) (target : Node) : Option (List Node) :=
  (mergeablePair tree nodes target).map fun i =>
    splice nodes i (i + 2) [⟨nodes[i]!.lo, nodes[i + 1]!.hi⟩]

theorem mergePair_some {tree : Tree} {nodes nodes' : List Node} {target : Node}
    (h : mergePair tree nodes target = some nodes') :
    ∃ i left right, nodes[i]? = some left ∧ nodes[i + 1]? = some right ∧ left.size = right.size ∧
      left.lo % (2 * left.size) = 0 ∧ left.hi = right.lo ∧ left ≠ target ∧ right ≠ target ∧
      tree ⟨left.lo, right.hi⟩ ≠ none ∧ nodes' = splice nodes i (i + 2) [⟨left.lo, right.hi⟩] := by
  obtain ⟨i, hi, rfl⟩ := Option.map_eq_some_iff.mp h
  obtain ⟨left, right, hleft, hright, hsize, haligned, hadjacent, hl, hr, htree⟩ :=
    mergeablePair_some hi
  refine ⟨i, left, right, hleft, hright, hsize, haligned, hadjacent, hl, hr, htree, ?_⟩
  rw [List.getElem!_eq_getElem?_getD, List.getElem!_eq_getElem?_getD, hleft, hright]
  rfl

/-- The target of a merge is in neither half, so it stays. -/
theorem mem_mergePair {tree : Tree} {nodes nodes' : List Node} {target : Node}
    (h : mergePair tree nodes target = some nodes') (htarget : target ∈ nodes) :
    target ∈ nodes' := by
  obtain ⟨i, left, right, hleft, hright, -, -, -, hl, hr, -, rfl⟩ := mergePair_some h
  rw [← take_append_drop_two hleft hright] at htarget
  simp only [List.mem_append, List.mem_cons, List.not_mem_nil, or_false] at htarget
  rw [splice, List.mem_append, List.mem_append]
  obtain (hbefore | rfl | rfl) | hafter := htarget
  · exact .inl (.inl hbefore)
  · exact absurd rfl hl
  · exact absurd rfl hr
  · exact .inr hafter

/-- How often a node can still be split for want of a line. -/
def debt (entries : List Entry) (tree : Tree) (node : Node) : ℕ :=
  if nodeLine entries tree node = none then node.size - 1 else 0

theorem debt_halves_lt {entries : List Entry} {tree : Tree} {node : Node} (hsize : 1 < node.size)
    (hline : nodeLine entries tree node = none) :
    debt entries tree node.halves.1 + debt entries tree node.halves.2 < debt entries tree node := by
  have hle : ∀ n, debt entries tree n ≤ n.size - 1 := by
    intro n
    unfold debt
    split_ifs <;> omega
  have hleft := hle node.halves.1
  have hright := hle node.halves.2
  have hnode : debt entries tree node = node.size - 1 := if_pos hline
  simp only [Node.halves, Node.size] at *
  omega

theorem debt_of_tree {entries : List Entry} {tree : Tree} {node : Node} (h : tree node ≠ none) :
    debt entries tree node = 0 := by
  unfold debt
  split_ifs with hline
  · by_cases hsize : node.size = 1
    · omega
    · rw [nodeLine, if_neg hsize, blockLine, Option.map_eq_none_iff] at hline
      exact absurd hline h
  · rfl

theorem debt_mergePair {entries : List Entry} {tree : Tree} {nodes nodes' : List Node}
    {target : Node} (h : mergePair tree nodes target = some nodes') :
    (nodes'.map (debt entries tree)).sum ≤ (nodes.map (debt entries tree)).sum := by
  obtain ⟨i, left, right, hleft, hright, -, -, -, -, -, htree, rfl⟩ := mergePair_some h
  have hsum := sum_splice_two (f := debt entries tree) hleft hright [⟨left.lo, right.hi⟩]
  simp only [List.map_cons, List.map_nil, List.sum_cons, List.sum_nil, debt_of_tree htree] at hsum
  omega

/-- One round of the loop of `view`: a block without a line is split, and to keep the budget the
halves of a summarized block are merged first. -/
def viewStep (entries : List Entry) (tree : Tree) (budget : ℕ) (nodes : List Node) :
    List Node ⊕ List Node :=
  match splitTarget entries tree nodes with
  | none => .inr nodes
  | some target =>
    match if nodes.length ≥ budget then mergePair tree nodes target else some nodes with
    | none => .inr nodes
    | some nodes =>
      match nodes.findIdx? (· == target) with
      | none => .inr nodes
      | some i => .inl (splice nodes i (i + 1) [target.halves.1, target.halves.2])

/-- What a round can do to the nodes: it ends, or it merges a pair when the budget is spent and then
splits the newest block without a line. -/
theorem viewStep_cases (entries : List Entry) (tree : Tree) (budget : ℕ) (nodes : List Node) :
    (viewStep entries tree budget nodes = .inr nodes ∧
      ∀ node ∈ nodes, ¬Missing entries tree node) ∨
    ∃ target ∈ nodes, Missing entries tree target ∧
      (∀ node ∈ nodes, Missing entries tree node → node.lo ≤ target.lo) ∧
      ((viewStep entries tree budget nodes = .inr nodes ∧ budget ≤ nodes.length ∧
          mergeablePair tree nodes target = none) ∨
        ∃ merged i, (merged = nodes ∧ nodes.length < budget ∨
            mergePair tree nodes target = some merged) ∧ merged[i]? = some target ∧
          viewStep entries tree budget nodes =
            .inl (splice merged i (i + 1) [target.halves.1, target.halves.2])) := by
  unfold viewStep
  obtain ⟨hnone, hfull⟩ | ⟨target, hin, hsome, hmissing, hnewest⟩ := splitTarget_spec entries tree nodes
  · rw [hnone]
    exact .inl ⟨rfl, hfull⟩
  refine .inr ⟨target, hin, hmissing, hnewest, ?_⟩
  rw [hsome]
  -- a full view makes room by a merge, and ends where none is left
  cases hmerge : if nodes.length ≥ budget then mergePair tree nodes target else some nodes with
  | none =>
    have hlen : nodes.length ≥ budget := by
      by_contra hlt
      rw [if_neg hlt] at hmerge
      cases hmerge
    rw [if_pos hlen] at hmerge
    refine .inl ⟨?_, hlen, Option.map_eq_none_iff.mp hmerge⟩
    simp only [if_pos hlen, hmerge]
  | some merged =>
    have hmerged : merged = nodes ∧ nodes.length < budget ∨
        mergePair tree nodes target = some merged := by
      split_ifs at hmerge with hlen
      · exact .inr hmerge
      · exact .inl ⟨(Option.some.inj hmerge).symm, not_le.mp hlen⟩
    have htarget : target ∈ merged := by
      obtain ⟨rfl, -⟩ | h := hmerged
      · exact hin
      · exact mem_mergePair h hin
    simp only [hmerge]
    cases hi : merged.findIdx? (· == target) with
    | none =>
      have habsent := List.findIdx?_eq_none_iff.mp hi target htarget
      simp at habsent
    | some i =>
      obtain ⟨x, hx, hp⟩ := getElem?_of_findIdx? hi
      obtain rfl : x = target := by simpa using hp
      exact .inr ⟨merged, i, hmerged, hx, rfl⟩

/-- The loop of `view`. -/
def viewBody (entries : List Entry) (tree : Tree) (budget : ℕ) :
    Loop.Body (List Node) (List Node) where
  step := viewStep entries tree budget
  measure nodes := (nodes.map (debt entries tree)).sum
  decreases := by
    intro nodes nodes' h
    obtain ⟨hend, -⟩ | ⟨target, -, hmissing, -, ⟨hend, -, -⟩ | ⟨merged, i, hmerged, hi, hnext⟩⟩ :=
      viewStep_cases entries tree budget nodes
    · cases hend.symm.trans h
    · cases hend.symm.trans h
    · obtain rfl := Sum.inl.inj (hnext.symm.trans h)
      have hmerge : (merged.map (debt entries tree)).sum ≤ (nodes.map (debt entries tree)).sum := by
        obtain ⟨rfl, -⟩ | hmerged := hmerged
        · exact le_rfl
        · exact debt_mergePair hmerged
      have hsum := sum_splice_one (f := debt entries tree) hi [target.halves.1, target.halves.2]
      have hhalves := debt_halves_lt hmissing.1 hmissing.2
      simp only [List.map_cons, List.map_nil, List.sum_cons, List.sum_nil] at hsum
      omega

def view (entries : List Entry) (tree : Tree) (budget : ℕ) : List String :=
  mergeNotices (((viewBody entries tree budget).run (cover entries.length budget)).map
    (shownNode entries tree))

end Ralph.ChatMemory
