import Ralph.ChatMemory.Cover

namespace Ralph.ChatMemory
open Node Splice Tiling

/-- The halves of an aligned range of twice their size make up a block. -/
theorem isBlock_glue {left right : Node} (hleft : left.IsBlock) (hright : right.IsBlock)
    (hsize : left.size = right.size) (haligned : left.lo % (2 * left.size) = 0)
    (hadjacent : left.hi = right.lo) : IsBlock ⟨left.lo, right.hi⟩ := by
  obtain ⟨k, m, rfl⟩ := hleft
  obtain ⟨j, n, rfl⟩ := hright
  have hpow := Nat.two_pow_pos k
  simp only [size_block] at hsize haligned
  simp only [block] at haligned hadjacent ⊢
  rw [← hsize] at hadjacent ⊢
  -- the left half is at an even place
  rw [Nat.mul_comm 2, Nat.mul_comm m, Nat.mul_mod_mul_left] at haligned
  have heven : m % 2 = 0 := (Nat.mul_eq_zero.mp haligned).resolve_left hpow.ne'
  have hnext : n = m + 1 := Nat.eq_of_mul_eq_mul_right hpow hadjacent.symm
  refine ⟨k + 1, m / 2, ?_⟩
  have hm : m = 2 * (m / 2) := by omega
  rw [hnext, block, Node.mk.injEq]
  constructor
  · conv_lhs => rw [hm]
    ring
  · conv_lhs => rw [hm]
    ring

/-- What every round of `view` keeps. -/
structure Budgeted (t limit : ℕ) (nodes : List Node) : Prop where
  tiles : Tiles 0 t (nodes.map ends)
  blocks : ∀ node ∈ nodes, node.IsBlock
  length : nodes.length ≤ limit

section
variable {tree : Tree} {nodes merged : List Node} {target : Node}

theorem isBlock_mergePair (h : mergePair tree nodes target = some merged)
    (hblocks : ∀ node ∈ nodes, node.IsBlock) : ∀ node ∈ merged, node.IsBlock := by
  obtain ⟨i, left, right, hleft, hright, hsize, haligned, hadjacent, -, -, -, rfl⟩ :=
    mergePair_some h
  intro node hnode
  obtain hnode | hnode := mem_of_mem_splice hnode
  · exact hblocks node hnode
  · obtain rfl := List.mem_singleton.mp hnode
    exact isBlock_glue (hblocks left (List.mem_of_getElem? hleft))
      (hblocks right (List.mem_of_getElem? hright)) hsize haligned hadjacent

theorem length_mergePair (h : mergePair tree nodes target = some merged) :
    merged.length + 1 = nodes.length := by
  obtain ⟨i, left, right, -, hright, -, -, -, -, -, -, rfl⟩ := mergePair_some h
  have hlen := length_splice_two (List.getElem?_eq_some_iff.mp hright).1 [⟨left.lo, right.hi⟩]
  rw [List.length_singleton] at hlen
  omega

end

/-- A round splits one node; when that would go over the budget it has merged two before. -/
theorem budgeted_viewStep {entries : List Entry} {tree : Tree} {budget t limit : ℕ}
    (hlimit : budget ≤ limit) {nodes nodes' : List Node} (hnodes : Budgeted t limit nodes)
    (h : viewStep entries tree budget nodes = .inl nodes') : Budgeted t limit nodes' := by
  obtain ⟨hend, -⟩ | ⟨target, -, ⟨hsize, -⟩, -, ⟨hend, -, -⟩ | ⟨merged, i, hmerged, hi, hnext⟩⟩ :=
    viewStep_cases entries tree budget nodes
  · cases hend.symm.trans h
  · cases hend.symm.trans h
  have htiles := tiles_viewStep hnodes.tiles (.inl h)
  obtain rfl := Sum.inl.inj (hnext.symm.trans h)
  have hblocks : ∀ node ∈ merged, node.IsBlock := by
    obtain ⟨rfl, -⟩ | hmerged := hmerged
    · exact hnodes.blocks
    · exact isBlock_mergePair hmerged hnodes.blocks
  have hroom : merged.length + 1 ≤ limit := by
    have hlen := hnodes.length
    obtain ⟨rfl, hlt⟩ | hmerged := hmerged
    · omega
    · rw [length_mergePair hmerged]
      exact hlen
  refine ⟨htiles, ?_, ?_⟩
  · have hhalves := (hblocks target (List.mem_of_getElem? hi)).halves hsize
    intro node hnode
    obtain hnode | hnode := mem_of_mem_splice hnode
    · exact hblocks node hnode
    · simp only [List.mem_cons, List.not_mem_nil, or_false] at hnode
      obtain rfl | rfl := hnode
      · exact hhalves.1
      · exact hhalves.2
  · have hlen := length_splice (List.getElem?_eq_some_iff.mp hi).1 [target.halves.1, target.halves.2]
    simp only [List.length_cons, List.length_nil] at hlen
    omega

/-- What is left to do when the loop of `view` ends: a block without a summary stays only when the
budget is spent and no other pair of blocks could be merged for it. -/
def BudgetSettled (tree : Tree) (budget : ℕ) (nodes : List Node) : Prop :=
  ∀ node ∈ nodes, 1 < node.size → tree node = none →
    budget ≤ nodes.length ∧
    ∃ newest ∈ nodes, 1 < newest.size ∧ tree newest = none ∧
      (∀ other ∈ nodes, 1 < other.size → tree other = none → other.lo ≤ newest.lo) ∧
      ∀ (i : ℕ) (left right : Node), nodes[i]? = some left → nodes[i + 1]? = some right →
        left.size = right.size → left.lo % (2 * left.size) = 0 → left ≠ newest → right ≠ newest →
          tree ⟨left.lo, right.hi⟩ = none

theorem missing_iff {entries : List Entry} {tree : Tree} {node : Node} :
    Missing entries tree node ↔ 1 < node.size ∧ tree node = none := by
  refine and_congr_right fun hsize => ?_
  rw [nodeLine, if_neg hsize.ne', blockLine, Option.map_eq_none_iff]

theorem settled_of_end {entries : List Entry} {tree : Tree} {budget t : ℕ} {nodes last : List Node}
    (htiles : Tiles 0 t (nodes.map ends)) (h : viewStep entries tree budget nodes = .inr last) :
    last = nodes ∧ BudgetSettled tree budget last := by
  obtain ⟨hend, hfull⟩ | ⟨target, hin, hmissing, hnewest, ⟨hend, hlen, hpair⟩ | ⟨merged, i, -, -, hnext⟩⟩ :=
    viewStep_cases entries tree budget nodes
  · obtain rfl := Sum.inr.inj (hend.symm.trans h)
    exact ⟨rfl, fun node hnode hsize hnone => absurd (missing_iff.mpr ⟨hsize, hnone⟩) (hfull node hnode)⟩
  · obtain rfl := Sum.inr.inj (hend.symm.trans h)
    obtain ⟨hsize, hnone⟩ := missing_iff.mp hmissing
    refine ⟨rfl, fun _ _ _ _ => ⟨hlen, target, hin, hsize, hnone, ?_, ?_⟩⟩
    · exact fun other hother hsize hnone => hnewest other hother (missing_iff.mpr ⟨hsize, hnone⟩)
    · intro i left right hleft hright hsame haligned hl hr
      have hadjacent : left.ends.2 = right.ends.1 := by
        apply htiles.adjacent
        · rw [List.getElem?_map, hleft]
          rfl
        · rw [List.getElem?_map, hright]
          rfl
      exact mergeablePair_none hpair hleft hright hsame haligned hadjacent hl hr
  · cases hnext.symm.trans h

/-- The loop of `view` ends, and its nodes are a partition of the log into blocks within the budget
of the cover it began with; a block without a summary stays only when nothing can be merged. -/
theorem view_budgeted (entries : List Entry) (tree : Tree) (budget : ℕ) :
    ∃ nodes, (viewBody entries tree budget).Ends (cover entries.length budget) nodes ∧
      view entries tree budget = mergeNotices (nodes.map (shownNode entries tree)) ∧
      Tiles 0 entries.length (nodes.map ends) ∧ (∀ node ∈ nodes, node.IsBlock) ∧
      nodes.length ≤ max budget (cover entries.length budget).length ∧
      BudgetSettled tree budget nodes := by
  refine ⟨_, Loop.Body.ends_run _ _, rfl, ?_⟩
  let limit := max budget (cover entries.length budget).length
  have hstart : Budgeted entries.length limit (cover entries.length budget) :=
    ⟨tiles_cover _ _, isBlock_coverWith Float _ _, le_max_right _ _⟩
  refine (viewBody entries tree budget).run_of_invariant
    (I := fun nodes => Budgeted entries.length limit nodes)
    (Q := fun nodes => Tiles 0 entries.length (nodes.map ends) ∧ (∀ node ∈ nodes, node.IsBlock) ∧
      nodes.length ≤ limit ∧ BudgetSettled tree budget nodes) ?_ ?_ hstart
  · exact fun nodes nodes' hnodes h => budgeted_viewStep (le_max_left _ _) hnodes h
  · intro nodes last hnodes h
    obtain ⟨rfl, hsettled⟩ := settled_of_end hnodes.tiles h
    exact ⟨hnodes.tiles, hnodes.blocks, hnodes.length, hsettled⟩

end Ralph.ChatMemory
