import Ralph.ChatMemory.ViewTiles

namespace Ralph.ChatMemory
open Node Splice Tiling

theorem shownNode_append {entries : List Entry} (more : List Entry) (tree : Tree) {node : Node}
    (hnode : node.lo < entries.length) :
    shownNode (entries ++ more) tree node = shownNode entries tree node := by
  simp only [shownNode, displayLine, getElem!_append more hnode, nodeLine_append more tree hnode]

/-- The lines of a block inside the log do not change when the log grows. -/
theorem blockLines_append {entries : List Entry} (more : List Entry) (tree : Tree) (node : Node)
    (hnode : node.lo < node.hi) (hhi : node.hi ≤ entries.length) :
    blockLines (entries ++ more) tree node = blockLines entries tree node := by
  induction node using blockLines.induct entries tree with
  | case1 node hsize =>
    rw [blockLines_of_size hsize, blockLines_of_size hsize, shownNode_append more tree (by omega)]
  | case2 node hsize line hline =>
    have hline' := (nodeLine_append more tree (by omega)).trans hline
    rw [blockLines_of_line hsize hline, blockLines_of_line hsize hline']
  | case3 node hsize hline ihl ihr =>
    have hline' := (nodeLine_append more tree (by omega)).trans hline
    rw [blockLines_of_halves hsize hline, blockLines_of_halves hsize hline']
    unfold Node.size at hsize
    rw [ihl (by simp only [halves]; omega) (by simp only [halves]; omega),
      ihr (by simp only [halves]; omega) (by simp only [halves]; omega)]

theorem blockLines_ne_nil (entries : List Entry) (tree : Tree) {node : Node}
    (hnode : node.lo < node.hi) : blockLines entries tree node ≠ [] := by
  intro hnil
  have hshows := blockLines_shows entries tree node hnode
  rw [hnil, Covers.nil_iff] at hshows
  omega

/-- No block of two entries or more, up to `2 ^ k`, that ends at `cut` has a summary. -/
def OpenBefore (tree : Tree) (k cut : ℕ) : Prop := ∀ j < k, tree ⟨cut - 2 ^ (j + 1), cut⟩ = none

/-- No block of two entries or more, up to `2 ^ k`, that begins at `cut` has a summary. -/
def OpenAfter (tree : Tree) (k cut : ℕ) : Prop := ∀ j < k, tree ⟨cut, cut + 2 ^ (j + 1)⟩ = none

theorem blockLines_leaf (entries : List Entry) (tree : Tree) (m : ℕ) :
    blockLines entries tree (block 0 m) = [shownNode entries tree (leaf m)] := by
  rw [blockLines_of_size (by rw [size_block]; exact le_rfl), block_zero]

section
variable {tree : Tree} {k m : ℕ}

theorem not_size_block_le : ¬(block (k + 1) m).size ≤ 1 := by
  rw [size_block]
  exact not_le.mpr (Nat.one_lt_two_pow (Nat.succ_ne_zero k))

theorem blockLines_summary (entries : List Entry) {text : String}
    (h : tree (block (k + 1) m) = some text) :
    ∃ line, blockLines entries tree (block (k + 1) m) = [.line line] := by
  have hline : nodeLine entries tree (block (k + 1) m) =
      some s!"#{(block (k + 1) m).id} {text}" := by
    rw [nodeLine_block, blockLine, h]
    rfl
  exact ⟨_, blockLines_of_line not_size_block_le hline⟩

theorem blockLines_split (entries : List Entry) (h : tree (block (k + 1) m) = none) :
    blockLines entries tree (block (k + 1) m) =
      blockLines entries tree (block k (2 * m)) ++ blockLines entries tree (block k (2 * m + 1)) := by
  have hline : nodeLine entries tree (block (k + 1) m) = none := by
    rw [nodeLine_block, blockLine, h]
    rfl
  rw [blockLines_of_halves not_size_block_le hline, halves_block]

end

theorem shownNode_leaf (entries : List Entry) (tree : Tree) (m id : ℕ) :
    shownNode entries tree (leaf m) = .unreadable id ↔ entries[m]!.corrupt ∧ m = id := by
  unfold shownNode
  by_cases hcorrupt : entries[m]!.corrupt
  · rw [if_pos ⟨size_leaf m, hcorrupt⟩, Shown.unreadable.injEq]
    exact (and_iff_right hcorrupt).symm
  · rw [if_neg fun h => hcorrupt h.2]
    exact ⟨fun h => Shown.noConfusion h, fun h => absurd h.1 hcorrupt⟩

/-- A block ends in an unreadable entry exactly when its last entry is corrupt and no summary
stands for it. -/
theorem getLast?_blockLines (entries : List Entry) (tree : Tree) (k m id : ℕ) :
    (blockLines entries tree (block k m)).getLast? = some (.unreadable id) ↔
      id + 1 = (block k m).hi ∧ entries[id]!.corrupt ∧ OpenBefore tree k (block k m).hi := by
  induction k generalizing m with
  | zero =>
    rw [blockLines_leaf, List.getLast?_singleton, Option.some.injEq, shownNode_leaf, block_zero]
    simp only [leaf, OpenBefore, Nat.not_lt_zero, false_implies, implies_true, and_true]
    constructor
    · rintro ⟨hcorrupt, rfl⟩
      exact ⟨rfl, hcorrupt⟩
    · rintro ⟨hid, hcorrupt⟩
      obtain rfl : id = m := by omega
      exact ⟨hcorrupt, rfl⟩
  | succ k ih =>
    have hhi : (block k (2 * m + 1)).hi = (block (k + 1) m).hi := by
      simp only [block, pow_succ]
      ring
    have hnode : (⟨(block (k + 1) m).hi - 2 ^ (k + 1), (block (k + 1) m).hi⟩ : Node) =
        block (k + 1) m := by
      simp [block, Nat.add_mul]
    have hopen : OpenBefore tree (k + 1) (block (k + 1) m).hi ↔
        OpenBefore tree k (block (k + 1) m).hi ∧ tree (block (k + 1) m) = none := by
      unfold OpenBefore
      rw [Nat.forall_lt_succ_right, hnode]
    rw [hopen]
    cases htree : tree (block (k + 1) m) with
    | some text =>
      obtain ⟨line, hline⟩ := blockLines_summary entries htree
      rw [hline]
      simp
    | none =>
      have hne : blockLines entries tree (block k (2 * m + 1)) ≠ [] := by
        refine blockLines_ne_nil entries tree ?_
        exact Nat.mul_lt_mul_of_pos_right (Nat.lt_succ_self _) (Nat.two_pow_pos k)
      rw [blockLines_split entries htree, List.getLast?_append_of_ne_nil _ hne, ih, hhi]
      simp

/-- A block begins with an unreadable entry exactly when its first entry is corrupt and no summary
stands for it. -/
theorem head?_blockLines (entries : List Entry) (tree : Tree) (k m id : ℕ) :
    (blockLines entries tree (block k m)).head? = some (.unreadable id) ↔
      (block k m).lo = id ∧ entries[id]!.corrupt ∧ OpenAfter tree k (block k m).lo := by
  induction k generalizing m with
  | zero =>
    rw [blockLines_leaf, List.head?_cons, Option.some.injEq, shownNode_leaf, block_zero]
    simp only [leaf, OpenAfter, Nat.not_lt_zero, false_implies, implies_true, and_true]
    constructor
    · rintro ⟨hcorrupt, rfl⟩
      exact ⟨rfl, hcorrupt⟩
    · rintro ⟨rfl, hcorrupt⟩
      exact ⟨hcorrupt, rfl⟩
  | succ k ih =>
    have hlo : (block k (2 * m)).lo = (block (k + 1) m).lo := by
      simp only [block, pow_succ]
      ring
    have hnode : (⟨(block (k + 1) m).lo, (block (k + 1) m).lo + 2 ^ (k + 1)⟩ : Node) =
        block (k + 1) m := by
      simp [block, Nat.add_mul]
    have hopen : OpenAfter tree (k + 1) (block (k + 1) m).lo ↔
        OpenAfter tree k (block (k + 1) m).lo ∧ tree (block (k + 1) m) = none := by
      unfold OpenAfter
      rw [Nat.forall_lt_succ_right, hnode]
    rw [hopen]
    cases htree : tree (block (k + 1) m) with
    | some text =>
      obtain ⟨line, hline⟩ := blockLines_summary entries htree
      rw [hline]
      simp
    | none =>
      have hne : blockLines entries tree (block k (2 * m)) ≠ [] := by
        refine blockLines_ne_nil entries tree ?_
        exact Nat.mul_lt_mul_of_pos_right (Nat.lt_succ_self _) (Nat.two_pow_pos k)
      rw [blockLines_split entries htree, List.head?_append_of_ne_nil _ hne, ih, hlo]
      simp

theorem middleBlocks_append {a b c : ℕ} (hab : a ≤ b) (hbc : b ≤ c) (ha : tailStep ∣ a)
    (hb : tailStep ∣ b) (hc : tailStep ∣ c) :
    middleBlocks a c = middleBlocks a b ++ middleBlocks b c := by
  obtain ⟨i, rfl⟩ := ha
  obtain ⟨j, rfl⟩ := hb
  obtain ⟨k, rfl⟩ := hc
  have hij : i ≤ j := Nat.le_of_mul_le_mul_left hab (by decide)
  have hjk : j ≤ k := Nat.le_of_mul_le_mul_left hbc (by decide)
  have hcount : ∀ p q, (tailStep * q - tailStep * p + tailStep - 1) / tailStep = q - p := by
    intro p q
    unfold tailStep
    omega
  have hstart : tailStep * i + tailStep * (j - i) = tailStep * j := by
    rw [← Nat.mul_add, Nat.add_sub_cancel' hij]
  simp only [middleBlocks, hcount]
  rw [← List.map_append, ← hstart, List.range'_append, show j - i + (k - j) = k - i by omega]

theorem middleBlocks_block (m : ℕ) :
    middleBlocks (tailStep * m) (tailStep * (m + 1)) = [block 5 m] := by
  have hcount : (tailStep * (m + 1) - tailStep * m + tailStep - 1) / tailStep = 1 := by
    unfold tailStep
    omega
  have hnode : (⟨tailStep * m, tailStep * m + tailStep⟩ : Node) = block 5 m := by
    simp only [block, tailStep, mk.injEq]
    omega
  rw [middleBlocks, hcount, List.range'_one, List.map_singleton, hnode]

/-- Where the log is as long as the middle, what is appended does not change the lines. -/
theorem flatMap_blockLines_append {entries : List Entry} (more : List Entry) (tree : Tree)
    {from_ to_ : ℕ} (hle : from_ ≤ to_) (hfrom : tailStep ∣ from_) (hto : tailStep ∣ to_)
    (hlen : to_ ≤ entries.length) :
    (middleBlocks from_ to_).flatMap (blockLines (entries ++ more) tree) =
      (middleBlocks from_ to_).flatMap (blockLines entries tree) := by
  refine List.flatMap_congr fun node hnode => ?_
  obtain ⟨-, hlt, hhi⟩ := (tiles_middleBlocks hle hfrom hto).bounds (List.mem_map_of_mem hnode)
  exact blockLines_append more tree node hlt (hhi.trans hlen)

/-- A run of corrupt entries goes on over `cut`, and no summary of the middle hides it. -/
def RunCrosses (entries : List Entry) (tree : Tree) (cut : ℕ) : Prop :=
  (entries[cut - 1]!.corrupt ∧ OpenBefore tree 5 cut) ∧ entries[cut]!.corrupt ∧ OpenAfter tree 5 cut

/-- What is shown before a later cut goes on in a run exactly when the run crosses the cut. -/
theorem runCrosses_iff (entries : List Entry) (tree : Tree) {frozen cut later : ℕ}
    (hfrozen : frozen < cut) (hlater : cut < later) (hf : tailStep ∣ frozen) (hc : tailStep ∣ cut)
    (hl : tailStep ∣ later) :
    (∃ id, ((middleBlocks frozen cut).flatMap (blockLines entries tree)).getLast? =
        some (.unreadable id) ∧
      ((middleBlocks cut later).flatMap (blockLines entries tree)).head? =
        some (.unreadable (id + 1))) ↔ RunCrosses entries tree cut := by
  obtain ⟨i, rfl⟩ := hf
  obtain ⟨j, rfl⟩ := hc
  obtain ⟨k, rfl⟩ := hl
  have hij : i < j := Nat.lt_of_mul_lt_mul_left hfrozen
  have hjk : j < k := Nat.lt_of_mul_lt_mul_left hlater
  obtain ⟨m, rfl⟩ : ∃ m, j = m + 1 := ⟨j - 1, by omega⟩
  -- only the blocks on the two sides of the cut decide
  have hbefore : middleBlocks (tailStep * i) (tailStep * (m + 1)) =
      middleBlocks (tailStep * i) (tailStep * m) ++ [block 5 m] := by
    rw [← middleBlocks_block]
    exact middleBlocks_append (Nat.mul_le_mul_left _ (by omega)) (Nat.mul_le_mul_left _ (by omega))
      (dvd_mul_right _ _) (dvd_mul_right _ _) (dvd_mul_right _ _)
  have hafter : middleBlocks (tailStep * (m + 1)) (tailStep * k) =
      [block 5 (m + 1)] ++ middleBlocks (tailStep * (m + 2)) (tailStep * k) := by
    rw [← middleBlocks_block]
    exact middleBlocks_append (Nat.mul_le_mul_left _ (by omega)) (Nat.mul_le_mul_left _ (by omega))
      (dvd_mul_right _ _) (dvd_mul_right _ _) (dvd_mul_right _ _)
  have hne : ∀ n, blockLines entries tree (block 5 n) ≠ [] := fun n =>
    blockLines_ne_nil entries tree (Nat.mul_lt_mul_of_pos_right (Nat.lt_succ_self n) (by decide))
  have hhi : (block 5 m).hi = tailStep * (m + 1) := Nat.mul_comm _ _
  have hlo : (block 5 (m + 1)).lo = tailStep * (m + 1) := Nat.mul_comm _ _
  rw [hbefore, hafter, List.flatMap_append, List.flatMap_append, List.flatMap_singleton,
    List.flatMap_singleton, List.getLast?_append_of_ne_nil _ (hne m),
    List.head?_append_of_ne_nil _ (hne (m + 1))]
  simp only [getLast?_blockLines, head?_blockLines, hhi, hlo, RunCrosses]
  constructor
  · rintro ⟨id, ⟨hid, hlast, hopen⟩, -, hfirst, hopen'⟩
    rw [← hid, Nat.add_sub_cancel]
    rw [← hid] at hopen hopen'
    exact ⟨⟨hlast, hopen⟩, hfirst, hopen'⟩
  · rintro ⟨⟨hlast, hopen⟩, hfirst, hopen'⟩
    have hid : tailStep * (m + 1) - 1 + 1 = tailStep * (m + 1) := by
      unfold tailStep
      omega
    exact ⟨_, ⟨hid, hlast, hopen⟩, hid.symm, by rwa [hid], hopen'⟩

theorem verbatimStart_append (entries more : List Entry) (budget : ℕ) :
    verbatimStart entries 0 budget ≤ verbatimStart (entries ++ more) 0 budget := by
  obtain ⟨-, hlen, -⟩ := verbatimStart_spec entries budget (Nat.zero_le _)
  obtain ⟨-, -, hfit, -⟩ := verbatimStart_spec (entries ++ more) budget (Nat.zero_le _)
  rcases Nat.lt_or_ge (verbatimStart (entries ++ more) 0 budget) entries.length with hlt | hge
  · rw [verbatimStart_le_iff entries (Nat.zero_le _) hlt.le]
    refine le_trans ?_ hfit
    rw [List.drop_append_of_le_length hlt.le, tokens, tokens, List.map_append, List.sum_append]
    exact Nat.le_add_right _ _
  · exact hlen.trans hge

theorem stableCut_mono {start start' step : ℕ} (hstep : 0 < step) (h : start ≤ start') :
    stableCut start step ≤ stableCut start' step :=
  le_stableCut hstep (dvd_stableCut start hstep) ((stableCut_le start step).trans h)

/-- What was sent of the view stays as it was when the log grows inside one frozen step. -/
def GrowsOnly (entries more : List Entry) (tree : Tree) (budget recentTokens : ℕ) : Prop :=
  verbatimStart entries 0 recentTokens ≤ verbatimStart (entries ++ more) 0 recentTokens ∧
  (frozenCut entries recentTokens = frozenCut (entries ++ more) recentTokens →
    (splitView entries tree budget recentTokens).older =
      (splitView (entries ++ more) tree budget recentTokens).older ∧
    (splitView entries tree budget recentTokens).middle <+:
      (splitView (entries ++ more) tree budget recentTokens).middle)

/-- The run of corrupt entries at the end of the middle goes on in what the append adds to it. -/
def RunGrows (entries more : List Entry) (tree : Tree) (recentTokens : ℕ) : Prop :=
  let cut := tailCut entries recentTokens
  frozenCut entries recentTokens < cut ∧ cut < tailCut (entries ++ more) recentTokens ∧
    RunCrosses (entries ++ more) tree cut

theorem middle_prefix_iff (entries more : List Entry) (tree : Tree) (budget recentTokens : ℕ)
    (hfrozen : frozenCut entries recentTokens = frozenCut (entries ++ more) recentTokens) :
    (splitView entries tree budget recentTokens).middle <+:
      (splitView (entries ++ more) tree budget recentTokens).middle ↔
        ¬RunGrows entries more tree recentTokens := by
  have hle := frozenCut_le_tailCut entries recentTokens
  have hmono : tailCut entries recentTokens ≤ tailCut (entries ++ more) recentTokens :=
    stableCut_mono (by decide) (verbatimStart_append entries more recentTokens)
  have hlen : tailCut entries recentTokens ≤ entries.length :=
    (stableCut_le _ _).trans (verbatimStart_spec entries recentTokens (Nat.zero_le _)).2.1
  have hf := tailStep_dvd_frozenCut entries recentTokens
  have hc := tailStep_dvd_tailCut entries recentTokens
  have hl := tailStep_dvd_tailCut (entries ++ more) recentTokens
  simp only [splitView, middleLines, ← hfrozen]
  rw [middleBlocks_append hle hmono hf hc hl, List.flatMap_append,
    ← flatMap_blockLines_append more tree hle hf hc hlen, mergeNotices_prefix_iff]
  unfold RunGrows
  simp only
  rcases hle.eq_or_lt with heq | hlt
  · have hempty : middleBlocks (frozenCut entries recentTokens) (tailCut entries recentTokens) = [] := by
      rw [heq, middleBlocks, Nat.sub_self]
      rfl
    rw [hempty]
    simp [heq]
  rcases hmono.eq_or_lt with heq | hlt'
  · have hempty : middleBlocks (tailCut entries recentTokens)
        (tailCut (entries ++ more) recentTokens) = [] := by
      rw [← heq, middleBlocks, Nat.sub_self]
      rfl
    rw [hempty]
    simp [heq]
  · rw [← runCrosses_iff (entries ++ more) tree hlt hlt' hf hc hl]
    simp only [hlt, hlt', true_and, not_exists, not_and]

theorem older_append (entries more : List Entry) (tree : Tree) (budget recentTokens : ℕ)
    (hfrozen : frozenCut entries recentTokens = frozenCut (entries ++ more) recentTokens) :
    (splitView entries tree budget recentTokens).older =
      (splitView (entries ++ more) tree budget recentTokens).older := by
  have hlen : frozenCut entries recentTokens ≤ entries.length :=
    (stableCut_le _ _).trans (verbatimStart_spec entries recentTokens (Nat.zero_le _)).2.1
  simp only [splitView, ← hfrozen, List.take_append_of_le_length hlen]

/-- The view only grows, except where a run of corrupt entries crosses the end of the middle: its
notice is already sent, and becomes a longer one. -/
theorem grows_only_iff (entries more : List Entry) (tree : Tree) (budget recentTokens : ℕ) :
    GrowsOnly entries more tree budget recentTokens ↔
      ¬(frozenCut entries recentTokens = frozenCut (entries ++ more) recentTokens ∧
        RunGrows entries more tree recentTokens) := by
  constructor
  · rintro ⟨-, hgrows⟩ ⟨hfrozen, hrun⟩
    exact (middle_prefix_iff entries more tree budget recentTokens hfrozen).mp (hgrows hfrozen).2 hrun
  · intro hrun
    refine ⟨verbatimStart_append entries more recentTokens, fun hfrozen => ?_⟩
    refine ⟨older_append entries more tree budget recentTokens hfrozen, ?_⟩
    exact (middle_prefix_iff entries more tree budget recentTokens hfrozen).mpr
      fun h => hrun ⟨hfrozen, h⟩

/-- Two blocks of corrupt entries: their one notice grows when the second joins the middle. -/
theorem notice_rewritten :
    ¬GrowsOnly (List.replicate 32 Entry.placeholder) (List.replicate 32 Entry.placeholder)
      Tree.empty 200 0 := by
  rintro ⟨-, hgrows⟩
  have hfrozen : frozenCut (List.replicate 32 Entry.placeholder) 0 =
      frozenCut (List.replicate 32 Entry.placeholder ++ List.replicate 32 Entry.placeholder) 0 := by
    decide
  refine (middle_prefix_iff _ _ _ _ _ hfrozen).mp (hgrows hfrozen).2 ⟨by decide, by decide, ?_⟩
  exact ⟨⟨by decide, fun _ _ => rfl⟩, by decide, fun _ _ => rfl⟩

end Ralph.ChatMemory
