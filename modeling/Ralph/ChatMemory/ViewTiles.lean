import Ralph.ChatMemory.SplitView

namespace Ralph.ChatMemory
open Node Splice Tiling

def Node.ends (n : Node) : ℕ × ℕ := (n.lo, n.hi)

variable {A : Type} [AlphaNumber A]

/-- The stack holds what is right of the output; what begins at or after `t` is dropped. -/
theorem tiles_run_coverBody (t : ℕ) (alpha : A) {root : ℕ} (hpos : 0 < root) (hroot : t ≤ root) :
    Tiles 0 t ((coverBody t alpha).run ([(0, root)], [])) := by
  refine (coverBody t alpha).run_of_invariant
    (I := fun s => ∃ mid, Tiles 0 (min mid t) s.2 ∧ Tiles mid root s.1)
    (Q := fun r => Tiles 0 t r) ?_ ?_ ⟨0, by simpa using Tiles.nil 0, .singleton hpos⟩
  · rintro ⟨stack, out⟩ s' ⟨mid, hout, hstack⟩ hs
    rcases stack with _ | ⟨⟨lo, hi⟩, stack⟩
    · cases hs
    obtain ⟨rfl, hlt, hrest⟩ := Tiles.cons_iff.mp hstack
    simp only [coverBody] at hs
    split_ifs at hs with ht hsplit
    · obtain rfl := Sum.inl.inj hs
      refine ⟨hi, ?_, hrest⟩
      rwa [show min hi t = min lo t by simp only at hlt; omega]
    · obtain rfl := Sum.inl.inj hs
      have hsize := hsplit.1
      exact ⟨lo, hout, .cons (by omega) (.cons (by omega) hrest)⟩
    · obtain rfl := Sum.inl.inj hs
      refine ⟨hi, hout.append ?_, hrest⟩
      -- a block that stays is inside `[0, t)`, or it is one entry
      have hin : hi ≤ t := by
        rw [not_and, not_or] at hsplit
        simp only at hlt
        by_cases hsize : hi - lo > 1
        · exact not_lt.mp (hsplit hsize).1
        · omega
      rw [show min lo t = lo by omega, show min hi t = hi by omega]
      exact .singleton hlt
  · rintro ⟨stack, out⟩ r ⟨mid, hout, hstack⟩ hr
    rcases stack with _ | ⟨⟨lo, hi⟩, stack⟩
    · obtain rfl := Sum.inr.inj hr
      obtain rfl := Tiles.nil_iff.mp hstack
      rwa [Nat.min_eq_right hroot] at hout
    · simp only [coverBody] at hr
      split_ifs at hr

/-- The loop puts the blocks out in their order, so there is nothing to sort. -/
theorem coverAt_eq_run (t : ℕ) (alpha : A) :
    coverAt t alpha = (coverBody t alpha).run ([(0, nextPowerOfTwo t)], []) := by
  have htiles := tiles_run_coverBody t alpha (Nat.two_pow_pos (Nat.clog 2 t))
    (Nat.le_pow_clog (by omega) t)
  apply List.mergeSort_of_pairwise
  refine htiles.pairwise.imp_of_mem fun {p q} hp _ hpq => ?_
  have hlt : p.1 < q.1 := (htiles.bounds hp).2.1.trans_le hpq
  simp [hlt]

theorem tiles_coverAt (t : ℕ) (alpha : A) : Tiles 0 t (coverAt t alpha) := by
  rw [coverAt_eq_run]
  exact tiles_run_coverBody t alpha (Nat.two_pow_pos (Nat.clog 2 t)) (Nat.le_pow_clog (by omega) t)

/-- Elements may be replaced by others that tile the same piece. -/
theorem tiles_splice {β : Type*} {f : β → ℕ × ℕ} {xs zs ys : List β} {i j lo hi : ℕ}
    (hxs : xs.take i ++ zs ++ xs.drop j = xs) (h : Tiles lo hi (xs.map f))
    (hys : ∀ a b, Tiles a b (zs.map f) → Tiles a b (ys.map f)) :
    Tiles lo hi ((splice xs i j ys).map f) := by
  rw [← hxs, List.map_append, List.map_append] at h
  rw [splice, List.map_append, List.map_append]
  exact h.replace hys

/-- What a round of the fill loop can do. -/
theorem fillBody_step (budget : ℕ) (out : List (ℕ × ℕ)) :
    (budget ≤ out.length ∧ (fillBody budget).step out = .inr out) ∨
    (out.length < budget ∧ (∀ p ∈ out, p.2 - p.1 ≤ 1) ∧ (fillBody budget).step out = .inr out) ∨
    (out.length < budget ∧ ∃ i p, out[i]? = some p ∧ 1 < p.2 - p.1 ∧
      (fillBody budget).step out =
        .inl (splice out i (i + 1) [(p.1, (p.1 + p.2) / 2), ((p.1 + p.2) / 2, p.2)])) := by
  by_cases hlt : out.length < budget
  · refine .inr ?_
    simp only [fillBody, if_pos hlt]
    cases hi : rposition (fun p => decide (p.2 - p.1 > 1)) out with
    | none =>
      refine .inl ⟨hlt, fun p hp => ?_, rfl⟩
      have hsmall := rposition_eq_none hi p hp
      simpa using hsmall
    | some i =>
      obtain ⟨p, hget, hsize⟩ := getElem?_of_rposition hi
      have hget' : out[i]! = p := by rw [List.getElem!_eq_getElem?_getD, hget]; rfl
      refine .inr ⟨hlt, i, p, hget, by simpa using hsize, ?_⟩
      simp only [hget']
  · exact .inl ⟨not_lt.mp hlt, if_neg hlt⟩

/-- One round of the fill loop ends, or cuts a block in two. -/
theorem fill_step {t : ℕ} (budget : ℕ) {out : List (ℕ × ℕ)} (hout : Tiles 0 t out) :
    ∃ out', Tiles 0 t out' ∧
      ((fillBody budget).step out = .inl out' ∨ (fillBody budget).step out = .inr out') := by
  obtain ⟨-, hend⟩ | ⟨-, -, hend⟩ | ⟨-, i, p, hget, hsize, hnext⟩ := fillBody_step budget out
  · exact ⟨out, hout, .inr hend⟩
  · exact ⟨out, hout, .inr hend⟩
  · refine ⟨_, ?_, .inl hnext⟩
    rw [← List.map_id' (splice out _ _ _)]
    refine tiles_splice (take_append_drop_one hget) (by simpa using hout) fun a b hab => ?_
    simp only [List.map_cons, List.map_nil] at hab ⊢
    exact hab.cut (by omega) (by omega)

theorem tiles_fill {t budget : ℕ} {out : List (ℕ × ℕ)} (hout : Tiles 0 t out) :
    Tiles 0 t ((fillBody budget).run out) := by
  refine (fillBody budget).run_of_invariant (I := fun out => Tiles 0 t out)
    (Q := fun r => Tiles 0 t r) ?_ ?_ hout
  · intro out out' htiles h
    obtain ⟨next, hnext, hstep | hstep⟩ := fill_step budget htiles
    · exact Sum.inl.inj (hstep.symm.trans h) ▸ hnext
    · exact absurd (hstep.symm.trans h) (by simp)
  · intro out r htiles h
    obtain ⟨next, hnext, hstep | hstep⟩ := fill_step budget htiles
    · exact absurd (hstep.symm.trans h) (by simp)
    · exact Sum.inr.inj (hstep.symm.trans h) ▸ hnext

theorem tiles_coverWith (A : Type) [AlphaNumber A] (t budget : ℕ) :
    Tiles 0 t ((coverWith A t budget).map ends) := by
  unfold coverWith
  split_ifs with ht hle
  · subst ht
    exact .nil 0
  · have hleaves := tiles_range' 0 1 one_pos t
    rw [Nat.zero_add, Nat.mul_one, ← List.range_eq_range'] at hleaves
    rw [List.map_map]
    exact hleaves
  · rw [List.map_map]
    have hends : (ends ∘ fun (p : ℕ × ℕ) => (⟨p.1, p.2⟩ : Node)) = fun p => p := by
      funext p
      rfl
    rw [hends, List.map_id']
    exact tiles_fill (tiles_coverAt t _)

theorem tiles_cover (t budget : ℕ) : Tiles 0 t ((cover t budget).map ends) :=
  tiles_coverWith Float t budget

theorem tiles_mergePair {tree : Tree} {nodes merged : List Node} {target : Node} {lo hi : ℕ}
    (h : mergePair tree nodes target = some merged) (htiles : Tiles lo hi (nodes.map ends)) :
    Tiles lo hi (merged.map ends) := by
  obtain ⟨i, left, right, hleft, hright, -, -, -, -, -, -, rfl⟩ := mergePair_some h
  exact tiles_splice (take_append_drop_two hleft hright) htiles fun a b hab => hab.glue

/-- One round of the loop of `view` merges and splits nodes, so they stay a partition. -/
theorem tiles_viewStep {entries : List Entry} {tree : Tree} {budget t : ℕ} {nodes : List Node}
    (htiles : Tiles 0 t (nodes.map ends)) {nodes' : List Node}
    (h : viewStep entries tree budget nodes = .inl nodes' ∨
      viewStep entries tree budget nodes = .inr nodes') : Tiles 0 t (nodes'.map ends) := by
  obtain ⟨hend, -⟩ | ⟨target, -, ⟨hsize, -⟩, -, ⟨hend, -, -⟩ | ⟨merged, i, hmerged, hi, hnext⟩⟩ :=
    viewStep_cases entries tree budget nodes
  · rw [hend] at h
    obtain rfl : nodes = nodes' := by simpa using h
    exact htiles
  · rw [hend] at h
    obtain rfl : nodes = nodes' := by simpa using h
    exact htiles
  · have hwhole : Tiles 0 t (merged.map ends) := by
      obtain ⟨rfl, -⟩ | hmerged := hmerged
      · exact htiles
      · exact tiles_mergePair hmerged htiles
    rw [hnext] at h
    obtain rfl : splice merged i (i + 1) [target.halves.1, target.halves.2] = nodes' := by
      simpa using h
    refine tiles_splice (take_append_drop_one hi) hwhole fun a b hab => ?_
    unfold Node.size at hsize
    exact hab.cut (by simp only [halves]; omega) (by simp only [halves]; omega)

theorem tiles_view (entries : List Entry) (tree : Tree) (budget : ℕ) {t : ℕ} {nodes : List Node}
    (hnodes : Tiles 0 t (nodes.map ends)) :
    Tiles 0 t (((viewBody entries tree budget).run nodes).map ends) := by
  refine (viewBody entries tree budget).run_of_invariant
    (I := fun nodes => Tiles 0 t (nodes.map ends)) (Q := fun r => Tiles 0 t (r.map ends)) ?_ ?_ hnodes
  · exact fun nodes nodes' htiles h => tiles_viewStep htiles (.inl h)
  · exact fun nodes r htiles h => tiles_viewStep htiles (.inr h)

theorem entryLine_shows (i : ℕ) (entry : Entry) (body : String) :
    LineShows (entryLine i entry body) (i, i + 1) := by
  have hid : (leaf i).id = toString i := if_pos (size_leaf i)
  let text := s!"{entry.role.asStr} {entry.at_} {body}"
  have hline : entryLine i entry body = s!"#{(leaf i).id} {text}" := by
    rw [entryLine, hid]
    apply String.toList_injective
    simp [text, String.toList_append]
  rw [hline]
  exact .node (leaf i) text

theorem leafLine_shows {i : ℕ} {entry : Entry} {tree : Tree} {line : String}
    (h : leafLine i entry tree = some line) : LineShows line (i, i + 1) := by
  have hline : ∃ body, line = entryLine i entry body := by
    unfold leafLine at h
    split_ifs at h
    · obtain ⟨text, -, rfl⟩ := Option.map_eq_some_iff.mp h
      exact ⟨text, rfl⟩
    · exact ⟨_, (Option.some.inj h).symm⟩
  obtain ⟨body, rfl⟩ := hline
  exact entryLine_shows i entry body

theorem blockLine_shows {tree : Tree} {node : Node} {line : String}
    (h : blockLine tree node = some line) : LineShows line node.ends := by
  obtain ⟨text, -, rfl⟩ := Option.map_eq_some_iff.mp h
  exact .node node text

theorem leaf_of_size {node : Node} (h : node.size = 1) : node = leaf node.lo := by
  cases node
  simp only [size, leaf, mk.injEq, true_and] at *
  omega

theorem nodeLine_shows {entries : List Entry} {tree : Tree} {node : Node} {line : String}
    (h : nodeLine entries tree node = some line) : LineShows line node.ends := by
  unfold nodeLine at h
  split_ifs at h with hsize
  · rw [leaf_of_size hsize]
    exact leafLine_shows h
  · exact blockLine_shows h

theorem displayLine_shows (entries : List Entry) (tree : Tree) (node : Node) :
    LineShows (displayLine entries tree node) node.ends := by
  unfold displayLine
  cases h : nodeLine entries tree node with
  | some line => exact nodeLine_shows h
  | none =>
    rw [Option.getD_none]
    split_ifs with hsize
    · rw [leaf_of_size hsize]
      exact entryLine_shows _ _ _
    · let text := s!"{unavailableMark}zoom {node.id} for its parts"
      have hline : s!"#{node.id} {unavailableMark}zoom {node.id} for its parts" =
          s!"#{node.id} {text}" := by
        apply String.toList_injective
        simp [text, String.toList_append]
      simp only
      rw [hline]
      exact .node node text

theorem shownNode_shows (entries : List Entry) (tree : Tree) (node : Node) :
    ItemShows (shownNode entries tree node) node.ends := by
  unfold shownNode
  split_ifs with h
  · rw [leaf_of_size h.1]
    rfl
  · exact displayLine_shows entries tree node

theorem view_shows (entries : List Entry) (tree : Tree) (budget : ℕ) :
    Covers LineShows (view entries tree budget) 0 entries.length :=
  mergeNotices_shows (.map (tiles_view entries tree budget (tiles_cover entries.length budget))
    fun node _ => shownNode_shows entries tree node)

/-- The lines of a block stand for its entries, however far it has to be split. -/
theorem blockLines_shows (entries : List Entry) (tree : Tree) (node : Node)
    (hnode : node.lo < node.hi) :
    Covers ItemShows (blockLines entries tree node) node.lo node.hi := by
  induction node using blockLines.induct entries tree with
  | case1 node hsize =>
    rw [blockLines_of_size hsize]
    exact .singleton (shownNode_shows entries tree node) hnode
  | case2 node hsize line hline =>
    rw [blockLines_of_line hsize hline]
    exact .singleton (nodeLine_shows hline) hnode
  | case3 node hsize hline ihl ihr =>
    rw [blockLines_of_halves hsize hline]
    unfold Node.size at hsize
    have hleft := ihl (by simp only [halves]; omega)
    have hright := ihr (by simp only [halves]; omega)
    exact hleft.append hright

/-- The middle goes in whole steps, so its last block ends at its end. -/
theorem tiles_middleBlocks {from_ to_ : ℕ} (hle : from_ ≤ to_) (hfrom : tailStep ∣ from_)
    (hto : tailStep ∣ to_) : Tiles from_ to_ ((middleBlocks from_ to_).map ends) := by
  obtain ⟨i, rfl⟩ := hfrom
  obtain ⟨j, rfl⟩ := hto
  have hij : i ≤ j := Nat.le_of_mul_le_mul_left hle (by decide)
  have hcount : (tailStep * j - tailStep * i + tailStep - 1) / tailStep = j - i := by
    unfold tailStep
    omega
  have hblocks := tiles_range' (tailStep * i) tailStep (by decide) (j - i)
  rw [show tailStep * i + (j - i) * tailStep = tailStep * j by unfold tailStep; omega] at hblocks
  rw [middleBlocks, hcount, List.map_map]
  exact hblocks

theorem middle_shows (entries : List Entry) (tree : Tree) {from_ to_ : ℕ} (hle : from_ ≤ to_)
    (hfrom : tailStep ∣ from_) (hto : tailStep ∣ to_) :
    Covers LineShows (middleLines entries tree from_ to_) from_ to_ :=
  mergeNotices_shows (.flatMap (tiles_middleBlocks hle hfrom hto)
    fun node _ => blockLines_shows entries tree node)

theorem verbatimNode_shows (entries : List Entry) (i : ℕ) :
    ItemShows (verbatimNode entries i) (i, i + 1) := by
  unfold verbatimNode
  simp only
  split_ifs
  · rfl
  · exact entryLine_shows i _ _

theorem tail_shows (entries : List Entry) (tree : Tree) {from_ : ℕ} (budget : ℕ)
    (hfrom : from_ ≤ entries.length) :
    Covers LineShows (tailLines entries tree from_ budget) from_ entries.length := by
  obtain ⟨hge, hle, -⟩ := verbatimStart_spec entries budget hfrom
  have hsettled := tiles_range' from_ 1 one_pos (verbatimStart entries from_ budget - from_)
  have hverbatim := tiles_range' (verbatimStart entries from_ budget) 1 one_pos
    (entries.length - verbatimStart entries from_ budget)
  rw [Nat.mul_one, Nat.add_sub_cancel' hge] at hsettled
  rw [Nat.mul_one, Nat.add_sub_cancel' hle] at hverbatim
  exact mergeNotices_shows ((Covers.map hsettled fun i _ => shownNode_shows entries tree (leaf i)).append
    (.map hverbatim fun i _ => verbatimNode_shows entries i))

theorem mem_tailLines {entries : List Entry} (tree : Tree) {from_ budget i : ℕ} {entry : Entry}
    (hi : verbatimStart entries from_ budget ≤ i) (hentry : entries[i]? = some entry)
    (hcorrupt : entry.corrupt = false) :
    entryLine i entry entry.text ∈ tailLines entries tree from_ budget := by
  have hlt : i < entries.length := (List.getElem?_eq_some_iff.mp hentry).1
  have hget : entries[i]! = entry := by rw [List.getElem!_eq_getElem?_getD, hentry]; rfl
  refine mem_mergeNotices (List.mem_append_right _ (List.mem_map.mpr ⟨i, ?_, ?_⟩))
  · exact List.mem_range'_1.mpr ⟨hi, by omega⟩
  · simp [verbatimNode, hget, hcorrupt]

/-- The view shows every entry once, and the newest ones within the budget in full. A corrupt
entry takes its share of the budget with the text of its placeholder. -/
theorem split_view_shows_once (entries : List Entry) (tree : Tree) (budget recentTokens : ℕ) :
    let split := splitView entries tree budget recentTokens
    let start := verbatimStart entries 0 recentTokens
    Covers LineShows (split.older ++ split.middle ++ split.tail) 0 entries.length ∧
    (∀ i entry, start ≤ i → entries[i]? = some entry → entry.corrupt = false →
      entryLine i entry entry.text ∈ split.tail) ∧
    tokens ((entries.drop start).filter fun entry => !entry.corrupt) ≤ recentTokens ∧
    tokens (entries.drop start) ≤ recentTokens ∧
    ∀ earlier < start, recentTokens < tokens (entries.drop earlier) := by
  intro split start
  obtain ⟨-, hlen, hfit, hover⟩ := verbatimStart_spec entries recentTokens (Nat.zero_le _)
  have hfrozen : frozenCut entries recentTokens ≤ entries.length := (stableCut_le _ _).trans hlen
  have hcut : tailCut entries recentTokens ≤ entries.length := (stableCut_le _ _).trans hlen
  refine ⟨?_, fun i entry hi hentry hcorrupt => ?_, ?_, hfit, fun j hj => hover j (Nat.zero_le j) hj⟩
  · have holder := view_shows (entries.take (frozenCut entries recentTokens)) tree budget
    rw [List.length_take, Nat.min_eq_left hfrozen] at holder
    have hmiddle := middle_shows entries tree (frozenCut_le_tailCut entries recentTokens)
      (tailStep_dvd_frozenCut entries recentTokens) (tailStep_dvd_tailCut entries recentTokens)
    exact (holder.append hmiddle).append (tail_shows entries tree recentTokens hcut)
  · refine mem_tailLines tree ?_ hentry hcorrupt
    rw [verbatimStart_tailCut]
    exact hi
  · refine le_trans ?_ hfit
    exact (List.filter_sublist.map _).sum_le_sum fun _ _ => Nat.zero_le _

/-- Without its placeholder the one corrupt entry would fit. -/
theorem placeholder_takes_budget :
    ¬∀ earlier < verbatimStart [Entry.placeholder] 0 4,
      4 < tokens (([Entry.placeholder].drop earlier).filter fun entry => !entry.corrupt) := by
  intro h
  exact absurd (h 0 (by decide)) (by decide)

end Ralph.ChatMemory
