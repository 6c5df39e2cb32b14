import Ralph.ChatMemory.Nap

namespace Ralph.ChatMemory
open Node Fallible

/-- The number of corrupt entries among the first `i`. -/
theorem getElem_damagedPrefix (entries : List Entry) {i : ℕ} (h : i ≤ entries.length) :
    (damagedPrefix entries)[i]! = (entries.take i).countP Entry.corrupt := by
  have hscan : ∀ (entries : List Entry) (seen i : ℕ), i ≤ entries.length →
      (entries.scanl (fun seen entry => seen + if entry.corrupt then 1 else 0) seen)[i]? =
        some (seen + (entries.take i).countP Entry.corrupt) := by
    intro entries
    induction entries with
    | nil =>
      intro seen i hi
      obtain rfl : i = 0 := by simpa using hi
      rfl
    | cons entry entries ih =>
      intro seen i hi
      rw [List.scanl_cons]
      rcases i with _ | i
      · simp
      · rw [List.getElem?_cons_succ, ih _ i (by simpa using hi), List.take_succ_cons,
          List.countP_cons]
        cases entry.corrupt <;> simp [Nat.add_assoc, Nat.add_comm]
  rw [damagedPrefix, List.getElem!_eq_getElem?_getD, hscan entries 0 i h, Nat.zero_add]
  rfl

/-- No entry of the node is corrupt. -/
def Intact (entries : List Entry) (n : Node) : Prop :=
  ∀ i entry, n.lo ≤ i → i < n.hi → entries[i]? = some entry → entry.corrupt = false

theorem damagedPrefix_eq_iff {entries : List Entry} {n : Node} (hlo : n.lo ≤ n.hi)
    (hhi : n.hi ≤ entries.length) :
    (damagedPrefix entries)[n.hi]! = (damagedPrefix entries)[n.lo]! ↔ Intact entries n := by
  rw [getElem_damagedPrefix entries hhi, getElem_damagedPrefix entries (hlo.trans hhi)]
  have hsplit : entries.take n.hi = entries.take n.lo ++ (entries.take n.hi).drop n.lo := by
    conv_lhs => rw [← List.take_append_drop n.lo (entries.take n.hi), List.take_take,
      Nat.min_eq_left hlo]
  rw [hsplit, List.countP_append, Nat.add_eq_left, List.countP_eq_zero]
  constructor
  · intro h i entry hi hi' hentry
    have hmem : entry ∈ (entries.take n.hi).drop n.lo := by
      rw [List.mem_iff_getElem?]
      refine ⟨i - n.lo, ?_⟩
      rw [List.getElem?_drop, Nat.add_sub_cancel' hi, List.getElem?_take, if_pos hi', hentry]
    simpa using h entry hmem
  · intro h entry hmem
    obtain ⟨j, hj⟩ := List.mem_iff_getElem?.mp hmem
    rw [List.getElem?_drop, List.getElem?_take] at hj
    split_ifs at hj with hlt
    simpa using h _ entry (Nat.le_add_right _ _) hlt hj

/-- The order in which a nap offers nodes: smaller blocks first, then from left to right. -/
def Offered (a b : Node) : Prop := a.size < b.size ∨ (a.size = b.size ∧ a.lo < b.lo)

theorem mem_pendingLevel {entries : List Entry} {tree : Tree} {k : ℕ} {n : Node} :
    n ∈ pendingLevel entries tree (2 ^ k) ↔
      ∃ m, n = block k m ∧ n.hi ≤ entries.length ∧ tree n = none ∧ Intact entries n := by
  have hpos := Nat.two_pow_pos k
  simp only [pendingLevel, List.mem_filter, List.mem_map, List.mem_range, Bool.and_eq_true,
    beq_iff_eq, Bool.not_eq_true', Tree.containsKey, Option.isSome_eq_false_iff,
    Option.isNone_iff_eq_none]
  constructor
  · rintro ⟨⟨m, hm, rfl⟩, htree, hdamaged⟩
    have hhi : (m + 1) * 2 ^ k ≤ entries.length := by
      rw [← Nat.le_div_iff_mul_le hpos]
      exact hm
    refine ⟨m, rfl, hhi, htree, (damagedPrefix_eq_iff ?_ hhi).mp hdamaged⟩
    exact Nat.mul_le_mul_right _ (Nat.le_succ m)
  · rintro ⟨m, rfl, hhi, htree, hintact⟩
    have hm : m < entries.length / 2 ^ k := (Nat.le_div_iff_mul_le hpos).mpr hhi
    refine ⟨⟨m, hm, rfl⟩, htree, (damagedPrefix_eq_iff ?_ hhi).mpr hintact⟩
    exact Nat.mul_le_mul_right _ (Nat.le_succ m)

theorem pairwise_pendingLevel (entries : List Entry) (tree : Tree) {size : ℕ} (hpos : 0 < size) :
    (pendingLevel entries tree size).Pairwise Offered := by
  refine List.Pairwise.filter _ (List.pairwise_map.mpr ?_)
  refine List.pairwise_lt_range.imp fun {a b} hab => ?_
  right
  simp only [Node.size, Nat.succ_mul]
  exact ⟨by omega, Nat.mul_lt_mul_of_pos_right hab hpos⟩

theorem mem_pendingLeaves {entries : List Entry} {tree : Tree} {n : Node} :
    n ∈ pendingLeaves entries tree ↔
      ∃ i entry, n = leaf i ∧ entries[i]? = some entry ∧ isLong entry ∧ tree n = none := by
  simp only [pendingLeaves, List.mem_filter, List.mem_map, Bool.not_eq_true', Tree.containsKey,
    Option.isSome_eq_false_iff, Option.isNone_iff_eq_none, Prod.exists,
    List.mem_zipIdx_iff_getElem?]
  constructor
  · rintro ⟨⟨entry, i, ⟨hentry, hlong⟩, rfl⟩, htree⟩
    exact ⟨i, entry, rfl, hentry, hlong, htree⟩
  · rintro ⟨i, entry, rfl, hentry, hlong, htree⟩
    exact ⟨⟨entry, i, ⟨hentry, hlong⟩, rfl⟩, htree⟩

theorem pairwise_pendingLeaves (entries : List Entry) (tree : Tree) :
    (pendingLeaves entries tree).Pairwise Offered := by
  refine List.Pairwise.filter _ (List.pairwise_map.mpr (List.Pairwise.filter _ ?_))
  have hids : ((entries.zipIdx).map Prod.snd).Pairwise (· < ·) := by
    rw [List.zipIdx_map_snd]
    exact List.pairwise_lt_range'
  refine (List.pairwise_map.mp hids).imp fun {a b} hab => ?_
  exact .inr ⟨by simp, hab⟩

/-- The nodes that the size loop adds, from the size of its state on. -/
theorem mem_run_pendingBody {entries : List Entry} {tree : Tree} {n : Node} (todo : List Node)
    {j : ℕ} (size : {size : ℕ // 0 < size}) (hsize : size.1 = 2 ^ j) :
    n ∈ (pendingBody entries tree).run (todo, size) ↔
      n ∈ todo ∨ ∃ k, j ≤ k ∧ n ∈ pendingLevel entries tree (2 ^ k) := by
  have hempty : ∀ {k}, entries.length < 2 ^ k → n ∉ pendingLevel entries tree (2 ^ k) := by
    intro k hk hn
    obtain ⟨m, rfl, hhi, -⟩ := mem_pendingLevel.mp hn
    have hle : 2 ^ k ≤ (m + 1) * 2 ^ k := Nat.le_mul_of_pos_left _ (Nat.succ_pos m)
    exact absurd (hle.trans hhi) (by omega)
  revert hsize
  refine (pendingBody entries tree).run_induction
    (fun s r => ∀ {j}, s.2.1 = 2 ^ j →
      (n ∈ r ↔ n ∈ s.1 ∨ ∃ k, j ≤ k ∧ n ∈ pendingLevel entries tree (2 ^ k))) ?_ ?_ (todo, size)
  · rintro ⟨todo, size⟩ r hr j hj
    simp only [pendingBody] at hr hj
    split_ifs at hr with hle
    obtain rfl := Sum.inr.inj hr
    refine ⟨.inl, fun h => h.resolve_right ?_⟩
    rintro ⟨k, hk, hn⟩
    have hpow : 2 ^ j ≤ 2 ^ k := Nat.pow_le_pow_right two_pos hk
    exact hempty (by omega) hn
  · rintro ⟨todo, size⟩ ⟨todo', size'⟩ r hs ih j hj
    simp only [pendingBody] at hs hj
    split_ifs at hs with hle
    obtain ⟨rfl, rfl⟩ := Prod.mk.inj (Sum.inl.inj hs)
    rw [ih (j := j + 1) (by simp only [hj, pow_succ]), List.mem_append, hj, or_assoc]
    refine or_congr_right ⟨?_, ?_⟩
    · rintro (h | ⟨k, hk, h⟩)
      · exact ⟨j, le_rfl, h⟩
      · exact ⟨k, by omega, h⟩
    · rintro ⟨k, hk, h⟩
      rcases Nat.eq_or_lt_of_le hk with rfl | hlt
      · exact .inl h
      · exact .inr ⟨k, hlt, h⟩

theorem pairwise_run_pendingBody {entries : List Entry} {tree : Tree} (todo : List Node)
    (size : {size : ℕ // 0 < size}) (hsorted : todo.Pairwise Offered)
    (hsmall : ∀ n ∈ todo, n.size < size) :
    ((pendingBody entries tree).run (todo, size)).Pairwise Offered := by
  refine (pendingBody entries tree).run_of_invariant
    (I := fun s => s.1.Pairwise Offered ∧ ∀ n ∈ s.1, n.size < s.2)
    (Q := fun r => r.Pairwise Offered) ?_ ?_ ⟨hsorted, hsmall⟩
  · rintro ⟨todo, size⟩ ⟨todo', size'⟩ ⟨hsorted, hsmall⟩ hs
    have hlevel : ∀ n ∈ pendingLevel entries tree size, n.size = size := by
      intro n hn
      obtain ⟨⟨k, -, rfl⟩, -⟩ := List.mem_filter.mp hn |>.imp_left List.mem_map.mp
      simp only [Node.size, Nat.succ_mul]
      omega
    simp only [pendingBody] at hs
    split_ifs at hs with hle
    obtain ⟨rfl, rfl⟩ := Prod.mk.inj (Sum.inl.inj hs)
    have hpos := size.2
    refine ⟨List.pairwise_append.mpr ⟨hsorted, pairwise_pendingLevel entries tree hpos, ?_⟩, ?_⟩
    · intro a ha b hb
      have := hsmall a ha
      exact .inl (by rw [hlevel b hb]; exact this)
    · intro n hn
      simp only at hsmall ⊢
      rcases List.mem_append.mp hn with hn | hn
      · have := hsmall n hn
        omega
      · rw [hlevel n hn]
        omega
  · rintro ⟨todo, size⟩ r ⟨hsorted, -⟩ hr
    simp only [pendingBody] at hr
    split_ifs at hr
    exact Sum.inr.inj hr ▸ hsorted

/-- What a nap could summarize: a long entry, or an intact block of two or more inside the log. -/
def Candidate (entries : List Entry) (n : Node) : Prop :=
  (∃ i entry, n = leaf i ∧ entries[i]? = some entry ∧ isLong entry) ∨
    ∃ k m, n = block (k + 1) m ∧ n.hi ≤ entries.length ∧ Intact entries n

theorem mem_pending {entries : List Entry} {tree : Tree} {n : Node} :
    n ∈ pending entries tree ↔ Candidate entries n ∧ tree n = none := by
  rw [pending, mem_run_pendingBody (j := 1) _ _ rfl, mem_pendingLeaves]
  constructor
  · rintro (⟨i, entry, rfl, hentry, hlong, htree⟩ | ⟨k, hk, hn⟩)
    · exact ⟨.inl ⟨i, entry, rfl, hentry, hlong⟩, htree⟩
    · obtain ⟨m, rfl, hhi, htree, hintact⟩ := mem_pendingLevel.mp hn
      obtain ⟨k, rfl⟩ : ∃ k', k = k' + 1 := ⟨k - 1, by omega⟩
      exact ⟨.inr ⟨k, m, rfl, hhi, hintact⟩, htree⟩
  · rintro ⟨⟨i, entry, rfl, hentry, hlong⟩ | ⟨k, m, rfl, hhi, hintact⟩, htree⟩
    · exact .inl ⟨i, entry, rfl, hentry, hlong, htree⟩
    · exact .inr ⟨k + 1, by omega, mem_pendingLevel.mpr ⟨m, rfl, hhi, htree, hintact⟩⟩

theorem pairwise_pending (entries : List Entry) (tree : Tree) :
    (pending entries tree).Pairwise Offered := by
  refine pairwise_run_pendingBody _ _ (pairwise_pendingLeaves entries tree) fun n hn => ?_
  obtain ⟨i, entry, rfl, -⟩ := mem_pendingLeaves.mp hn
  simp

theorem nodup_pending (entries : List Entry) (tree : Tree) : (pending entries tree).Nodup := by
  refine (pairwise_pending entries tree).imp fun {a b} hab => ?_
  rintro rfl
  unfold Offered at hab
  omega

theorem Candidate.hi_le {entries : List Entry} {n : Node} (h : Candidate entries n) :
    n.hi ≤ entries.length := by
  rcases h with ⟨i, entry, rfl, hentry, -⟩ | ⟨k, m, rfl, hhi, -⟩
  · exact (List.getElem?_eq_some_iff.mp hentry).1
  · exact hhi

theorem half_bounds {k m j : ℕ} (hj : j = 2 * m ∨ j = 2 * m + 1) :
    (block (k + 1) m).lo ≤ (block k j).lo ∧ (block k j).hi ≤ (block (k + 1) m).hi := by
  simp only [block, pow_succ]
  constructor
  · calc m * (2 ^ k * 2) = 2 * m * 2 ^ k := by ring
      _ ≤ j * 2 ^ k := Nat.mul_le_mul_right _ (by omega)
  · calc (j + 1) * 2 ^ k ≤ (2 * m + 2) * 2 ^ k := Nat.mul_le_mul_right _ (by omega)
      _ = (m + 1) * (2 ^ k * 2) := by ring

/-- Both halves of an intact block inside the log are intact and inside. -/
theorem intact_half {entries : List Entry} {k m j : ℕ} (hj : j = 2 * m ∨ j = 2 * m + 1)
    (hhi : (block (k + 1) m).hi ≤ entries.length) (hintact : Intact entries (block (k + 1) m)) :
    (block k j).hi ≤ entries.length ∧ Intact entries (block k j) := by
  obtain ⟨hlo, hhi'⟩ := half_bounds (k := k) hj
  exact ⟨hhi'.trans hhi, fun i entry hi hi' => hintact i entry (hlo.trans hi) (hi'.trans_le hhi')⟩

theorem mem_halves {k m : ℕ} {half : Node}
    (h : half ∈ [(block (k + 1) m).halves.1, (block (k + 1) m).halves.2]) :
    ∃ j, (j = 2 * m ∨ j = 2 * m + 1) ∧ half = block k j := by
  rw [halves_block] at h
  rcases List.mem_pair.mp h with rfl | rfl
  · exact ⟨2 * m, .inl rfl, rfl⟩
  · exact ⟨2 * m + 1, .inr rfl, rfl⟩

/-- A half of a pending block has a line once every smaller candidate has a summary. -/
theorem nodeLine_half {entries : List Entry} {tree : Tree} {k m : ℕ} {half : Node}
    (hhalf : half ∈ [(block (k + 1) m).halves.1, (block (k + 1) m).halves.2])
    (hhi : (block (k + 1) m).hi ≤ entries.length) (hintact : Intact entries (block (k + 1) m))
    (hbelow : ∀ c, Candidate entries c → c.size < (block (k + 1) m).size → tree c ≠ none) :
    ∃ line, nodeLine entries tree half = some line := by
  obtain ⟨j, hj, rfl⟩ := mem_halves hhalf
  obtain ⟨hhi', hintact'⟩ := intact_half hj hhi hintact
  have hsize : (block k j).size < (block (k + 1) m).size := by
    rw [size_block, size_block]
    exact Nat.pow_lt_pow_right (by omega) (Nat.lt_succ_self k)
  have hsome : Candidate entries (block k j) → ∃ text, tree (block k j) = some text := fun hc =>
    Option.ne_none_iff_exists'.mp (hbelow _ hc hsize)
  rcases k with _ | k
  · rw [block_zero] at hhi' hsome ⊢
    have hlen : j < entries.length := hhi'
    have hget : entries[j]? = some entries[j]! := by
      rw [getElem!_pos entries j hlen, List.getElem?_eq_getElem hlen]
    rw [nodeLine_leaf]
    exact exists_leafLine fun hlong => hsome (.inl ⟨j, entries[j]!, rfl, hget, hlong⟩)
  · obtain ⟨text, htext⟩ := hsome (.inr ⟨k, j, rfl, hhi', hintact'⟩)
    exact ⟨_, by rw [nodeLine_block, blockLine, htext]; rfl⟩

/-- A node is never blocked once every smaller candidate has a summary. -/
theorem napSource_ok {entries : List Entry} {tree : Tree} {n : Node} (hn : Candidate entries n)
    (hbelow : ∀ c, Candidate entries c → c.size < n.size → tree c ≠ none) :
    ∃ source, napSource entries tree n = .ok source := by
  have hhi := hn.hi_le
  unfold napSource
  simp only
  rw [if_neg (by omega)]
  rcases hn with ⟨i, entry, rfl, -, -⟩ | ⟨k, m, rfl, -, hintact⟩
  · rw [if_pos (size_leaf i)]
    exact ⟨_, rfl⟩
  · have hne : (block (k + 1) m).size ≠ 1 := by
      rw [size_block]
      exact (Nat.one_lt_two_pow (Nat.succ_ne_zero k)).ne'
    have hlines : [(block (k + 1) m).halves.1, (block (k + 1) m).halves.2].mapM
        (napHalf entries tree) = .ok ([(block (k + 1) m).halves.1, (block (k + 1) m).halves.2].map
          fun half => (nodeLine entries tree half).getD "") := by
      refine mapM_eq_ok fun half hhalf => ?_
      obtain ⟨line, hline⟩ := nodeLine_half hhalf hhi hintact hbelow
      rw [napHalf, hline]
      rfl
    rw [if_neg hne, hlines]
    exact ⟨_, rfl⟩

theorem napStep_ne_blocked {entries : List Entry} {tree : Tree} {n : Node}
    (hn : Candidate entries n)
    (hbelow : ∀ c, Candidate entries c → c.size < n.size → tree c ≠ none) (e : String) :
    napStep entries tree n ≠ .blocked e := by
  obtain ⟨source, hsource⟩ := napSource_ok hn hbelow
  unfold napStep
  split_ifs
  · simp
  · rw [napPrompt, hsource]
    simp

/-- The steps of a nap over `nodes` that inserts a summary for each, and the tree it ends with. -/
def napWalk (entries : List Entry) (summary : Node → String) : Tree → List Node → List NapStep × Tree
  | tree, [] => ([], tree)
  | tree, node :: nodes =>
    let (steps, final) := napWalk entries summary (tree.insert node (summary node)) nodes
    (napStep entries tree node :: steps, final)

/-- Along an ordered walk over all candidates without a summary nothing is blocked, and every
candidate has a summary in the end. -/
theorem napWalk_complete {entries : List Entry} (summary : Node → String) {nodes : List Node}
    (tree : Tree) (hsorted : nodes.Pairwise Offered) (hnodes : ∀ n ∈ nodes, Candidate entries n)
    (hmissing : ∀ c, Candidate entries c → tree c = none → c ∈ nodes) :
    (∀ e, NapStep.blocked e ∉ (napWalk entries summary tree nodes).1) ∧
      ∀ c, Candidate entries c → (napWalk entries summary tree nodes).2 c ≠ none := by
  induction nodes generalizing tree with
  | nil =>
    exact ⟨by simp [napWalk], fun c hc htree => List.not_mem_nil (hmissing c hc htree)⟩
  | cons n nodes ih =>
    rw [List.pairwise_cons] at hsorted
    rw [List.forall_mem_cons] at hnodes
    have hbelow : ∀ c, Candidate entries c → c.size < n.size → tree c ≠ none := by
      intro c hc hlt htree
      rcases List.mem_cons.mp (hmissing c hc htree) with rfl | hmem
      · omega
      · have := hsorted.1 c hmem
        unfold Offered at this
        omega
    obtain ⟨hsteps, hfinal⟩ := ih (tree.insert n (summary n)) hsorted.2 hnodes.2 fun c hc htree => by
      unfold Tree.insert at htree
      split_ifs at htree with hcn
      exact (List.mem_cons.mp (hmissing c hc htree)).resolve_left hcn
    refine ⟨fun e he => ?_, hfinal⟩
    rcases List.mem_cons.mp he with he | he
    · exact napStep_ne_blocked hnodes.1 hbelow e he.symm
    · exact hsteps e he

/-- A nap pass offers each node once, skips what is summarized or damaged, is never blocked, and
leaves nothing pending. -/
theorem nap_pass_complete (entries : List Entry) (tree : Tree) (summary : Node → String) :
    (∀ e, NapStep.blocked e ∉ (napWalk entries summary tree (pending entries tree)).1) ∧
    (pending entries tree).Nodup ∧
    (∀ n ∈ pending entries tree, tree.containsKey n = false) ∧
    (∀ n ∈ pending entries tree, n.size ≥ 2 → ∀ i entry, n.lo ≤ i → i < n.hi →
      entries[i]? = some entry → entry.corrupt = false) ∧
    pending entries (napWalk entries summary tree (pending entries tree)).2 = [] := by
  obtain ⟨hsteps, hfinal⟩ := napWalk_complete summary tree (pairwise_pending entries tree)
    (fun n hn => (mem_pending.mp hn).1) fun c hc htree => mem_pending.mpr ⟨hc, htree⟩
  refine ⟨hsteps, nodup_pending entries tree, fun n hn => ?_, fun n hn hsize => ?_, ?_⟩
  · rw [Tree.containsKey, (mem_pending.mp hn).2]
    rfl
  · rcases (mem_pending.mp hn).1 with ⟨i, entry, rfl, -⟩ | ⟨k, m, rfl, -, hintact⟩
    · rw [size_leaf] at hsize
      omega
    · exact hintact
  · rw [List.eq_nil_iff_forall_not_mem]
    intro n hn
    obtain ⟨hc, htree⟩ := mem_pending.mp hn
    exact hfinal n hc htree

end Ralph.ChatMemory
