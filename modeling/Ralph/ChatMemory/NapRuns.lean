import Ralph.ChatMemory.Pending
import Ralph.ChatMemory.StoreWrites
import Ralph.Interleaving

namespace Ralph.ChatMemory
open Node Fallible Store Interleaving

/-- Every text of the first tree is in the second. -/
def Tree.Within (t t' : Tree) : Prop := ∀ n text, t n = some text → t' n = some text

theorem Tree.Within.refl (t : Tree) : t.Within t := fun _ _ h => h

theorem Tree.Within.trans {t t' t'' : Tree} (h : t.Within t') (h' : t'.Within t'') : t.Within t'' :=
  fun n text hn => h' n text (h n text hn)

theorem leafLine_mono {i : ℕ} {entry : Entry} {tree tree' : Tree} (h : tree.Within tree')
    {line : String} (hline : leafLine i entry tree = some line) :
    leafLine i entry tree' = some line := by
  unfold leafLine at hline ⊢
  by_cases hlong : isLong entry
  · rw [if_pos hlong, Option.map_eq_some_iff] at hline ⊢
    obtain ⟨text, htext, rfl⟩ := hline
    exact ⟨text, h _ _ htext, rfl⟩
  · rw [if_neg hlong] at hline ⊢
    exact hline

/-- A line that is there stays the same when the log and the tree grow. -/
theorem nodeLine_mono {entries entries' : List Entry} {tree tree' : Tree}
    (hentries : entries <+: entries') (htree : tree.Within tree') {n : Node}
    (hn : n.lo < entries.length) {line : String} (hline : nodeLine entries tree n = some line) :
    nodeLine entries' tree' n = some line := by
  obtain ⟨rest, rfl⟩ := hentries
  rw [nodeLine_append rest tree' hn]
  unfold nodeLine at hline ⊢
  by_cases hsize : n.size = 1
  · rw [if_pos hsize] at hline ⊢
    exact leafLine_mono htree hline
  · rw [if_neg hsize, blockLine, Option.map_eq_some_iff] at hline ⊢
    obtain ⟨text, htext, rfl⟩ := hline
    exact ⟨text, htree _ _ htext, rfl⟩

/-- The input of a node stays the same when the log and the tree grow: it is made of lines that
are already final. -/
theorem napSource_mono {entries entries' : List Entry} {tree tree' : Tree}
    (hentries : entries <+: entries') (htree : tree.Within tree') {n : Node} (hn : n.IsBlock)
    {source : String} (h : napSource entries tree n = .ok source) :
    napSource entries' tree' n = .ok source := by
  have hlen := hentries.length_le
  unfold napSource at h ⊢
  simp only at h ⊢
  split_ifs at h with hhi hsize
  · obtain ⟨rest, rfl⟩ := hentries
    have hlo : n.lo < entries.length := by
      unfold Node.size at hsize
      omega
    rw [if_neg (by omega), if_pos hsize, getElem!_append rest hlo]
    exact h
  · obtain ⟨k, m, rfl⟩ := hn
    rcases k with _ | k
    · exact absurd (size_block 0 m) hsize
    rw [if_neg (by omega), if_neg hsize]
    rw [bind_eq_ok] at h ⊢
    obtain ⟨lines, hlines, h⟩ := h
    refine ⟨lines, mapM_mono (fun half hhalf line hline => ?_) hlines, h⟩
    obtain ⟨j, hj, rfl⟩ := mem_halves hhalf
    have hlo : (block k j).lo < entries.length := by
      have hbounds := (half_bounds (k := k) hj).2
      have hlt : (block k j).lo < (block k j).hi :=
        Nat.mul_lt_mul_of_pos_right (Nat.lt_succ_self j) (Nat.two_pow_pos k)
      omega
    unfold napHalf at hline ⊢
    cases hold : nodeLine entries tree (block k j) with
    | none =>
      rw [hold] at hline
      cases hline
    | some line' =>
      rw [hold] at hline
      rw [nodeLine_mono hentries htree hlo hold]
      exact hline

theorem napPrompt_mono {entries entries' : List Entry} {tree tree' : Tree}
    (hentries : entries <+: entries') (htree : tree.Within tree') {n : Node} (hn : n.IsBlock)
    {prompt : String} (h : napPrompt entries tree n = .ok prompt) :
    napPrompt entries' tree' n = .ok prompt := by
  rw [napPrompt, bind_eq_ok] at h ⊢
  obtain ⟨source, hsource, h⟩ := h
  exact ⟨source, napSource_mono hentries htree hn hsource, h⟩

theorem Candidate.isBlock {entries : List Entry} {n : Node} (h : Candidate entries n) :
    n.IsBlock := by
  rcases h with ⟨i, -, rfl, -⟩ | ⟨k, m, rfl, -⟩
  · exact ⟨0, i, (block_zero i).symm⟩
  · exact ⟨k + 1, m, rfl⟩

/-- The records of the tree file, in the order they were written. -/
def treeRecords (J : Json) (s : Store) : List (Node × String) :=
  (completeLines (readOptional s.tree)).filterMap fun line => (parseRecord J line).toOption

/-- What a commit does to a store whose tree file was not cut short. -/
structure Committed (J : Json) (s : Store) (node : Node) (summary : String) (tree : Tree)
    (s' : Store) : Prop where
  eq_ok : s.commit J node summary = .ok (tree, s')
  tree_eq : tree = (s'.readTree J).1
  log_eq : s'.log = s.log
  whole : Lines.Whole newline (readOptional s'.tree)
  within : (s.readTree J).1.Within (s'.readTree J).1
  cases : commitDecision (s.readTree J).1 node = .taken ∧ s' = s ∨
    commitDecision (s.readTree J).1 node = .write ∧ (s.readTree J).1 node = none ∧
      (s'.readTree J).1 node = some summary ∧
      treeRecords J s' = treeRecords J s ++ [(node, summary)]

theorem committed_taken (J : Json) {s : Store} (hwhole : Lines.Whole newline (readOptional s.tree))
    {node : Node} (summary : String) {text : String} (h : (s.readTree J).1 node = some text) :
    Committed J s node summary (s.readTree J).1 s := by
  have hdecision : commitDecision (s.readTree J).1 node = .taken := by
    simp [commitDecision, Tree.containsKey, h]
  refine ⟨?_, rfl, rfl, hwhole, .refl _, .inl ⟨hdecision, rfl⟩⟩
  rw [commit]
  simp only [hdecision, pure_eq_ok]

theorem committed_write {J : Json} (hJ : J.Lawful) {s : Store}
    (hwhole : Lines.Whole newline (readOptional s.tree)) {node : Node} (hnode : node.IsBlock)
    (hhi : node.hi ≤ usizeMax) (summary : String) (hnew : (s.readTree J).1 node = none) :
    ∃ s', Committed J s node summary ((s.readTree J).1.insert node summary) s' := by
  have hlo := lo_le_usizeMax hnode hhi
  have hdecision : commitDecision (s.readTree J).1 node = .write := by
    simp [commitDecision, Tree.containsKey, hnew]
  obtain ⟨line, hline, hobject, htext, hput⟩ := put_tree hJ s hlo hhi summary
  obtain ⟨line', htext', -, -, hrecord⟩ := hJ.record_text ⟨node.lo, node.hi, summary⟩ hlo hhi
  obtain rfl : line' = line := Except.ok.inj (htext'.symm.trans htext)
  have hread : J.record line' = .ok ⟨node.lo, node.hi, summary⟩ := hrecord [] rfl
  have htree : ∀ n, (parseTree J (readOptional s.tree ++ (line' ++ [newline]))).1 n =
      ((s.readTree J).1 n).or (if node = n then some summary else none) := by
    intro n
    rw [parseTree_write hline hobject, tornTail_of_whole hwhole, List.nil_append,
      textOf_record hnode hread]
    rfl
  have hinsert : (s.readTree J).1.insert node summary =
      (parseTree J (readOptional s.tree ++ (line' ++ [newline]))).1 := by
    funext n
    rw [htree n, Tree.insert]
    by_cases hn : n = node
    · subst hn
      simp [hnew]
    · simp [hn, Ne.symm hn]
  have hparse : parseRecord J line' = .ok (node, summary) := by
    have hvalid : Node.new node.lo node.hi = .ok node := Node.new_eq_ok_iff.mpr ⟨rfl, hnode⟩
    simp only [parseRecord, hread, ok_bind, hvalid, pure_eq_ok]
  refine ⟨_, ⟨commit_write hnew hput, hinsert, rfl, ?_, ?_, .inr ⟨hdecision, hnew, ?_, ?_⟩⟩⟩
  · exact hwhole.append (Lines.whole_line hline)
  · intro n text hn
    exact (htree n).trans (by rw [hn]; rfl)
  · exact (htree node).trans (by rw [hnew, if_pos rfl]; rfl)
  · change (completeLines (readOptional s.tree ++ (line' ++ [newline]))).filterMap _ = _
    rw [completeLines_eq, lineRecords_write hline hobject, tornTail_of_whole hwhole,
      List.map_append, List.filterMap_append, ← completeLines_eq]
    simp [treeRecords, hparse, Except.toOption]

theorem exists_committed {J : Json} (hJ : J.Lawful) {s : Store}
    (hwhole : Lines.Whole newline (readOptional s.tree)) {node : Node} (hnode : node.IsBlock)
    (hhi : node.hi ≤ usizeMax) (summary : String) :
    ∃ tree s', Committed J s node summary tree s' := by
  cases hold : (s.readTree J).1 node with
  | some text => exact ⟨_, s, committed_taken J hwhole summary hold⟩
  | none => exact ⟨_, committed_write hJ hwhole hnode hhi summary hold⟩

/-- A summary that a nap wrote, and the prompt its curator was asked with. -/
structure NapRecord where
  node : Node
  prompt : String
  summary : String

/-- The store, and what the naps wrote to it. -/
structure Shared where
  store : Store
  written : List NapRecord

namespace Shared

def entries (J : Json) (s : Shared) : List Entry := (parseLog J (readOptional s.store.log)).1

def tree (J : Json) (s : Shared) : Tree := (s.store.readTree J).1

end Shared

/-- What a nap does with the node it took from its list. -/
inductive Phase
  | next
  | asking (node : Node) (prompt : String)
  | committing (node : Node) (prompt summary : String)

/-- The variables of `Store::nap` between two of its steps. -/
structure Nap where
  entries : List Entry
  tree : Tree
  todo : List Node
  phase : Phase

/-- One step of a nap, which is `none` before its snapshot and after its end. `LOCK` makes the
snapshot and the commit atomic; the `NAP` lock, which only keeps naps from running side by side,
is left out. -/
inductive NapMove (J : Json) : Shared → Option Nap → Shared → Option Nap → Prop
  | load {s : Shared} (hfits : (s.entries J).length ≤ usizeMax) :
      NapMove J s none s
        (some ⟨s.entries J, s.tree J, pending (s.entries J) (s.tree J), .next⟩)
  | skip {s : Shared} {entries : List Entry} {tree : Tree} {node : Node} {todo : List Node}
      (h : ∀ prompt, napStep entries tree node ≠ .ask prompt) :
      NapMove J s (some ⟨entries, tree, node :: todo, .next⟩) s (some ⟨entries, tree, todo, .next⟩)
  | ask {s : Shared} {entries : List Entry} {tree : Tree} {node : Node} {todo : List Node}
      {prompt : String} (h : napStep entries tree node = .ask prompt) :
      NapMove J s (some ⟨entries, tree, node :: todo, .next⟩) s
        (some ⟨entries, tree, todo, .asking node prompt⟩)
  -- `summarize` returns `None`
  | unanswered {s : Shared} {entries : List Entry} {tree : Tree} {node : Node} {todo : List Node}
      {prompt : String} :
      NapMove J s (some ⟨entries, tree, todo, .asking node prompt⟩) s
        (some ⟨entries, tree, todo, .next⟩)
  -- `summarize` returns a line of the curator or the raw fallback
  | answered {s : Shared} {entries : List Entry} {tree : Tree} {node : Node} {todo : List Node}
      {prompt : String} (summary : String) :
      NapMove J s (some ⟨entries, tree, todo, .asking node prompt⟩) s
        (some ⟨entries, tree, todo, .committing node prompt summary⟩)
  | commit {s : Shared} {entries : List Entry} {tree : Tree} {node : Node} {todo : List Node}
      {prompt summary : String} {tree' : Tree} {store : Store}
      (h : s.store.commit J node summary = .ok (tree', store)) :
      NapMove J s (some ⟨entries, tree, todo, .committing node prompt summary⟩)
        ⟨store, s.written ++
          match commitDecision (s.tree J) node with
          | .write => [⟨node, prompt, summary⟩]
          | .taken => []⟩
        (some ⟨entries, tree', todo, .next⟩)
  -- the list is empty, a call failed, or the process died
  | stop {s : Shared} {nap : Nap} : NapMove J s (some nap) s none

/-- A chat turn adds to the log while naps run. -/
inductive LogAppend (J : Json) : Shared → Shared → Prop
  | append {s : Shared} {entry : NewEntry} {store : Store} (h : s.store.append J entry = .ok store) :
      LogAppend J s ⟨store, s.written⟩

/-- The log and the tree only grow, and the tree file by what the naps wrote. -/
structure Grows (J : Json) (s s' : Shared) : Prop where
  entries : s.entries J <+: s'.entries J
  tree : (s.tree J).Within (s'.tree J)
  records : ∃ ws, s'.written = s.written ++ ws ∧
    treeRecords J s'.store = treeRecords J s.store ++ ws.map fun w => (w.node, w.summary)

/-- What holds of the store at all times. -/
structure Settled (J : Json) (s : Shared) : Prop where
  whole : Lines.Whole newline (readOptional s.store.tree)
  nodup : (s.written.map NapRecord.node).Nodup
  written : ∀ w ∈ s.written, w.node.IsBlock ∧ s.tree J w.node = some w.summary ∧
    napPrompt (s.entries J) (s.tree J) w.node = .ok w.prompt

def Phase.asked : Phase → Option (Node × String)
  | .next => none
  | .asking node prompt => some (node, prompt)
  | .committing node prompt _ => some (node, prompt)

/-- What a nap remembers is old, but final. -/
structure Nap.Stale (J : Json) (s : Shared) (nap : Nap) : Prop where
  entries : nap.entries <+: s.entries J
  tree : nap.tree.Within (s.tree J)
  todo : ∀ node ∈ nap.todo, node.IsBlock ∧ node.hi ≤ usizeMax
  asked : ∀ node prompt, nap.phase.asked = some (node, prompt) →
    node.IsBlock ∧ node.hi ≤ usizeMax ∧ napPrompt (s.entries J) (s.tree J) node = .ok prompt

/-- The invariant of a party: nothing while it does not nap. -/
def OptStale (J : Json) (s : Shared) (party : Option Nap) : Prop := ∀ nap ∈ party, nap.Stale J s

theorem Grows.refl (J : Json) (s : Shared) : Grows J s s :=
  ⟨List.prefix_rfl, .refl _, [], by simp, by simp⟩

theorem Grows.trans {J : Json} {s s' s'' : Shared} (h : Grows J s s') (h' : Grows J s' s'') :
    Grows J s s'' := by
  obtain ⟨ws, hws, hrecords⟩ := h.records
  obtain ⟨ws', hws', hrecords'⟩ := h'.records
  refine ⟨h.entries.trans h'.entries, h.tree.trans h'.tree, ws ++ ws', ?_, ?_⟩
  · rw [hws', hws, List.append_assoc]
  · rw [hrecords', hrecords, List.map_append, List.append_assoc]

theorem Nap.Stale.grows {J : Json} {s s' : Shared} (h : Grows J s s') {nap : Nap}
    (hnap : nap.Stale J s) : nap.Stale J s' := by
  refine ⟨hnap.entries.trans h.entries, hnap.tree.trans h.tree, hnap.todo, ?_⟩
  intro node prompt hasked
  obtain ⟨hnode, hhi, hprompt⟩ := hnap.asked node prompt hasked
  exact ⟨hnode, hhi, napPrompt_mono h.entries h.tree hnode hprompt⟩

theorem Nap.Stale.load (J : Json) {s : Shared} (hfits : (s.entries J).length ≤ usizeMax) :
    Nap.Stale J s ⟨s.entries J, s.tree J, pending (s.entries J) (s.tree J), .next⟩ := by
  refine ⟨List.prefix_rfl, .refl _, fun node hnode => ?_, by simp [Phase.asked]⟩
  have hcandidate := (mem_pending.mp hnode).1
  exact ⟨hcandidate.isBlock, hcandidate.hi_le.trans hfits⟩

theorem Nap.Stale.ask {J : Json} {s : Shared} {entries : List Entry} {tree : Tree} {node : Node}
    {todo : List Node} {prompt : String} (hnap : Nap.Stale J s ⟨entries, tree, node :: todo, .next⟩)
    (h : napStep entries tree node = .ask prompt) :
    Nap.Stale J s ⟨entries, tree, todo, .asking node prompt⟩ := by
  obtain ⟨hnode, htodo⟩ := List.forall_mem_cons.mp hnap.todo
  have hprompt : napPrompt entries tree node = .ok prompt := by
    unfold napStep at h
    split_ifs at h
    cases hp : napPrompt entries tree node with
    | error e => simp [hp] at h
    | ok p => simpa [hp] using h
  refine ⟨hnap.entries, hnap.tree, htodo, fun node' prompt' hasked => ?_⟩
  obtain ⟨rfl, rfl⟩ := Prod.mk.inj (Option.some.inj hasked)
  exact ⟨hnode.1, hnode.2, napPrompt_mono hnap.entries hnap.tree hnode.1 hprompt⟩

/-- What holds of the written records holds after the store has grown. -/
theorem Settled.grows {J : Json} {s s' : Shared} (hs : Settled J s) (h : Grows J s s')
    {w : NapRecord} (hw : w ∈ s.written) :
    w.node.IsBlock ∧ s'.tree J w.node = some w.summary ∧
      napPrompt (s'.entries J) (s'.tree J) w.node = .ok w.prompt := by
  obtain ⟨hnode, htree, hprompt⟩ := hs.written w hw
  exact ⟨hnode, h.tree _ _ htree, napPrompt_mono h.entries h.tree hnode hprompt⟩

theorem grows_of_committed {J : Json} {s : Shared} {node : Node} {summary : String} (prompt : String)
    {tree : Tree} {store : Store} (hc : Committed J s.store node summary tree store) :
    Grows J s ⟨store, s.written ++
      match commitDecision (s.tree J) node with
      | .write => [⟨node, prompt, summary⟩]
      | .taken => []⟩ := by
  have hentries : s.entries J = (parseLog J (readOptional store.log)).1 := by
    rw [Shared.entries, hc.log_eq]
  refine ⟨hentries ▸ List.prefix_rfl, hc.within, ?_⟩
  rcases hc.cases with ⟨hdecision, rfl⟩ | ⟨hdecision, -, -, hrecords⟩
  · exact ⟨[], by simp [Shared.tree, hdecision], by simp⟩
  · exact ⟨[⟨node, prompt, summary⟩], by simp [Shared.tree, hdecision], hrecords⟩

/-- The commit decides on the tree of the store, so it never writes a second record of a node. -/
theorem settled_of_committed {J : Json} {s : Shared} (hs : Settled J s) {node : Node}
    {prompt summary : String} {tree : Tree} {store : Store} (hnode : node.IsBlock)
    (hprompt : napPrompt (s.entries J) (s.tree J) node = .ok prompt)
    (hc : Committed J s.store node summary tree store) :
    Settled J ⟨store, s.written ++
      match commitDecision (s.tree J) node with
      | .write => [⟨node, prompt, summary⟩]
      | .taken => []⟩ := by
  have hgrows := grows_of_committed prompt hc
  rcases hc.cases with ⟨hdecision, rfl⟩ | ⟨hdecision, hnew, htext, -⟩
  · rw [Shared.tree, hdecision, List.append_nil]
    exact ⟨hc.whole, hs.nodup, hs.written⟩
  · refine ⟨hc.whole, ?_, ?_⟩
    · have hfresh : node ∉ s.written.map NapRecord.node := by
        intro hmem
        obtain ⟨w, hw, rfl⟩ := List.mem_map.mp hmem
        exact Option.some_ne_none _ ((hs.written w hw).2.1.symm.trans hnew)
      simp only [Shared.tree, hdecision, List.map_append, List.map_cons, List.map_nil]
      rw [← List.concat_eq_append]
      exact hs.nodup.concat hfresh
    · intro w hw
      simp only [Shared.tree, hdecision, List.mem_append, List.mem_singleton] at hw
      rcases hw with hw | rfl
      · exact hs.grows hgrows hw
      · exact ⟨hnode, htext, napPrompt_mono hgrows.entries hgrows.tree hnode hprompt⟩

theorem grows_of_append {J : Json} (hJ : J.Lawful) {s : Shared} {entry : NewEntry} {store : Store}
    (h : s.store.append J entry = .ok store) :
    Grows J s ⟨store, s.written⟩ ∧ store.tree = s.store.tree := by
  obtain ⟨store', happend, hlog⟩ := append_parseLog hJ s.store entry
  obtain rfl : store = store' := Except.ok.inj (h.symm.trans happend)
  have htree : store.tree = s.store.tree := by
    rw [append, bind_eq_ok] at h
    obtain ⟨line, -, h⟩ := h
    rw [← Except.ok.inj h]
  refine ⟨⟨⟨_, hlog.symm⟩, ?_, [], by simp, ?_⟩, htree⟩
  · intro node text hnode
    rw [Shared.tree, Store.readTree, htree]
    exact hnode
  · simp [treeRecords, htree]

theorem napMove_sound {J : Json} (hJ : J.Lawful) {s s' : Shared} {party party' : Option Nap}
    (hs : Settled J s) (hp : OptStale J s party) (h : NapMove J s party s' party') :
    Settled J s' ∧ OptStale J s' party' ∧ Grows J s s' := by
  cases h with
  | load hfits =>
    refine ⟨hs, ?_, .refl J s⟩
    rintro nap ⟨rfl⟩
    exact .load J hfits
  | skip _ =>
    have hnap := hp _ rfl
    refine ⟨hs, ?_, .refl J s⟩
    rintro nap ⟨rfl⟩
    exact ⟨hnap.entries, hnap.tree, (List.forall_mem_cons.mp hnap.todo).2, hnap.asked⟩
  | ask hask =>
    refine ⟨hs, ?_, .refl J s⟩
    rintro nap ⟨rfl⟩
    exact (hp _ rfl).ask hask
  | unanswered =>
    have hnap := hp _ rfl
    refine ⟨hs, ?_, .refl J s⟩
    rintro nap ⟨rfl⟩
    exact ⟨hnap.entries, hnap.tree, hnap.todo, by simp [Phase.asked]⟩
  | answered summary =>
    have hnap := hp _ rfl
    refine ⟨hs, ?_, .refl J s⟩
    rintro nap ⟨rfl⟩
    exact ⟨hnap.entries, hnap.tree, hnap.todo, hnap.asked⟩
  | @commit entries tree node todo prompt summary tree' store hcommit =>
    have hnap := hp _ rfl
    obtain ⟨hnode, hhi, hprompt⟩ := hnap.asked node prompt rfl
    obtain ⟨_, _, hc⟩ := exists_committed hJ hs.whole hnode hhi summary
    obtain ⟨rfl, rfl⟩ := Prod.mk.inj (Except.ok.inj (hcommit.symm.trans hc.eq_ok))
    have hgrows := grows_of_committed prompt hc
    refine ⟨settled_of_committed hs hnode hprompt hc, ?_, hgrows⟩
    rintro nap ⟨rfl⟩
    -- the nap goes on with the tree that the commit read, not with its own
    refine ⟨hnap.entries.trans hgrows.entries, ?_, hnap.todo, by simp [Phase.asked]⟩
    rw [hc.tree_eq]
    exact .refl _
  | stop => exact ⟨hs, by rintro nap ⟨⟩, .refl J s⟩

theorem relyGuarantee {J : Json} (hJ : J.Lawful) :
    RelyGuarantee (NapMove J) (LogAppend J) (Settled J) (OptStale J) (Grows J) where
  refl := .refl J
  trans := .trans
  stable hgrows hp nap hnap := (hp nap hnap).grows hgrows
  move := napMove_sound hJ
  outside := by
    rintro s _ hs ⟨happend⟩
    obtain ⟨hgrows, htree⟩ := grows_of_append hJ happend
    refine ⟨⟨?_, hs.nodup, fun w hw => hs.grows hgrows hw⟩, hgrows⟩
    rw [htree]
    exact hs.whole

/-- A store on which nothing naps yet. -/
def atRest {ι : Type*} (store : Store) : World ι Shared (Option Nap) := ⟨⟨store, []⟩, fun _ => none⟩

theorem settled_of_run {ι : Type*} [DecidableEq ι] {J : Json} (hJ : J.Lawful) {store : Store}
    (hwhole : Lines.Whole newline (readOptional store.tree)) {w : World ι Shared (Option Nap)}
    (run : Run (NapMove J) (LogAppend J) (atRest store) w) :
    Settled J w.shared ∧ (∀ i, OptStale J w.shared (w.party i)) ∧
      Grows J ⟨store, []⟩ w.shared := by
  have hstart : Settled J ⟨store, []⟩ := ⟨hwhole, List.nodup_nil, fun w hw => by cases hw⟩
  exact (relyGuarantee hJ).run hstart (fun i nap hnap => by cases hnap) run

/-- The first summary of a node wins, whatever the order of the steps of the naps. -/
theorem first_summary_wins {ι : Type*} [DecidableEq ι] (J : Json) (hJ : J.Lawful) (store : Store)
    (hwhole : Lines.Whole newline (readOptional store.tree)) (w w' : World ι Shared (Option Nap))
    (before : Run (NapMove J) (LogAppend J) (atRest store) w)
    (after : Run (NapMove J) (LogAppend J) w w') :
    (∀ node text, w.shared.tree J node = some text → w'.shared.tree J node = some text) ∧
    (treeRecords J w'.shared.store =
        treeRecords J store ++ w'.shared.written.map (fun r => (r.node, r.summary)) ∧
      (w'.shared.written.map NapRecord.node).Nodup) ∧
    (∀ i entries tree todo node prompt summary,
      w'.party i = some ⟨entries, tree, todo, .committing node prompt summary⟩ →
      ∃ tree' store', w'.shared.store.commit J node summary = .ok (tree', store') ∧
        tree' = (store'.readTree J).1) ∧
    ∀ r ∈ w'.shared.written,
      napPrompt (w'.shared.entries J) (w'.shared.tree J) r.node = .ok r.prompt := by
  obtain ⟨hsettled, hstale, -⟩ := settled_of_run hJ hwhole before
  obtain ⟨-, -, hgrows⟩ := (relyGuarantee hJ).run hsettled hstale after
  obtain ⟨hsettled', hstale', hstart⟩ := settled_of_run hJ hwhole (before.trans after)
  refine ⟨hgrows.tree, ⟨?_, hsettled'.nodup⟩, ?_, fun r hr => (hsettled'.written r hr).2.2⟩
  · obtain ⟨ws, hws, hrecords⟩ := hstart.records
    rw [hrecords, hws, List.nil_append]
  · intro i entries tree todo node prompt summary hparty
    obtain ⟨hnode, hhi, -⟩ := (hstale' i _ hparty).asked node prompt rfl
    obtain ⟨tree', store', hc⟩ := exists_committed hJ hsettled'.whole hnode hhi summary
    exact ⟨tree', store', hc.eq_ok, hc.tree_eq⟩

section Race

/-- Two short lines, so that their block is all that is pending. -/
def racedLines : List NewEntry := [⟨.user, "noon", "hi"⟩, ⟨.assistant, "noon", "hello"⟩]

def racedNode : Node := ⟨0, 2⟩

def racedStore : Store :=
  ⟨some (racedLines.flatMap fun e => CompactJson.entryBytes e ++ [newline]), none, none, none⟩

def racedPrompt : String :=
  promptRules ++ "<input>\n#0 user noon hi\n#1 assistant noon hello\n</input>"

/-- The store behind the commit that came first. -/
def wonStore : Store :=
  let tree := some (CompactJson.recordBytes ⟨0, 2, "greeted"⟩ ++ [newline])
  { racedStore with tree, treeIndex := updated (nodeSlot CompactJson.compactJson) tree none }

def wonTree : Tree := Tree.empty.insert racedNode "greeted"

theorem parseLog_entryBytes (es : List NewEntry) :
    (parseLog CompactJson.compactJson
      (es.flatMap fun e => CompactJson.entryBytes e ++ [newline])).1 = es.map NewEntry.read := by
  rw [parseLog_fst]
  generalize 0 = base
  induction es generalizing base with
  | nil => rfl
  | cons e es ih =>
    obtain ⟨line, htext, hline, hobject, hentry⟩ := CompactJson.compactJson_lawful.entry_text e
    obtain rfl : CompactJson.entryBytes e = line := Except.ok.inj htext
    have hblank : blank (CompactJson.entryBytes e) = false := blank_append_object hobject []
    rw [List.flatMap_cons, List.append_assoc, List.singleton_append, lineRecords_line_append hline,
      hblank, List.map_append, ih]
    simp [Json.readEntry, hentry]

theorem entries_racedStore (written : List NapRecord) :
    Shared.entries CompactJson.compactJson ⟨racedStore, written⟩ = racedLines.map NewEntry.read :=
  parseLog_entryBytes racedLines

theorem pending_raced : pending (racedLines.map NewEntry.read) Tree.empty = [racedNode] := by
  have hmem : ∀ n, n ∈ pending (racedLines.map NewEntry.read) Tree.empty ↔ n ∈ [racedNode] := by
    intro n
    rw [mem_pending, List.mem_singleton]
    constructor
    · rintro ⟨⟨i, entry, -, hentry, hlong⟩ | ⟨k, m, rfl, hhi, -⟩, -⟩
      · have hshort : ∀ entry ∈ racedLines.map NewEntry.read, isLong entry = false := by decide
        rw [hshort entry (List.mem_of_getElem? hentry)] at hlong
        cases hlong
      · have hbound : (m + 1) * 2 ^ (k + 1) ≤ 2 := hhi
        have hpow : k + 1 < 2 ^ (k + 1) := Nat.lt_two_pow_self
        have hle : 2 ^ (k + 1) ≤ (m + 1) * 2 ^ (k + 1) := Nat.le_mul_of_pos_left _ m.succ_pos
        obtain rfl : k = 0 := by omega
        obtain rfl : m = 0 := by omega
        rfl
    · rintro rfl
      refine ⟨.inr ⟨0, 0, rfl, le_rfl, fun i entry _ _ hentry => ?_⟩, rfl⟩
      have hwhole : ∀ entry ∈ racedLines.map NewEntry.read, entry.corrupt = false := by decide
      simp [hwhole entry (List.mem_of_getElem? hentry)]
  exact List.perm_singleton.1 ((List.perm_ext_iff_of_nodup (nodup_pending _ _) (List.nodup_singleton _)).2 hmem)

theorem napStep_raced :
    napStep (racedLines.map NewEntry.read) Tree.empty racedNode = .ask racedPrompt := by
  decide +kernel

/-- Two naps on one store. -/
def bothNaps (first second : Option Nap) : Bool → Option Nap
  | false => first
  | true => second

/-- A nap that took its snapshot, asked for the block and has an answer. -/
def holding (summary : String) : Option Nap :=
  some ⟨racedLines.map NewEntry.read, Tree.empty, [], .committing racedNode racedPrompt summary⟩

/-- A nap behind its commit. -/
def committedNap : Option Nap := some ⟨racedLines.map NewEntry.read, wonTree, [], .next⟩

def won : Shared := ⟨wonStore, [⟨racedNode, racedPrompt, "greeted"⟩]⟩

/-- Both naps want to commit, one of them has, both have. -/
def askedNaps : World Bool Shared (Option Nap) :=
  ⟨⟨racedStore, []⟩, bothNaps (holding "greeted") (holding "said hello")⟩

def wonNaps : World Bool Shared (Option Nap) := ⟨won, bothNaps committedNap (holding "said hello")⟩

def racedNaps : World Bool Shared (Option Nap) := ⟨won, bothNaps committedNap committedNap⟩

section Moves

variable {J : Json} {s s' : Shared} {a a' b b' : Option Nap}

theorem first_moves (h : NapMove J s a s' a') :
    Step (NapMove J) (LogAppend J) ⟨s, bothNaps a b⟩ ⟨s', bothNaps a' b⟩ := by
  have hparty : bothNaps a' b = Function.update (bothNaps a b) false a' := by
    funext second
    cases second <;> rfl
  rw [hparty]
  exact Step.move (w := ⟨s, bothNaps a b⟩) false h

theorem second_moves (h : NapMove J s b s' b') :
    Step (NapMove J) (LogAppend J) ⟨s, bothNaps a b⟩ ⟨s', bothNaps a b'⟩ := by
  have hparty : bothNaps a b' = Function.update (bothNaps a b) true b' := by
    funext second
    cases second <;> rfl
  rw [hparty]
  exact Step.move (w := ⟨s, bothNaps a b⟩) true h

end Moves

theorem committed_raced :
    Committed CompactJson.compactJson racedStore racedNode "greeted" wonTree wonStore := by
  have hnode : racedNode.IsBlock := ⟨1, 0, rfl⟩
  obtain ⟨s', hc⟩ := committed_write (s := racedStore) CompactJson.compactJson_lawful
    (Lines.whole_nil newline) hnode (by decide) "greeted" rfl
  have hput : racedStore.put CompactJson.compactJson racedNode "greeted" =
      .ok { racedStore with tree := wonStore.tree } := rfl
  have hcommit : racedStore.commit CompactJson.compactJson racedNode "greeted" =
      .ok (wonTree, wonStore) := commit_write rfl hput
  obtain ⟨htree, rfl⟩ := Prod.mk.inj (Except.ok.inj (hc.eq_ok.symm.trans hcommit))
  exact hc

theorem readTree_wonStore : (wonStore.readTree CompactJson.compactJson).1 = wonTree :=
  committed_raced.tree_eq.symm

theorem run_asked : Run (NapMove CompactJson.compactJson) (LogAppend CompactJson.compactJson)
    (atRest racedStore) askedNaps := by
  have hload : NapMove CompactJson.compactJson ⟨racedStore, []⟩ none ⟨racedStore, []⟩
      (some ⟨racedLines.map NewEntry.read, Tree.empty, [racedNode], .next⟩) := by
    have hentries := entries_racedStore []
    have hload := NapMove.load (J := CompactJson.compactJson) (s := ⟨racedStore, []⟩)
      (by rw [hentries]; decide)
    have htree : Shared.tree CompactJson.compactJson ⟨racedStore, []⟩ = Tree.empty := rfl
    rwa [hentries, htree, pending_raced] at hload
  have hrest : (atRest racedStore : World Bool Shared (Option Nap)) =
      ⟨⟨racedStore, []⟩, bothNaps none none⟩ := by
    rw [atRest]
    congr 1
    funext second
    cases second <;> rfl
  rw [hrest]
  refine .head (first_moves hload) (.head (second_moves hload) ?_)
  refine .head (second_moves (.ask napStep_raced)) (.head (first_moves (.ask napStep_raced)) ?_)
  exact .head (first_moves (.answered "greeted")) (.single (second_moves (.answered "said hello")))

theorem run_won : Run (NapMove CompactJson.compactJson) (LogAppend CompactJson.compactJson)
    askedNaps wonNaps := .single (first_moves (.commit committed_raced.eq_ok))

theorem tree_won : won.tree CompactJson.compactJson = wonTree := readTree_wonStore

/-- The second commit finds the text of the first and writes nothing. -/
theorem run_raced : Run (NapMove CompactJson.compactJson) (LogAppend CompactJson.compactJson)
    wonNaps racedNaps := by
  have hfound : won.tree CompactJson.compactJson racedNode = some "greeted" := by
    rw [tree_won]
    rfl
  have hdecision : commitDecision (won.tree CompactJson.compactJson) racedNode = .taken := by
    simp [commitDecision, Tree.containsKey, hfound]
  have htaken := @NapMove.commit CompactJson.compactJson won (racedLines.map NewEntry.read)
    Tree.empty racedNode [] racedPrompt "said hello" _ _
    (committed_taken CompactJson.compactJson committed_raced.whole "said hello" hfound).eq_ok
  rw [hdecision, readTree_wonStore] at htaken
  exact .single (second_moves htaken)

/-- Two naps ask for the same block, and the commit of the second is on a store that has it. -/
theorem first_summary_wins_race :
    racedNaps.shared.tree CompactJson.compactJson racedNode = some "greeted" ∧
    treeRecords CompactJson.compactJson racedNaps.shared.store = [(racedNode, "greeted")] ∧
    (∃ tree' store', wonStore.commit CompactJson.compactJson racedNode "said hello" =
      .ok (tree', store') ∧ tree' = (store'.readTree CompactJson.compactJson).1) ∧
    napPrompt (racedNaps.shared.entries CompactJson.compactJson)
      (racedNaps.shared.tree CompactJson.compactJson) racedNode = .ok racedPrompt := by
  have hwhole : Lines.Whole newline (readOptional racedStore.tree) := Lines.whole_nil newline
  obtain ⟨-, -, hcommits, -⟩ := first_summary_wins CompactJson.compactJson
    CompactJson.compactJson_lawful racedStore hwhole askedNaps wonNaps run_asked run_won
  obtain ⟨htexts, ⟨hrecords, -⟩, -, hprompts⟩ := first_summary_wins CompactJson.compactJson
    CompactJson.compactJson_lawful racedStore hwhole wonNaps racedNaps (run_asked.trans run_won)
    run_raced
  refine ⟨htexts racedNode "greeted" ?_, hrecords, hcommits true _ _ _ _ _ _ rfl,
    hprompts _ (List.mem_singleton_self _)⟩
  exact congrFun tree_won racedNode

end Race

end Ralph.ChatMemory
