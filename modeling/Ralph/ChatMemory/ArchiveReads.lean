import Ralph.ChatMemory.ArchiveLoad
import Ralph.Text

namespace Ralph.ChatMemory
open Fallible Node

/-- The window of entries `[start, stop)` that a read loads. -/
def Window.part (entries : List Entry) (start stop : ℕ) : Window :=
  ⟨start, entries.length, (entries.take stop).drop start⟩

@[simp] theorem Window.total_part (entries : List Entry) (start stop : ℕ) :
    (Window.part entries start stop).total = entries.length := rfl

@[simp] theorem Window.total_full (entries : List Entry) :
    (Window.full entries).total = entries.length := rfl

theorem Window.get_full (entries : List Entry) (i : ℕ) :
    (Window.full entries).get i = entries[i]? := by
  simp [Window.get, Window.full]

theorem Window.get_part (entries : List Entry) {start i : ℕ} (stop : ℕ) (h : start ≤ i) :
    (Window.part entries start stop).get i = if i < stop then entries[i]? else none := by
  rw [Window.get, Window.part, if_neg (by simp only; omega), List.getElem?_drop,
    Nat.add_sub_cancel' h, List.getElem?_take]

/-- The cursor that passes the checks of `read_range`. -/
theorem checkRequest_ok {request : RangeRequest} {len : ℕ} {c : Cursor}
    (h : checkRequest request len = .ok c) :
    c.next = request.cursor.elim request.from_ Cursor.next ∧ c.next < c.stop ∧
      c.stop ≤ rangeLimit request.to_ len := by
  unfold checkRequest at h
  split_ifs at h with h1 h2 h3
  unfold startCursor at h
  cases hc : request.cursor with
  | none =>
    simp only [hc, Except.ok.injEq] at h
    subst h
    exact ⟨rfl, by simp only [rangeLimit]; omega, le_rfl⟩
  | some cursor =>
    simp only [hc, bind_eq_ok, pure_eq_ok, Except.ok.injEq] at h
    obtain ⟨_, hvalid, rfl⟩ := h
    unfold validateCursor at hvalid
    split_ifs at hvalid with h4 h5 h6
    simp only at h5 h6
    exact ⟨rfl, by omega, by omega⟩

theorem Page.roundOf_ne_more {entry : Entry} {text : String} {p : Page} :
    Page.roundOf entry text p ≠ .inr (.ok .more) := by
  unfold Page.roundOf
  simp only
  split_ifs <;> simp [Page.finish]

/-- A window that holds the whole range never asks for more. -/
theorem run_full_ne_more (entries : List Entry) (tree : Tree) (mode : Mode) (p : Page)
    (hp : p.cursor.stop ≤ entries.length) :
    (Page.body (Window.full entries) tree mode).run p ≠ .ok .more := by
  refine (Page.body _ tree mode).run_of_invariant
    (I := fun p => p.cursor.stop ≤ entries.length) (Q := fun r => r ≠ .ok .more) ?_ ?_ hp
  · intro p q hp hq
    rw [(Page.round_inl hq).2]
    exact hp
  · rintro p r hp hr rfl
    simp only [Page.body, Page.round] at hr
    split_ifs at hr with hlt
    · rw [Window.get_full, List.getElem?_eq_getElem (by omega)] at hr
      exact Page.roundOf_ne_more hr
    · simp [Page.finish] at hr

/-- Two trees that show the entries of `[start, stop)` alike. -/
def SameView (entries : List Entry) (start stop : ℕ) (mode : Mode) (part tree : Tree) : Prop :=
  ∀ i entry, start ≤ i → i < stop → entries[i]? = some entry →
    viewText entry part i mode = viewText entry tree i mode

/-- A round over a part of the log is the round over the whole log, or asks for more. -/
theorem round_part {entries : List Entry} {start stop : ℕ} {mode : Mode} {part tree : Tree}
    (hview : SameView entries start stop mode part tree) {p : Page} (hp : start ≤ p.cursor.next)
    (hstop : p.cursor.stop ≤ entries.length) :
    Page.round (Window.part entries start stop) part mode p =
        Page.round (Window.full entries) tree mode p ∨
      (Page.round (Window.part entries start stop) part mode p = .inr (.ok .more) ∧
        stop < entries.length) := by
  unfold Page.round
  split_ifs with hlt
  · rw [Window.get_part entries stop hp, Window.get_full]
    split_ifs with hin
    · left
      rw [List.getElem?_eq_getElem (by omega)]
      simp only
      rw [hview _ _ hp hin (List.getElem?_eq_getElem (by omega))]
    · exact .inr ⟨rfl, by omega⟩
  · exact .inl rfl

theorem run_part {entries : List Entry} {start stop : ℕ} {mode : Mode} {part tree : Tree}
    (hview : SameView entries start stop mode part tree) (p : Page) (hp : start ≤ p.cursor.next)
    (hstop : p.cursor.stop ≤ entries.length) :
    (Page.body (Window.part entries start stop) part mode).run p =
        (Page.body (Window.full entries) tree mode).run p ∨
      ((Page.body (Window.part entries start stop) part mode).run p = .ok .more ∧
        stop < entries.length) := by
  revert hp hstop
  refine (Page.body (Window.part entries start stop) part mode).run_induction
    (fun p r => start ≤ p.cursor.next → p.cursor.stop ≤ entries.length →
      r = (Page.body (Window.full entries) tree mode).run p ∨
        (r = .ok .more ∧ stop < entries.length)) ?_ ?_ p
  · intro p r hr hp hstop
    have hr' : Page.round (Window.part entries start stop) part mode p = .inr r := hr
    rcases round_part hview hp hstop with h | ⟨h, hlt⟩
    · exact .inl ((Page.body _ tree mode).run_of_done (h.symm.trans hr')).symm
    · exact .inr ⟨Sum.inr.inj (hr'.symm.trans h), hlt⟩
  · intro p q r hq ih hp hstop
    have hq' : Page.round (Window.part entries start stop) part mode p = .inl q := hq
    have hcursor := (Page.round_inl hq').2
    rcases round_part hview hp hstop with h | ⟨h, -⟩
    · rw [(Page.body (Window.full entries) tree mode).run_of_again (h.symm.trans hq')]
      exact ih (by rw [hcursor]; exact Nat.le_succ_of_le hp) (by rw [hcursor]; exact hstop)
    · rw [h] at hq'
      cases hq'

/-- A read over a part of the log gives the page or the error of a read over the whole log,
or asks for more while there is more to load. -/
theorem readRange_part {entries : List Entry} {stop : ℕ} {part tree : Tree} (request : RangeRequest)
    (hview : SameView entries (min (request.cursor.elim request.from_ Cursor.next) entries.length)
      stop request.mode part tree) :
    readRange (Window.part entries
        (min (request.cursor.elim request.from_ Cursor.next) entries.length) stop) part request =
        readRange (Window.full entries) tree request ∨
      (readRange (Window.part entries
          (min (request.cursor.elim request.from_ Cursor.next) entries.length) stop) part request =
        .ok .more ∧ stop < entries.length) := by
  simp only [readRange, Window.total_part, Window.total_full]
  cases hc : checkRequest request entries.length with
  | error m => simp only [error_bind, true_or]
  | ok c =>
    obtain ⟨hnext, -, hlimit⟩ := checkRequest_ok hc
    simp only [ok_bind]
    exact run_part hview _ (by simp only; omega) (hlimit.trans (min_le_right _ _))

theorem readRange_full_ne_more (entries : List Entry) (tree : Tree) (request : RangeRequest) :
    readRange (Window.full entries) tree request ≠ .ok .more := by
  rw [readRange, Window.total_full]
  cases hc : checkRequest request entries.length with
  | error m => simp
  | ok c =>
    obtain ⟨-, -, hlimit⟩ := checkRequest_ok hc
    rw [ok_bind]
    exact run_full_ne_more entries tree _ _ (hlimit.trans (min_le_right _ _))

/-- Raw reads need no summary, and a summary read asks for every long entry it loaded. -/
theorem sameView_loaded {entries : List Entry} {start stop : ℕ} {mode : Mode} {part tree : Tree}
    (h : mode = .summary → ∀ n, part n =
      if n ∈ longLeaves start ((entries.take stop).drop start) then tree n else none) :
    SameView entries start stop mode part tree := by
  intro i entry hstart hstop hentry
  unfold viewText
  split_ifs with hshort
  · rfl
  · rw [not_or, not_le] at hshort
    have hmode : mode = .summary := by cases mode <;> simp_all
    have hmem : Node.leaf i ∈ longLeaves start ((entries.take stop).drop start) := by
      refine List.mem_map.mpr ⟨(entry, i), List.mem_filter.mpr ⟨?_, by simpa using hshort.2⟩, rfl⟩
      rw [List.mem_zipIdx_iff_le_and_getElem?_sub]
      refine ⟨hstart, ?_⟩
      rw [List.getElem?_drop, List.getElem?_take, Nat.add_sub_cancel' hstart, if_pos hstop]
      exact hentry
    rw [h hmode, if_pos hmem]

theorem length_parseLog (J : Json) (log : Bytes) :
    (parseLog J log).1.length = (Index.build logSlot log).count := by
  rw [count_logIndex, parseLog_fst, List.length_map]

/-- A source of summaries that answers like `tree`, on the asked nodes. -/
def Answers (nodes : List Node → Except IoError Tree) (tree : Tree) : Prop :=
  ∀ wanted, ∃ part, nodes wanted = .ok part ∧ ∀ n, part n = if n ∈ wanted then tree n else none

theorem loadPart_build (J : Json) (log : Bytes) {nodes : List Node → Except IoError Tree}
    {tree : Tree} (hnodes : Answers nodes tree) (mode : Mode) (notes : Notes) (start : ℕ) {stop : ℕ}
    (hstop : stop ≤ (parseLog J log).1.length) :
    ∃ part notes', loadPart J log (Index.build logSlot log) nodes mode notes start stop =
        .ok (((parseLog J log).1.take stop).drop start, notes', part) ∧
      SameView (parseLog J log).1 start stop mode part tree := by
  rw [length_parseLog, count_logIndex] at hstop
  obtain ⟨notes', hload⟩ := load_logIndex J log notes start hstop
  simp only [loadPart, hload, ok_bind]
  cases mode with
  | raw => exact ⟨Tree.empty, notes', rfl, sameView_loaded (by simp)⟩
  | summary =>
    obtain ⟨part, hpart, hn⟩ := hnodes (longLeaves start (((parseLog J log).1.take stop).drop start))
    refine ⟨part, notes', ?_, sameView_loaded fun _ => hn⟩
    rw [pageTree, hpart]
    rfl

/-- What the loop of `read_page` hands back: the answer of a read over the whole log. -/
theorem pageRound_done {J : Json} {log : Bytes} {nodes : List Node → Except IoError Tree}
    {tree : Tree} (hnodes : Answers nodes tree) (request : RangeRequest)
    {count : {n : ℕ // 0 < n}} {notes : Notes} {r : PageAnswer}
    (h : pageRound J log (Index.build logSlot log) nodes request
      (min (request.cursor.elim request.from_ Cursor.next) (parseLog J log).1.length) count notes =
        .inr r) :
    ∃ answer notes', r = .ok (answer, notes') ∧
      readRange (Window.full (parseLog J log).1) tree request = answer.map Read.page := by
  obtain ⟨part, notes', hload, hview⟩ := loadPart_build J log hnodes request.mode notes
    (min (request.cursor.elim request.from_ Cursor.next) (parseLog J log).1.length)
    (min_le_right (min (request.cursor.elim request.from_ Cursor.next) (parseLog J log).1.length +
      count) (parseLog J log).1.length)
  have hpage := readRange_part request hview
  have hmore := readRange_full_ne_more (parseLog J log).1 tree request
  simp only [pageRound, ← length_parseLog J, hload] at h
  rw [← Window.part] at h
  rcases hpage with hpage | ⟨hpage, hlt⟩
  · rw [hpage] at h
    split at h
    · next page hpage => exact ⟨.ok page, notes', (Sum.inr.inj h).symm, hpage⟩
    · next hpage => exact absurd hpage hmore
    · next message hmessage => exact ⟨.error message, notes', (Sum.inr.inj h).symm, hmessage⟩
  · rw [hpage] at h
    simp only [if_pos hlt] at h
    cases h

theorem readPage_build (J : Json) (log : Bytes) {nodes : List Node → Except IoError Tree}
    {tree : Tree} (hnodes : Answers nodes tree) (notes : Notes) (request : RangeRequest) :
    ∃ answer notes', readPage J log (Index.build logSlot log) nodes notes request =
        .ok (answer, notes') ∧
      readRange (Window.full (parseLog J log).1) tree request = answer.map Read.page := by
  unfold readPage
  simp only [← length_parseLog J]
  refine (pageBody J log (Index.build logSlot log) nodes request _).run_of_invariant
    (I := fun _ => True) (Q := fun r => ∃ answer notes', r = .ok (answer, notes') ∧
      readRange (Window.full (parseLog J log).1) tree request = answer.map Read.page)
    (fun _ _ _ _ => trivial) ?_ trivial
  rintro ⟨count, notes⟩ r - hr
  exact pageRound_done hnodes request hr

theorem ne_missedRange {s : String} (h : s.toList.head? ≠ some 't') : s ≠ missedRange := by
  rintro rfl
  exact h rfl

theorem checkRequest_ne_missedRange (request : RangeRequest) (len : ℕ) :
    checkRequest request len ≠ .error missedRange := by
  have hvalid : ∀ cursor bounds, validateCursor cursor bounds ≠ .error missedRange := by
    intro cursor bounds h
    unfold validateCursor at h
    split_ifs at h
    all_goals exact ne_missedRange (by simp [String.toList_append]) (Except.error.inj h)
  have hstart : startCursor request len ≠ .error missedRange := by
    unfold startCursor
    cases request.cursor with
    | none => simp
    | some cursor =>
      have hc := hvalid cursor ⟨request.from_, rangeLimit request.to_ len, len, request.mode⟩
      simp only
      cases hv : validateCursor cursor ⟨request.from_, rangeLimit request.to_ len, len, request.mode⟩ with
      | error e => simpa [hv] using hc
      | ok => simp
  intro h
  unfold checkRequest at h
  split_ifs at h
  · exact ne_missedRange (by simp [String.toList_append]) (Except.error.inj h)
  · exact ne_missedRange (by simp [String.toList_append]) (Except.error.inj h)
  · exact hstart h
  · exact ne_missedRange (by simp [String.toList_append]) (Except.error.inj h)

/-- No refusal of `read_range` reads like a window that missed its range. -/
theorem readRange_ne_missedRange (window : Window) (tree : Tree) (request : RangeRequest) :
    readRange window tree request ≠ .error missedRange := by
  rw [readRange]
  cases hc : checkRequest request window.total with
  | error e => simpa [hc] using checkRequest_ne_missedRange request window.total
  | ok cursor =>
    refine (Page.body window tree request.mode).run_of_invariant (I := fun _ => True)
      (Q := fun r => r ≠ .error missedRange) (fun _ _ _ _ => trivial) ?_ trivial
    rintro p r - hr rfl
    simp only [Page.body, Page.round] at hr
    split_ifs at hr
    · split at hr
      · simp at hr
      · unfold Page.roundOf at hr
        simp only at hr
        split_ifs at hr <;> simp only [Sum.inr.injEq, reduceCtorEq, Page.finish] at hr
        exact ne_missedRange (by simp [String.toList_append]) (Except.error.inj hr)
    · simp [Page.finish] at hr

theorem zoomEntry_part {entries : List Entry} {start stop i : ℕ} (hstart : start ≤ i)
    (hstop : i < stop) :
    zoomEntry (Window.part entries start stop) i = zoomEntry (Window.full entries) i := by
  rw [zoomEntry, zoomEntry, Window.get_part entries stop hstart, Window.get_full, if_pos hstop]

/-- `zoom` needs the entries of a leaf or a pair, and the summaries of the two halves. -/
theorem zoom_part {entries : List Entry} {part tree : Tree} {node : Node} (hnode : node.IsBlock)
    (hpart : node.size > 1 → ∀ n ∈ [node.halves.1, node.halves.2], part n = tree n) :
    zoom (Window.part entries (zoomEntries node entries.length).1
        (zoomEntries node entries.length).2) part node =
      zoom (Window.full entries) tree node := by
  obtain ⟨k, m, rfl⟩ := hnode
  unfold zoom
  simp only [Window.total_part, Window.total_full, size_block] at hpart ⊢
  by_cases hbeyond : (block k m).lo ≥ entries.length
  · rw [if_pos hbeyond, if_pos hbeyond]
  rw [if_neg hbeyond, if_neg hbeyond]
  rcases k with _ | k
  · have hlo : (block 0 m).lo < (zoomEntries (block 0 m) entries.length).2 := by
      simp only [block_zero, leaf, zoomEntries, Node.size] at hbeyond ⊢
      rw [if_pos (by omega)]
      omega
    have hle : (zoomEntries (block 0 m) entries.length).1 ≤ (block 0 m).lo := min_le_left _ _
    rw [if_pos (pow_zero 2), if_pos (pow_zero 2), zoomEntry_part hle hlo]
  · have hpow := Nat.one_lt_two_pow (Nat.succ_ne_zero k)
    rw [if_neg (by omega), if_neg (by omega)]
    refine mapM_congr fun half hmem => ?_
    obtain ⟨hhalf, hlt⟩ := List.mem_filter.mp hmem
    have htree := hpart hpow half hhalf
    replace hlt := of_decide_eq_true hlt
    obtain ⟨j, hj, rfl⟩ : ∃ j, (j = 2 * m ∨ j = 2 * m + 1) ∧ half = block k j := by
      rw [halves_block] at hhalf
      rcases List.mem_pair.mp hhalf with rfl | rfl
      · exact ⟨2 * m, .inl rfl, rfl⟩
      · exact ⟨2 * m + 1, .inr rfl, rfl⟩
    unfold zoomHalf
    rcases k with _ | k
    · rw [block_zero] at htree hlt ⊢
      have hpair : zoomEntries (block 1 m) entries.length =
          (min (m * 2) entries.length, min ((m + 1) * 2) entries.length) := by
        have htwo : (block 1 m).size ≤ 2 := by simp
        simp only [zoomEntries, if_pos htwo]
        simp only [block, pow_one]
      have hentry : zoomEntry (Window.part entries (zoomEntries (block 1 m) entries.length).1
            (zoomEntries (block 1 m) entries.length).2) (leaf j).lo =
          zoomEntry (Window.full entries) (leaf j).lo := by
        rw [hpair]
        refine zoomEntry_part ?_ ?_ <;> simp only [leaf] at hlt ⊢ <;> omega
      rw [if_pos (size_leaf j), if_pos (size_leaf j), hentry]
      simp only [leafLine, show (leaf j).lo = j from rfl, htree]
    · have hsize : (block (k + 1) j).size ≠ 1 := by
        rw [size_block]
        exact (Nat.one_lt_two_pow (Nat.succ_ne_zero k)).ne'
      rw [if_neg hsize, if_neg hsize, blockLine, blockLine, htree]

theorem zoomNode_build (J : Json) (log : Bytes) {nodes : List Node → Except IoError Tree}
    {tree : Tree} (hnodes : Answers nodes tree) (notes : Notes) {node : Node} (hnode : node.IsBlock) :
    ∃ notes', zoomNode J log (Index.build logSlot log) nodes notes node =
      .ok (zoom (Window.full (parseLog J log).1) tree node, notes') := by
  have hstop : (zoomEntries node (parseLog J log).1.length).2 ≤ (lineRecords 0 log).length := by
    rw [length_parseLog, count_logIndex]
    simp only [zoomEntries]
    split_ifs <;> exact min_le_right _ _
  obtain ⟨notes', hload⟩ := load_logIndex J log notes
    (zoomEntries node (parseLog J log).1.length).1 hstop
  obtain ⟨part, hpart, hn⟩ := hnodes [node.halves.1, node.halves.2]
  refine ⟨notes', ?_⟩
  simp only [zoomNode, ← length_parseLog J, hload, ok_bind]
  split_ifs with hsize
  · rw [hpart, ok_bind, ← Window.part, zoom_part hnode fun _ n hmem => ?_]
    · rfl
    · rw [hn, if_pos hmem]
  · rw [pure_eq_ok, ok_bind, ← Window.part, zoom_part hnode fun h => absurd h hsize]
    rfl

/-- Both indexes of an archive are those of its files. -/
structure Archive.Current (J : Json) (a : Archive) : Prop where
  log : a.logIndex = Index.build logSlot a.log
  tree : a.treeIndex = Index.build (nodeSlot J) a.tree

/-- The index that a writer stored when the file was `k` bytes long, if one did. -/
def storedAt {S : Type} (K : Slot S) (file : Bytes) (k : Option ℕ) : Option (Index S) :=
  k.map fun k => Index.empty.extend K (file.take k)

theorem Archive.open_storedAt (J : Json) (log tree : Bytes) (kLog kTree : Option ℕ) :
    ∃ a, Archive.open_ J log (storedAt logSlot log kLog) tree (storedAt (nodeSlot J) tree kTree) =
      .ok a ∧ a.log = log ∧ a.tree = tree ∧ a.Current J := by
  have hstored : ∀ {S : Type} (K : Slot S) (file : Bytes) (k : Option ℕ) (index : Index S),
      storedAt K file k = some index → ∃ k, index = Index.build K (file.take k) := by
    rintro S K file k index h
    obtain ⟨k, -, rfl⟩ := Option.map_eq_some_iff.mp h
    exact ⟨k, rfl⟩
  obtain ⟨logHow, hlog⟩ := refresh_fst (hstored logSlot log kLog)
  obtain ⟨treeHow, htree⟩ := refresh_fst (hstored (nodeSlot J) tree kTree)
  refine ⟨⟨log, Index.build logSlot log, tree, Index.build (nodeSlot J) tree,
    ⟨logHow ≠ .fresh, treeHow ≠ .fresh⟩, []⟩, ?_, rfl, rfl, ⟨rfl, rfl⟩⟩
  simp only [open_, hlog, htree, ok_bind, pure_eq_ok]

theorem Archive.Current.answers {J : Json} {a : Archive} (h : a.Current J) :
    Answers (indexedNodes J a.tree a.treeIndex) (parseTree J a.tree).1 := by
  rw [h.tree]
  exact indexedNodes_build J a.tree

theorem Archive.Current.read {J : Json} {a : Archive} (h : a.Current J) (request : RangeRequest) :
    ∃ answer notes, a.read J request = .ok (answer, { a with notes := notes }) ∧
      readRange (Window.full (parseLog J a.log).1) (parseTree J a.tree).1 request =
        answer.map Read.page := by
  obtain ⟨answer, notes, hpage, hanswer⟩ := readPage_build J a.log h.answers a.notes request
  refine ⟨answer, notes, ?_, hanswer⟩
  rw [Archive.read, retry, h.log, hpage]

theorem Archive.Current.zoom {J : Json} {a : Archive} (h : a.Current J) {node : Node}
    (hnode : node.IsBlock) :
    ∃ notes, a.zoom J node = .ok (ChatMemory.zoom (Window.full (parseLog J a.log).1)
      (parseTree J a.tree).1 node, { a with notes := notes }) := by
  obtain ⟨notes, hzoom⟩ := zoomNode_build J a.log h.answers a.notes hnode
  refine ⟨notes, ?_⟩
  rw [Archive.zoom, retry, h.log, hzoom]

/-- A node that `Node::new` accepts. -/
abbrev Block := {node : Node // node.IsBlock}

/-- Indexed reads answer like reads over the whole parsed files, whatever earlier index was
stored, and the page loop never runs out of window. -/
theorem indexed_reads_agree (J : Json) (log tree : Bytes) (kLog kTree : Option ℕ) :
    ∃ a, Archive.open_ J log (storedAt logSlot log kLog) tree (storedAt (nodeSlot J) tree kTree) =
        .ok a ∧
      (∀ request, ∃ answer a', a.read J request = .ok (answer, a') ∧
        readRange (Window.full (parseLog J log).1) (parseTree J tree).1 request =
          answer.map Read.page ∧
        answer ≠ .error missedRange) ∧
      ∀ node : Block, ∃ a', a.zoom J node =
        .ok (zoom (Window.full (parseLog J log).1) (parseTree J tree).1 node, a') := by
  obtain ⟨a, hopen, rfl, rfl, hcurrent⟩ := Archive.open_storedAt J log tree kLog kTree
  refine ⟨a, hopen, fun request => ?_, fun node => ?_⟩
  · obtain ⟨answer, notes, hread, hanswer⟩ := hcurrent.read request
    refine ⟨answer, _, hread, hanswer, ?_⟩
    rintro rfl
    exact readRange_ne_missedRange _ _ _ hanswer
  · obtain ⟨notes, hzoom⟩ := hcurrent.zoom node.2
    exact ⟨_, hzoom⟩

end Ralph.ChatMemory
