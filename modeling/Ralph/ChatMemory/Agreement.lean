import Ralph.ChatMemory.Tools
import Ralph.ChatMemory.ViewTiles

namespace Ralph.ChatMemory
open Fallible Node Splice Tiling

/-- The trees have the same summaries for every block that ends by `t`. -/
def SameUpTo (t : ℕ) (tree tree' : Tree) : Prop := ∀ node : Node, node.hi ≤ t → tree node = tree' node

namespace SameUpTo

variable {t : ℕ} {tree tree' : Tree} (h : SameUpTo t tree tree') (entries : List Entry)
include h

theorem leafLine (i : ℕ) (hi : i < t) (entry : Entry) :
    leafLine i entry tree = leafLine i entry tree' := by
  rw [ChatMemory.leafLine, ChatMemory.leafLine, h (leaf i) hi]

theorem blockLine {node : Node} (hnode : node.hi ≤ t) : blockLine tree node = blockLine tree' node := by
  rw [ChatMemory.blockLine, ChatMemory.blockLine, h node hnode]

theorem nodeLine {node : Node} (hnode : node.hi ≤ t) :
    nodeLine entries tree node = nodeLine entries tree' node := by
  unfold ChatMemory.nodeLine
  split_ifs with hsize
  · rw [leaf_of_size hsize] at hnode ⊢
    exact h.leafLine _ hnode _
  · exact h.blockLine hnode

theorem viewText {i : ℕ} (hi : i < t) (entry : Entry) (mode : Mode) :
    viewText entry tree i mode = viewText entry tree' i mode := by
  rw [ChatMemory.viewText, ChatMemory.viewText, h (leaf i) hi]

theorem shownNode {node : Node} (hnode : node.hi ≤ t) :
    shownNode entries tree node = shownNode entries tree' node := by
  simp only [ChatMemory.shownNode, displayLine, h.nodeLine entries hnode]

variable {nodes : List Node} (hnodes : ∀ node ∈ nodes, node.hi ≤ t)
include hnodes

theorem splitTarget : splitTarget entries tree nodes = splitTarget entries tree' nodes := by
  have hfilter : (nodes.filter fun node => node.size > 1 && (ChatMemory.nodeLine entries tree node).isNone) =
      nodes.filter fun node => node.size > 1 && (ChatMemory.nodeLine entries tree' node).isNone := by
    apply List.filter_congr
    intro node hnode
    rw [h.nodeLine entries (hnodes node hnode)]
  rw [ChatMemory.splitTarget, ChatMemory.splitTarget, hfilter]

/-- The block that two neighbours merge to ends where the right one does. -/
theorem mergePair (target : Node) : mergePair tree nodes target = mergePair tree' nodes target := by
  have hpair : mergeablePair tree nodes target = mergeablePair tree' nodes target := by
    apply findIdx?_congr
    rintro ⟨left, right⟩ hmem
    have hright := hnodes right (List.mem_of_mem_tail (List.of_mem_zip hmem).2)
    simp only [Tree.containsKey, h ⟨left.lo, right.hi⟩ hright]
  rw [ChatMemory.mergePair, ChatMemory.mergePair, hpair]

theorem viewStep (budget : ℕ) :
    viewStep entries tree budget nodes = viewStep entries tree' budget nodes := by
  simp only [ChatMemory.viewStep, h.splitTarget entries hnodes, h.mergePair hnodes]

end SameUpTo

theorem hi_le_of_tiles {t : ℕ} {nodes : List Node} (h : Tiles 0 t (nodes.map ends)) :
    ∀ node ∈ nodes, node.hi ≤ t := by
  intro node hnode
  exact (h.bounds (List.mem_map_of_mem hnode)).2.2

/-- A view needs no summary of a block that ends past its entries. -/
theorem view_congr {entries : List Entry} {tree tree' : Tree} (h : SameUpTo entries.length tree tree')
    (budget : ℕ) : view entries tree budget = view entries tree' budget := by
  let start := cover entries.length budget
  have hstart : Tiles 0 entries.length (start.map ends) := tiles_cover entries.length budget
  have hrun : (viewBody entries tree budget).run start = (viewBody entries tree' budget).run start := by
    refine (viewBody entries tree budget).run_eq_of_invariant _
      (I := fun nodes => Tiles 0 entries.length (nodes.map ends)) ?_ ?_ hstart
    · exact fun nodes nodes' htiles hstep => tiles_viewStep htiles (.inl hstep)
    · exact fun nodes htiles => h.viewStep entries (hi_le_of_tiles htiles) budget
  have htiles := hi_le_of_tiles (tiles_view entries tree' budget hstart)
  unfold view
  rw [hrun]
  congr 1
  exact List.map_congr_left fun node hnode => h.shownNode entries (htiles node hnode)

/-- Two chats that hold `base` entries or more and are the same up to there. -/
structure Agree (base : ℕ) (entries entries' : List Entry) (tree tree' : Tree) : Prop where
  le : base ≤ entries.length
  le' : base ≤ entries'.length
  entries : entries.take base = entries'.take base
  tree : SameUpTo base tree tree'

namespace Agree

variable {base : ℕ} {entries entries' : List Entry} {tree tree' : Tree}
  (h : Agree base entries entries' tree tree')
include h

theorem get_full {i : ℕ} (hi : i < base) :
    (Window.full entries).get i = (Window.full entries').get i := by
  have htake := congrArg (fun es => es[i]?) h.entries
  simp only [List.getElem?_take, if_pos hi] at htake
  rw [Window.get_full, Window.get_full, htake]

/-- The view of the first `base` entries. -/
theorem view (budget : ℕ) :
    view (entries.take base) tree budget = view (entries'.take base) tree' budget := by
  rw [← h.entries]
  apply view_congr
  rw [List.length_take, min_eq_left h.le]
  exact h.tree

theorem zoomHalf {half : Node} (hlo : half.lo < base) (hhi : half.hi ≤ base) :
    zoomHalf (Window.full entries) tree half = zoomHalf (Window.full entries') tree' half := by
  unfold ChatMemory.zoomHalf
  simp only [zoomEntry, h.get_full hlo, h.tree.leafLine half.lo hlo, h.tree.blockLine hhi]

/-- A zoom into a block that ends by `base`. -/
theorem zoom {node : Node} (hnode : node.lo < node.hi) (hhi : node.hi ≤ base) :
    zoom (Window.full entries) tree node = zoom (Window.full entries') tree' node := by
  have hlo := lt_of_lt_of_le hnode hhi
  have hbeyond : ¬node.lo ≥ (Window.full entries).total := not_le.mpr (lt_of_lt_of_le hlo h.le)
  have hbeyond' : ¬node.lo ≥ (Window.full entries').total := not_le.mpr (lt_of_lt_of_le hlo h.le')
  have hhalves : ∀ half ∈ [node.halves.1, node.halves.2], half.lo < base ∧ half.hi ≤ base := by
    simp only [halves, List.mem_cons, List.not_mem_nil, or_false]
    rintro half (rfl | rfl) <;> constructor <;> simp only <;> omega
  unfold ChatMemory.zoom
  rw [if_neg hbeyond, if_neg hbeyond']
  simp only [zoomEntry, h.get_full hlo]
  congr 1
  rw [List.filter_eq_self.mpr, List.filter_eq_self.mpr]
  · exact mapM_congr fun half hmem => h.zoomHalf (hhalves half hmem).1 (hhalves half hmem).2
  · exact fun half hmem => decide_eq_true (lt_of_lt_of_le (hhalves half hmem).1 h.le')
  · exact fun half hmem => decide_eq_true (lt_of_lt_of_le (hhalves half hmem).1 h.le)

/-- The checks of a read that ends before `base` do not see how long the chat is. -/
theorem checkRequest {request : RangeRequest} (hto : request.to_ < base) :
    checkRequest request entries.length = checkRequest request entries'.length := by
  have hlen := lt_of_lt_of_le hto h.le
  have hlen' := lt_of_lt_of_le hto h.le'
  have hlimit : rangeLimit request.to_ entries.length = request.to_ + 1 := min_eq_left hlen
  have hlimit' : rangeLimit request.to_ entries'.length = request.to_ + 1 := min_eq_left hlen'
  have hvalid : ∀ cursor : Cursor, ∀ len, request.to_ < len →
      validateCursor cursor ⟨request.from_, request.to_ + 1, len, request.mode⟩ =
        validateCursor cursor ⟨request.from_, request.to_ + 1, request.to_ + 1, request.mode⟩ := by
    intro cursor len hlen
    have hstop : (cursor.stop > len ∨ cursor.stop > request.to_ + 1) ↔
        (cursor.stop > request.to_ + 1 ∨ cursor.stop > request.to_ + 1) := by omega
    simp only [validateCursor, hstop]
  have hstart : startCursor request entries.length = startCursor request entries'.length := by
    unfold startCursor
    simp only [hlimit, hlimit']
    cases request.cursor with
    | none => rfl
    | some cursor => simp only [hvalid cursor _ hlen, hvalid cursor _ hlen']
  unfold ChatMemory.checkRequest
  by_cases hback : request.from_ > request.to_
  · rw [if_pos hback, if_pos hback]
  · have hfrom : ¬request.from_ ≥ entries.length := by omega
    have hfrom' : ¬request.from_ ≥ entries'.length := by omega
    rw [if_neg hback, if_neg hback, if_neg hfrom, if_neg hfrom', hstart]

/-- A read of a range that ends before `base`, whatever cursor it starts from. -/
theorem readRange {request : RangeRequest} (hto : request.to_ < base) :
    readRange (Window.full entries) tree request = readRange (Window.full entries') tree' request := by
  simp only [ChatMemory.readRange, Window.total_full, h.checkRequest hto]
  cases hcheck : ChatMemory.checkRequest request entries'.length with
  | error e => simp only [error_bind]
  | ok cursor =>
    obtain ⟨-, -, hlimit⟩ := checkRequest_ok hcheck
    have hstop : cursor.stop ≤ base := hlimit.trans ((min_le_left _ _).trans hto)
    simp only [ok_bind]
    refine (Page.body (Window.full entries) tree request.mode).run_eq_of_invariant _
      (I := fun p => p.cursor.stop ≤ base) ?_ ?_ hstop
    · intro p q hp hstep
      rw [(Page.round_inl hstep).2]
      exact hp
    · intro p hp
      simp only [Page.body, Page.round]
      split_ifs with hlt
      · have hnext := lt_of_lt_of_le hlt hp
        simp only [h.get_full hnext, h.tree.viewText hnext]
      · rfl

end Agree

namespace Archive

section
variable {J : Json} {base : ℕ} {a a' : Archive} (ha : a.Current J) (ha' : a'.Current J)
  (h : Agree base (parseLog J a.log).1 (parseLog J a'.log).1 (parseTree J a.tree).1
    (parseTree J a'.tree).1)
include ha ha' h

theorem read_agree {request : RangeRequest} (hto : request.to_ < base) :
    (a.read J request).map Prod.fst = (a'.read J request).map Prod.fst := by
  obtain ⟨answer, notes, hread, hanswer⟩ := ha.read request
  obtain ⟨answer', notes', hread', hanswer'⟩ := ha'.read request
  have hmap : answer.map Read.page = answer'.map Read.page := by
    rw [← hanswer, ← hanswer', h.readRange hto]
  rw [hread, hread', map_injective (fun _ _ => Read.page.inj) hmap]
  rfl

theorem zoom_agree {node : Node} (hnode : node.IsBlock) (hhi : node.hi ≤ base) :
    (a.zoom J node).map Prod.fst = (a'.zoom J node).map Prod.fst := by
  obtain ⟨notes, hzoom⟩ := ha.zoom hnode
  obtain ⟨notes', hzoom'⟩ := ha'.zoom hnode
  rw [hzoom, hzoom', h.zoom hnode.lo_lt_hi hhi]
  rfl

end

/-- A scan up to `base` ends with the same visits and the same count. -/
theorem scan_agree {J : Json} {base : ℕ} {a a' : Archive} (ha : a.Current J) (ha' : a'.Current J)
    (h : visible J a.log base = visible J a'.log base) {σ : Type} (visit : σ → ℕ → Entry → σ)
    (chunk : ℕ) (start : σ) :
    ∃ seen count b b', scanEntries J base visit a chunk start = .ok (seen, count, b) ∧
      scanEntries J base visit a' chunk start = .ok (seen, count, b') := by
  obtain ⟨b, hb, -⟩ := scanEntries_reliable visit (@reliable_built J base a ha.log 0) chunk start
  obtain ⟨b', hb', -⟩ := scanEntries_reliable visit (@reliable_built J base a' ha'.log 0) chunk start
  rw [← h] at hb'
  exact ⟨_, _, b, b', hb, hb'⟩

variable {T S : Type} [LinearOrder T] [LinearOrder S] {env : ToolEnv T S}

theorem search_agree {base : ℕ} {a a' : Archive} (ha : a.Current env.json) (ha' : a'.Current env.json)
    (h : visible env.json a.log base = visible env.json a'.log base)
    (request : Search.SearchRequest T) :
    (Search.search env.toEnv base a request).map (Except.map Prod.fst) =
      (Search.search env.toEnv base a' request).map (Except.map Prod.fst) := by
  unfold Search.search Search.searchRanked
  cases Search.checkFingerprint request with
  | error e => rfl
  | ok =>
    obtain ⟨scan, count, b, b', hb, hb'⟩ := scan_agree ha ha' h
      (fun (scan : Option (Search.Scan T)) id entry =>
        scan.bind fun scan => scan.push env.unicode env.dates id entry)
      Search.chunkEntries (some (Search.Scan.new request))
    simp only [hb, hb']
    cases scan with
    | none => rfl
    | some scan => cases Search.checkCursor request count <;> rfl

end Archive

/-- Each index file holds the index of its file as it is or as it was at some earlier length, or
no index. -/
structure Store.Indexed (J : Json) (s : Store) : Prop where
  log : ∃ k, stored logSlot s.logIndex = storedAt logSlot (readOptional s.log) k
  tree : ∃ k, stored (nodeSlot J) s.treeIndex = storedAt (nodeSlot J) (readOptional s.tree) k

theorem Store.Indexed.openArchive {J : Json} {s : Store} (h : s.Indexed J) :
    ∃ a, s.openArchive J = .ok a ∧ a.log = readOptional s.log ∧ a.tree = readOptional s.tree ∧
      a.Current J := by
  obtain ⟨⟨kLog, hlog⟩, kTree, htree⟩ := h
  rw [Store.openArchive, hlog, htree]
  exact Archive.open_storedAt J _ _ kLog kTree

end Ralph.ChatMemory
