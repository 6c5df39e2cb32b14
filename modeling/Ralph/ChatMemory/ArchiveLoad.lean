import Ralph.ChatMemory.Archive

namespace Ralph.ChatMemory
open Fallible

theorem slots_logIndex (log : Bytes) :
    (Index.build logSlot log).slots = (lineRecords 0 log).map Prod.fst := by
  rw [Index.slots_build, ← List.filterMap_eq_map]
  rfl

theorem count_logIndex (log : Bytes) :
    (Index.build logSlot log).count = (lineRecords 0 log).length := by
  rw [Index.count, slots_logIndex, List.length_map]

/-- The span of entries runs from the start of the first line to the start of the next one. -/
theorem span_logIndex (log : Bytes) {from_ to_ : ℕ} (hlt : from_ < to_)
    (hto : to_ ≤ (lineRecords 0 log).length) :
    LogIndex.span (Index.build logSlot log) from_ to_ =
      some (Lines.offset 0 (lineRecords 0 log) from_, Lines.offset 0 (lineRecords 0 log) to_) := by
  rw [LogIndex.span, count_logIndex, if_neg (by omega), slots_logIndex, Index.covered_build,
    Lines.offset_length]
  have hfrom : from_ < (lineRecords 0 log).length := by omega
  have hstop : (((lineRecords 0 log).map Prod.fst)[to_]?).getD
      (((lineRecords 0 log).getLast?.map fun s => s.1 + s.2.length + 1).getD 0) =
      Lines.offset 0 (lineRecords 0 log) to_ := by
    rw [List.getElem?_map, Lines.offset]
    cases (lineRecords 0 log)[to_]? <;> rfl
  rw [hstop, Lines.offset_of_lt 0 hfrom]
  simp [hfrom]

/-- A read that starts one byte before a line starts on the newline before it. -/
theorem lineRecords_pred {c : Bytes} (hc : Lines.Whole newline c) (d b : Bytes) :
    lineRecords (c.length - 1) (slice (c ++ d ++ b) (c.length - 1) (c.length + d.length)) =
      lineRecords c.length d := by
  rcases hc.eq_nil_or_concat with rfl | ⟨c, rfl⟩
  · have hslice : slice ([] ++ d ++ b) 0 d.length = d := slice_append_append rfl (by simp)
    simpa using congrArg (lineRecords 0) hslice
  · have hslice : slice (c ++ newline :: d ++ b) c.length (c.length + 1 + d.length) =
        newline :: d := slice_append_append rfl (by rw [List.length_cons]; omega)
    have hline : lineRecords c.length (newline :: d) = _ :=
      lineRecords_line_append (List.not_mem_nil) c.length d
    simp only [List.length_nil, Nat.add_zero] at hline
    simp only [List.length_append, List.length_singleton, Nat.add_sub_cancel, List.append_assoc,
      List.singleton_append] at hslice ⊢
    rw [hslice, hline]
    rfl

/-- The bytes that `load` reads for entries `[from, to)` hold just those lines. -/
theorem lineRecords_slice (log : Bytes) {from_ to_ : ℕ} (hlt : from_ < to_)
    (hto : to_ ≤ (lineRecords 0 log).length) :
    Lines.offset 0 (lineRecords 0 log) to_ ≤ log.length ∧
      lineRecords (Lines.offset 0 (lineRecords 0 log) from_ - 1)
        (slice log (Lines.offset 0 (lineRecords 0 log) from_ - 1)
          (Lines.offset 0 (lineRecords 0 log) to_)) =
      ((lineRecords 0 log).take to_).drop from_ := by
  obtain ⟨a, b, hlog, ha, hoff, htake, -⟩ := exists_lineSplit 0 log hto
  obtain ⟨c, d, hcd, hc, hoff', -, hdrop'⟩ := exists_lineSplit 0 a (i := from_)
    (by rw [htake, List.length_take]; exact le_min hlt.le (hlt.le.trans hto))
  rw [htake, Lines.offset_take 0 hlt hto] at hoff'
  rw [htake] at hdrop'
  rw [Nat.zero_add] at hoff hoff' hdrop'
  have hlen := congrArg List.length hcd
  rw [List.length_append] at hlen
  have hpred := lineRecords_pred hc d b
  rw [← hlen, hoff, hoff', ← hcd, ← hlog] at hpred
  refine ⟨?_, ?_⟩
  · rw [← hoff, hlog, List.length_append]
    omega
  · exact hpred.trans (hoff' ▸ hdrop')

theorem map_start_scanLines (data : Bytes) (base : ℕ) :
    (scanLines data base).map Line.start = (lineRecords base data).map Prod.fst := by
  rw [scanLines_eq, List.map_map]
  rfl

/-- Loading through the index gives the entries of a whole parse. -/
theorem load_logIndex (J : Json) (log : Bytes) (notes : Notes) (from_ : ℕ) {to_ : ℕ}
    (hto : to_ ≤ (lineRecords 0 log).length) :
    ∃ notes', load J log (Index.build logSlot log) notes from_ to_ =
      .ok ((((parseLog J log).1).take to_).drop from_, notes') := by
  rcases Nat.lt_or_ge from_ to_ with hlt | hge
  · obtain ⟨hstop, hrecords⟩ := lineRecords_slice log hlt hto
    have hentries := map_fst_entryOrCorrupt J
      (fun line => slice (slice log (Lines.offset 0 (lineRecords 0 log) from_ - 1)
          (Lines.offset 0 (lineRecords 0 log) to_))
        (line.start - (Lines.offset 0 (lineRecords 0 log) from_ - 1))
        (line.stop - (Lines.offset 0 (lineRecords 0 log) from_ - 1)))
      (scanLines (slice log (Lines.offset 0 (lineRecords 0 log) from_ - 1)
        (Lines.offset 0 (lineRecords 0 log) to_)) (Lines.offset 0 (lineRecords 0 log) from_ - 1))
      from_
    simp only [load, span_logIndex log hlt hto]
    rw [readSnapshot_of_le _ hstop, ok_bind, if_neg]
    · simp only [List.map_map, Function.comp_def, pure_eq_ok]
      rw [hentries, scanLines_eq, List.map_map, parseLog_fst, ← List.map_take, ← List.map_drop,
        ← hrecords]
      refine ⟨_, congrArg Except.ok (congrArg (·, _) (List.map_congr_left fun s hs => ?_))⟩
      exact congrArg J.readEntry (slice_lineRecord hs)
    · rw [map_start_scanLines, hrecords, slots_logIndex, not_not, List.map_drop, List.map_take]
  · refine ⟨notes, ?_⟩
    have hnil : (((parseLog J log).1).take to_).drop from_ = [] :=
      List.drop_eq_nil_of_le (by rw [List.length_take]; omega)
    rw [load, LogIndex.span, if_pos (.inl hge), hnil]

/-- The slots that `find` keeps: the first one of each node that is still wanted. -/
def firstSlots : List Node → List NodeSlot → List NodeSlot
  | _, [] => []
  | left, slot :: slots =>
    if slot.node ∈ left then slot :: firstSlots (left.filter (· ≠ slot.node)) slots
    else firstSlots left slots

theorem find_eq_firstSlots (index : TreeIndex) (wanted : List Node) :
    index.find wanted = firstSlots wanted index.slots := by
  have hfold : ∀ (slots : List NodeSlot) (left : List Node) (found : List NodeSlot),
      (slots.foldl (fun (acc : List Node × List NodeSlot) slot =>
        if slot.node ∈ acc.1 then (acc.1.filter (· ≠ slot.node), acc.2 ++ [slot]) else acc)
        (left, found)).2 = found ++ firstSlots left slots := by
    intro slots
    induction slots with
    | nil => intro left found; simp [firstSlots]
    | cons slot slots ih =>
      intro left found
      rw [List.foldl_cons, firstSlots]
      split_ifs with hmem
      · rw [ih, List.append_assoc]
        rfl
      · exact ih left found
  exact hfold index.slots wanted []

theorem mem_of_mem_firstSlots {left : List Node} {slots : List NodeSlot} {slot : NodeSlot}
    (h : slot ∈ firstSlots left slots) : slot ∈ slots := by
  induction slots generalizing left with
  | nil => exact h
  | cons s slots ih =>
    rw [firstSlots] at h
    split_ifs at h
    · rcases List.mem_cons.mp h with rfl | h
      · exact List.mem_cons_self
      · exact List.mem_cons_of_mem s (ih h)
    · exact List.mem_cons_of_mem s (ih h)

theorem foldl_insert (pairs : List (Node × String)) (tree : Tree) (n : Node) :
    (pairs.foldl (fun tree (node, text) => tree.insert node text) tree) n =
      (Tree.ofList pairs n).or (tree n) := by
  unfold Tree.ofList
  induction pairs using List.reverseRecOn with
  | nil => rfl
  | append_singleton pairs p ih =>
    simp only [List.foldl_append, List.foldl_cons, List.foldl_nil, Tree.insert]
    split_ifs
    · rfl
    · exact ih

/-- Reading the kept slots gives each wanted node the text of its first slot. -/
theorem ofList_firstSlots (text : NodeSlot → String) (left : List Node) (slots : List NodeSlot)
    (n : Node) :
    Tree.ofList ((firstSlots left slots).map fun slot => (slot.node, text slot)) n =
      if n ∈ left then (slots.find? fun slot => slot.node = n).map text else none := by
  induction slots generalizing left with
  | nil => simp [firstSlots, Tree.ofList, Tree.empty]
  | cons slot slots ih =>
    rw [firstSlots]
    split_ifs with hmem hn hn
    · rw [List.map_cons, Tree.ofList, List.foldl_cons, foldl_insert, ih]
      by_cases hslot : slot.node = n
      · subst hslot
        simp [Tree.insert]
      · simp [Tree.insert, hslot, Ne.symm hslot, hn, Tree.empty]
    · rw [List.map_cons, Tree.ofList, List.foldl_cons, foldl_insert, ih]
      have hslot : n ≠ slot.node := fun h => hn (h ▸ hmem)
      simp [Tree.insert, hslot, hn, Tree.empty]
    · have hslot : slot.node ≠ n := fun h => hmem (h ▸ hn)
      rw [ih, if_pos hn, List.find?_cons_of_neg (by simpa using hslot)]
    · rw [ih, if_neg hn]

/-- The text on the bytes of a slot. -/
def slotText (J : Json) (file : Bytes) (slot : NodeSlot) : String :=
  match J.record (slice file slot.start slot.stop) with
  | .ok record => record.text
  | .error _ => ""

theorem scanned_nodeSlot (J : Json) (s : ℕ × Bytes) :
    (nodeSlot J).scanned s = (recordNode J s.2).map fun node => ⟨node, s.1, s.1 + s.2.length⟩ := by
  simp only [Slot.scanned, nodeSlot]
  cases recordNode J s.2 <;> rfl

theorem slice_of_lineRecord {file : Bytes} {s : ℕ × Bytes} (h : s ∈ lineRecords 0 file) :
    slice file s.1 (s.1 + s.2.length) = s.2 := by
  simpa using slice_lineRecord h

/-- A line read as a node is read as the record of that node. -/
theorem record_of_recordNode {J : Json} {line : Bytes} {node : Node}
    (h : recordNode J line = some node) :
    ∃ text, J.record line = .ok ⟨node.lo, node.hi, text⟩ ∧ Node.new node.lo node.hi = .ok node := by
  unfold recordNode at h
  cases hr : J.record line with
  | error e => simp [hr] at h
  | ok r =>
    cases hn : Node.new r.lo r.hi with
    | error e => simp [hr, hn, Except.toOption] at h
    | ok n =>
      obtain rfl : n = node := by simpa [hr, hn, Except.toOption] using h
      obtain ⟨rfl, -⟩ := Node.new_eq_ok_iff.mp hn
      exact ⟨r.text, rfl, hn⟩

theorem textOf_of_recordNode_none {J : Json} {line : Bytes} (h : recordNode J line = none)
    (n : Node) : J.textOf n line = none := by
  unfold recordNode at h
  unfold Json.textOf parseRecord
  cases hr : J.record line with
  | error e => rfl
  | ok r =>
    cases hn : Node.new r.lo r.hi with
    | error e => simp [hn]
    | ok node => simp [hr, hn, Except.toOption] at h

theorem textOf_of_recordNode {J : Json} {file : Bytes} {s : ℕ × Bytes}
    (hs : s ∈ lineRecords 0 file) {node : Node} (h : recordNode J s.2 = some node) (n : Node) :
    J.textOf n s.2 =
      if node = n then some (slotText J file ⟨node, s.1, s.1 + s.2.length⟩) else none := by
  obtain ⟨text, hr, hn⟩ := record_of_recordNode h
  simp only [Json.textOf, parseRecord, slotText, slice_of_lineRecord hs, hr, ok_bind, hn,
    pure_eq_ok]

/-- The first slot of a node holds the text that `parse_tree` gives it. -/
theorem find_slot_eq_parseTree (J : Json) (file : Bytes) (n : Node) :
    ((Index.build (nodeSlot J) file).slots.find? fun slot => slot.node = n).map
      (slotText J file) = (parseTree J file).1 n := by
  have hlines : ∀ rs : List (ℕ × Bytes), (∀ s ∈ rs, s ∈ lineRecords 0 file) →
      ((rs.filterMap (nodeSlot J).scanned).find? fun slot => slot.node = n).map (slotText J file) =
        rs.findSome? fun s => J.textOf n s.2 := by
    intro rs
    induction rs with
    | nil => intro _; rfl
    | cons s rs ih =>
      intro h
      rw [List.forall_mem_cons] at h
      rw [List.filterMap_cons, List.findSome?_cons, scanned_nodeSlot, ← ih h.2]
      cases hnode : recordNode J s.2 with
      | none => rw [textOf_of_recordNode_none hnode]; rfl
      | some node =>
        rw [textOf_of_recordNode h.1 hnode]
        by_cases hn : node = n <;> simp [hn]
  rw [parseTree_fst, Index.slots_build]
  exact hlines _ fun _ h => h

theorem readSlot_build (J : Json) (file : Bytes) {slot : NodeSlot}
    (h : slot ∈ (Index.build (nodeSlot J) file).slots) :
    readSlot J file (Index.build (nodeSlot J) file) slot = .ok (slot.node, slotText J file slot) := by
  rw [Index.slots_build, List.mem_filterMap] at h
  obtain ⟨s, hs, hslot⟩ := h
  rw [scanned_nodeSlot, Option.map_eq_some_iff] at hslot
  obtain ⟨node, hnode, rfl⟩ := hslot
  obtain ⟨text, hr, -⟩ := record_of_recordNode hnode
  have hcovered := (Index.lineRecord_le_tail (nodeSlot J) hs).2
  have hend := Lines.end_le_of_mem_records hs
  have hread := readSnapshot_of_le s.1 (show s.1 + s.2.length ≤ file.length by omega)
  rw [slice_of_lineRecord hs] at hread
  simp only [readSlot, slotText]
  rw [if_neg (by omega), hread, slice_of_lineRecord hs]
  simp [hr]

/-- The indexed tree answers like the map of a whole parse, on the asked nodes. -/
theorem indexedNodes_build (J : Json) (file : Bytes) (wanted : List Node) :
    ∃ tree, indexedNodes J file (Index.build (nodeSlot J) file) wanted = .ok tree ∧
      ∀ n, tree n = if n ∈ wanted then (parseTree J file).1 n else none := by
  have hread : (TreeIndex.find (Index.build (nodeSlot J) file) wanted).mapM
      (readSlot J file (Index.build (nodeSlot J) file)) = .ok
        ((TreeIndex.find (Index.build (nodeSlot J) file) wanted).map
          fun slot => (slot.node, slotText J file slot)) := by
    refine mapM_eq_ok fun slot hslot => readSlot_build J file ?_
    rw [find_eq_firstSlots] at hslot
    exact mem_of_mem_firstSlots hslot
  refine ⟨_, by rw [indexedNodes, hread]; rfl, fun n => ?_⟩
  rw [find_eq_firstSlots, ofList_firstSlots, find_slot_eq_parseTree]

end Ralph.ChatMemory
