import Ralph.ChatMemory.ArchiveLoad
import Ralph.ChatMemory.Store

namespace Ralph.ChatMemory
open Fallible Store

/-- What a crash in the middle of an append leaves after the last newline. -/
def tornTail (file : Bytes) : Bytes := (Lines.cut newline file).2

theorem completePart_append_tornTail (file : Bytes) : completePart file ++ tornTail file = file :=
  completePart_append_rest file

theorem lineRecords_completePart (file : Bytes) :
    lineRecords 0 (completePart file) = lineRecords 0 file := by
  conv_rhs => rw [← completePart_append_tornTail file, lineRecords_append (whole_completePart file)]
  rw [tornTail, lineRecords_of_notMem (Lines.notMem_cut newline file).2, List.append_nil]

theorem lineRecords_line {line : Bytes} (hline : newline ∉ line) (hblank : blank line = false)
    (base : ℕ) : lineRecords base (line ++ [newline]) = [(base, line)] := by
  rw [lineRecords_line_append hline, hblank]
  rfl

/-- A line that holds an object is not blank, whatever stands before the object. -/
theorem blank_append_object {b : Bytes} (h : b.head? = some 0x7B) (t : Bytes) :
    blank (t ++ b) = false := by
  obtain ⟨c, rfl⟩ : ∃ c, b = 0x7B :: c := ⟨b.tail, (List.cons_head?_tail h).symm⟩
  simp [blank, isAsciiWhitespace]

/-- A line written after the torn tail of a file reads as one line with it. -/
theorem lineRecords_write {line : Bytes} (hline : newline ∉ line) (hobject : line.head? = some 0x7B)
    (file : Bytes) :
    lineRecords 0 (file ++ (line ++ [newline])) =
      lineRecords 0 file ++ [((completePart file).length, tornTail file ++ line)] := by
  have hfile : file ++ (line ++ [newline]) =
      completePart file ++ (tornTail file ++ line ++ [newline]) := by
    conv_lhs => rw [← completePart_append_tornTail file]
    simp only [List.append_assoc]
  have htorn : newline ∉ tornTail file ++ line := by
    rw [List.mem_append, not_or]
    exact ⟨(Lines.notMem_cut newline file).2, hline⟩
  rw [hfile, lineRecords_append (whole_completePart file), lineRecords_completePart, Nat.zero_add,
    lineRecords_line htorn (blank_append_object hobject _)]

theorem tornTail_of_whole {file : Bytes} (h : Lines.Whole newline file) : tornTail file = [] := h

theorem append_parseLog {J : Json} (hJ : J.Lawful) (s : Store) (entry : NewEntry) :
    ∃ s', s.append J entry = .ok s' ∧
      (parseLog J (readOptional s'.log)).1 = (parseLog J (readOptional s.log)).1 ++ [entry.read] := by
  obtain ⟨line, htext, hline, hobject, hentry⟩ := hJ.entry_text entry
  refine ⟨_, by rw [append, encodeEntry, htext]; rfl, ?_⟩
  simp only [readOptional, Option.getD_some, trimTornTail, run_trimBody]
  rw [parseLog_fst, parseLog_fst, lineRecords_write hline hobject, lineRecords_completePart,
    tornTail_of_whole (whole_completePart _), List.map_append]
  simp [Json.readEntry, hentry]

/-- An append to the log trims what a crash left behind, keeps every entry and adds one. -/
theorem append_durable (J : Json) (hJ : J.Lawful) (s : Store) (entry : NewEntry) :
    (∃ s', s.append J entry = .ok s' ∧ (parseLog J (readOptional s'.log)).1 =
      (parseLog J (readOptional s.log)).1 ++ [entry.read]) ∧
    ∀ window, (trimBody (readOptional s.log)).run window =
      (readOptional s.log).take
        ((Lines.rposition newline (readOptional s.log)).elim 0 (· + 1)) := by
  refine ⟨append_parseLog hJ s entry, fun window => ?_⟩
  rw [run_trimBody, completePart_eq_take]

/-- A store whose log holds an empty object and the start of a torn line. -/
def tornLog : Store := ⟨some [0x7B, 0x7D, newline, 0x7B], none, none, none⟩

theorem append_durable_torn :
    (∃ s', tornLog.append CompactJson.compactJson ⟨.user, "", "hi"⟩ = .ok s' ∧
      (parseLog CompactJson.compactJson (readOptional s'.log)).1 =
        (parseLog CompactJson.compactJson (readOptional tornLog.log)).1 ++
          [⟨.user, "", "hi", false⟩]) ∧
    ∀ window, (trimBody (readOptional tornLog.log)).run window =
      (readOptional tornLog.log).take
        ((Lines.rposition newline (readOptional tornLog.log)).elim 0 (· + 1)) :=
  append_durable CompactJson.compactJson CompactJson.compactJson_lawful tornLog ⟨.user, "", "hi"⟩

/-- The texts of nodes after a line is written: earlier lines win. -/
theorem parseTree_write {J : Json} {line : Bytes} (hline : newline ∉ line)
    (hobject : line.head? = some 0x7B) (file : Bytes) (n : Node) :
    (parseTree J (file ++ (line ++ [newline]))).1 n =
      ((parseTree J file).1 n).or (J.textOf n (tornTail file ++ line)) := by
  rw [parseTree_fst, parseTree_fst, lineRecords_write hline hobject, List.findSome?_append]
  simp only [List.findSome?_cons, List.findSome?_nil]
  cases J.textOf n (tornTail file ++ line) <;> rfl

/-- What `put` leaves of the tree file. -/
theorem put_tree {J : Json} (hJ : J.Lawful) (s : Store) {node : Node} (hlo : node.lo ≤ usizeMax)
    (hhi : node.hi ≤ usizeMax) (text : String) :
    ∃ line, newline ∉ line ∧ line.head? = some 0x7B ∧
      J.recordText ⟨node.lo, node.hi, text⟩ = .ok line ∧
      s.put J node text =
        .ok { s with tree := some (readOptional s.tree ++ (line ++ [newline])) } := by
  obtain ⟨line, htext, hline, hobject, -⟩ := hJ.record_text ⟨node.lo, node.hi, text⟩ hlo hhi
  refine ⟨line, hline, hobject, htext, ?_⟩
  rw [put, encodeRecord, htext]
  rfl

/-- A record that reads back gives its node its text. -/
theorem textOf_record {J : Json} {line : Bytes} {node : Node} {text : String}
    (hnode : node.IsBlock) (h : J.record line = .ok ⟨node.lo, node.hi, text⟩) (n : Node) :
    J.textOf n line = if node = n then some text else none := by
  have hnew : Node.new node.lo node.hi = .ok node := Node.new_eq_ok_iff.mpr ⟨rfl, hnode⟩
  simp only [Json.textOf, parseRecord, h, ok_bind, hnew, pure_eq_ok]

/-- The texts after a commit of a node without one, by what the torn tail is. -/
theorem parseTree_put {J : Json} (hJ : J.Lawful) (s : Store) {node : Node} (hnode : node.IsBlock)
    (hlo : node.lo ≤ usizeMax) (hhi : node.hi ≤ usizeMax) (text : String) :
    ∃ s', s.put J node text = .ok s' ∧ s'.log = s.log ∧ ∀ n, (s'.readTree J).1 n =
      ((s.readTree J).1 n).or
        (if (tornTail (readOptional s.tree)).all isJsonWhitespace ∧ node = n then some text
          else none) := by
  obtain ⟨line, hline, hobject, htext, hput⟩ := put_tree hJ s hlo hhi text
  refine ⟨_, hput, rfl, fun n => ?_⟩
  change (parseTree J (readOptional s.tree ++ (line ++ [newline]))).1 n = _
  rw [parseTree_write hline hobject]
  refine congrArg ((s.readTree J).1 n).or ?_
  by_cases htorn : (tornTail (readOptional s.tree)).all isJsonWhitespace
  · obtain ⟨line', htext', -, -, hrecord⟩ := hJ.record_text ⟨node.lo, node.hi, text⟩ hlo hhi
    obtain rfl : line' = line := Except.ok.inj (htext'.symm.trans htext)
    rw [textOf_record hnode (hrecord _ htorn)]
    simp [htorn]
  · have hglued := hJ.record_glued _ _ _ htext htorn
    rw [if_neg (fun h => htorn h.1), Json.textOf, parseRecord]
    cases hr : J.record (tornTail (readOptional s.tree) ++ line) with
    | error e => rfl
    | ok r => exact absurd hr (hglued r)

/-- What a commit of a node promises: earlier texts stay, and the node has its summary. -/
def CommitKept (J : Json) (s : Store) (node : Node) (summary : String) : Prop :=
  ∃ tree s', s.commit J node summary = .ok (tree, s') ∧
    (∀ n text, (s.readTree J).1 n = some text → (s'.readTree J).1 n = some text) ∧
    (s'.readTree J).1 node = some summary

/-- A commit of a node without a text writes it. -/
theorem commit_write {J : Json} {s s' : Store} {node : Node} {summary : String}
    (hnew : (s.readTree J).1 node = none) (hput : s.put J node summary = .ok s') :
    s.commit J node summary = .ok ((s.readTree J).1.insert node summary,
      { s' with treeIndex := updated (nodeSlot J) s'.tree s'.treeIndex }) := by
  have hdecision : commitDecision (s.readTree J).1 node = .write := by
    simp [commitDecision, Tree.containsKey, hnew]
  rw [commit]
  simp only [hdecision, hput, ok_bind, pure_eq_ok]

theorem lo_le_usizeMax {node : Node} (hnode : node.IsBlock) (hhi : node.hi ≤ usizeMax) :
    node.lo ≤ usizeMax := by
  obtain ⟨k, m, rfl⟩ := hnode
  exact le_trans (Nat.mul_le_mul_right _ (Nat.le_succ m)) hhi

theorem commitKept_of_blank {J : Json} (hJ : J.Lawful) {s : Store} {node : Node}
    (hnode : node.IsBlock) (hhi : node.hi ≤ usizeMax) (hnew : (s.readTree J).1 node = none)
    (summary : String) (htorn : (tornTail (readOptional s.tree)).all isJsonWhitespace) :
    CommitKept J s node summary := by
  obtain ⟨s', hput, -, htree⟩ := parseTree_put hJ s hnode (lo_le_usizeMax hnode hhi) hhi summary
  refine ⟨_, _, commit_write hnew hput, fun n text hn => ?_, ?_⟩
  · exact (htree n).trans (by rw [hn]; rfl)
  · exact (htree node).trans (by rw [hnew, if_pos ⟨htorn, rfl⟩]; rfl)

theorem not_commitKept_of_torn {J : Json} (hJ : J.Lawful) {s : Store} {node : Node}
    (hnode : node.IsBlock) (hhi : node.hi ≤ usizeMax) (hnew : (s.readTree J).1 node = none)
    (summary : String) (htorn : ¬(tornTail (readOptional s.tree)).all isJsonWhitespace) :
    ¬CommitKept J s node summary := by
  obtain ⟨s', hput, -, htree⟩ := parseTree_put hJ s hnode (lo_le_usizeMax hnode hhi) hhi summary
  rintro ⟨tree, s'', h, -, hkept⟩
  obtain ⟨-, rfl⟩ := Prod.mk.inj (Except.ok.inj ((commit_write hnew hput).symm.trans h))
  have hlost := htree node
  rw [hnew, if_neg (fun h => htorn h.1)] at hlost
  exact absurd (hlost.symm.trans hkept) (by simp)

/-- A commit keeps its promise exactly when the last append to the tree was not cut short inside
its record: what follows the last newline is blank. -/
theorem commit_kept_iff (J : Json) (hJ : J.Lawful) (s : Store) (node : Node) (hnode : node.IsBlock)
    (hhi : node.hi ≤ usizeMax) (hnew : (s.readTree J).1 node = none) (summary : String) :
    CommitKept J s node summary ↔ (tornTail (readOptional s.tree)).all isJsonWhitespace := by
  constructor
  · intro hkept
    by_contra htorn
    exact not_commitKept_of_torn hJ hnode hhi hnew summary htorn hkept
  · exact commitKept_of_blank hJ hnode hhi hnew summary

/-- A store with a committed record, and blanks behind it. -/
def blankTail : Store :=
  ⟨none, some (CompactJson.recordBytes ⟨0, 2, "first"⟩ ++ newline :: [0x20, 0x09]), none, none⟩

theorem commit_kept_blankTail : CommitKept CompactJson.compactJson blankTail ⟨2, 4⟩ "second" := by
  have hline := CompactJson.newline_notMem_recordBytes ⟨0, 2, "first"⟩
  obtain ⟨line, htext, -, -, hrecord⟩ := CompactJson.compactJson_lawful.record_text ⟨0, 2, "first"⟩
    (by decide) (by decide)
  obtain rfl : CompactJson.recordBytes ⟨0, 2, "first"⟩ = line := Except.ok.inj htext
  have hread : CompactJson.compactJson.record (CompactJson.recordBytes ⟨0, 2, "first"⟩) =
      .ok ⟨0, 2, "first"⟩ := hrecord [] rfl
  have hnew : (blankTail.readTree CompactJson.compactJson).1 ⟨2, 4⟩ = none := by
    have hnode : (⟨0, 2⟩ : Node).IsBlock := ⟨1, 0, rfl⟩
    have hof := textOf_record hnode hread
    rw [readTree, parseTree_fst, blankTail, readOptional, Option.getD_some,
      lineRecords_line_append hline, lineRecords_of_notMem (by decide), List.append_nil]
    split_ifs
    · simp [hof]
    · rfl
  have htail : tornTail (readOptional blankTail.tree) = [0x20, 0x09] := by
    rw [tornTail, blankTail, readOptional, Option.getD_some, Lines.cut_line_append newline hline,
      Lines.cut_of_notMem newline (by decide)]
  exact (commit_kept_iff CompactJson.compactJson CompactJson.compactJson_lawful blankTail ⟨2, 4⟩
    ⟨1, 1, rfl⟩ (by decide) hnew "second").2 (by rw [htail]; decide)

/-- A store whose last tree append was cut short inside the record. -/
def tornTree : Store :=
  ⟨none, some (CompactJson.ascii "\x7b\"lo\":0,\"hi\":1,\"te"), none, none⟩

/-- The record after a cut-short one is glued to it and lost. -/
theorem commit_lost_torn :
    (tornTree.readTree CompactJson.compactJson).1 ⟨0, 2⟩ = none ∧
      ¬CommitKept CompactJson.compactJson tornTree ⟨0, 2⟩ "s" := by
  have hline : newline ∉ readOptional tornTree.tree := by decide
  have hnew : (tornTree.readTree CompactJson.compactJson).1 ⟨0, 2⟩ = none := by
    rw [readTree, parseTree_fst, lineRecords_of_notMem hline]
    rfl
  refine ⟨hnew, not_commitKept_of_torn CompactJson.compactJson_lawful ⟨1, 0, rfl⟩ (by decide) hnew
    "s" ?_⟩
  rw [tornTail, Lines.cut_of_notMem newline hline]
  decide

end Ralph.ChatMemory
