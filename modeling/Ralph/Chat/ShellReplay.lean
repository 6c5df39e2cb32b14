import Ralph.Chat.ShellState

namespace Ralph.Chat
open Utf8Lossy (asBytes)

def NoNul (s : String) : Prop := nul ∉ s.toList

instance (s : String) : Decidable (NoNul s) := inferInstanceAs (Decidable (_ ∉ _))

/-- Names that are written back as they are, and texts that hold no end of a record. -/
structure Snapshot.Clean (s : Snapshot) : Prop where
  env : ∀ e ∈ s.env.entries, validEnvName e.1 = true ∧ NoNul e.2
  cwd : ∀ dir ∈ s.cwd, NoNul dir
  functions : ∀ e ∈ s.functions.entries, NoNul e.1 ∧ NoNul e.2
  aliases : ∀ e ∈ s.aliases.entries, NoNul e.1 ∧ '=' ∉ e.1.toList ∧ NoNul e.2

/-- The records that `__ralph_dump` prints of a state. -/
structure Dump (s : Snapshot) where
  env : List (String × String)
  functions : List (String × String)
  aliases : List (String × String)
  env_perm : env.Perm s.env.entries
  functions_perm : functions.Perm s.functions.entries
  aliases_perm : aliases.Perm s.aliases.entries

def Dump.records {s : Snapshot} (d : Dump s) : List String :=
  d.env.map (fun e => s!"E{e.1}={e.2}") ++ s.cwd.toList.map (fun dir => s!"P{dir}") ++
    d.functions.flatMap (fun e => [s!"F{e.1}", s!"B{e.2}"]) ++ d.aliases.map (fun e => s!"A{e.1}={e.2}") ++ ["Z"]

/-- Each record with the NUL that ends it. -/
def recordBytes (records : List String) : Bytes := records.flatMap fun record => asBytes record ++ [0]

theorem fromUtf8Lossy_recordBytes (records : List String) :
    (fromUtf8Lossy (recordBytes records)).toList = records.flatMap fun record => record.toList ++ [nul] := by
  have hbytes : recordBytes records =
      asBytes (String.ofList (records.flatMap fun record => record.toList ++ [nul])) := by
    rw [asBytes, String.toList_ofList, List.flatMap_assoc, recordBytes]
    congr 1
    funext record
    rw [List.flatMap_append, asBytes]
    rfl
  rw [hbytes, Utf8Lossy.fromUtf8Lossy_asBytes, String.toList_ofList]

/-- Records without a NUL are read back. -/
theorem dumpRecords_recordBytes {records : List String} (h : ∀ record ∈ records, NoNul record) :
    dumpRecords (fromUtf8Lossy (recordBytes records)) = records := by
  have hsplit : (records.flatMap fun record => record.toList ++ [nul]).splitOn nul =
      records.map String.toList ++ [[]] := by
    induction records with
    | nil => rfl
    | cons record records ih =>
      rw [List.forall_mem_cons] at h
      rw [List.flatMap_cons, List.append_assoc, List.singleton_append, List.splitOn_append_cons_self, ih h.2,
        List.splitOn_eq_singleton h.1]
      rfl
  rw [dumpRecords, fromUtf8Lossy_recordBytes, hsplit, List.dropLast_concat, List.map_map]
  simp

theorem of_mem_validEnvName {name : String} (h : validEnvName name = true) {c : Char} (hc : c ∈ name.toList) :
    (c = '_' || c.isAlphanum) = true := by
  rw [validEnvName] at h
  cases hname : name.toList with
  | nil =>
    rw [hname] at hc
    cases hc
  | cons first chars =>
    rw [hname] at h hc
    dsimp only at h
    rw [Bool.and_eq_true, List.all_eq_true] at h
    rcases List.mem_cons.1 hc with rfl | hchars
    · rw [Char.isAlphanum, ← Bool.or_assoc, h.1, Bool.true_or]
    · exact h.2 c hchars

theorem eq_notMem_of_validEnvName {name : String} (h : validEnvName name = true) : '=' ∉ name.toList := fun hmem =>
  absurd (of_mem_validEnvName h hmem) (by decide)

theorem noNul_of_validEnvName {name : String} (h : validEnvName name = true) : NoNul name := fun hmem =>
  absurd (of_mem_validEnvName h hmem) (by decide)

theorem splitOnce_pair {key : String} (h : '=' ∉ key.toList) (value : String) :
    Text.splitOnce (String.ofList (key.toList ++ '=' :: value.toList)) '=' = some (key, value) :=
  Text.splitOnce_append (by rw [String.toList_ofList]) h

namespace DumpReader

theorem readRecord_env {r : DumpReader} {key : String} (h : validEnvName key = true) (value : String) :
    r.readRecord s!"E{key}={value}" =
      { r with current := { r.current with env := r.current.env.insert key value } } := by
  have hrecord : s!"E{key}={value}".toList = 'E' :: (key.toList ++ '=' :: value.toList) := by simp
  rw [readRecord, hrecord]
  dsimp only
  rw [splitOnce_pair (eq_notMem_of_validEnvName h)]
  dsimp only
  rw [if_pos h]
  rfl

theorem readRecord_alias {r : DumpReader} {name : String} (h : '=' ∉ name.toList) (value : String) :
    r.readRecord s!"A{name}={value}" =
      { r with current := { r.current with aliases := r.current.aliases.insert name value } } := by
  have hrecord : s!"A{name}={value}".toList = 'A' :: (name.toList ++ '=' :: value.toList) := by simp
  rw [readRecord, hrecord]
  dsimp only
  rw [splitOnce_pair h]
  rfl

theorem readRecord_cwd (r : DumpReader) (dir : String) :
    r.readRecord s!"P{dir}" = { r with current := { r.current with cwd := some dir } } := by
  have hrecord : s!"P{dir}".toList = 'P' :: dir.toList := by simp
  rw [readRecord, hrecord]
  dsimp only
  rw [String.ofList_toList]
  rfl

theorem readRecord_function (r : DumpReader) (name body : String) :
    (r.readRecord s!"F{name}").readRecord s!"B{body}" =
      { r with
        current := { r.current with functions := r.current.functions.insert name body }
        functionName := none } := by
  have hname : s!"F{name}".toList = 'F' :: name.toList := by simp
  have hbody : s!"B{body}".toList = 'B' :: body.toList := by simp
  rw [readRecord, readRecord, hname, hbody]
  dsimp only
  rw [String.ofList_toList, String.ofList_toList]
  rfl

theorem read_env (r : DumpReader) {env : List (String × String)} (h : ∀ e ∈ env, validEnvName e.1 = true) :
    (env.map fun e => s!"E{e.1}={e.2}").foldl readRecord r =
      { r with current := { r.current with env := r.current.env.insertAll env } } := by
  induction env generalizing r with
  | nil => rfl
  | cons e env ih =>
    rw [List.forall_mem_cons] at h
    rw [List.map_cons, List.foldl_cons, readRecord_env h.1, ih _ h.2]
    rfl

theorem read_aliases (r : DumpReader) {aliases : List (String × String)} (h : ∀ e ∈ aliases, '=' ∉ e.1.toList) :
    (aliases.map fun e => s!"A{e.1}={e.2}").foldl readRecord r =
      { r with current := { r.current with aliases := r.current.aliases.insertAll aliases } } := by
  induction aliases generalizing r with
  | nil => rfl
  | cons e aliases ih =>
    rw [List.forall_mem_cons] at h
    rw [List.map_cons, List.foldl_cons, readRecord_alias h.1, ih _ h.2]
    rfl

theorem read_functions (r : DumpReader) (h : r.functionName = none) (functions : List (String × String)) :
    (functions.flatMap fun e => [s!"F{e.1}", s!"B{e.2}"]).foldl readRecord r =
      { r with current := { r.current with functions := r.current.functions.insertAll functions } } := by
  induction functions generalizing r with
  | nil => rfl
  | cons e functions ih =>
    rw [List.flatMap_cons, List.foldl_append, List.foldl_cons, List.foldl_cons, List.foldl_nil,
      readRecord_function, ih _ rfl]
    obtain ⟨done, current, functionName⟩ := r
    obtain rfl : functionName = none := h
    rfl

theorem read_cwd (r : DumpReader) (cwd : Option String) :
    (cwd.toList.map fun dir => s!"P{dir}").foldl readRecord r =
      { r with current := { r.current with cwd := cwd.or r.current.cwd } } := by
  cases cwd with
  | none => rfl
  | some dir => exact readRecord_cwd r dir

/-- A dump is read as the state it was made of. -/
theorem read_dump {s : Snapshot} (h : s.Clean) (d : Dump s) (done : List Snapshot) :
    d.records.foldl readRecord ⟨done, .empty, none⟩ = ⟨done ++ [s], .empty, none⟩ := by
  have henv : ∀ e ∈ d.env, validEnvName e.1 = true := fun e he => (h.env e (d.env_perm.mem_iff.1 he)).1
  have haliases : ∀ e ∈ d.aliases, '=' ∉ e.1.toList := fun e he => (h.aliases e (d.aliases_perm.mem_iff.1 he)).2.1
  rw [Dump.records, List.foldl_append, List.foldl_append, List.foldl_append, List.foldl_append, read_env _ henv,
    read_cwd, read_functions _ rfl, read_aliases _ haliases]
  have hmark : ∀ r : DumpReader, ["Z"].foldl readRecord r = { r with done := r.done ++ [r.current], current := .empty } :=
    fun r => rfl
  rw [hmark]
  dsimp only [Snapshot.empty]
  rw [SortedMap.insertAll_perm d.env_perm, SortedMap.insertAll_perm d.functions_perm,
    SortedMap.insertAll_perm d.aliases_perm, Option.or_none]

end DumpReader

theorem NoNul.append {a b : String} (ha : NoNul a) (hb : NoNul b) : NoNul (a ++ b) := by
  rw [NoNul, String.toList_append, List.mem_append, not_or]
  exact ⟨ha, hb⟩

theorem noNul_records {s : Snapshot} (h : s.Clean) (d : Dump s) : ∀ record ∈ d.records, NoNul record := by
  have hequals : NoNul "=" := by decide
  rw [Dump.records]
  simp only [List.forall_mem_append, List.forall_mem_map, List.forall_mem_flatMap, List.forall_mem_cons]
  refine ⟨⟨⟨⟨?_, ?_⟩, ?_⟩, ?_⟩, by decide, by simp⟩
  · intro e he
    obtain ⟨hname, hvalue⟩ := h.env e (d.env_perm.mem_iff.1 he)
    exact (((by decide : NoNul "E").append (noNul_of_validEnvName hname)).append hequals).append hvalue
  · intro dir hdir
    exact (by decide : NoNul "P").append (h.cwd dir (by simpa using hdir))
  · intro e he
    obtain ⟨hname, hbody⟩ := h.functions e (d.functions_perm.mem_iff.1 he)
    exact ⟨(by decide : NoNul "F").append hname, (by decide : NoNul "B").append hbody, by simp⟩
  · intro e he
    obtain ⟨hname, -, hvalue⟩ := h.aliases e (d.aliases_perm.mem_iff.1 he)
    exact (((by decide : NoNul "A").append hname).append hequals).append hvalue

/-- The dumps of a start and an end are read as the two. -/
theorem parseSnapshots_dump {start end_ : Snapshot} (hstart : start.Clean) (hend : end_.Clean) (a : Dump start)
    (b : Dump end_) : parseSnapshots (recordBytes (a.records ++ b.records)) = some (start, end_) := by
  have hrecords : ∀ record ∈ a.records ++ b.records, NoNul record := by
    rw [List.forall_mem_append]
    exact ⟨noNul_records hstart a, noNul_records hend b⟩
  rw [parseSnapshots, dumpRecords_recordBytes hrecords, List.foldl_append, DumpReader.start,
    DumpReader.read_dump hstart, DumpReader.read_dump hend]
  rfl

/-- What each cell began and ended with, when every shell is in the same state before it runs the script. -/
inductive Cells (start : Snapshot) : SavedState → List (Snapshot × Snapshot) → SavedState → Prop
  | nil (saved : SavedState) : Cells start saved [] saved
  | cons {saved last : SavedState} {cells : List (Snapshot × Snapshot)} (end_ : Snapshot) (a : Dump start)
      (b : Dump end_) (rest : Cells start (absorbSnapshot (recordBytes (a.records ++ b.records))) cells last) :
      Cells start saved ((saved.restore start, end_) :: cells) last

/-- The end of a cell, in the start's directory where it has none of its own. -/
def Snapshot.orDirectory (end_ start : Snapshot) : Snapshot := { end_ with cwd := end_.cwd.or start.cwd }

theorem restore_absorbSnapshot {start end_ : Snapshot} (hstart : start.Clean) (hend : end_.Clean) (a : Dump start)
    (b : Dump end_) :
    (absorbSnapshot (recordBytes (a.records ++ b.records))).restore start = end_.orDirectory start := by
  rw [absorbSnapshot, parseSnapshots_dump hstart hend]
  exact restore_diffSnapshots end_ start

theorem Cells.head_begins {start : Snapshot} {saved last : SavedState} {cells : List (Snapshot × Snapshot)}
    (h : Cells start saved cells last) : ∀ cell ∈ cells.head?, cell.1 = saved.restore start := by
  cases h with
  | nil => simp
  | cons end_ a b rest => simp

theorem Cells.isChain {start : Snapshot} {saved last : SavedState} {cells : List (Snapshot × Snapshot)}
    (h : Cells start saved cells last) (hstart : start.Clean) (hcells : ∀ cell ∈ cells, cell.2.Clean) :
    cells.IsChain fun before after => after.1 = before.2.orDirectory start := by
  induction h with
  | nil saved => exact .nil
  | cons end_ a b rest ih =>
    rw [List.forall_mem_cons] at hcells
    rw [List.isChain_cons]
    refine ⟨fun after hafter => ?_, ih hcells.2⟩
    rw [rest.head_begins after hafter]
    exact restore_absorbSnapshot hstart hcells.1 a b

/-- Dumps are read back, the saved difference brings the start to the end, and every cell begins with what the last
one ended with; a directory that the end does not name stays the start's. -/
theorem saved_state_replays :
    (∀ start end_ : Snapshot, start.Clean → end_.Clean → ∀ (a : Dump start) (b : Dump end_),
      parseSnapshots (recordBytes (a.records ++ b.records)) = some (start, end_)) ∧
    (∀ start end_ : Snapshot, (diffSnapshots end_ start).restore start = end_.orDirectory start) ∧
    ∀ (start : Snapshot) (saved last : SavedState) (cells : List (Snapshot × Snapshot)), Cells start saved cells last →
      start.Clean → (∀ cell ∈ cells, cell.2.Clean) →
        cells.IsChain fun before after => after.1 = before.2.orDirectory start :=
  ⟨fun _ _ hstart hend a b => parseSnapshots_dump hstart hend a b, fun start end_ => restore_diffSnapshots end_ start,
    fun _ _ _ _ h hstart hcells => h.isChain hstart hcells⟩

/-- A value that looks like the end of a dump is a value. -/
theorem saved_state_replays_value : ∃ (a : Dump ⟨SortedMap.empty.insert "A" "Z", some "/a", .empty, .empty⟩)
    (b : Dump ⟨.empty, some "/b", .empty, .empty⟩), parseSnapshots (recordBytes (a.records ++ b.records)) =
      some (⟨SortedMap.empty.insert "A" "Z", some "/a", .empty, .empty⟩, ⟨.empty, some "/b", .empty, .empty⟩) := by
  refine ⟨⟨[("A", "Z")], [], [], .refl _, .refl _, .refl _⟩, ⟨[], [], [], .refl _, .refl _, .refl _⟩, ?_⟩
  apply saved_state_replays.1
  · exact ⟨by decide, by simp; decide, by decide, by decide⟩
  · exact ⟨by decide, by simp; decide, by decide, by decide⟩

/-- An end without a directory leaves the shell in the start's. -/
theorem directory_stays : ¬ ∀ start end_ : Snapshot, start.Clean → end_.Clean →
    (diffSnapshots end_ start).restore start = end_ := by
  intro h
  have hclean : ∀ cwd : Option String, (∀ dir ∈ cwd, NoNul dir) → Snapshot.Clean { Snapshot.empty with cwd := cwd } :=
    fun cwd hcwd => ⟨by simp [Snapshot.empty, SortedMap.empty], hcwd, by simp [Snapshot.empty, SortedMap.empty],
      by simp [Snapshot.empty, SortedMap.empty]⟩
  have hsame := h { Snapshot.empty with cwd := some "/a" } { Snapshot.empty with cwd := none }
    (hclean _ (by simp; decide)) (hclean _ (by simp))
  have hcwd := congrArg Snapshot.cwd hsame
  exact absurd hcwd (by decide)

end Ralph.Chat
