import Ralph.Snapshot.TurnRefs

namespace Ralph.Snapshot
open Chat ChatMemory ChatMemory.Search

def turnName (turn : ℕ) : String := "turn-" ++ toString turn

def workerRefRoot : String := "refs/ralph/workers/"

def workerRefPrefix (id : String) : String := workerRefRoot ++ id ++ "/"

def workerRef (id : String) (turn : ℕ) : String := workerRefPrefix id ++ turnName turn

def workerTurn (id line : String) : Option ℕ := do
  let rest ← stripPrefix (trim line) (workerRefPrefix id)
  let turn ← stripPrefix rest "turn-"
  parseUsize turn

def parseWorkerTurns (id list : String) : List ℕ := parseRefs (workerTurn id) list

def nextWorkerTurn (turns : List ℕ) : ℕ := nextAfter 0 turns

def workerRefs (id : String) (turns : List ℕ) : List String := turns.map (workerRef id)

def workerRefsToPrune (id : String) (turns : List ℕ) (keep : ℕ) : List String := workerRefs id (toPrune turns keep)

inductive Edge
  | start
  | finish
  deriving DecidableEq, Repr

def Edge.name : Edge → String
  | start => "start"
  | finish => "end"

def chatRefPrefix : String := "refs/ralph/chat/"

def chatRef (turn : ℕ) (edge : Edge) : String := chatRefPrefix ++ turnName turn ++ "/" ++ edge.name

def chatTurn (line : String) : Option ℕ := do
  let rest ← stripPrefix (trim line) chatRefPrefix
  let rest ← stripPrefix rest "turn-"
  let (turn, edge) ← Text.splitOnce rest '/'
  guard (edge = "start" ∨ edge = "end")
  parseUsize turn

def parseTurns (list : String) : List ℕ := parseRefs chatTurn list

def nextTurn (turns : List ℕ) : ℕ := nextAfter 1 turns

def refsToPrune (turns : List ℕ) (keep : ℕ) : List String :=
  (toPrune turns keep).flatMap fun turn => [chatRef turn .start, chatRef turn .finish]

/-- Which steps of a call succeed: the snapshot, and the prune behind it. -/
structure TurnTry where
  taken : Bool
  pruned : Bool

/-- `WorkerChanges::snapshot_turn`, and the number of the turn if it has a snapshot. -/
def snapshotTurn (id : String) (refs : Refs) (call : TurnTry) : Refs × List ℕ :=
  let turn := nextWorkerTurn (parseWorkerTurns id (refList refs))
  if call.taken then
    let refs := updateRef refs (workerRef id turn)
    (if call.pruned then deleteRefs refs (workerRefsToPrune id (parseWorkerTurns id (refList refs)) keepTurns)
      else refs, [turn])
  else (refs, [])

/-- Which steps around a turn of the chat succeed. -/
structure ChatTry where
  numbered : Bool
  started : Bool
  finished : Bool
  pruned : Bool

/-- `TurnSnapshots::around`, and the number of the turn if it has a snapshot. -/
def around (refs : Refs) (call : ChatTry) : Refs × List ℕ :=
  if call.numbered then
    let turn := nextTurn (parseTurns (refList refs))
    let refs := if call.started then updateRef refs (chatRef turn .start) else refs
    let refs := if call.finished then updateRef refs (chatRef turn .finish) else refs
    (if call.pruned then deleteRefs refs (refsToPrune (parseTurns (refList refs)) keepTurns) else refs,
      if call.started ∨ call.finished then [turn] else [])
  else (refs, [])

/-- The edges of a turn with a snapshot, one of them at least. -/
structure ChatEntry where
  started : Bool
  finished : Bool
  taken : started = true ∨ finished = true

def ChatEntry.edges (entry : ChatEntry) : List Edge :=
  (if entry.started then [.start] else []) ++ if entry.finished then [.finish] else []

def ChatTry.entry (call : ChatTry) : Option ChatEntry :=
  if h : call.numbered = true ∧ (call.started = true ∨ call.finished = true) then
    some ⟨call.started, call.finished, h.2⟩
  else none

theorem ChatEntry.edges_ne_nil (entry : ChatEntry) : entry.edges ≠ [] := by
  unfold ChatEntry.edges
  rcases entry.taken with h | h
  · simp [h]
  · simp [h]

theorem cleanRef_append {front last : String} {c : Char} (hfront : front.toList.head? = some 'r')
    (hlast : last.toList.getLast? = some c) (hc : isWhitespace c = false) (hfrontLine : Text.OneLine front)
    (hlastLine : Text.OneLine last) : CleanRef (front ++ last) := by
  obtain ⟨fs, hfs⟩ := List.head?_eq_some_iff.mp hfront
  obtain ⟨ls, hls⟩ := List.getLast?_eq_some_iff.mp hlast
  have hend : (front ++ last).toList.getLast? = some c := by
    rw [String.toList_append, hls, ← List.append_assoc, List.getLast?_concat]
  exact {
    oneLine := hfrontLine.append hlastLine
    kept := by
      apply Text.chomp_of_getLast? hend
      rintro rfl
      exact absurd hc (by decide)
    trimmed := by
      have hr : isWhitespace 'r' = false := by decide
      rw [trim, String.toList_append, trimChars_append ⟨'r', by rw [hfs]; exact List.mem_cons_self, hr⟩
        ⟨c, by rw [hls]; exact List.mem_append_right _ List.mem_cons_self, hc⟩]
      rw [hls, List.rdropWhile_concat_neg _ _ _ (by simp [hc]), ← hls, hfs,
        List.dropWhile_cons_of_neg (by simp [hr]), ← hfs, ← String.toList_append, String.ofList_toList]
    nonempty := by
      intro hempty
      rw [hempty] at hend
      cases hend }

theorem exists_last_digit (turn : ℕ) : ∃ c, (toString turn).toList.getLast? = some c ∧ c.isDigit = true := by
  have hne : (toString turn).toList ≠ [] := by
    rw [Nat.toString_eq_ofList_toDigits, String.toList_ofList]
    exact Nat.toDigits_ne_nil
  exact ⟨_, List.getLast?_eq_some_getLast hne, Text.isDigit_of_mem_toString (List.getLast_mem hne)⟩

theorem oneLine_turnName (turn : ℕ) : Text.OneLine (turnName turn) := by
  have hturn : Text.OneLine "turn-" := by decide
  apply hturn.append
  intro hmem
  exact absurd (Text.isDigit_of_mem_toString hmem) (by decide)

theorem oneLine_workerRefPrefix {id : String} (hid : Text.OneLine id) : Text.OneLine (workerRefPrefix id) := by
  have hworkers : Text.OneLine workerRefRoot := by decide
  have hslash : Text.OneLine "/" := by decide
  exact (hworkers.append hid).append hslash

theorem cleanRef_workerRef {id : String} (hid : Text.OneLine id) (turn : ℕ) : CleanRef (workerRef id turn) := by
  obtain ⟨c, hlast, hc⟩ := exists_last_digit turn
  have hfront : (workerRefPrefix id).toList.head? = some 'r' := by
    have hhead : workerRefRoot.toList.head? = some 'r' := by decide
    rw [workerRefPrefix, String.toList_append, String.toList_append, List.head?_append, List.head?_append, hhead]
    rfl
  have hend : (turnName turn).toList.getLast? = some c := by
    rw [turnName, String.toList_append, List.getLast?_append, hlast]
    rfl
  exact cleanRef_append hfront hend (isWhitespace_of_isDigit hc) (oneLine_workerRefPrefix hid) (oneLine_turnName turn)

theorem workerTurn_workerRef {id : String} (hid : Text.OneLine id) {turn : ℕ} (h : turn < 2 ^ 64) :
    workerTurn id (workerRef id turn) = some turn := by
  have hrest : stripPrefix (workerRef id turn) (workerRefPrefix id) = some (turnName turn) := by
    rw [stripPrefix_eq_some_iff, workerRef, String.toList_append]
  have hturn : stripPrefix (turnName turn) "turn-" = some (toString turn) := by
    rw [stripPrefix_eq_some_iff, turnName, String.toList_append]
  have hfits : turn ≤ usizeMax := by
    unfold usizeMax
    omega
  rw [workerTurn, (cleanRef_workerRef hid turn).trimmed, hrest, Option.bind_eq_bind, Option.bind_some, hturn,
    Option.bind_some, parseUsize_toString hfits]

theorem cleanRef_chatRef (turn : ℕ) (edge : Edge) : CleanRef (chatRef turn edge) := by
  have hchat : Text.OneLine chatRefPrefix := by decide
  have hslash : Text.OneLine "/" := by decide
  have hfront : (chatRefPrefix ++ turnName turn ++ "/").toList.head? = some 'r' := by
    have hhead : chatRefPrefix.toList.head? = some 'r' := by decide
    rw [String.toList_append, String.toList_append, List.head?_append, List.head?_append, hhead]
    rfl
  have hfrontLine := (hchat.append (oneLine_turnName turn)).append hslash
  cases edge with
  | start =>
    have hlast : "start".toList.getLast? = some 't' := by decide
    exact cleanRef_append hfront hlast (by decide) hfrontLine (by decide)
  | finish =>
    have hlast : "end".toList.getLast? = some 'd' := by decide
    exact cleanRef_append hfront hlast (by decide) hfrontLine (by decide)

theorem splitOnce_turn (turn : ℕ) (edge : String) :
    Text.splitOnce (toString turn ++ "/" ++ edge) '/' = some (toString turn, edge) := by
  have hlist : (toString turn ++ "/" ++ edge).toList = (toString turn).toList ++ '/' :: edge.toList := by
    rw [String.toList_append, String.toList_append, List.append_assoc]
    rfl
  refine Text.splitOnce_append hlist fun hslash => ?_
  exact absurd (Text.isDigit_of_mem_toString hslash) (by decide)

theorem chatTurn_chatRef {turn : ℕ} (h : turn < 2 ^ 64) (edge : Edge) : chatTurn (chatRef turn edge) = some turn := by
  have hrest : stripPrefix (chatRef turn edge) chatRefPrefix = some (turnName turn ++ "/" ++ edge.name) := by
    rw [stripPrefix_eq_some_iff, chatRef]
    simp only [String.toList_append, List.append_assoc]
  have hturn : stripPrefix (turnName turn ++ "/" ++ edge.name) "turn-" =
      some (toString turn ++ "/" ++ edge.name) := by
    rw [stripPrefix_eq_some_iff, turnName]
    simp only [String.toList_append, List.append_assoc]
  have hfits : turn ≤ usizeMax := by
    unfold usizeMax
    omega
  have hedge : edge.name = "start" ∨ edge.name = "end" := by
    cases edge with
    | start => exact .inl rfl
    | finish => exact .inr rfl
  rw [chatTurn, (cleanRef_chatRef turn edge).trimmed, hrest, Option.bind_eq_bind, Option.bind_some, hturn,
    Option.bind_some, splitOnce_turn, Option.bind_eq_bind, Option.bind_some]
  dsimp only
  rw [guard, if_pos hedge, parseUsize_toString hfits]
  rfl

theorem workerRefsToPrune_eq (id : String) (turns : List ℕ) (keep : ℕ) :
    workerRefsToPrune id turns keep = (toPrune turns keep).flatMap fun turn => [workerRef id turn] :=
  List.map_eq_flatMap

theorem worker_numbering {id : String} (hid : Text.OneLine id) :
    Numbering (fun turn => [workerRef id turn]) (fun _ : Unit => fun turn => [workerRef id turn]) (workerTurn id) where
  number turn hturn name hname := by
    rw [List.mem_singleton.mp hname]
    exact workerTurn_workerRef hid hturn
  clean turn name hname := by
    rw [List.mem_singleton.mp hname]
    exact cleanRef_workerRef hid turn
  among _ _ _ hname := hname
  taken _ _ := List.cons_ne_nil _ _

def TurnTry.entry (call : TurnTry) : Option Unit := if call.taken then some () else none

/-- The turns of a worker with a snapshot. -/
def workerLog (calls : List TurnTry) : TurnLog Unit :=
  calls.foldl (fun log call => log.next call.entry (call.taken && call.pruned)) ⟨[], 0⟩

theorem workerLog_concat (calls : List TurnTry) (call : TurnTry) :
    workerLog (calls ++ [call]) = (workerLog calls).next call.entry (call.taken && call.pruned) :=
  List.foldl_concat ..

theorem length_entries_workerLog (calls : List TurnTry) :
    (workerLog calls).entries.length = calls.countP TurnTry.taken := by
  induction calls using List.reverseRecOn with
  | nil => rfl
  | append_singleton calls call ih =>
    rw [workerLog_concat, TurnLog.next, TurnTry.entry]
    dsimp only
    rw [List.length_append, ih, List.countP_append]
    cases htaken : call.taken with
    | false => simp [htaken]
    | true => simp [htaken]

/-- The turns are numbered in their order, and those that are not pruned have their refs. -/
theorem worker_holds {id : String} (hid : Text.OneLine id) (calls : List TurnTry) (hfits : calls.length ≤ 2 ^ 64) :
    (workerLog calls).Holds 0 (fun _ turn => [workerRef id turn]) (Machine.after (snapshotTurn id) [] calls) ∧
      Machine.outputs (snapshotTurn id) [] calls = List.range' 0 (workerLog calls).entries.length := by
  induction calls using List.reverseRecOn with
  | nil => exact ⟨TurnLog.holds_start, rfl⟩
  | append_singleton calls call ih =>
    rw [List.length_append, List.length_singleton] at hfits
    obtain ⟨hholds, hnumbers⟩ := ih (by omega)
    have hlength : (workerLog calls).entries.length ≤ calls.length := by
      rw [length_entries_workerLog]
      exact List.countP_le_length
    have hturn := hholds.nextAfter (worker_numbering hid) (by omega)
    rw [Nat.zero_add] at hturn
    rw [Machine.after_concat, Machine.outputs_concat, hnumbers, workerLog_concat, snapshotTurn, nextWorkerTurn,
      parseWorkerTurns, hturn]
    -- a snapshot that failed leaves no ref and no number
    cases htaken : call.taken with
    | false =>
      rw [if_neg Bool.false_ne_true, TurnTry.entry, htaken, if_neg Bool.false_ne_true, TurnLog.next]
      dsimp only
      rw [Option.toList_none, List.append_nil, List.append_nil]
      exact ⟨hholds, rfl⟩
    | true =>
      rw [if_pos rfl, TurnTry.entry, htaken, if_pos rfl, Bool.true_and]
      have hadded : ∀ name, name ∈ updateRef (Machine.after (snapshotTurn id) [] calls)
          (workerRef id (workerLog calls).entries.length) ↔ name ∈ Machine.after (snapshotTurn id) [] calls ∨
            ∃ e ∈ some (), name ∈ (fun (_ : Unit) turn => [workerRef id turn]) e
              (0 + (workerLog calls).entries.length) := by
        simp [mem_updateRef]
      have hlarger : 0 + ((workerLog calls).entries ++ (some ()).toList).length ≤ 2 ^ 64 := by
        rw [Option.toList_some, List.length_append, List.length_singleton]
        omega
      constructor
      · dsimp only
        rw [workerRefsToPrune_eq]
        exact hholds.next (worker_numbering hid) (some ()) hlarger hadded call.pruned
      · rw [TurnLog.next]
        dsimp only
        rw [Option.toList_some, List.length_append, List.length_singleton, List.range'_1_concat, Nat.zero_add]

theorem chat_numbering : Numbering (fun turn => [chatRef turn .start, chatRef turn .finish])
    (fun (entry : ChatEntry) turn => entry.edges.map (chatRef turn)) chatTurn where
  number turn hturn name hname := by
    rcases List.mem_pair.mp hname with rfl | rfl
    · exact chatTurn_chatRef hturn .start
    · exact chatTurn_chatRef hturn .finish
  clean turn name hname := by
    rcases List.mem_pair.mp hname with rfl | rfl
    · exact cleanRef_chatRef turn .start
    · exact cleanRef_chatRef turn .finish
  among entry turn name hname := by
    rw [List.mem_map] at hname
    rcases hname with ⟨edge, _, rfl⟩
    cases edge with
    | start => exact List.mem_cons_self
    | finish => exact List.mem_cons_of_mem _ List.mem_cons_self
  taken entry turn := by
    rw [Ne, List.map_eq_nil_iff]
    exact entry.edges_ne_nil

/-- The turns of the chat with a snapshot. -/
def chatLog (calls : List ChatTry) : TurnLog ChatEntry :=
  calls.foldl (fun log call => log.next call.entry (call.numbered && call.pruned)) ⟨[], 0⟩

theorem chatLog_concat (calls : List ChatTry) (call : ChatTry) :
    chatLog (calls ++ [call]) = (chatLog calls).next call.entry (call.numbered && call.pruned) :=
  List.foldl_concat ..

theorem length_entries_chatLog (calls : List ChatTry) : (chatLog calls).entries.length ≤ calls.length := by
  induction calls using List.reverseRecOn with
  | nil => exact Nat.le_refl _
  | append_singleton calls call ih =>
    rw [chatLog_concat, TurnLog.next]
    dsimp only
    rw [List.length_append, List.length_append, List.length_singleton]
    have hone : call.entry.toList.length ≤ 1 := by
      cases call.entry with
      | none => exact Nat.zero_le 1
      | some entry => exact Nat.le_refl 1
    omega

/-- The refs of one turn of the chat. -/
theorem mem_around {refs : Refs} {call : ChatTry} (hnumbered : call.numbered = true) {turn : ℕ} {name : String} :
    (name ∈ if call.finished then
        updateRef (if call.started then updateRef refs (chatRef turn .start) else refs) (chatRef turn .finish)
      else if call.started then updateRef refs (chatRef turn .start) else refs) ↔
      name ∈ refs ∨ ∃ e ∈ call.entry, name ∈ e.edges.map (chatRef turn) := by
  cases call with
  | mk numbered started finished pruned =>
    dsimp only at hnumbered
    rw [hnumbered]
    unfold ChatTry.entry ChatEntry.edges
    cases started with
    | false =>
      cases finished with
      | false => simp
      | true => simp [mem_updateRef, @eq_comm _ name]
    | true =>
      cases finished with
      | false => simp [mem_updateRef, @eq_comm _ name]
      | true => simp [mem_updateRef, or_assoc, @eq_comm _ name]

theorem chat_holds (calls : List ChatTry) (hfits : calls.length < 2 ^ 64) :
    (chatLog calls).Holds 1 (fun entry turn => entry.edges.map (chatRef turn)) (Machine.after around [] calls) ∧
      Machine.outputs around [] calls = List.range' 1 (chatLog calls).entries.length := by
  induction calls using List.reverseRecOn with
  | nil => exact ⟨TurnLog.holds_start, rfl⟩
  | append_singleton calls call ih =>
    rw [List.length_append, List.length_singleton] at hfits
    obtain ⟨hholds, hnumbers⟩ := ih (by omega)
    have hlength := length_entries_chatLog calls
    have hturn := hholds.nextAfter chat_numbering (by omega)
    rw [Machine.after_concat, Machine.outputs_concat, hnumbers, chatLog_concat, around]
    cases hnumbered : call.numbered with
    | false =>
      have hnone : call.entry = none := by
        rw [ChatTry.entry, dif_neg (by simp [hnumbered])]
      rw [if_neg Bool.false_ne_true, hnone, TurnLog.next]
      dsimp only
      rw [Option.toList_none, List.append_nil, List.append_nil]
      exact ⟨hholds, rfl⟩
    | true =>
      rw [if_pos rfl, nextTurn, parseTurns, hturn, Bool.true_and]
      have hlarger : 1 + ((chatLog calls).entries ++ call.entry.toList).length ≤ 2 ^ 64 := by
        have hone : call.entry.toList.length ≤ 1 := by
          cases call.entry with
          | none => exact Nat.zero_le 1
          | some entry => exact Nat.le_refl 1
        rw [List.length_append]
        omega
      constructor
      · exact hholds.next chat_numbering call.entry hlarger (fun name => mem_around hnumbered) call.pruned
      · rw [TurnLog.next]
        dsimp only
        rw [ChatTry.entry]
        by_cases htaken : call.started = true ∨ call.finished = true
        · rw [if_pos htaken, dif_pos ⟨hnumbered, htaken⟩, Option.toList_some, List.length_append,
            List.length_singleton, List.range'_1_concat]
        · rw [if_neg htaken, dif_neg fun h => htaken h.2, Option.toList_none, List.append_nil, List.append_nil]

end Ralph.Snapshot
