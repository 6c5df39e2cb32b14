import Ralph.ChatMemory.Nap
import Ralph.ChatMemory.Refresh
import Ralph.Loop

namespace Ralph.ChatMemory
open Fallible

def tailProbeBytes : ℕ := 4096

/-- The loop of `trim_torn_tail`: the window is read from the end of the file, and doubles until
it shows where the last line starts. -/
def trimBody (file : Bytes) : Loop.Body {window : ℕ // 0 < window} Bytes where
  step window :=
    let start := file.length - window
    match logTail (file.drop start) start with
    | .whole => .inr file
    | .torn at_ => .inr (file.take at_)
    -- the last line starts further back
    | .needMore => .inl ⟨window * 2, double_pos window⟩
  measure window := file.length - window
  decreases := by
    rintro window window' h
    have hpos := window.2
    simp only at h
    split at h
    · cases h
    · cases h
    · next htail =>
      obtain rfl := Sum.inl.inj h
      have hstart : file.length - window ≠ 0 := by
        intro hzero
        rw [hzero] at htail
        exact logTail_zero_ne_needMore _ htail
      simp only
      omega

def trimTornTail (file : Bytes) : Bytes := (trimBody file).run ⟨tailProbeBytes, by decide⟩

/-- The files of a store's directory, each missing or with its bytes. -/
structure Store where
  log : Option Bytes
  tree : Option Bytes
  logIndex : Option Bytes
  treeIndex : Option Bytes

namespace Store

/-- `read_optional`: a missing file reads as empty. -/
def readOptional (file : Option Bytes) : Bytes := file.getD []

def readTree (J : Json) (s : Store) : Tree × List String := parseTree J (readOptional s.tree)

/-- `update_index`, whose failure is only warned about. -/
def updated {S : Type} (K : Slot S) (file indexFile : Option Bytes) : Option Bytes :=
  match updateIndex K (readOptional file) indexFile with
  | .ok (_, indexFile) => indexFile
  | .error _ => indexFile

/-- `Store::append` of an entry stamped with its time. -/
def append (J : Json) (s : Store) (entry : NewEntry) : Except String Store := do
  let line ← encodeEntry J entry
  let log := some (trimTornTail (readOptional s.log) ++ line)
  pure { s with log := log, logIndex := updated logSlot log s.logIndex }

def put (J : Json) (s : Store) (node : Node) (text : String) : Except String Store := do
  let line ← encodeRecord J node text
  pure { s with tree := some (readOptional s.tree ++ line) }

/-- Re-reads the tree under the exclusive lock and writes the summary only when no other nap
committed the node first. Returns the committed tree. -/
def commit (J : Json) (s : Store) (node : Node) (summary : String) : Except String (Tree × Store) := do
  let tree := (s.readTree J).1
  match commitDecision tree node with
  | .write =>
    let s ← s.put J node summary
    let s := { s with treeIndex := updated (nodeSlot J) s.tree s.treeIndex }
    pure (tree.insert node summary, s)
  | .taken => pure (tree, s)

end Store

/-- The bytes up to the last newline: every complete line. -/
def completePart (file : Bytes) : Bytes := Lines.join newline (Lines.cut newline file).1

theorem completePart_append_rest (file : Bytes) :
    completePart file ++ (Lines.cut newline file).2 = file := Lines.join_cut newline file

theorem whole_completePart (file : Bytes) : Lines.Whole newline (completePart file) :=
  Lines.whole_join newline (Lines.notMem_cut newline file).1

theorem completePart_of_whole {file : Bytes} (h : Lines.Whole newline file) :
    completePart file = file := h.eq_join.symm

/-- The complete part ends after the last newline. -/
theorem completePart_eq_take (file : Bytes) :
    completePart file = file.take ((Lines.rposition newline file).elim 0 (· + 1)) := by
  rw [← Lines.length_join_cut]
  conv_rhs => arg 2; rw [← completePart_append_rest file]
  exact List.take_left.symm

/-- What comes before the last newline does not matter for where it is. -/
theorem completePart_append {chunk : Bytes} (h : completePart chunk ≠ []) (file : Bytes) :
    completePart (file ++ chunk) = file ++ completePart chunk := by
  obtain ⟨y, hy⟩ := (whole_completePart chunk).eq_nil_or_concat.resolve_left h
  have hwhole : Lines.Whole newline (file ++ completePart chunk) := by
    rw [Lines.whole_iff_getLast?, hy]
    exact .inr (by simp)
  have hcut := hwhole.cut_append (Lines.cut newline chunk).2
  rw [Lines.cut_of_notMem newline (Lines.notMem_cut newline chunk).2, List.append_nil,
    List.append_assoc, completePart_append_rest] at hcut
  rw [completePart, hcut, ← hwhole.eq_join]

/-- What a window on the end of the file shows of its torn tail. -/
theorem logTail_drop (file : Bytes) (start : ℕ) (hstart : start < file.length ∨ file = []) :
    logTail (file.drop start) start = .whole ∧ completePart file = file ∨
      (∃ at_, logTail (file.drop start) start = .torn at_ ∧ completePart file = file.take at_) ∨
      logTail (file.drop start) start = .needMore := by
  have hfile : file.take start ++ file.drop start = file := List.take_append_drop start file
  unfold logTail
  by_cases hlast : (file.drop start).getLast?.elim true (· == newline) = true
  · rw [if_pos hlast]
    refine .inl ⟨rfl, completePart_of_whole ?_⟩
    rw [Lines.whole_iff_getLast?]
    cases hget : (file.drop start).getLast? with
    | none =>
      rw [List.getLast?_eq_none_iff, List.drop_eq_nil_iff] at hget
      exact .inl (hstart.resolve_left (by omega))
    | some b =>
      obtain rfl : b = newline := by simpa [hget] using hlast
      exact .inr (by rw [← hfile, List.getLast?_append, hget]; rfl)
  · rw [if_neg hlast]
    cases hpos : Lines.rposition newline (file.drop start) with
    | some i =>
      have hchunk := completePart_eq_take (file.drop start)
      have hlen := Lines.length_join_cut newline (file.drop start)
      rw [hpos] at hchunk hlen
      have hne : completePart (file.drop start) ≠ [] := List.ne_nil_of_length_eq_add_one hlen
      refine .inr (.inl ⟨_, rfl, ?_⟩)
      have hfull := completePart_append hne (file.take start)
      rw [hfile, hchunk] at hfull
      rw [hfull, Nat.add_assoc, List.take_add]
      rfl
    | none =>
      simp only
      split_ifs with hzero
      · subst hzero
        refine .inr (.inl ⟨0, rfl, ?_⟩)
        rw [List.drop_zero] at hpos
        rw [completePart_eq_take, hpos]
        rfl
      · exact .inr (.inr rfl)

theorem run_trimBody (file : Bytes) (window : {window : ℕ // 0 < window}) :
    (trimBody file).run window = completePart file := by
  refine (trimBody file).run_of_invariant (I := fun _ => True) (Q := fun r => r = completePart file)
    (fun _ _ _ _ => trivial) ?_ trivial
  rintro window r - hr
  have hpos := window.2
  simp only [trimBody] at hr
  rcases logTail_drop file (file.length - window)
    (by rcases file with _ | ⟨b, file⟩ <;> simp; omega) with
    ⟨htail, hfile⟩ | ⟨at_, htail, hfile⟩ | htail
  · rw [htail] at hr
    rw [hfile]
    exact (Sum.inr.inj hr).symm
  · rw [htail] at hr
    rw [hfile]
    exact (Sum.inr.inj hr).symm
  · rw [htail] at hr
    cases hr

end Ralph.ChatMemory
