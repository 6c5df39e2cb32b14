import Mathlib.Data.List.Perm.Basic
import Ralph.Worker.Report

namespace Ralph.Inbox
open Worker

/-- A position in the queue, counted from 1. -/
structure Position where
  n : ℕ
  nonzero : 0 < n
  deriving DecidableEq

def Position.first : Position := ⟨1, Nat.one_pos⟩

def Position.index (p : Position) : ℕ := p.n - 1

structure Entry where
  source : String
  report : Report
  deriving DecidableEq, Repr

/-- An entry as the ledger file has it: old files also keep entries that were read. -/
structure StoredEntry where
  source : String
  read : Bool
  report : Report
  deriving DecidableEq, Repr

structure Ledger where
  entries : List Entry
  deriving DecidableEq, Repr

inductive Selection
  | all
  | next
  | at (position : Position)

namespace Ledger

def ofStored (stored : List StoredEntry) : Ledger :=
  ⟨(stored.filter fun e => !e.read).map fun e => ⟨e.source, e.report⟩⟩

/-- What `serde` writes of a ledger, as it is read back. -/
def stored (l : Ledger) : List StoredEntry := l.entries.map fun e => ⟨e.source, false, e.report⟩

def ingest (l : Ledger) (arrivals : List (String × Report)) : Ledger :=
  arrivals.foldl
    (fun l a => if l.entries.any fun e => e.source == a.1 then l else ⟨l.entries ++ [⟨a.1, a.2⟩]⟩) l

def get (l : Ledger) (position : Position) : Option Entry := l.entries[position.index]?

def remove (l : Ledger) (position : Position) : Option Entry × Ledger :=
  (l.entries[position.index]?, ⟨l.entries.eraseIdx position.index⟩)

def reports (l : Ledger) : List Report := l.entries.map Entry.report

def take (l : Ledger) (selection : Selection) : List Report × Ledger :=
  match selection with
  | .all => (l.reports, ⟨[]⟩)
  | .next => (((l.remove .first).1.map Entry.report).toList, (l.remove .first).2)
  | .at position => (((l.remove position).1.map Entry.report).toList, (l.remove position).2)

def sources (l : Ledger) : List String := l.entries.map Entry.source

theorem ofStored_stored (l : Ledger) : ofStored l.stored = l := by
  have hkeep : l.stored.filter (fun e => !e.read) = l.stored := by
    rw [List.filter_eq_self]
    intro e he
    obtain ⟨a, -, rfl⟩ := List.mem_map.mp he
    rfl
  rw [ofStored, hkeep, stored, List.map_map]
  exact congrArg Ledger.mk (List.map_id' l.entries)

/-- Arrivals of distinct names join behind the older entries, those of a known name left out. -/
theorem ingest_entries (l : Ledger) {arrivals : List (String × Report)}
    (hnodup : (arrivals.map Prod.fst).Nodup) :
    (l.ingest arrivals).entries = l.entries ++
      (arrivals.filter fun a => decide (a.1 ∉ l.sources)).map fun a => ⟨a.1, a.2⟩ := by
  induction arrivals generalizing l with
  | nil => exact (List.append_nil _).symm
  | cons a arrivals ih =>
    rw [List.map_cons, List.nodup_cons] at hnodup
    have hknown : (l.entries.any fun e => e.source == a.1) = decide (a.1 ∈ l.sources) := by
      rw [Bool.eq_iff_iff]
      simp [sources]
    rw [ingest, List.foldl_cons, ← ingest, hknown]
    by_cases ha : a.1 ∈ l.sources
    · rw [if_pos (by simpa using ha), ih l hnodup.2, List.filter_cons_of_neg (by simpa using ha)]
    · rw [if_neg (by simpa using ha), ih _ hnodup.2, List.filter_cons_of_pos (by simpa using ha),
        List.map_cons, List.append_assoc, List.singleton_append]
      have hsame : arrivals.filter (fun b => decide (b.1 ∉ Ledger.sources ⟨l.entries ++ [⟨a.1, a.2⟩]⟩)) =
          arrivals.filter fun b => decide (b.1 ∉ l.sources) := by
        apply List.filter_congr
        intro b hb
        have hne : b.1 ≠ a.1 := fun h => hnodup.1 (h ▸ List.mem_map_of_mem hb)
        simp [sources, hne]
      rw [hsame]

end Ledger

namespace Selection

def taken (s : Selection) (l : Ledger) : List Entry :=
  match s with
  | .all => l.entries
  | .next => (l.get .first).toList
  | .at position => (l.get position).toList

def left (s : Selection) (l : Ledger) : Ledger := (l.take s).2

theorem take_eq (s : Selection) (l : Ledger) :
    l.take s = ((s.taken l).map Entry.report, s.left l) := by
  cases s with
  | all => rfl
  | next => cases h : l.entries[Position.first.index]? <;> simp [left, taken, Ledger.take, Ledger.remove, Ledger.get, h]
  | «at» position =>
    cases h : l.entries[position.index]? <;> simp [left, taken, Ledger.take, Ledger.remove, Ledger.get, h]

end Selection

theorem Ledger.remove_of_get_eq_none (l : Ledger) {position : Position} (h : l.get position = none) :
    (l.remove position).2 = l :=
  congrArg Ledger.mk (List.eraseIdx_of_length_le (List.getElem?_eq_none_iff.mp h))

theorem Selection.left_of_nothing_taken (s : Selection) {l : Ledger}
    (h : (l.take s).1.isEmpty = true) : s.left l = l := by
  rw [s.take_eq, List.isEmpty_map, List.isEmpty_iff] at h
  cases s with
  | all => exact congrArg Ledger.mk h.symm
  | next => exact l.remove_of_get_eq_none (Option.toList_eq_nil_iff.mp h)
  | «at» position => exact l.remove_of_get_eq_none (Option.toList_eq_nil_iff.mp h)

/-- Taking one entry out keeps the others. -/
theorem Ledger.get_append_remove_perm (l : Ledger) (position : Position) :
    ((l.get position).toList ++ (l.remove position).2.entries).Perm l.entries := by
  rw [Ledger.get, Ledger.remove]
  by_cases h : position.index < l.entries.length
  · rw [List.getElem?_eq_getElem h]
    exact List.getElem_cons_eraseIdx_perm h
  · rw [List.getElem?_eq_none (by omega), List.eraseIdx_of_length_le (by omega)]
    exact List.Perm.refl _

theorem Selection.taken_append_left_perm (s : Selection) (l : Ledger) :
    (s.taken l ++ (s.left l).entries).Perm l.entries := by
  cases s with
  | all => exact List.Perm.of_eq (List.append_nil _)
  | next => exact l.get_append_remove_perm .first
  | «at» position => exact l.get_append_remove_perm position

end Ralph.Inbox
