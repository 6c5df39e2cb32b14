import Mathlib.Data.Finset.Sort
import Ralph.Chat.Words
import Ralph.ChatMemory.Search.Request
import Ralph.Machine
import Ralph.Text

namespace Ralph.Snapshot

/-- The refs of a side repository, by name. -/
abbrev Refs := List String

def updateRef (refs : Refs) (name : String) : Refs := if name ∈ refs then refs else refs ++ [name]

/-- `update-ref --stdin` deletes all or none. -/
def deleteRefs (refs : Refs) (doomed : List String) : Refs := refs.filter (· ∉ doomed)

/-- `for-each-ref`, a name on each line, without the blanks at the end. -/
def refList (refs : Refs) : String := "\n".intercalate (refs.mergeSort (· ≤ ·))

def keepTurns : ℕ := 20

/-- The turns of a list of refs, each once and in their order. -/
def parseRefs (number : String → Option ℕ) (list : String) : List ℕ :=
  ((Text.lines list).filterMap number).toFinset.sort (· ≤ ·)

def nextAfter (first : ℕ) (turns : List ℕ) : ℕ := (turns.max?.map (· + 1)).getD first

/-- The turns in front of the newest that are kept. -/
def toPrune (turns : List ℕ) (keep : ℕ) : List ℕ :=
  let sorted := turns.toFinset.sort (· ≤ ·)
  sorted.take (sorted.length - keep)

theorem mem_updateRef {refs : Refs} {name other : String} :
    other ∈ updateRef refs name ↔ other ∈ refs ∨ other = name := by
  unfold updateRef
  split_ifs with h
  · exact ⟨.inl, fun hother => hother.elim id fun heq => heq ▸ h⟩
  · simp

theorem mem_deleteRefs {refs : Refs} {doomed : List String} {name : String} :
    name ∈ deleteRefs refs doomed ↔ name ∈ refs ∧ name ∉ doomed := by
  simp [deleteRefs]

/-- A name that is read back from its line. -/
structure CleanRef (name : String) : Prop where
  oneLine : Text.OneLine name
  kept : Text.chomp name = name
  trimmed : Chat.trim name = name
  nonempty : name ≠ ""

theorem lines_refList {refs : Refs} (h : ∀ name ∈ refs, CleanRef name) :
    Text.lines (refList refs) = refs.mergeSort (· ≤ ·) := by
  have hclean : ∀ name ∈ refs.mergeSort (· ≤ ·), CleanRef name := fun name hname => h name (List.mem_mergeSort.mp hname)
  rw [refList]
  generalize refs.mergeSort (· ≤ ·) = names at hclean ⊢
  by_cases hne : names = []
  · rw [hne, Text.lines_eq]
    rfl
  · rw [Text.lines_eq, Text.parts_intercalate hne fun name hname => (hclean name hname).oneLine]
    induction names with
    | nil => exact absurd rfl hne
    | cons name names ih =>
      rw [List.forall_mem_cons] at hclean
      cases names with
      | nil => simp [Text.ended, hclean.1.nonempty]
      | cons next names =>
        rw [List.map_cons, List.map_cons, Text.ended_cons_cons, String.ofList_toList, hclean.1.kept]
        rw [List.map_cons] at ih
        rw [ih hclean.2 (List.cons_ne_nil _ _)]

theorem parseRefs_refList {number : String → Option ℕ} {refs : Refs} (h : ∀ name ∈ refs, CleanRef name)
    {turns : List ℕ} (hsorted : turns.Pairwise (· < ·))
    (hturns : ∀ t, t ∈ turns ↔ ∃ name ∈ refs, number name = some t) :
    parseRefs number (refList refs) = turns := by
  have hset : ((Text.lines (refList refs)).filterMap number).toFinset = turns.toFinset := by
    ext t
    rw [lines_refList h, List.mem_toFinset, List.mem_toFinset, List.mem_filterMap, hturns]
    simp only [List.mem_mergeSort]
  rw [parseRefs, hset, List.toFinset_sort (· ≤ ·) (hsorted.imp fun hlt => ne_of_lt hlt)]
  exact hsorted.imp fun hlt => le_of_lt hlt

theorem range'_sorted (start count : ℕ) : (List.range' start count).Pairwise (· < ·) :=
  List.pairwise_lt_range'

theorem nextAfter_range' (first start count : ℕ) (h : 0 < count) :
    nextAfter first (List.range' start count) = start + count := by
  have hmax : (List.range' start count).max? = some (start + count - 1) := by
    rw [List.max?_eq_some_iff]
    constructor
    · rw [List.mem_range'_1]
      omega
    · intro t ht
      rw [List.mem_range'_1] at ht
      omega
  rw [nextAfter, hmax, Option.map_some, Option.getD_some]
  omega

theorem toPrune_range' (start count keep : ℕ) :
    toPrune (List.range' start count) keep = List.range' start (count - keep) := by
  have hsorted : (List.range' start count).toFinset.sort (· ≤ ·) = List.range' start count := by
    rw [List.toFinset_sort (· ≤ ·) ((range'_sorted start count).imp fun hlt => ne_of_lt hlt)]
    exact (range'_sorted start count).imp fun hlt => le_of_lt hlt
  rw [toPrune, hsorted, List.length_range']
  exact List.take_range'_of_length_ge (Nat.sub_le ..)

/-- Every turn with a ref, and how many of the first have lost theirs. -/
structure TurnLog (α : Type*) where
  entries : List α
  pruned : ℕ

section Log

variable {α : Type*} (first : ℕ) (names : ℕ → List String) (render : α → ℕ → List String)
  (number : String → Option ℕ)

/-- The refs of a turn, and how its number is read off them. -/
structure Numbering : Prop where
  number : ∀ turn < 2 ^ 64, ∀ name ∈ names turn, number name = some turn
  clean : ∀ turn, ∀ name ∈ names turn, CleanRef name
  among : ∀ entry turn, render entry turn ⊆ names turn
  taken : ∀ entry turn, render entry turn ≠ []

/-- The refs are those of the turns that are not pruned. -/
structure TurnLog.Holds (refs : Refs) (log : TurnLog α) : Prop where
  mem : ∀ name, name ∈ refs ↔
    ∃ i entry, log.pruned ≤ i ∧ log.entries[i]? = some entry ∧ name ∈ render entry (first + i)
  kept : log.pruned < log.entries.length ∨ log.entries = [] ∧ log.pruned = 0

variable {first names render number} {refs : Refs} {log : TurnLog α}

theorem TurnLog.holds_start : TurnLog.Holds first render [] ⟨[], 0⟩ where
  mem name := by simp
  kept := .inr ⟨rfl, rfl⟩

theorem Numbering.number_of_mem (hnames : Numbering names render number)
    (hfits : first + log.entries.length ≤ 2 ^ 64) {i : ℕ} {entry : α} {name : String}
    (hentry : log.entries[i]? = some entry) (hname : name ∈ render entry (first + i)) :
    number name = some (first + i) := by
  have hlt := (List.getElem?_eq_some_iff.mp hentry).1
  exact hnames.number _ (by omega) name (hnames.among _ _ hname)

namespace TurnLog.Holds

variable (h : log.Holds first render refs) (hnames : Numbering names render number)
  (hfits : first + log.entries.length ≤ 2 ^ 64)

include h hnames

theorem clean : ∀ name ∈ refs, CleanRef name := by
  intro name hname
  rw [h.mem] at hname
  rcases hname with ⟨i, entry, _, _, hrender⟩
  exact hnames.clean _ name (hnames.among _ _ hrender)

include hfits

/-- The turns that are read off the refs. -/
theorem parseRefs : parseRefs number (refList refs) =
    List.range' (first + log.pruned) (log.entries.length - log.pruned) := by
  apply parseRefs_refList (h.clean hnames) (range'_sorted _ _)
  intro turn
  rw [List.mem_range'_1]
  constructor
  · intro hturn
    have hlt : turn - first < log.entries.length := by omega
    have hentry : log.entries[turn - first]? = some log.entries[turn - first] := List.getElem?_eq_getElem hlt
    obtain ⟨name, hname⟩ := List.exists_mem_of_ne_nil _ (hnames.taken log.entries[turn - first] (first + (turn - first)))
    refine ⟨name, (h.mem name).mpr ⟨turn - first, _, by omega, hentry, hname⟩, ?_⟩
    rw [hnames.number_of_mem hfits hentry hname]
    congr 1
    omega
  · rintro ⟨name, hname, hnumber⟩
    rw [h.mem] at hname
    rcases hname with ⟨i, entry, hi, hentry, hrender⟩
    rw [hnames.number_of_mem hfits hentry hrender] at hnumber
    have hlt := (List.getElem?_eq_some_iff.mp hentry).1
    have hturn := Option.some.inj hnumber
    omega

/-- The next turn has a new number. -/
theorem nextAfter : nextAfter first (Snapshot.parseRefs number (refList refs)) = first + log.entries.length := by
  rw [h.parseRefs hnames hfits]
  rcases h.kept with hkept | ⟨hnil, hzero⟩
  · rw [nextAfter_range' _ _ _ (by omega)]
    omega
  · rw [hnil, hzero]
    rfl

omit hfits hnames in
theorem append {entry : α} {refs' : Refs} (hrefs : ∀ name, name ∈ refs' ↔
    name ∈ refs ∨ name ∈ render entry (first + log.entries.length)) :
    TurnLog.Holds first render refs' ⟨log.entries ++ [entry], log.pruned⟩ where
  mem name := by
    have hle : log.pruned ≤ log.entries.length := by
      rcases h.kept with hlt | ⟨_, hzero⟩
      · exact hlt.le
      · omega
    rw [hrefs, h.mem]
    constructor
    · rintro (⟨i, old, hi, hold, hname⟩ | hname)
      · refine ⟨i, old, hi, ?_, hname⟩
        dsimp only
        rw [List.getElem?_append_left (List.getElem?_eq_some_iff.mp hold).1, hold]
      · exact ⟨log.entries.length, entry, hle, List.getElem?_concat_length, hname⟩
    · rintro ⟨i, old, hi, hold, hname⟩
      dsimp only at hi hold
      rw [List.getElem?_append] at hold
      split_ifs at hold with hlt
      · exact .inl ⟨i, old, hi, hold, hname⟩
      · have hzero := (List.getElem?_eq_some_iff.mp hold).1
        rw [List.length_singleton] at hzero
        have hi' : i = log.entries.length := by omega
        rw [hi', Nat.sub_self] at hold
        rw [hi', ← Option.some.inj hold] at hname
        exact .inr hname
  kept := by
    left
    dsimp only
    rw [List.length_append, List.length_singleton]
    rcases h.kept with hlt | ⟨_, hzero⟩
    · omega
    · omega

/-- Pruning leaves the newest turns. -/
theorem prune {keep : ℕ} (hkeep : 0 < keep) :
    TurnLog.Holds first render
      (deleteRefs refs ((toPrune (Snapshot.parseRefs number (refList refs)) keep).flatMap names))
      ⟨log.entries, max log.pruned (log.entries.length - keep)⟩ where
  mem name := by
    rw [mem_deleteRefs, h.mem, h.parseRefs hnames hfits, toPrune_range', List.mem_flatMap]
    constructor
    · rintro ⟨⟨i, entry, hi, hentry, hname⟩, hpruned⟩
      refine ⟨i, entry, ?_, hentry, hname⟩
      by_contra hlt
      apply hpruned
      refine ⟨first + i, ?_, hnames.among _ _ hname⟩
      rw [List.mem_range'_1]
      dsimp only at hlt
      omega
    · rintro ⟨i, entry, hi, hentry, hname⟩
      dsimp only at hi hentry
      refine ⟨⟨i, entry, by omega, hentry, hname⟩, ?_⟩
      rintro ⟨turn, hturn, hother⟩
      rw [List.mem_range'_1] at hturn
      have hnumber := hnames.number_of_mem hfits hentry hname
      rw [hnames.number turn (by omega) name hother] at hnumber
      have hsame := Option.some.inj hnumber
      omega
  kept := by
    rcases h.kept with hlt | ⟨hnil, hzero⟩
    · left
      dsimp only
      omega
    · right
      rw [hnil, hzero]
      exact ⟨rfl, by simp⟩

end TurnLog.Holds

/-- A turn with its refs, if it has any, and a prune, if there is one. -/
def TurnLog.next (log : TurnLog α) (entry : Option α) (prune : Bool) : TurnLog α :=
  let entries := log.entries ++ entry.toList
  ⟨entries, if prune then max log.pruned (entries.length - keepTurns) else log.pruned⟩

theorem TurnLog.Holds.next (h : log.Holds first render refs) (hnames : Numbering names render number)
    (entry : Option α) (hfits : first + (log.entries ++ entry.toList).length ≤ 2 ^ 64) {refs' : Refs}
    (hrefs : ∀ name, name ∈ refs' ↔
      name ∈ refs ∨ ∃ e ∈ entry, name ∈ render e (first + log.entries.length)) (prune : Bool) :
    (log.next entry prune).Holds first render
      (if prune then
        deleteRefs refs' ((toPrune (Snapshot.parseRefs number (refList refs')) keepTurns).flatMap names)
      else refs') := by
  have hadded : TurnLog.Holds first render refs' ⟨log.entries ++ entry.toList, log.pruned⟩ := by
    cases entry with
    | none =>
      have hsame : ∀ name, name ∈ refs' ↔ name ∈ refs := by
        intro name
        simp [hrefs]
      rw [Option.toList_none, List.append_nil]
      exact ⟨fun name => (hsame name).trans (h.mem name), h.kept⟩
    | some entry =>
      apply h.append
      intro name
      rw [hrefs]
      simp
  cases prune with
  | false => exact hadded
  | true => exact hadded.prune hnames hfits (by decide)

end Log

end Ralph.Snapshot
