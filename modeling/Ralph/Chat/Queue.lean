import Mathlib.Data.List.SplitBy
import Ralph.Chat.Route

namespace Ralph.Chat
open ChatMemory

inductive TurnOutcome
  | replied
  | unanswered
  | exit
  deriving DecidableEq, Repr

structure Queue where
  entries : List String := []
  held : Bool := false
  typed : String := ""
  deriving DecidableEq, Repr

inductive EditorExit
  | submitted (text : String)
  | backOut (draft : String)
  | closed
  | cancelled
  deriving DecidableEq, Repr

inductive Action
  | resume
  | cancel
  deriving DecidableEq, Repr

inductive Decision
  | send (text : String) (rest : List String)
  | keep (entries : List String)
  deriving DecidableEq, Repr

def onExit (queue : Queue) : EditorExit → Queue × Action
  | .submitted text =>
    (if HasText text then { queue with entries := queue.entries ++ [text] } else queue, .resume)
  | .backOut draft =>
    ({ queue with
      entries := if HasText draft then queue.entries ++ [draft] else queue.entries, held := true }, .resume)
  | .closed => (queue, .resume)
  | .cancelled => ({ queue with held := true }, .cancel)

def joinText : String := "\n\n"

/-- The entries in one text, with a blank line between them. -/
def joined (entries : List String) : String := joinText.intercalate entries

def merged (entries : List String) : Option String := if entries = [] then none else some (joined entries)

def draftWithQueue (draft : Option String) (entries : List String) : Option String :=
  match draft, merged entries with
  | some draft, some queued => some (draft ++ joinText ++ queued)
  | draft, queued => draft <|> queued

def draftWithTyped (draft : Option String) (typed : String) : Option String :=
  if typed = "" then draft
  else
    match draft with
    | some draft => some (draft ++ joinText ++ typed)
    | none => some typed

def refusedDraft (line : String) (carried : List String) (buffer : String) : String :=
  let draft := draftWithQueue (some line) carried
  (draftWithTyped draft (if HasText buffer then buffer else "")).getD ""

def unsentTexts (entries : List String) (typed : String) : List String :=
  (entries ++ [typed]).filter fun text => HasText text

def unsent (queue : Queue) : List String := unsentTexts queue.entries queue.typed

inductive Refusal
  | save (lost : List String)
  | restore
  deriving DecidableEq, Repr

def refusalAction (terminated : Bool) (line : String) (carried : List String) (buffer : String) : Refusal :=
  if terminated then .save (unsentTexts (line :: carried) buffer) else .restore

/-- A line that runs alone: a switch, or one of the thread commands in its form. -/
def isCellCommand (line : String) : Bool :=
  let plain := [Command.thread, .main].any fun command => (command.args line).isSome
  let shaped := [Command.threads, .pull, .park, .merge].any fun command =>
    (command.args line).any fun args => (parseThreadOp command args).isSome
  plain || shaped

def isCell (entry : String) : Bool :=
  let line := trim entry
  bang line ≠ .plain || isCellCommand line

def nextBatch (entries : List String) : Option (String × List String) :=
  let size := match entries.head?.map isCell with
    | some true => 1
    | _ => entries.findIdx isCell
  (merged (entries.take size)).map (·, entries.drop size)

def decide (outcome : TurnOutcome) (queue : Queue) : Decision :=
  if outcome ≠ .replied ∨ queue.held then .keep queue.entries
  else
    match nextBatch queue.entries with
    | some (text, rest) => .send text rest
    | none => .keep []

@[simp] theorem joined_singleton (entry : String) : joined [entry] = entry :=
  String.intercalate_singleton

theorem joined_cons {entry : String} {entries : List String} (h : entries ≠ []) :
    joined (entry :: entries) = entry ++ joinText ++ joined entries :=
  String.intercalate_cons_of_ne_nil h

@[simp] theorem nextBatch_nil : nextBatch [] = none := rfl

theorem nextBatch_cell {entry : String} (h : isCell entry = true) (rest : List String) :
    nextBatch (entry :: rest) = some (entry, rest) := by
  simp [nextBatch, h, merged]

/-- The entries up to the next one that runs alone. -/
theorem nextBatch_run {entry : String} (h : isCell entry = false) (rest : List String) :
    nextBatch (entry :: rest) = some (joined (entry :: rest.takeWhile fun e => !isCell e),
      rest.dropWhile fun e => !isCell e) := by
  have hsize : (entry :: rest).findIdx isCell = rest.findIdx isCell + 1 := by
    rw [List.findIdx_cons, h]
    rfl
  have htake : rest.takeWhile (fun e => !isCell e) = rest.take (rest.findIdx isCell) := by
    rw [List.takeWhile_eq_take_findIdx_not]
    simp
  have hdrop : rest.dropWhile (fun e => !isCell e) = rest.drop (rest.findIdx isCell) := by
    rw [List.dropWhile_eq_drop_findIdx_not]
    simp
  simp [nextBatch, h, merged, hsize, htake, hdrop]

theorem nextBatch_eq_none_iff {entries : List String} : nextBatch entries = none ↔ entries = [] := by
  cases entries with
  | nil => simp
  | cons entry rest =>
    cases h : isCell entry with
    | true => simp [nextBatch_cell h]
    | false => simp [nextBatch_run h]

/-- A batch is made of the entries in front of those that are left. -/
theorem nextBatch_append {entries rest : List String} {text : String}
    (h : nextBatch entries = some (text, rest)) :
    ∃ batch, batch ≠ [] ∧ text = joined batch ∧ entries = batch ++ rest := by
  cases entries with
  | nil => cases h
  | cons entry entries =>
    cases hcell : isCell entry with
    | true =>
      rw [nextBatch_cell hcell] at h
      obtain ⟨rfl, rfl⟩ := Prod.mk.inj (Option.some.inj h)
      exact ⟨[entry], by simp, by simp, rfl⟩
    | false =>
      rw [nextBatch_run hcell] at h
      obtain ⟨rfl, rfl⟩ := Prod.mk.inj (Option.some.inj h)
      exact ⟨_, List.cons_ne_nil _ _, rfl, by simp⟩

theorem length_of_nextBatch {entries rest : List String} {text : String}
    (h : nextBatch entries = some (text, rest)) : rest.length < entries.length := by
  obtain ⟨batch, hne, -, rfl⟩ := nextBatch_append h
  have hpos := List.length_pos_of_ne_nil hne
  rw [List.length_append]
  omega

/-- The texts of `next_batch`, until the queue is empty. -/
def batches (entries : List String) : List String :=
  match _h : nextBatch entries with
  | none => []
  | some (text, rest) => text :: batches rest
termination_by entries.length
decreasing_by exact length_of_nextBatch _h

/-- The entries that run alone, and between them the longest runs of the others. -/
def runs (entries : List String) : List (List String) :=
  entries.splitBy fun a b => !isCell a && !isCell b

/-- The first run, and those of the entries behind it. -/
theorem runs_of_nextBatch {entries rest : List String} {text : String}
    (h : nextBatch entries = some (text, rest)) :
    ∃ run, text = joined run ∧ runs entries = run :: runs rest := by
  cases entries with
  | nil => cases h
  | cons entry entries =>
    cases hcell : isCell entry with
    | true =>
      rw [nextBatch_cell hcell] at h
      obtain ⟨rfl, rfl⟩ := Prod.mk.inj (Option.some.inj h)
      refine ⟨[entry], by simp, ?_⟩
      rw [runs, show entry :: entries = [entry] ++ entries from rfl, List.splitBy_append (by simp [hcell]),
        List.splitBy_of_isChain (by simp) (by simp)]
      rfl
    | false =>
      rw [nextBatch_run hcell] at h
      obtain ⟨rfl, rfl⟩ := Prod.mk.inj (Option.some.inj h)
      have hrun : ∀ e ∈ entry :: entries.takeWhile (fun e => !isCell e), isCell e = false := by
        intro e he
        rcases List.mem_cons.mp he with rfl | he
        · exact hcell
        · simpa using List.mem_takeWhile_imp he
      refine ⟨_, rfl, ?_⟩
      conv_lhs => rw [← List.takeWhile_append_dropWhile (p := fun e => !isCell e) (l := entries),
        ← List.cons_append]
      rw [runs, List.splitBy_append, List.splitBy_of_isChain (List.cons_ne_nil _ _)]
      · rfl
      · apply List.Pairwise.isChain
        rw [List.pairwise_iff_forall_sublist]
        intro a b hab
        have ha := hrun a (hab.subset (by simp))
        have hb := hrun b (hab.subset (by simp))
        simp [ha, hb]
      · intro a _ b hb
        have hnext := List.head?_dropWhile_not (fun e => !isCell e) entries
        rw [Option.mem_def.mp hb] at hnext
        rw [hnext, Bool.and_false]

theorem batches_eq (entries : List String) : batches entries = (runs entries).map joined := by
  induction entries using batches.induct with
  | case1 entries h =>
    rw [nextBatch_eq_none_iff] at h
    subst h
    simp [batches, runs]
  | case2 entries text rest h ih =>
    obtain ⟨run, rfl, hruns⟩ := runs_of_nextBatch h
    rw [batches, hruns, List.map_cons, ← ih]
    split
    · simp_all
    · simp_all

/-- A run with more than one entry has none that runs alone. -/
theorem isCell_of_mem_runs {entries run : List String} (hrun : run ∈ runs entries) {entry : String}
    (h : entry ∈ run) : run = [entry] ∨ isCell entry = false := by
  have hpairs : ∀ (a b : String) (l : List String),
      (a :: b :: l).IsChain (fun x y => (!isCell x && !isCell y) = true) →
      ∀ e ∈ a :: b :: l, isCell e = false := by
    intro a b l hchain
    rw [List.isChain_cons_cons, Bool.and_eq_true, Bool.not_eq_true', Bool.not_eq_true'] at hchain
    induction l generalizing a b with
    | nil => simp [hchain.1]
    | cons c l ih =>
      rw [List.forall_mem_cons]
      refine ⟨hchain.1.1, ih b c ?_⟩
      simpa using hchain.2
  have hchain := List.isChain_of_mem_splitBy hrun
  match run with
  | [] => cases h
  | [e] => exact Or.inl (by rw [List.mem_singleton.mp h])
  | a :: b :: l => exact Or.inr (hpairs a b l hchain entry h)

/-- Between two runs one of the entries runs alone. -/
theorem isChain_runs (entries : List String) :
    (runs entries).IsChain fun a b => ∃ e, (e ∈ a ∨ e ∈ b) ∧ isCell e = true := by
  apply (List.isChain_getLast_head_splitBy _ entries).imp
  rintro a b ⟨ha, hb, h⟩
  rw [Bool.and_eq_false_iff, Bool.not_eq_false', Bool.not_eq_false'] at h
  rcases h with h | h
  · exact ⟨_, Or.inl (List.getLast_mem ha), h⟩
  · exact ⟨_, Or.inr (List.head_mem hb), h⟩

end Ralph.Chat
