import Ralph.Chat.Words
import Ralph.Text
import Ralph.Worklist

namespace Ralph.Worker.ProcessTree
open ChatMemory (splitWhitespace)
open Chat (parseUsize)

/-- The inner `for` of `descendants`: the rows of one parent that are not found yet. -/
def pushChildren (rows : List (ℕ × ℕ)) (parent : ℕ) (found : List ℕ) : List ℕ :=
  rows.foldl (fun found row => if row.2 = parent ∧ row.1 ∉ found then found ++ [row.1] else found) found

def children (rows : List (ℕ × ℕ)) (parent : ℕ) : List ℕ :=
  (rows.filter fun row => row.2 = parent).map (·.1)

theorem mem_children {rows : List (ℕ × ℕ)} {parent pid : ℕ} :
    pid ∈ children rows parent ↔ (pid, parent) ∈ rows := by
  simp only [children, List.mem_map, List.mem_filter, decide_eq_true_eq]
  constructor
  · rintro ⟨⟨pid', parent'⟩, ⟨hrow, rfl⟩, rfl⟩
    exact hrow
  · intro hrow
    exact ⟨(pid, parent), ⟨hrow, rfl⟩, rfl⟩

theorem pushChildren_eq (rows : List (ℕ × ℕ)) (parent : ℕ) (found : List ℕ) :
    pushChildren rows parent found = Worklist.absorb found (children rows parent) := by
  induction rows generalizing found with
  | nil => rfl
  | cons row rows ih =>
    rw [pushChildren, List.foldl_cons]
    change pushChildren rows parent _ = _
    rw [ih]
    by_cases hparent : row.2 = parent
    · rw [show children (row :: rows) parent = row.1 :: children rows parent by simp [children, hparent]]
      by_cases hfound : row.1 ∈ found
      · rw [if_neg (by simp [hfound]), Worklist.absorb_cons_of_mem hfound]
      · rw [if_pos ⟨hparent, hfound⟩, Worklist.absorb_cons_of_notMem hfound]
    · rw [if_neg (by simp [hparent]),
        show children (row :: rows) parent = children rows parent by simp [children, hparent]]

/-- The table as a graph. -/
def processes (rows : List (ℕ × ℕ)) : Worklist.Successors ℕ where
  next := children rows
  pool := (rows.map (·.1)).toFinset
  inPool := by
    intro parent pid hpid
    rw [List.mem_toFinset]
    exact List.mem_map.2 ⟨_, mem_children.1 hpid, rfl⟩

/-- The `while` loop of `descendants`. -/
def descendantsBody (rows : List (ℕ × ℕ)) : Loop.Body (List ℕ × ℕ) (List ℕ) where
  step := fun (found, next) =>
    match found[next]? with
    | some parent => .inl (pushChildren rows parent found, next + 1)
    | none => .inr found.tail
  measure := (processes rows).body.measure
  decreases := by
    rintro ⟨found, next⟩ ⟨found', next'⟩ h
    dsimp only at h
    split at h
    · next parent hparent =>
      obtain ⟨rfl, rfl⟩ := Prod.mk.inj (Sum.inl.inj h)
      apply (processes rows).body.decreases
      simp only [Worklist.Successors.body, hparent, pushChildren_eq]
      rfl
    · exact nomatch h

/-- The whole tree below a process, without the process. -/
def descendants (rows : List (ℕ × ℕ)) (root : ℕ) : List ℕ := (descendantsBody rows).run ([root], 0)

theorem descendants_eq (rows : List (ℕ × ℕ)) (root : ℕ) :
    descendants rows root = ((processes rows).run root).tail := by
  rw [descendants, Worklist.Successors.run]
  apply (processes rows).body.run_induction fun st r => (descendantsBody rows).run st = r.tail
  · rintro ⟨found, next⟩ r hstep
    apply Loop.Body.run_of_done
    simp only [Worklist.Successors.body] at hstep
    simp only [descendantsBody]
    split at hstep
    · exact nomatch hstep
    · next hnone =>
      obtain rfl := Sum.inr.inj hstep
      rw [hnone]
  · rintro ⟨found, next⟩ ⟨found', next'⟩ r hstep ih
    rw [← ih]
    apply Loop.Body.run_of_again
    simp only [Worklist.Successors.body] at hstep
    simp only [descendantsBody]
    split at hstep
    · next parent hparent =>
      obtain ⟨rfl, rfl⟩ := Prod.mk.inj (Sum.inl.inj hstep)
      rw [hparent]
      simp only [pushChildren_eq]
      rfl
    · exact nomatch hstep

/-- The parent relation of a process table. -/
def ChildOf (rows : List (ℕ × ℕ)) (parent pid : ℕ) : Prop := (pid, parent) ∈ rows

theorem edge_processes {rows : List (ℕ × ℕ)} : (processes rows).Edge = ChildOf rows := by
  funext parent pid
  exact propext mem_children

theorem run_processes (rows : List (ℕ × ℕ)) (root : ℕ) :
    (processes rows).run root = root :: descendants rows root := by
  rw [descendants_eq]
  exact (List.cons_head?_tail ((processes rows).head_run root)).symm

theorem nodup_cons_descendants (rows : List (ℕ × ℕ)) (root : ℕ) :
    (root :: descendants rows root).Nodup := by
  rw [← run_processes]
  exact (processes rows).nodup_run root

theorem mem_descendants {rows : List (ℕ × ℕ)} {root pid : ℕ} :
    pid ∈ descendants rows root ↔ pid ≠ root ∧ Relation.TransGen (ChildOf rows) root pid := by
  have hnodup := nodup_cons_descendants rows root
  have hmem : pid ∈ (processes rows).run root ↔ _ := (processes rows).mem_run
  rw [edge_processes, run_processes, List.mem_cons] at hmem
  constructor
  · intro hpid
    have hne : pid ≠ root := fun h => (List.nodup_cons.1 hnodup).1 (h ▸ hpid)
    refine ⟨hne, ?_⟩
    rcases Relation.reflTransGen_iff_eq_or_transGen.1 (hmem.1 (.inr hpid)) with heq | htrans
    · exact absurd heq hne
    · exact htrans
  · rintro ⟨hne, htrans⟩
    exact (hmem.2 htrans.to_reflTransGen).resolve_left hne

/-- On any table, cycles and repeated rows included, the walk ends. Its list has each process below
the root once and nothing else, and every process stands behind its parent. -/
theorem descendants_spec (rows : List (ℕ × ℕ)) (root : ℕ) :
    (descendants rows root).Nodup ∧
      (∀ pid, pid ∈ descendants rows root ↔ pid ≠ root ∧ Relation.TransGen (ChildOf rows) root pid) ∧
      ∀ before pid after, descendants rows root = before ++ pid :: after →
        ChildOf rows root pid ∨ ∃ parent ∈ before, ChildOf rows parent pid := by
  refine ⟨(List.nodup_cons.1 (nodup_cons_descendants rows root)).2, fun _ => mem_descendants, ?_⟩
  intro before pid after hsplit
  have hrun : (processes rows).run root = (root :: before) ++ pid :: after := by
    rw [run_processes, hsplit]
    rfl
  rcases (processes rows).ordered_run hrun with hnil | ⟨parent, hparent, hedge⟩
  · exact absurd hnil (List.cons_ne_nil _ _)
  · rw [edge_processes] at hedge
    rcases List.mem_cons.1 hparent with rfl | hparent
    · exact .inl hedge
    · exact .inr ⟨parent, hparent, hedge⟩

/-- A process is known by its start time: another process may get its pid. -/
structure Tracked where
  pid : ℕ
  start : String
  deriving DecidableEq, Repr

/-- What `process_start` answers at one moment. -/
abbrev Starts := ℕ → Option String

def stillRunning (snapshot : List Tracked) (startOf : Starts) : List ℕ :=
  (snapshot.filter fun tracked => startOf tracked.pid = some tracked.start).map (·.pid)

inductive Signal
  | term
  | kill
  deriving DecidableEq, Repr

/-- What `process_start` answers while one sweep runs. The first wait only takes time, so it is
what lies between the first two. -/
structure Looks where
  atTerm : Starts
  atKill : Starts
  killed : Starts
  polls : List Starts

/-- The look at which a signal is decided. -/
def Looks.at (looks : Looks) : Signal → Starts
  | .term => looks.atTerm
  | .kill => looks.atKill

end Ralph.Worker.ProcessTree
