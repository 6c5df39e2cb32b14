import Ralph.Interleaving
import Mathlib.Data.Finset.Sort
import Mathlib.Tactic

namespace Ralph.Chat.Socket

/-- The record beside a socket, in the store of its chat. -/
structure SocketOwner where
  pid : ℕ
  start : String
  deriving DecidableEq

inductive SocketFate
  | keep
  | delete
  deriving DecidableEq

/-- `socket_fate`, which is `orphan_sidecar_fate` as well. -/
def socketFate (filePid : ℕ) (owner : Option SocketOwner) (ownerStartNow : Option String) :
    SocketFate :=
  match owner, ownerStartNow with
  | some owner, some now => if owner.pid = filePid ∧ owner.start = now then .keep else .delete
  | _, _ => .delete

/-- A process. Its pid can be used again later, even in the second that `ps` shows as its start. -/
structure Proc where
  id : ℕ
  pid : ℕ
  start : String
  deriving DecidableEq

def Proc.owner (p : Proc) : SocketOwner := ⟨p.pid, p.start⟩

/-- The runtime directories, sockets and records of one store, each by the pid in its name, and the
processes. A record that does not parse is `none`. -/
structure Place where
  dirs : Finset ℕ
  sockets : Finset ℕ
  sidecars : Finset ℕ
  records : ℕ → Option SocketOwner
  procs : ℕ → Option Proc
  gone : Set Proc

namespace Place

def owner? (s : Place) (pid : ℕ) : Option SocketOwner :=
  if pid ∈ s.sidecars then s.records pid else none

def processStart (s : Place) (pid : ℕ) : Option String := (s.procs pid).map Proc.start

/-- `decide_fate`, when the record was read before. -/
def fate (s : Place) (pid : ℕ) (owner : Option SocketOwner) : SocketFate :=
  socketFate pid owner (owner.bind fun owner => s.processStart owner.pid)

end Place

/-- Where a chat is. Up to `create` it is in `sweep_stale`; the list has the pids that are left. -/
inductive Stage
  | list
  | listSidecars (dirPids : Finset ℕ)
  | sweep (todo : List ℕ)
  | looked (pid : ℕ) (owner : Option SocketOwner) (todo : List ℕ)
  | removeDir (pid : ℕ) (todo : List ℕ)
  | removeSidecar (pid : ℕ) (todo : List ℕ)
  | create
  | listen
  | restrict
  | publish
  | write
  | serve
  | undoDir
  | undoSidecar
  | over
  deriving DecidableEq

/-- `remove_dir_all`, whose error is dropped: it may stop anywhere. -/
inductive RemovesDir (pid : ℕ) (s : Place) : Place → Prop
  | failed : RemovesDir pid s s
  | socket : RemovesDir pid s { s with sockets := s.sockets.erase pid }
  | all : RemovesDir pid s { s with dirs := s.dirs.erase pid, sockets := s.sockets.erase pid }

inductive RemovesSidecar (pid : ℕ) (s : Place) : Place → Prop
  | failed : RemovesSidecar pid s s
  | removed : RemovesSidecar pid s { s with sidecars := s.sidecars.erase pid }

/-- One system call of a chat. A listing can miss names, and everything else can fail. -/
inductive Does (me : Proc) (s : Place) : Stage → Place → Stage → Prop
  | list {names : Finset ℕ} (h : names ⊆ s.dirs) : Does me s .list s (.listSidecars names)
  | listSidecars {dirPids names : Finset ℕ} (h : names ⊆ s.sidecars) :
      Does me s (.listSidecars dirPids) s (.sweep (dirPids.sort ++ (names \ dirPids).sort))
  | look {pid : ℕ} {todo : List ℕ} :
      Does me s (.sweep (pid :: todo)) s (.looked pid (s.owner? pid) todo)
  | unread {pid : ℕ} {todo : List ℕ} : Does me s (.sweep (pid :: todo)) s (.looked pid none todo)
  | keep {pid : ℕ} {owner : Option SocketOwner} {todo : List ℕ} (h : s.fate pid owner = .keep) :
      Does me s (.looked pid owner todo) s (.sweep todo)
  | delete {pid : ℕ} {owner : Option SocketOwner} {todo : List ℕ} (h : s.fate pid owner = .delete) :
      Does me s (.looked pid owner todo) s (.removeDir pid todo)
  -- A `ps` that fails leaves no start to compare with.
  | unanswered {pid : ℕ} {owner : Option SocketOwner} {todo : List ℕ}
      (h : socketFate pid owner none = .delete) :
      Does me s (.looked pid owner todo) s (.removeDir pid todo)
  | removeDir {pid : ℕ} {todo : List ℕ} {s' : Place} (h : RemovesDir pid s s') :
      Does me s (.removeDir pid todo) s' (.removeSidecar pid todo)
  | removeSidecar {pid : ℕ} {todo : List ℕ} {s' : Place} (h : RemovesSidecar pid s s') :
      Does me s (.removeSidecar pid todo) s' (.sweep todo)
  | swept : Does me s (.sweep []) s .create
  | create (h : me.pid ∉ s.dirs) :
      Does me s .create { s with dirs := insert me.pid s.dirs } .listen
  | listen (h : me.pid ∈ s.dirs) :
      Does me s .listen { s with sockets := insert me.pid s.sockets } .restrict
  | restrict (h : me.pid ∈ s.sockets) : Does me s .restrict s .publish
  | publish : Does me s .publish { s with
      sidecars := insert me.pid s.sidecars, records := Function.update s.records me.pid none } .write
  | write : Does me s .write
      -- The file is open: what is written goes nowhere if its name was removed.
      (if me.pid ∈ s.sidecars then
        { s with records := Function.update s.records me.pid (some me.owner) } else s) .serve
  | refuse : Does me s .create s .over
  | fail {stage : Stage} (h : stage ∈ [.listen, .restrict, .publish, .write]) :
      Does me s stage s .undoDir
  | leave : Does me s .serve s .undoDir
  | undoDir {s' : Place} (h : RemovesDir me.pid s s') : Does me s .undoDir s' .undoSidecar
  | undoSidecar {s' : Place} (h : RemovesSidecar me.pid s s') : Does me s .undoSidecar s' .over

structure Peer where
  proc : Proc
  stage : Stage

/-- Only a process that runs does anything. -/
def Moves (s : Place) (c : Peer) (s' : Place) (c' : Peer) : Prop :=
  s.procs c.proc.pid = some c.proc ∧ c'.proc = c.proc ∧ Does c.proc s c.stage s' c'.stage

/-- Processes start and end at any time. -/
inductive Outside (s : Place) : Place → Prop
  | start {p : Proc} (hfree : s.procs p.pid = none) (hnew : p ∉ s.gone) :
      Outside s { s with procs := Function.update s.procs p.pid (some p) }
  | exit {p : Proc} (h : s.procs p.pid = some p) :
      Outside s { s with procs := Function.update s.procs p.pid none, gone := insert p s.gone }

abbrev World (ι : Type*) := Interleaving.World ι Place Peer

/-- The process runs, and has not ended before. -/
structure Place.Runs (s : Place) (p : Proc) : Prop where
  now : s.procs p.pid = some p
  before : p ∉ s.gone

/-- The files of a chat that it has made so far. -/
def Stage.made (p : Proc) (s : Place) : Stage → Prop
  | .listen => p.pid ∈ s.dirs
  | .restrict | .publish => p.pid ∈ s.dirs ∧ p.pid ∈ s.sockets
  | .write => p.pid ∈ s.dirs ∧ p.pid ∈ s.sockets ∧ p.pid ∈ s.sidecars
  | .serve => p.pid ∈ s.dirs ∧ p.pid ∈ s.sockets ∧ s.owner? p.pid = some p.owner
  | _ => True

/-- A sweep has found the files of the process stale, and has not removed them all yet. -/
def Stage.Aims (p : Proc) : Stage → Prop
  | .looked pid owner _ => pid = p.pid ∧ owner ≠ some p.owner
  | .removeDir pid _ | .removeSidecar pid _ => pid = p.pid
  | _ => False

/-- A sweep that looks at the files of the process reads the record that is there, and gets the
answer of `ps`. -/
def Stage.Sees (p : Proc) (s : Place) : Stage → Stage → Prop
  | .sweep _, .looked pid owner _ => pid = p.pid → owner = s.owner? pid
  | .looked pid owner _, .removeDir _ _ => pid = p.pid → s.fate pid owner = .delete
  | _, _ => True

section Steps

variable {p : Proc} {s s' : Place} {c c' : Peer} {st st' : Stage}

theorem fate_owner (h : s.Runs p) : s.fate p.pid (some p.owner) = .keep := by
  simp [Place.fate, socketFate, Place.processStart, Proc.owner, h.now]

/-- Nothing changes for the process and its files. -/
structure Keeps (p : Proc) (s s' : Place) : Prop where
  procs : s'.procs = s.procs
  gone : s'.gone = s.gone
  dirs : p.pid ∈ s'.dirs ↔ p.pid ∈ s.dirs
  sockets : p.pid ∈ s'.sockets ↔ p.pid ∈ s.sockets
  sidecars : p.pid ∈ s'.sidecars ↔ p.pid ∈ s.sidecars
  records : s'.records p.pid = s.records p.pid

theorem Keeps.refl (p : Proc) (s : Place) : Keeps p s s :=
  ⟨rfl, rfl, Iff.rfl, Iff.rfl, Iff.rfl, rfl⟩

theorem Keeps.owner (h : Keeps p s s') : s'.owner? p.pid = s.owner? p.pid := by
  simp only [Place.owner?, h.sidecars, h.records]

theorem Keeps.made (h : Keeps p s s') (hmade : st.made p s) : st.made p s' := by
  cases st <;> simp_all [Stage.made, h.dirs, h.sockets, h.sidecars, h.owner]

theorem Keeps.runs (h : Keeps p s s') (hruns : s.Runs p) : s'.Runs p :=
  ⟨h.procs ▸ hruns.now, h.gone ▸ hruns.before⟩

theorem RemovesDir.keeps {pid : ℕ} (h : RemovesDir pid s s') (hne : pid ≠ p.pid) :
    Keeps p s s' := by
  cases h <;> constructor <;> simp [hne.symm]

theorem RemovesSidecar.keeps {pid : ℕ} (h : RemovesSidecar pid s s') (hne : pid ≠ p.pid) :
    Keeps p s s' := by
  cases h <;> constructor <;> simp [hne.symm]

theorem Does.keeps {me : Proc} (h : Does me s st s' st') (hne : me.pid ≠ p.pid)
    (haim : ¬ st.Aims p) : Keeps p s s' := by
  cases h with
  | removeDir h => exact h.keeps haim
  | removeSidecar h => exact h.keeps haim
  | undoDir h => exact h.keeps hne
  | undoSidecar h => exact h.keeps hne
  | write => split <;> constructor <;> simp [hne.symm]
  | create | listen | publish => constructor <;> simp [hne.symm]
  | _ => exact .refl p s

/-- Where the record is the right one, a look at it starts no removal. -/
theorem Does.not_aims {me : Proc} (h : Does me s st s' st') (hsees : st.Sees p s st')
    (hruns : s.Runs p) (howner : s.owner? p.pid = some p.owner) (haim : ¬ st.Aims p) :
    ¬ st'.Aims p := by
  cases h with
  | look =>
    rintro ⟨rfl, hne⟩
    exact hne howner
  | unread =>
    rintro ⟨rfl, hne⟩
    exact hne ((hsees rfl).trans howner)
  | @delete pid owner | @unanswered pid owner =>
    rintro rfl
    have h := hsees rfl
    have heq : owner = some p.owner := by
      by_contra hne
      exact haim ⟨rfl, hne⟩
    rw [heq, fate_owner hruns] at h
    cases h
  | removeDir h => exact haim
  | _ => exact id

theorem Does.made (h : Does p s st s' st') (hmade : st.made p s) : st'.made p s' := by
  cases h with
  | write =>
    obtain ⟨hdir, hsocket, hsidecar⟩ := hmade
    simp [hsidecar, Stage.made, Place.owner?, hdir, hsocket]
  | create | listen | restrict | publish => simp_all [Stage.made]
  | fail => simp [Stage.made]
  | _ => simp [Stage.made]

theorem Does.procs {me : Proc} (h : Does me s st s' st') : s'.procs = s.procs ∧ s'.gone = s.gone := by
  cases h with
  | removeDir h | undoDir h => cases h <;> exact ⟨rfl, rfl⟩
  | removeSidecar h | undoSidecar h => cases h <;> exact ⟨rfl, rfl⟩
  | write => split <;> exact ⟨rfl, rfl⟩
  | _ => exact ⟨rfl, rfl⟩

end Steps

section Runs

variable {ι : Type*} [DecidableEq ι] {w w' w₁ w₂ : World ι} {i : ι} {p : Proc}

abbrev Step : World ι → World ι → Prop := Interleaving.Step Moves Outside

/-- No other sweep is about to remove the files of the chat. -/
def Unaimed (i : ι) (w : World ι) : Prop :=
  ∀ j, j ≠ i → ¬ (w.party j).stage.Aims (w.party i).proc

/-- Each process runs one chat, and this one is in its place as long as it runs. -/
structure Stands (i : ι) (p : Proc) (w : World ι) : Prop where
  proc : (w.party i).proc = p
  alone : ∀ j, (w.party j).proc = p → j = i
  made : p ∈ w.shared.gone ∨ w.shared.Runs p ∧ (w.party i).stage.made p w.shared

theorem proc_step (h : Step w w') (j : ι) : (w'.party j).proc = (w.party j).proc := by
  cases h with
  | move k h =>
    rcases eq_or_ne j k with rfl | hne
    · simpa using h.2.1
    · simp [hne]
  | outside h => rfl

theorem outside_runs {s s' : Place} (h : Outside s s') (hp : p ∈ s.gone ∨ s.Runs p) :
    p ∈ s'.gone ∨ s'.Runs p ∧ s.Runs p := by
  cases h with
  | @start q hfree hnew =>
    refine hp.imp_right fun hruns => ⟨⟨?_, hruns.before⟩, hruns⟩
    have hne : p.pid ≠ q.pid := by
      intro heq
      rw [← heq, hruns.now] at hfree
      cases hfree
    simpa [hne] using hruns.now
  | @exit q h =>
    rcases eq_or_ne p q with rfl | hne
    · exact .inl (Set.mem_insert _ _)
    · refine hp.imp (Set.mem_insert_of_mem q) fun hruns => ⟨⟨?_, by simp [hne, hruns.before]⟩, hruns⟩
      have hpid : p.pid ≠ q.pid := by
        intro heq
        rw [← heq, hruns.now, Option.some_inj] at h
        exact hne h
      simpa [hpid] using hruns.now

theorem outside_made {s s' : Place} {st : Stage} (h : Outside s s') (hmade : st.made p s) :
    st.made p s' := by
  cases h <;> exact hmade

theorem runs_step (hstep : Step w w') (h : p ∈ w.shared.gone ∨ w.shared.Runs p) :
    p ∈ w'.shared.gone ∨ w'.shared.Runs p ∧ w.shared.Runs p := by
  cases hstep with
  | move k hmove =>
    obtain ⟨hprocs, hgone⟩ := hmove.2.2.procs
    exact h.imp (hgone ▸ ·) fun hruns => ⟨⟨hprocs ▸ hruns.now, hgone ▸ hruns.before⟩, hruns⟩
  | outside h' => exact outside_runs h' h

theorem pid_ne {s : Place} {c : Peer} (hruns : s.Runs p) (hnow : s.procs c.proc.pid = some c.proc)
    (hne : c.proc ≠ p) : c.proc.pid ≠ p.pid := by
  intro heq
  rw [heq, hruns.now, Option.some_inj] at hnow
  exact hne hnow.symm

/-- One step of any chat or of the system keeps the files of the chat, if no sweep aims at them. -/
theorem Stands.step (h : Stands i p w) (haim : Unaimed i w) (hstep : Step w w') :
    Stands i p w' where
  proc := (proc_step hstep i).trans h.proc
  alone := fun j hj => h.alone j ((proc_step hstep j).symm.trans hj)
  made := by
    refine (runs_step hstep (h.made.imp_right And.left)).imp_right fun ⟨hruns', hruns⟩ =>
      ⟨hruns', ?_⟩
    have hmade : (w.party i).stage.made p w.shared :=
      (h.made.resolve_left hruns.before).2
    cases hstep with
    | @move k s c hmove =>
      obtain ⟨hnow, -, hdoes⟩ := hmove
      rcases eq_or_ne k i with rfl | hne
      · have hown := h.proc ▸ hdoes
        simpa using hown.made hmade
      · have hkeeps := hdoes.keeps (pid_ne hruns hnow fun heq => hne (h.alone k heq))
          (h.proc ▸ haim k hne)
        simpa [hne.symm] using hkeeps.made hmade
    | outside h' => exact outside_made h' hmade

/-- The chat serves, or has stopped for good. -/
def Stage.isSetUp : Stage → Bool
  | .serve | .undoDir | .undoSidecar | .over => true
  | _ => false

theorem Does.isSetUp {me : Proc} {s s' : Place} {st st' : Stage} (h : Does me s st s' st')
    (hset : st.isSetUp) : st'.isSetUp ∧ st' ≠ .serve := by
  cases h <;> simp_all [Stage.isSetUp]

/-- The chat is set up, and as long as it serves it has its files and no sweep aims at them. -/
structure Serves (i : ι) (p : Proc) (w : World ι) : Prop where
  proc : (w.party i).proc = p
  alone : ∀ j, (w.party j).proc = p → j = i
  isSetUp : (w.party i).stage.isSetUp
  runs : p ∈ w.shared.gone ∨ w.shared.Runs p
  files : w.shared.Runs p → (w.party i).stage = .serve → Stage.serve.made p w.shared ∧ Unaimed i w

omit [DecidableEq ι] in
theorem Serves.stands (h : Serves i p w) (hruns : w.shared.Runs p)
    (hserve : (w.party i).stage = .serve) : Stands i p w :=
  ⟨h.proc, h.alone, .inr ⟨hruns, hserve ▸ (h.files hruns hserve).1⟩⟩

/-- No look at the files of the process fails. -/
abbrev Seen (p : Proc) : World ι → World ι → Prop :=
  Interleaving.Step (fun s c s' c' => Moves s c s' c' ∧ c.stage.Sees p s c'.stage) Outside

theorem Seen.step (h : Seen p w w') : Step w w' := by
  cases h with
  | move k h => exact .move k h.1
  | outside h => exact .outside h

theorem Serves.step (h : Serves i p w) (hseen : Seen p w w') : Serves i p w' where
  proc := (proc_step hseen.step i).trans h.proc
  alone := fun j hj => h.alone j ((proc_step hseen.step j).symm.trans hj)
  isSetUp := by
    cases hseen with
    | @move k s c hmove =>
      rcases eq_or_ne k i with rfl | hne
      · simpa using (hmove.1.2.2.isSetUp h.isSetUp).1
      · simpa [hne.symm] using h.isSetUp
    | outside => exact h.isSetUp
  runs := (runs_step hseen.step h.runs).imp_right And.left
  files := by
    intro hruns' hserve'
    have hruns : w.shared.Runs p :=
      ((runs_step hseen.step h.runs).resolve_left hruns'.before).2
    have hserve : (w.party i).stage = .serve := by
      cases hseen with
      | @move k s c hmove =>
        rcases eq_or_ne k i with rfl | hne
        · exact absurd (by simpa using hserve') (hmove.1.2.2.isSetUp h.isSetUp).2
        · simpa [hne.symm] using hserve'
      | outside => exact hserve'
    obtain ⟨hmade, haim⟩ := h.files hruns hserve
    have hstands := (h.stands hruns hserve).step haim hseen.step
    refine ⟨hserve' ▸ (hstands.made.resolve_left hruns'.before).2, fun j hj => ?_⟩
    rw [hstands.proc]
    have haim' := h.proc ▸ haim j hj
    cases hseen with
    | @move k s c hmove =>
      rcases eq_or_ne j k with rfl | hne
      · simpa using hmove.1.2.2.not_aims hmove.2 hruns hmade.2.2 haim'
      · simpa [hne] using haim'
    | outside => exact haim'

theorem Serves.run (h : Serves i p w) (hrun : Relation.ReflTransGen (Seen p) w w') :
    Serves i p w' := by
  induction hrun with
  | refl => exact h
  | tail _ hstep ih => exact ih.step hstep

/-- Steps of one chat that sees the files of a process. -/
inductive Alone (q p : Proc) (s : Place) (st : Stage) : Place → Stage → Prop
  | refl : Alone q p s st s st
  | step {s' s'' : Place} {st' st'' : Stage} (h : Alone q p s st s' st')
      (hdoes : Does p s' st' s'' st'') (hsees : st'.Sees q s' st'') : Alone q p s st s'' st''

/-- The others stand still. -/
theorem Alone.run {q : Proc} {s' : Place} {st' : Stage}
    (h : Alone q p w.shared (w.party i).stage s' st') (haim : Unaimed i w)
    (hp : (w.party i).proc = p) (hnow : w.shared.procs p.pid = some p) :
    Relation.ReflTransGen (fun w w' => Unaimed i w ∧ Seen q w w') w
        ⟨s', Function.update w.party i ⟨p, st'⟩⟩ ∧ s'.procs p.pid = some p := by
  induction h with
  | refl =>
    refine ⟨?_, hnow⟩
    rw [← hp, Function.update_eq_self]
  | @step s' s'' st' st'' _ hdoes hsees ih =>
    obtain ⟨hsetup, hnow'⟩ := ih
    refine ⟨hsetup.tail ⟨?_, ?_⟩, hdoes.procs.1 ▸ hnow'⟩
    · intro j hj
      simpa [hj, hp] using haim j hj
    · have hstep := @Interleaving.Step.move _ _ _ _
        (fun s c s' c' => Moves s c s' c' ∧ c.stage.Sees q s c'.stage) Outside
        ⟨s', Function.update w.party i ⟨p, st'⟩⟩ i s'' ⟨p, st''⟩
        ⟨⟨by simpa using hnow', by simp, by simpa using hdoes⟩, by simpa using hsees⟩
      simpa using hstep

end Runs

section Demo

def first : Proc := ⟨0, 1, "Mon 10:00:00"⟩

def second : Proc := ⟨1, 2, "Mon 10:00:05"⟩

def empty : Place where
  dirs := ∅
  sockets := ∅
  sidecars := ∅
  records := fun _ => none
  procs := fun pid => if pid = 1 then some first else if pid = 2 then some second else none
  gone := ∅

def served : Place := { empty with
  dirs := {1}, sockets := {1}, sidecars := {1},
  records := Function.update (Function.update empty.records 1 none) 1 (some first.owner) }

/-- Two chats of one store: the second one sweeps when the first one serves. -/
def chats : World Bool := ⟨empty, fun late => ⟨if late then second else first, .list⟩⟩

end Demo

end Ralph.Chat.Socket
