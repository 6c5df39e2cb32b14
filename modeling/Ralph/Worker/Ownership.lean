import Ralph.Chat.Words

namespace Ralph.Worker.Ownership
open Chat (trim)

def sessionName (project id : String) : String := "ralph-" ++ project ++ "-" ++ id

structure TaggedSession where
  name : String
  store : String
  id : String
  deriving DecidableEq, Repr

inductive Owner
  | missing
  | mine (session : TaggedSession)
  | foreign (session : TaggedSession)
  deriving DecidableEq, Repr

/-- A part of a path with slashes, as `Path::components` gives it. -/
inductive Component
  | root
  | parent
  | normal (name : List Char)
  deriving DecidableEq

def splitSlash : List Char → List (List Char)
  | [] => [[]]
  | c :: cs =>
    if c = '/' then [] :: splitSlash cs
    else
      match splitSlash cs with
      | [] => [[c]]
      | part :: parts => (c :: part) :: parts

def components (path : String) : List Component :=
  (if path.toList.head? = some '/' then [.root] else []) ++
    ((splitSlash path.toList).filter fun part => part ≠ [] ∧ part ≠ ['.']).map fun part =>
      if part = ['.', '.'] then .parent else .normal part

/-- `PathBuf::pop` fails on the root and on an empty path. -/
def normalized (path : String) : List Component :=
  (components path).foldl (fun out component =>
    match component with
    | .parent => if out = [] ∨ out = [.root] then out ++ [.parent] else out.dropLast
    | other => out ++ [other]) []

def sameStore (tag store : String) : Bool :=
  decide (trim tag ≠ "") && decide (trim store ≠ "") && decide (normalized (trim tag) = normalized (trim store))

def names (project id : String) : List String := [sessionName project id, "ralph-" ++ id]

def sessionOwner (sessions : List TaggedSession) (store project id : String) : Owner :=
  let found := sessions.filter fun session => decide (session.name ∈ names project id)
  match found.find? fun session => !sameStore session.store store with
  | some session => .foreign session
  | none =>
    match found.head? with
    | some session => .mine session
    | none => .missing

/-- What `stop_harness` does to the sessions. -/
inductive Stop
  | killed (session : TaggedSession)
  | notRunning
  | refused (store : String)
  deriving DecidableEq, Repr

def stopHarness (sessions : List TaggedSession) (store project id : String) : Stop :=
  match sessionOwner sessions store project id with
  | .mine session => .killed session
  | .missing => .notRunning
  | .foreign session => .refused session.store

/-- A worker that was started: its session has the name of the project or the old one. -/
structure Start where
  store : String
  project : String
  id : String
  old : Bool
  deriving DecidableEq, Repr

def Start.session (start : Start) : TaggedSession where
  name := if start.old then "ralph-" ++ start.id else sessionName start.project start.id
  store := start.store
  id := start.id

variable {starts : List Start} {store project id : String}

/-- The workers whose session bears a name of the worker asked for. -/
def bearers (starts : List Start) (project id : String) : List Start :=
  starts.filter fun start => decide (start.session.name ∈ names project id)

/-- The answer is about the worker asked for, and so is what a stop ends. -/
structure Owned (starts : List Start) (store project id : String) : Prop where
  mine : ∀ session, sessionOwner (starts.map Start.session) store project id = .mine session →
    ∃ start ∈ starts, start.session = session ∧ start.id = id ∧ sameStore start.store store = true
  foreign : ∀ session, sessionOwner (starts.map Start.session) store project id = .foreign session →
    ∃ start ∈ starts, start.id = id ∧ sameStore start.store store = false
  missing : (∀ start ∈ starts, start.id ≠ id) →
    sessionOwner (starts.map Start.session) store project id = .missing
  stop : ∀ session, stopHarness (starts.map Start.session) store project id = .killed session →
    ∃ start ∈ starts, start.session = session ∧ start.id = id ∧ sameStore start.store store = true

/-- No name of the worker asked for is taken by another worker where it counts. -/
structure NamesKept (starts : List Start) (store project id : String) : Prop where
  first : (∀ start ∈ bearers starts project id, sameStore start.store store = true) →
    ∀ start ∈ (bearers starts project id).head?, start.id = id
  other : (∃ start ∈ bearers starts project id, sameStore start.store store = false) →
    ∃ start ∈ starts, start.id = id ∧ sameStore start.store store = false

theorem session_id (start : Start) : start.session.id = start.id := rfl

/-- What the answer says about the bearers of the names. -/
theorem sessionOwner_eq (starts : List Start) (store project id : String) :
    sessionOwner (starts.map Start.session) store project id =
      match (bearers starts project id).find? fun start => !sameStore start.store store with
      | some start => .foreign start.session
      | none =>
        match (bearers starts project id).head? with
        | some start => .mine start.session
        | none => .missing := by
  have hfound : ((starts.map Start.session).filter fun session => decide (session.name ∈ names project id)) =
      (bearers starts project id).map Start.session := by
    rw [List.filter_map]
    rfl
  have hfind : ((bearers starts project id).map Start.session).find? (fun session => !sameStore session.store store) =
      ((bearers starts project id).find? fun start => !sameStore start.store store).map Start.session := by
    rw [List.find?_map]
    rfl
  rw [sessionOwner, hfound, hfind, List.head?_map]
  cases (bearers starts project id).find? fun start => !sameStore start.store store with
  | some start => rfl
  | none => cases (bearers starts project id).head? <;> rfl

theorem foreign_of_other (h : ∃ start ∈ bearers starts project id, sameStore start.store store = false) :
    ∃ session, sessionOwner (starts.map Start.session) store project id = .foreign session := by
  obtain ⟨start, hmem, hother⟩ := h
  have hsome : ((bearers starts project id).find? fun start => !sameStore start.store store).isSome = true := by
    rw [List.find?_isSome]
    exact ⟨start, hmem, by rw [hother]; rfl⟩
  obtain ⟨found, hfound⟩ := Option.isSome_iff_exists.mp hsome
  exact ⟨found.session, by rw [sessionOwner_eq, hfound]⟩

theorem find_of_same (h : ∀ start ∈ bearers starts project id, sameStore start.store store = true) :
    ((bearers starts project id).find? fun start => !sameStore start.store store) = none := by
  rw [List.find?_eq_none]
  intro start hmem
  rw [h start hmem]
  exact Bool.false_ne_true

theorem mem_of_mem_bearers {start : Start} (h : start ∈ bearers starts project id) : start ∈ starts :=
  List.mem_of_mem_filter h

/-- The session claimed is that of a bearer from the store. -/
theorem mine_cases {session : TaggedSession}
    (h : sessionOwner (starts.map Start.session) store project id = .mine session) :
    (∀ start ∈ bearers starts project id, sameStore start.store store = true) ∧
      ∃ start, (bearers starts project id).head? = some start ∧ start.session = session := by
  rw [sessionOwner_eq] at h
  cases hfind : (bearers starts project id).find? fun start => !sameStore start.store store with
  | some found =>
    rw [hfind] at h
    cases h
  | none =>
    rw [hfind] at h
    dsimp only at h
    refine ⟨fun start hmem => by simpa using List.find?_eq_none.mp hfind start hmem, ?_⟩
    cases hhead : (bearers starts project id).head? with
    | none =>
      rw [hhead] at h
      cases h
    | some start =>
      rw [hhead] at h
      exact ⟨start, rfl, Owner.mine.inj h⟩

theorem stop_killed {session : TaggedSession}
    (h : stopHarness (starts.map Start.session) store project id = .killed session) :
    sessionOwner (starts.map Start.session) store project id = .mine session := by
  rw [stopHarness] at h
  cases howner : sessionOwner (starts.map Start.session) store project id with
  | missing =>
    rw [howner] at h
    cases h
  | mine other =>
    rw [howner] at h
    rw [Stop.killed.inj h]
  | foreign other =>
    rw [howner] at h
    cases h

theorem owned_of_namesKept (h : NamesKept starts store project id) : Owned starts store project id := by
  have hmine : ∀ session, sessionOwner (starts.map Start.session) store project id = .mine session →
      ∃ start ∈ starts, start.session = session ∧ start.id = id ∧ sameStore start.store store = true := by
    intro session hsession
    obtain ⟨hsame, start, hhead, hstart⟩ := mine_cases hsession
    have hmem := List.mem_of_head? hhead
    exact ⟨start, mem_of_mem_bearers hmem, hstart, h.first hsame start hhead, hsame start hmem⟩
  refine ⟨hmine, ?_, ?_, fun session hstop => hmine session (stop_killed hstop)⟩
  · intro session hsession
    apply h.other
    by_contra hnone
    have hsame : ∀ start ∈ bearers starts project id, sameStore start.store store = true := fun start hmem =>
      Bool.eq_true_of_not_eq_false fun hother => hnone ⟨start, hmem, hother⟩
    rw [sessionOwner_eq, find_of_same hsame] at hsession
    dsimp only at hsession
    cases hhead : (bearers starts project id).head? with
    | none =>
      rw [hhead] at hsession
      cases hsession
    | some start =>
      rw [hhead] at hsession
      cases hsession
  · intro habsent
    by_cases hother : ∃ start ∈ bearers starts project id, sameStore start.store store = false
    · obtain ⟨start, hmem, hid, _⟩ := h.other hother
      exact absurd hid (habsent start hmem)
    · have hsame : ∀ start ∈ bearers starts project id, sameStore start.store store = true := fun start hmem =>
        Bool.eq_true_of_not_eq_false fun hfalse => hother ⟨start, hmem, hfalse⟩
      rw [sessionOwner_eq, find_of_same hsame]
      cases hhead : (bearers starts project id).head? with
      | none => rfl
      | some start =>
        exact absurd (h.first hsame start hhead) (habsent start (mem_of_mem_bearers (List.mem_of_head? hhead)))

/-- A session is claimed only by its own worker exactly while the names are kept. -/
theorem owned_iff_namesKept (starts : List Start) (store project id : String) :
    Owned starts store project id ↔ NamesKept starts store project id := by
  refine ⟨fun h => ⟨?_, ?_⟩, owned_of_namesKept⟩
  · intro hsame start hhead
    have hmine : sessionOwner (starts.map Start.session) store project id = .mine start.session := by
      rw [sessionOwner_eq, find_of_same hsame, Option.mem_def.mp hhead]
    obtain ⟨own, _, hsession, hid, _⟩ := h.mine start.session hmine
    rw [← session_id start, ← hsession]
    exact hid
  · intro hother
    obtain ⟨session, hforeign⟩ := foreign_of_other hother
    exact h.foreign session hforeign

/-- Worker `p-a` of a project `p` is not running, and stopping it ends worker `a`. -/
theorem dashed_id_taken :
    stopHarness ([⟨"/s", "p", "a", false⟩].map Start.session) "/s" "p" "p-a" = .killed ⟨"ralph-p-a", "/s", "a"⟩ ∧
      ¬ Owned [⟨"/s", "p", "a", false⟩] "/s" "p" "p-a" := by
  refine ⟨by decide, fun h => ?_⟩
  have hmissing := h.missing (by decide)
  revert hmissing
  decide

end Ralph.Worker.Ownership
