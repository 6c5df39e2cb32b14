import Ralph.ChatMemory.Agreement
import Ralph.ChatMemory.Search.Traversal
import Ralph.ChatMemory.SplitView

namespace Ralph.Thread
open ChatMemory Fallible

inductive Scope
  | own
  | main
  | thread (name : ThreadName)

structure MemoryCall (T : Type) where
  scope : Scope
  tool : Tool T

structure Fork where
  main : Store
  name : ThreadName
  meta_ : ThreadMeta

/-- A chat's store, with the stores of the threads that have a `thread.json`. -/
structure Memory where
  own : Store
  fork : Option Fork
  threads : ThreadName → Option Store

variable {T S : Type}

def forkCheck (tool : Tool T) (base : ℕ) : Except String Unit :=
  let after (first : ℕ) : Except String Unit :=
    .error s!"#{first} is after this thread's fork point (#{base}); pull to see it."
  match tool with
  | .zoom node => if node.1.hi > base then after (max node.1.lo base) else .ok ()
  | .read request => if request.to_ ≥ base then after (max request.from_ base) else .ok ()
  | .recall_ _ | .search _ => .ok ()

def threadSplit (main : List String) (base : ℕ) (name : ThreadName) (own : ViewSplit) : ViewSplit :=
  let label := List.map (labelItem name)
  ⟨s!"[main chat before this thread forked at #{base}; its ids have no prefix]" ::
      (main ++ s!"[thread {name.name}; its ids look like #{name.name}:0]" :: label own.older),
    label own.middle, label own.tail⟩

/-- `fork_view` over the files of main. -/
def forkView (J : ChatMemory.Json) (fork : Fork) (own : ViewSplit) : ViewSplit :=
  let (entries, tree) := fork.main.load J
  let base := min fork.meta_.base entries.length
  threadSplit (view (entries.take base) tree mainPrefixLines) fork.meta_.base fork.name own

variable [LinearOrder T] [LinearOrder S] (env : ToolEnv T S)

def Memory.call (m : Memory) (call : MemoryCall T) : Option (Except String String) :=
  let own (label : Option ThreadName) := m.own.call env call.tool ⟨none, label⟩
  match call.scope, m.fork with
  | .own, none | .main, none => own none
  | .own, some fork => own (some fork.name)
  -- a fork sees main up to its fork point
  | .main, some fork =>
    match forkCheck call.tool fork.meta_.base with
    | .error e => some (.error e)
    | .ok () => fork.main.call env call.tool ⟨some fork.meta_.base, none⟩
  | .thread name, fork =>
    -- its own name stands for its own memory
    if fork.any fun fork => name.name = fork.name.name then own (some name)
    else
      match m.threads name with
      | none => some (.error s!"no thread {name.name}; `ralph thread ls` lists them.")
      | some store => store.call env call.tool ⟨none, some name⟩

variable {env}

/-- A tool whose request passes the check at `base`, with the scans limited to there. -/
theorem callTool_agree {base : ℕ} {a a' : Archive} (ha : a.Current env.json)
    (ha' : a'.Current env.json)
    (h : Agree base (parseLog env.json a.log).1 (parseLog env.json a'.log).1
      (parseTree env.json a.tree).1 (parseTree env.json a'.tree).1)
    {tool : Tool T} (hcheck : forkCheck tool base = .ok ()) (label : Option ThreadName) :
    a.callTool env ⟨some base, label⟩ tool = a'.callTool env ⟨some base, label⟩ tool := by
  cases tool with
  | zoom node =>
    have hhi : node.1.hi ≤ base := by
      simp only [forkCheck] at hcheck
      split_ifs at hcheck with hafter
      exact not_lt.mp hafter
    exact congrArg some (map_fst_congr (Archive.zoom_agree ha ha' h node.2 hhi) _)
  | read request =>
    have hto : request.to_ < base := by
      simp only [forkCheck] at hcheck
      split_ifs at hcheck with hafter
      exact not_le.mp hafter
    exact congrArg some (map_fst_congr (Archive.read_agree ha ha' h hto) _)
  | recall_ pattern =>
    obtain ⟨seen, count, b, b', hb, hb'⟩ := Archive.scan_agree ha ha' h.entries
      (fun (entries : List Entry) _ entry => entries ++ [entry]) recallChunkEntries []
    simp only [Archive.callTool, Option.getD_some, hb, hb']
  | search request =>
    have hsearch := Archive.search_agree ha ha' h.entries request
    simp only [Archive.callTool, Option.getD_some]
    cases hfirst : Search.search env.toEnv base a request with
    | none =>
      cases hsecond : Search.search env.toEnv base a' request with
      | none => rfl
      | some answer' => simp [hfirst, hsecond] at hsearch
    | some answer =>
      cases hsecond : Search.search env.toEnv base a' request with
      | none => simp [hfirst, hsecond] at hsearch
      | some answer' =>
        rw [hfirst, hsecond] at hsearch
        exact congrArg some (map_fst_congr (Option.some.inj hsearch) _)

/-- Two stores of main that are the same up to a fork point. -/
def SameBefore (J : ChatMemory.Json) (base : ℕ) (main main' : Store) : Prop :=
  Agree base (main.load J).1 (main'.load J).1 (main.load J).2 (main'.load J).2

theorem call_agree {base : ℕ} {main main' : Store} (hmain : main.Indexed env.json)
    (hmain' : main'.Indexed env.json) (h : SameBefore env.json base main main') {tool : Tool T}
    (hcheck : forkCheck tool base = .ok ()) (label : Option ThreadName) :
    main.call env tool ⟨some base, label⟩ = main'.call env tool ⟨some base, label⟩ := by
  obtain ⟨a, hopen, hlog, htree, ha⟩ := hmain.openArchive
  obtain ⟨a', hopen', hlog', htree', ha'⟩ := hmain'.openArchive
  have hagree : Agree base (parseLog env.json a.log).1 (parseLog env.json a'.log).1
      (parseTree env.json a.tree).1 (parseTree env.json a'.tree).1 := by
    rw [hlog, hlog', htree, htree']
    exact h
  have htool := callTool_agree ha ha' hagree hcheck label
  simp only [Store.call, hopen, hopen', htool]

/-- What main holds after a thread's fork point changes neither the view of main that the thread
shows nor the answer or the error of any call on main from the thread. -/
theorem past_fork_unseen (env : ToolEnv T S) {name : ThreadName} {meta_ : ThreadMeta}
    {main main' : Store} (hmain : main.Indexed env.json) (hmain' : main'.Indexed env.json)
    (h : SameBefore env.json meta_.base main main') :
    (∀ own, forkView env.json ⟨main, name, meta_⟩ own = forkView env.json ⟨main', name, meta_⟩ own) ∧
    ∀ m m' : Memory, m.fork = some ⟨main, name, meta_⟩ → m'.fork = some ⟨main', name, meta_⟩ →
      ∀ tool, m.call env ⟨.main, tool⟩ = m'.call env ⟨.main, tool⟩ := by
  constructor
  · intro own
    simp only [forkView, min_eq_left h.le, min_eq_left h.le', h.view]
  · intro m m' hm hm' tool
    simp only [Memory.call, hm, hm']
    cases hcheck : forkCheck tool meta_.base with
    | error e => rfl
    | ok => exact call_agree hmain hmain' h hcheck none

/-- A log of some number of empty objects, without indexes. -/
def emptyObjects (n : ℕ) : Store :=
  ⟨some ((List.replicate n [0x7B, 0x7D, newline]).flatten), none, none, none⟩

theorem past_fork_unseen_objects :
    let env : ToolEnv ℕ ℕ := { Search.asciiEnv with regex := fun _ => .ok fun _ => none }
    let name : ThreadName := ⟨"auth", by decide⟩
    let meta_ : ThreadMeta := ⟨1, "", none, none⟩
    (∀ own, forkView env.json ⟨emptyObjects 1, name, meta_⟩ own =
      forkView env.json ⟨emptyObjects 3, name, meta_⟩ own) ∧
    ∀ m m' : Memory, m.fork = some ⟨emptyObjects 1, name, meta_⟩ →
      m'.fork = some ⟨emptyObjects 3, name, meta_⟩ →
      ∀ tool, m.call env ⟨.main, tool⟩ = m'.call env ⟨.main, tool⟩ :=
  past_fork_unseen _ ⟨⟨none, by decide⟩, none, rfl⟩ ⟨⟨none, by decide⟩, none, rfl⟩
    ⟨by decide, by decide, by decide, fun _ _ => rfl⟩

end Ralph.Thread
