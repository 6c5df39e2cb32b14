import Ralph.Worker.CostTotals

namespace Ralph.Worker

theorem Usd.known_plus (a b : Usd) : (a + b).known.getD 0 = a.known.getD 0 + b.known.getD 0 := by
  obtain ⟨known, missing, estimate, reported⟩ := a
  obtain ⟨known', missing', estimate', reported'⟩ := b
  cases known with
  | none =>
    show known'.getD 0 = 0 + known'.getD 0
    rw [zero_add]
  | some x =>
    cases known' with
    | none => exact (add_zero x).symm
    | some y => rfl

theorem Usd.total_eq_sum (usds : List Usd) : Usd.total usds = usds.sum := by
  rw [List.sum_eq_foldl]
  rfl

theorem Usd.known_total (usds : List Usd) :
    (Usd.total usds).known.getD 0 = (usds.map fun usd => usd.known.getD 0).sum := by
  rw [Usd.total_eq_sum]
  induction usds with
  | nil => rfl
  | cons usd usds ih => rw [List.sum_cons, Usd.known_plus, ih, List.map_cons, List.sum_cons]

namespace Costs
open ListSums

variable (env : CostsEnv)

/-- The rows of main, whatever the window. -/
def mainLines (usage : String) : List CostLine :=
  (parsedLines env usage).filter fun line => Source.of line = some .main

/-- Every process of main. -/
def allProcesses (usage : String) : List (List CostLine) :=
  (runsOf (mainLines env usage)).entries.flatMap fun run => processes run.2

/-- The harness USD of the rows of main in the harness-and-model view. -/
def mainUsd (usage : String) (since : Option ℤ) : ℚ :=
  let g := costGroups env usage since
  ((g.groups.entries.filter fun group => (ofLex group.1).1 = .main).map fun group =>
    (g.row env group).harnessUsd.known.getD 0).sum

/-- What one process adds to the harness USD. -/
def processUsd (process : MainProcess) : ℚ :=
  (sessionCost process.rows).elim 0 fun cost => max (cost.1 - process.baseline) 0

theorem known_mainRuns (ps : List MainProcess) :
    (mainRuns ps).2.known.getD 0 = (ps.map processUsd).sum := by
  rw [mainRuns, Usd.known_total, List.map_map]
  refine congrArg List.sum (List.map_congr_left fun process _ => ?_)
  simp only [Function.comp_apply, processUsd]
  cases sessionCost process.rows <;> rfl

/-- A group of main has processes under its model, and processes have a group. -/
def Paired (g : CostGroups) : Prop :=
  ∀ model, (g.groups.lookup (toLex (.main, model))).isSome ↔ (g.processes.lookup model).isSome

theorem Paired.addProcess {g : CostGroups} (h : Paired g) (p : String × MainProcess) :
    Paired (addProcess g p) := by
  intro model
  have hmodel := h model
  rw [Costs.addProcess, SortedMap.update, SortedMap.push, SortedMap.update, SortedMap.lookup_insert,
    SortedMap.lookup_insert]
  by_cases heq : model = p.1
  · subst heq
    rw [if_pos rfl, if_pos rfl]
    exact iff_of_true rfl rfl
  · have hkey : toLex (Source.main, model) ≠ toLex (Source.main, p.1) := by
      intro hlex
      exact heq (Prod.mk.inj (toLex.injective hlex)).2
    rw [if_neg hkey, if_neg heq]
    exact hmodel

theorem lookup_readLine (s : SortedMap (Source ×ₗ String) (List CostLine) × List CostLine)
    (line : CostLine) (model : String) :
    (readLine s line).1.lookup (toLex (.main, model)) = s.1.lookup (toLex (.main, model)) := by
  have hpush : ∀ source, source ≠ .main →
      (s.1.push (toLex (source, line.model.getD unknown)) line).lookup (toLex (.main, model)) =
        s.1.lookup (toLex (.main, model)) := by
    intro source hsource
    rw [SortedMap.push, SortedMap.update, SortedMap.lookup_insert, if_neg]
    intro hlex
    exact hsource (Prod.mk.inj (toLex.injective hlex)).1.symm
  unfold readLine
  cases hof : Source.of line with
  | none => rfl
  | some source =>
    cases source with
    | main => rfl
    | nap => exact hpush .nap (by simp)
    | ask => exact hpush .ask (by simp)
    | subagent => exact hpush .subagent (by simp)
    | worker harness => exact hpush (.worker harness) (by simp)

theorem lookup_foldl_readLine (lines : List CostLine)
    (s : SortedMap (Source ×ₗ String) (List CostLine) × List CostLine) (model : String) :
    (lines.foldl readLine s).1.lookup (toLex (.main, model)) = s.1.lookup (toLex (.main, model)) := by
  induction lines generalizing s with
  | nil => rfl
  | cons line lines ih => rw [List.foldl_cons, ih, lookup_readLine]

theorem costGroups_eq (usage : String) (since : Option ℤ) :
    ∃ groups : SortedMap (Source ×ₗ String) (List CostLine),
      (∀ model, groups.lookup (toLex (.main, model)) = none) ∧
      costGroups env usage since =
        (mainProcesses env (mainLines env usage) since).foldl addProcess ⟨groups, .empty⟩ := by
  let lines := (parsedLines env usage).filter fun line =>
    inWindow env line.at_ since || Source.of line = some .main
  refine ⟨(lines.foldl readLine (.empty, [])).1, fun model => lookup_foldl_readLine lines _ model, ?_⟩
  obtain ⟨hmain, -⟩ := foldl_readLine (fun _ => (0 : ℕ)) lines (.empty, [])
  have hlines : lines.filter (fun line => Source.of line = some .main) = mainLines env usage := by
    rw [mainLines, List.filter_filter]
    refine List.filter_congr fun line _ => ?_
    by_cases h : Source.of line = some .main <;> simp [h]
  show (mainProcesses env (lines.foldl readLine (.empty, [])).2 since).foldl addProcess _ = _
  rw [hmain, List.nil_append, hlines]

theorem paired_costGroups (usage : String) (since : Option ℤ) : Paired (costGroups env usage since) := by
  obtain ⟨groups, hnone, heq⟩ := costGroups_eq env usage since
  rw [heq]
  refine List.foldlRecOn _ addProcess ?_ fun g hg p _ => hg.addProcess p
  intro model
  rw [hnone]
  exact iff_of_false Bool.false_ne_true Bool.false_ne_true

theorem total_foldl_addProcess (ps : List (String × MainProcess)) (g : CostGroups) :
    (ps.foldl addProcess g).processes.total (fun own => (own.map processUsd).sum) =
      g.processes.total (fun own => (own.map processUsd).sum) + (ps.map fun p => processUsd p.2).sum := by
  induction ps generalizing g with
  | nil => rw [List.foldl_nil, List.map_nil, List.sum_nil, add_zero]
  | cons p ps ih =>
    have hpush := SortedMap.total_push processUsd g.processes p.1 p.2
    rw [List.foldl_cons, ih, List.map_cons, List.sum_cons, ← add_assoc]
    exact congrArg (· + (ps.map fun p => processUsd p.2).sum) hpush

/-- The rows of main show all processes, each under one model. -/
theorem mainUsd_eq (usage : String) (since : Option ℤ) : mainUsd env usage since =
    ((mainProcesses env (mainLines env usage) since).map fun p => processUsd p.2).sum := by
  let g := costGroups env usage since
  let value (model : String) : ℚ := (((g.processes.lookup model).getD []).map processUsd).sum
  let models := (g.groups.entries.filter fun group => (ofLex group.1).1 = .main).map fun group =>
    (ofLex group.1).2
  have hrows : mainUsd env usage since = (models.map value).sum := by
    rw [mainUsd, List.map_map]
    refine congrArg List.sum (List.map_congr_left fun group hgroup => ?_)
    have hmain : (ofLex group.1).1 = .main := of_decide_eq_true (List.mem_filter.mp hgroup).2
    show (g.row env group).harnessUsd.known.getD 0 = _
    simp only [CostGroups.row, hmain, if_pos, costRow]
    exact known_mainRuns _
  -- a model has a group of main rows exactly when it has processes
  have hmem : ∀ model, model ∈ models ↔ model ∈ g.processes.entries.map Prod.fst := by
    intro model
    have hpaired := paired_costGroups env usage since model
    rw [Option.isSome_iff_exists, Option.isSome_iff_exists] at hpaired
    simp only [← SortedMap.mem_entries] at hpaired
    constructor
    · intro h
      obtain ⟨⟨key, lines⟩, hgroup, rfl⟩ := List.mem_map.mp h
      obtain ⟨hentry, hmain⟩ := List.mem_filter.mp hgroup
      have hkey : key = toLex (.main, (ofLex key).2) := by
        rw [← of_decide_eq_true hmain]
        rfl
      rw [hkey] at hentry
      obtain ⟨own, hown⟩ := hpaired.mp ⟨lines, hentry⟩
      exact List.mem_map.mpr ⟨_, hown, rfl⟩
    · intro h
      obtain ⟨⟨_, own⟩, hown, rfl⟩ := List.mem_map.mp h
      obtain ⟨lines, hentry⟩ := hpaired.mpr ⟨own, hown⟩
      exact List.mem_map.mpr ⟨_, List.mem_filter.mpr ⟨hentry, decide_eq_true rfl⟩, rfl⟩
  have hnodup : models.Nodup := by
    refine List.Nodup.map_on ?_ (g.groups.nodup_keys.of_map.filter _)
    rintro ⟨key, lines⟩ hgroup ⟨key', lines'⟩ hgroup' heq
    obtain ⟨hentry, hmain⟩ := List.mem_filter.mp hgroup
    obtain ⟨hentry', hmain'⟩ := List.mem_filter.mp hgroup'
    have hkey : key = key' := ofLex.injective
      (Prod.ext ((of_decide_eq_true hmain).trans (of_decide_eq_true hmain').symm) heq)
    subst hkey
    rw [SortedMap.mem_entries] at hentry hentry'
    rw [Option.some.inj (hentry.symm.trans hentry')]
  -- so the rows and the processes list the same models, each once
  have hperm := (List.perm_ext_iff_of_nodup hnodup g.processes.nodup_keys).mpr hmem
  obtain ⟨groups, -, heq⟩ := costGroups_eq env usage since
  have htotal := total_foldl_addProcess (mainProcesses env (mainLines env usage) since) ⟨groups, .empty⟩
  rw [← heq] at htotal
  calc mainUsd env usage since
      = ((g.processes.entries.map Prod.fst).map value).sum := hrows.trans (hperm.map value).sum_eq
    _ = g.processes.total fun own => (own.map processUsd).sum := by
        rw [List.map_map]
        refine congrArg List.sum (List.map_congr_left fun own hown => ?_)
        have hlookup : g.processes.lookup own.1 = some own.2 := g.processes.mem_entries.mp hown
        simp only [Function.comp_apply, value, hlookup, Option.getD_some]
    _ = _ := htotal.trans (zero_add _)

/-- Only the first row of a process starts one. -/
def OneStart (process : List CostLine) : Prop := ∀ row ∈ process.tail, row.processTurn ≠ some 1

theorem isChain_iff_tail {α : Type*} (p : α → Bool) (xs : List α) :
    (xs.IsChain fun _ x => p x) ↔ ∀ x ∈ xs.tail, p x := by
  cases xs with
  | nil => simp
  | cons x xs =>
    induction xs generalizing x with
    | nil => simp
    | cons y ys ih =>
      rw [List.isChain_cons_cons, ih]
      simp

theorem oneStart_of_mem {rows process : List CostLine} (h : process ∈ processes rows) :
    OneStart process := by
  have hchain := List.isChain_of_mem_splitBy h
  rw [isChain_iff_tail fun row : CostLine => row.processTurn != some 1] at hchain
  exact fun row hrow => bne_iff_ne.mp (hchain row hrow)

theorem OneStart.filter {process : List CostLine} (h : OneStart process) (p : CostLine → Bool) :
    OneStart (process.filter p) := by
  cases process with
  | nil => exact h
  | cons row rows =>
    have hrows : ∀ x ∈ rows.filter p, x.processTurn ≠ some 1 := fun x hx => h x (List.mem_filter.mp hx).1
    rw [List.filter_cons]
    split_ifs
    · exact hrows
    · exact fun x hx => hrows x (List.mem_of_mem_tail hx)

theorem processes_of_oneStart {process : List CostLine} (h : OneStart process) (hne : process ≠ []) :
    processes process = [process] := by
  apply List.splitBy_of_isChain hne
  rw [isChain_iff_tail fun row : CostLine => row.processTurn != some 1]
  exact fun row hrow => bne_iff_ne.mpr (h row hrow)

/-- The last cost in the window over the last one before it, at least zero. -/
def windowUsd (since : Option ℤ) (process : List CostLine) : ℚ :=
  (processTotal (process.filter fun row => inWindow env row.at_ since)).elim 0 fun total =>
    max (total - baseline env process since) 0

theorem elim_processIn {process : List CostLine} (h : OneStart process) (since : Option ℤ)
    (run : Option String) :
    (processIn env since run process).elim 0 (fun p => processUsd p.2) = windowUsd env since process := by
  let within := process.filter fun row => inWindow env row.at_ since
  rw [processIn, windowUsd]
  by_cases hnone : within = []
  · rw [if_pos hnone, show (process.filter fun row => inWindow env row.at_ since) = [] from hnone]
    rfl
  · have hprocesses : processes within = [within] := processes_of_oneStart (h.filter _) hnone
    rw [if_neg hnone]
    show processUsd ⟨run, within, baseline env process since⟩ = (processTotal within).elim 0 _
    simp only [processUsd, sessionCost, hprocesses, List.filterMap_cons, List.filterMap_nil]
    cases processTotal within with
    | none => rfl
    | some total => simp

/-- The harness USD of main adds up over its processes. -/
theorem mainUsd_eq_sum (usage : String) (since : Option ℤ) :
    mainUsd env usage since = ((allProcesses env usage).map (windowUsd env since)).sum := by
  rw [mainUsd_eq, mainProcesses, allProcesses, sum_map_flatMap, sum_map_flatMap]
  refine congrArg List.sum (List.map_congr_left fun run _ => ?_)
  rw [sum_map_filterMap]
  exact congrArg List.sum (List.map_congr_left fun process hprocess =>
    elim_processIn env (oneStart_of_mem hprocess) since run.1)

/-- The rows with a stamp before the window. -/
def isBefore (t : ℤ) (row : CostLine) : Bool := (env.instant row.at_).any fun at_ => at_ < t

/-- The last cost of a process before the window. -/
def costBefore (t : ℤ) (process : List CostLine) : ℚ := (processTotal (process.filter (isBefore env t))).getD 0

theorem findSome?_filter {α β : Type*} (p : α → Bool) (f : α → Option β) (xs : List α) :
    (xs.filter p).findSome? f = xs.findSome? fun x => if p x then f x else none := by
  induction xs with
  | nil => rfl
  | cons x xs ih =>
    rw [List.filter_cons, List.findSome?_cons, ← ih]
    split_ifs
    · rw [List.findSome?_cons]
    · rfl

theorem baseline_eq (t : ℤ) (process : List CostLine) :
    baseline env process (some t) = costBefore env t process := by
  rw [costBefore, processTotal, ← List.filter_reverse, findSome?_filter, baseline, Option.bind_some]
  congr 2
  funext row
  rw [isBefore]
  cases env.instant row.at_ with
  | none => rfl
  | some at_ => by_cases h : at_ < t <;> simp [h, Option.filter_some]

/-- The stamps of a process never decrease, its costs never decrease, and its last row in the window
has a cost. -/
structure Steady (t : ℤ) (process : List CostLine) : Prop where
  stamps : process.Pairwise fun a b => ∀ x, env.instant a.at_ = some x →
    ∃ y, env.instant b.at_ = some y ∧ x ≤ y
  costs : process.Pairwise fun a b => ∀ x y, a.costUsd = some x → b.costUsd = some y → x ≤ y
  last_cost : ∀ row, (process.filter fun row => inWindow env row.at_ (some t)).getLast? = some row →
    row.costUsd.isSome

/-- No cost of the process is negative. -/
def Paid (process : List CostLine) : Prop := ∀ row ∈ process, ∀ x, row.costUsd = some x → 0 ≤ x

theorem exists_of_processTotal {process : List CostLine} {x : ℚ} (h : processTotal process = some x) :
    ∃ row ∈ process, row.costUsd = some x := by
  obtain ⟨row, hrow, hcost⟩ := List.exists_of_findSome?_eq_some h
  exact ⟨row, List.mem_reverse.mp hrow, hcost⟩

theorem inWindow_some_iff {at_ : String} {t : ℤ} :
    inWindow env at_ (some t) = true ↔ ∃ x, env.instant at_ = some x ∧ t ≤ x := by
  rw [inWindow, Option.all_some]
  cases env.instant at_ <;> simp

variable {env}

theorem Paid.windowUsd_none {process : List CostLine} (h : Paid process) :
    windowUsd env none process = (processTotal process).getD 0 := by
  have hall : (process.filter fun row => inWindow env row.at_ none) = process :=
    List.filter_eq_self.mpr fun row _ => rfl
  rw [windowUsd, hall]
  cases htotal : processTotal process with
  | none => rfl
  | some total =>
    obtain ⟨row, hrow, hcost⟩ := exists_of_processTotal htotal
    show max (total - 0) 0 = total
    rw [sub_zero, max_eq_left (h row hrow total hcost)]

theorem filter_concat (p : CostLine → Bool) (rows : List CostLine) {row : CostLine}
    (h : p row = true) : (rows ++ [row]).filter p = rows.filter p ++ [row] := by
  rw [List.filter_append, List.filter_singleton, h]
  rfl

/-- A process with rows in the window ends in it, with a cost. -/
theorem Steady.last {t : ℤ} {process : List CostLine} (h : Steady env t process)
    (hin : (process.any fun row => inWindow env row.at_ (some t)) = true) :
    ∃ before last cost, process = before ++ [last] ∧ last.costUsd = some cost ∧
      inWindow env last.at_ (some t) = true := by
  obtain ⟨row, hrow, hwindow⟩ := List.any_eq_true.mp hin
  obtain ⟨before, last, rfl⟩ := (List.eq_nil_or_concat' process).resolve_left (List.ne_nil_of_mem hrow)
  have hlast : inWindow env last.at_ (some t) = true := by
    obtain hbefore | hsame := List.mem_append.mp hrow
    · obtain ⟨x, hx, hle⟩ := (inWindow_some_iff env).mp hwindow
      obtain ⟨y, hy, hxy⟩ := (List.pairwise_append.mp h.stamps).2.2 row hbefore last
        (List.mem_singleton_self last) x hx
      exact (inWindow_some_iff env).mpr ⟨y, hy, hle.trans hxy⟩
    · rwa [List.mem_singleton.mp hsame] at hwindow
  have hcost : last.costUsd.isSome := by
    apply h.last_cost
    rw [filter_concat (fun row => inWindow env row.at_ (some t)) before hlast, List.getLast?_concat]
  obtain ⟨cost, hcost⟩ := Option.isSome_iff_exists.mp hcost
  exact ⟨before, last, cost, rfl, hcost, hlast⟩

theorem processTotal_concat (rows : List CostLine) {row : CostLine} {cost : ℚ}
    (h : row.costUsd = some cost) : processTotal (rows ++ [row]) = some cost := by
  rw [processTotal, List.reverse_append, List.reverse_singleton, List.singleton_append,
    List.findSome?_cons, h]

/-- All costs of a process are those in the window and those before it. -/
theorem Steady.split {t : ℤ} {process : List CostLine} (h : Steady env t process) (hpaid : Paid process) :
    windowUsd env none process = windowUsd env (some t) process +
      if process.any fun row => inWindow env row.at_ (some t) then costBefore env t process
      else (processTotal process).getD 0 := by
  rw [hpaid.windowUsd_none]
  split_ifs with hin
  · obtain ⟨before, last, cost, rfl, hcost, hlast⟩ := h.last hin
    have hle : costBefore env t (before ++ [last]) ≤ cost := by
      rw [costBefore]
      cases htotal : processTotal ((before ++ [last]).filter (isBefore env t)) with
      | none => exact hpaid last (List.mem_append_right _ (List.mem_singleton_self _)) cost hcost
      | some x =>
        obtain ⟨row, hrow, hx⟩ := exists_of_processTotal htotal
        obtain ⟨hmem, -⟩ := List.mem_filter.mp hrow
        obtain hbefore | hsame := List.mem_append.mp hmem
        · exact (List.pairwise_append.mp h.costs).2.2 row hbefore last (List.mem_singleton_self _) x cost
            hx hcost
        · rw [List.mem_singleton.mp hsame, hcost] at hx
          exact (Option.some.inj hx).ge
    rw [windowUsd, filter_concat (fun row => inWindow env row.at_ (some t)) before hlast,
      processTotal_concat _ hcost, processTotal_concat _ hcost, baseline_eq, Option.elim_some,
      Option.getD_some, max_eq_left (sub_nonneg.mpr hle), sub_add_cancel]
  · have hnone : (process.filter fun row => inWindow env row.at_ (some t)) = [] := by
      rw [List.filter_eq_nil_iff]
      intro row hrow hwindow
      exact hin (List.any_eq_true.mpr ⟨row, hrow, hwindow⟩)
    rw [windowUsd, hnone]
    exact (zero_add _).symm

variable (env)

/-- The harness USD of main over all time is that of the window, with the last cost before it of each
process that reaches into it and the totals of the processes that ended before. -/
def WindowsAdd (usage : String) (t : ℤ) : Prop :=
  let inside (process : List CostLine) : Bool := process.any fun row => inWindow env row.at_ (some t)
  mainUsd env usage none = mainUsd env usage (some t) +
    ((((allProcesses env usage).filter inside).map (costBefore env t)).sum +
      (((allProcesses env usage).filter fun process => !inside process).map fun process =>
        (processTotal process).getD 0).sum)

variable {env}

theorem windowsAdd_of_steady {usage : String} {t : ℤ}
    (h : ∀ process ∈ allProcesses env usage, Steady env t process ∧ Paid process) :
    WindowsAdd env usage t := by
  rw [WindowsAdd, mainUsd_eq_sum, mainUsd_eq_sum, ← sum_map_ite, ← List.sum_map_add]
  exact congrArg List.sum (List.map_congr_left fun process hprocess =>
    (h process hprocess).1.split (h process hprocess).2)

/-- Each view shows the tokens of the rows of a recognised kind in the window, each row in one group,
and the windows of main add up. -/
theorem cost_views_agree (env : CostsEnv) (inputs : Inputs) (hsources : SourcesRead env inputs.usage)
    (since : Option ℤ) :
    ((totalRow (costRows env inputs.usage since)).tokens =
        Tokens.total ((countedLines env inputs.usage since).map Tokens.of) ∧
      ((costGroups env inputs.usage since).groups.entries.map Prod.snd).flatten.Perm
        (countedLines env inputs.usage since)) ∧
    (∀ grouping, (Row.total (inputs.rows env grouping since)).tokens =
        Tokens.total ((countedLines env inputs.usage since).map Tokens.of) ∧
      ((groupLines (inputs.entries env since) (parseWindows env inputs.workers) since
        grouping).flatten.map Entry.line).Perm (countedLines env inputs.usage since)) ∧
    ∀ t, (∀ process ∈ allProcesses env inputs.usage, Steady env t process ∧ Paid process) →
      WindowsAdd env inputs.usage t :=
  ⟨⟨tokens_totalRow env inputs.usage since, perm_costGroups env inputs.usage since⟩,
    fun grouping => ⟨tokens_rows env hsources since grouping, perm_groupLines env hsources since grouping⟩,
    fun _ h => windowsAdd_of_steady h⟩

section Demo

/-- A row of a run of main. -/
def mainRow (at_ : String) (turn : ℕ) (cost : ℚ) (input : Count) : CostLine where
  kind := "turn"
  at_ := at_
  costUsd := some cost
  inputTokens := input
  cacheCreationInputTokens := 0
  cacheReadInputTokens := ⟨40, by decide⟩
  outputTokens := ⟨3, by decide⟩
  processTurn := some turn
  run := some "r1"
  workerId := none
  sessionId := none
  harness := none
  model := some "m1"
  reasoningTokens := none
  cacheWrite5m := some ⟨2, by decide⟩
  cacheWrite1h := none
  longPrompt := none

def workerRow (at_ : String) (input : Count) : CostLine :=
  { mainRow at_ 1 9 input with kind := "worker", processTurn := none, harness := some "codex" }

/-- The rows under the texts of their lines, with three days. -/
def ledgerEnv (rows : List (String × CostLine)) : CostsEnv where
  usageLine line := rows.lookup line
  costSource := fun _ => some none
  eventLine := fun _ => none
  instant at_ := [("mon", 1), ("tue", 2), ("wed", 3)].lookup at_
  table := []
  overrides := .empty
  rates := fun _ => ⟨0, [], 0⟩

/-- A process of Monday, one from Tuesday to Wednesday, and a worker. -/
def weekRows : List (String × CostLine) :=
  [("old", mainRow "mon" 1 3 ⟨5, by decide⟩), ("first", mainRow "tue" 1 2 ⟨7, by decide⟩),
    ("second", mainRow "wed" 2 5 ⟨11, by decide⟩), ("job", workerRow "wed" ⟨13, by decide⟩)]

def weekFile : String := "old\nfirst\nsecond\njob\n"

/-- A process whose costs rise from below zero. -/
def refundRows : List (String × CostLine) :=
  [("first", mainRow "tue" 1 (-2) ⟨7, by decide⟩), ("second", mainRow "wed" 2 (-1) ⟨11, by decide⟩)]

def refundFile : String := "first\nsecond\n"

theorem processes_week : allProcesses (ledgerEnv weekRows) weekFile =
    [[mainRow "mon" 1 3 ⟨5, by decide⟩],
      [mainRow "tue" 1 2 ⟨7, by decide⟩, mainRow "wed" 2 5 ⟨11, by decide⟩]] := by
  have hlines : Text.lines weekFile = ["old", "first", "second", "job"] := by
    rw [Text.lines_eq]
    decide
  rw [allProcesses, mainLines, parsedLines, hlines]
  rfl

theorem processes_refund : allProcesses (ledgerEnv refundRows) refundFile =
    [[mainRow "tue" 1 (-2) ⟨7, by decide⟩, mainRow "wed" 2 (-1) ⟨11, by decide⟩]] := by
  have hlines : Text.lines refundFile = ["first", "second"] := by
    rw [Text.lines_eq]
    decide
  rw [allProcesses, mainLines, parsedLines, hlines]
  rfl

/-- A row of Tuesday and a later one of Wednesday. -/
theorem steady_days (rows : List (String × CostLine)) {a b : ℚ} (hle : a ≤ b) (m n : Count) :
    Steady (ledgerEnv rows) 3 [mainRow "tue" 1 a m, mainRow "wed" 2 b n] := by
  refine ⟨List.pairwise_pair.mpr ?_, List.pairwise_pair.mpr ?_, fun row hrow => ?_⟩
  · rintro x hx
    obtain rfl : 2 = x := Option.some.inj hx
    exact ⟨3, rfl, by decide⟩
  · rintro x y hx hy
    obtain rfl : a = x := Option.some.inj hx
    obtain rfl : b = y := Option.some.inj hy
    exact hle
  · obtain ⟨hmem, -⟩ := List.mem_filter.mp (List.mem_of_getLast? hrow)
    simp only [List.mem_cons, List.not_mem_nil, or_false] at hmem
    rcases hmem with rfl | rfl <;> rfl

theorem steady_week : ∀ process ∈ allProcesses (ledgerEnv weekRows) weekFile,
    Steady (ledgerEnv weekRows) 3 process ∧ Paid process := by
  rw [processes_week, List.forall_mem_cons, List.forall_mem_singleton]
  refine ⟨⟨⟨List.pairwise_singleton _ _, List.pairwise_singleton _ _, fun row hrow => ?_⟩, ?_⟩,
    steady_days _ (by norm_num) _ _, ?_⟩
  · obtain ⟨hmem, -⟩ := List.mem_filter.mp (List.mem_of_getLast? hrow)
    rw [List.mem_singleton.mp hmem]
    rfl
  · rw [Paid, List.forall_mem_singleton]
    rintro x hx
    obtain rfl : 3 = x := Option.some.inj hx
    norm_num
  · rw [Paid, List.forall_mem_cons, List.forall_mem_singleton]
    refine ⟨fun x hx => ?_, fun x hx => ?_⟩
    · obtain rfl : 2 = x := Option.some.inj hx
      norm_num
    · obtain rfl : 5 = x := Option.some.inj hx
      norm_num

/-- From Wednesday on two rows count, and main spends 3 of 8. -/
theorem cost_views_agree_turn :
    let env := ledgerEnv weekRows
    (totalRow (costRows env weekFile (some 3))).tokens =
        Tokens.total [.of (mainRow "wed" 2 5 ⟨11, by decide⟩), .of (workerRow "wed" ⟨13, by decide⟩)] ∧
      (mainUsd env weekFile none = 8 ∧ mainUsd env weekFile (some 3) = 3) ∧
      WindowsAdd env weekFile 3 := by
  intro env
  have hviews := cost_views_agree env ⟨weekFile, ""⟩ (fun _ _ _ => rfl) (some 3)
  have hlines : Text.lines weekFile = ["old", "first", "second", "job"] := by
    rw [Text.lines_eq]
    decide
  have hcounted : countedLines env weekFile (some 3) =
      [mainRow "wed" 2 5 ⟨11, by decide⟩, workerRow "wed" ⟨13, by decide⟩] := by
    rw [countedLines, parsedLines, hlines]
    rfl
  refine ⟨?_, ⟨?_, ?_⟩, hviews.2.2 3 steady_week⟩
  · have htokens := hviews.1.1
    rw [hcounted] at htokens
    exact htokens
  · rw [mainUsd_eq_sum, processes_week]
    decide +kernel
  · rw [mainUsd_eq_sum, processes_week]
    decide +kernel

/-- The process is billed 1 from Wednesday on, had -2 before, and counts 0 over all time. -/
theorem refund_lost :
    SourcesRead (ledgerEnv refundRows) refundFile ∧
      (∀ process ∈ allProcesses (ledgerEnv refundRows) refundFile,
        Steady (ledgerEnv refundRows) 3 process) ∧
      ¬WindowsAdd (ledgerEnv refundRows) refundFile 3 := by
  refine ⟨fun _ _ _ => rfl, ?_, ?_⟩
  · rw [processes_refund, List.forall_mem_singleton]
    exact steady_days _ (by norm_num) _ _
  · rw [WindowsAdd, mainUsd_eq_sum, mainUsd_eq_sum, processes_refund]
    decide +kernel

end Demo

end Costs

end Ralph.Worker
