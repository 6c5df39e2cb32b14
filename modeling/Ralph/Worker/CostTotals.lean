import Mathlib.Algebra.BigOperators.Group.Multiset.Basic
import Ralph.ListSums
import Ralph.Worker.CostViews

namespace Ralph.Worker.Costs
open ListSums

theorem eitherSum_comm (a b : Option Count) : eitherSum a b = eitherSum b a := by
  cases a <;> cases b <;> first | rfl | exact congrArg some (add_comm _ _)

theorem eitherSum_assoc (a b c : Option Count) :
    eitherSum (eitherSum a b) c = eitherSum a (eitherSum b c) := by
  cases a <;> cases b <;> cases c <;> first | rfl | exact congrArg some (add_assoc _ _ _)

theorem none_eitherSum (a : Option Count) : eitherSum none a = a := by
  cases a <;> rfl

namespace Tokens

instance : Add Tokens := ⟨plus⟩

instance : Zero Tokens := ⟨zero⟩

theorem zero_plus (a : Tokens) : 0 + a = a :=
  Tokens.ext (zero_add _) (zero_add _) (zero_add _) (zero_add _) (none_eitherSum _) (none_eitherSum _)
    (Bool.false_or _) (Bool.false_or _) (Bool.false_or _) (none_eitherSum _)

theorem plus_comm (a b : Tokens) : a + b = b + a :=
  Tokens.ext (add_comm _ _) (add_comm _ _) (add_comm _ _) (add_comm _ _) (eitherSum_comm _ _)
    (eitherSum_comm _ _) (Bool.or_comm _ _) (Bool.or_comm _ _) (Bool.or_comm _ _) (eitherSum_comm _ _)

theorem plus_assoc (a b c : Tokens) : a + b + c = a + (b + c) :=
  Tokens.ext (add_assoc _ _ _) (add_assoc _ _ _) (add_assoc _ _ _) (add_assoc _ _ _)
    (eitherSum_assoc _ _ _) (eitherSum_assoc _ _ _) (Bool.or_assoc _ _ _) (Bool.or_assoc _ _ _)
    (Bool.or_assoc _ _ _) (eitherSum_assoc _ _ _)

instance : AddCommMonoid Tokens where
  add_assoc := plus_assoc
  zero_add := zero_plus
  add_zero a := (plus_comm a 0).trans (zero_plus a)
  add_comm := plus_comm
  nsmul := nsmulRec

theorem total_eq_sum (tokens : List Tokens) : total tokens = tokens.sum := by
  rw [List.sum_eq_foldl]
  rfl

end Tokens

section Measure

variable {M : Type*} [AddCommMonoid M] (f : CostLine → M)

def measure (lines : List CostLine) : M := (lines.map f).sum

@[simp] theorem measure_nil : measure f [] = 0 := rfl

theorem measure_append (a b : List CostLine) : measure f (a ++ b) = measure f a + measure f b := by
  rw [measure, List.map_append, List.sum_append, measure, measure]

theorem measure_cons (line : CostLine) (lines : List CostLine) :
    measure f (line :: lines) = f line + measure f lines := by
  rw [measure, List.map_cons, List.sum_cons, measure]

/-- Leaving rows out is counting them for nothing. -/
theorem measure_filter (p : CostLine → Bool) (lines : List CostLine) :
    measure f (lines.filter p) = measure (fun line => if p line then f line else 0) lines := by
  induction lines with
  | nil => rfl
  | cons line lines ih =>
    rw [List.filter_cons, measure_cons, ← ih]
    split_ifs
    · rw [measure_cons]
    · rw [zero_add]

theorem measure_flatten (parts : List (List CostLine)) :
    measure f parts.flatten = (parts.map (measure f)).sum := by
  induction parts with
  | nil => rfl
  | cons part parts ih => rw [List.flatten_cons, measure_append, ih, List.map_cons, List.sum_cons]

theorem measure_singleton (lines : List CostLine) :
    measure (fun line => ({line} : Multiset CostLine)) lines = lines := by
  induction lines with
  | nil => rfl
  | cons line lines ih =>
    rw [measure_cons, ih, Multiset.singleton_add]
    rfl

end Measure

variable {M : Type*} [AddCommMonoid M] (f : CostLine → M) (env : CostsEnv)

/-- The processes of one run hold its rows. -/
theorem measure_processes (rows : List CostLine) :
    ((processes rows).map (measure f)).sum = measure f rows := by
  rw [← measure_flatten, processes, List.flatten_splitBy]

theorem total_runsOf (lines : List CostLine) :
    (runsOf lines).total (measure f) = measure f lines := by
  have hpush := SortedMap.total_foldl_push f
    (fun line : CostLine => (show WithBot String from line.run)) lines .empty
  exact hpush.trans (zero_add _)

/-- The rows that one process has in the window. -/
theorem measure_processIn (since : Option ℤ) (run : Option String) (process : List CostLine) :
    (processIn env since run process).elim 0 (fun p => measure f p.2.rows) =
      measure (fun line => if inWindow env line.at_ since then f line else 0) process := by
  rw [← measure_filter, processIn]
  by_cases hnone : (process.filter fun row => inWindow env row.at_ since) = []
  · rw [if_pos hnone, hnone]
    rfl
  · rw [if_neg hnone]
    rfl

/-- The processes of main hold its rows in the window. -/
theorem measure_mainProcesses (lines : List CostLine) (since : Option ℤ) :
    ((mainProcesses env lines since).map fun p => measure f p.2.rows).sum =
      measure f (lines.filter fun line => inWindow env line.at_ since) := by
  let counted (line : CostLine) : M := if inWindow env line.at_ since then f line else 0
  have hrun : ∀ (run : Option String) (rows : List CostLine),
      (((processes rows).filterMap (processIn env since run)).map fun p => measure f p.2.rows).sum =
        measure counted rows := by
    intro run rows
    rw [sum_map_filterMap, ← measure_processes]
    exact congrArg List.sum (List.map_congr_left fun process _ => measure_processIn f env since run process)
  rw [measure_filter, ← total_runsOf, mainProcesses, sum_map_flatMap, SortedMap.total]
  exact congrArg List.sum (List.map_congr_left fun run _ => hrun run.1 run.2)

/-- The rows of a recognised kind other than those of main. -/
def isOther (line : CostLine) : Bool := (Source.of line).isSome && Source.of line != some .main

theorem foldl_readLine (lines : List CostLine)
    (s : SortedMap (Source ×ₗ String) (List CostLine) × List CostLine) :
    (lines.foldl readLine s).2 = s.2 ++ lines.filter (fun line => Source.of line = some .main) ∧
    (lines.foldl readLine s).1.total (measure f) = s.1.total (measure f) + measure f (lines.filter isOther) := by
  induction lines generalizing s with
  | nil => simp
  | cons line lines ih =>
    obtain ⟨hmain, htotal⟩ := ih (readLine s line)
    rw [List.foldl_cons, hmain, htotal, List.filter_cons, List.filter_cons]
    cases hsource : Source.of line with
    | none => simp [readLine, hsource, isOther]
    | some source =>
      by_cases h : source = .main
      · subst h
        simp [readLine, hsource, isOther]
      · have hother : isOther line = true := by simp [isOther, hsource, h]
        have hread : readLine s line = (s.1.push (toLex (source, line.model.getD unknown)) line, s.2) := by
          cases source <;> simp_all [readLine]
        rw [hread, if_neg (by simpa using h), if_pos hother, measure_cons]
        refine ⟨rfl, ?_⟩
        have hpush := SortedMap.total_push f s.1 (toLex (source, line.model.getD unknown)) line
        rw [← add_assoc]
        exact congrArg (· + measure f (lines.filter isOther)) hpush

theorem foldl_addProcess (ps : List (String × MainProcess)) (g : CostGroups) :
    (ps.foldl addProcess g).groups.total (measure f) =
      g.groups.total (measure f) + (ps.map fun p => measure f p.2.rows).sum := by
  induction ps generalizing g with
  | nil => rw [List.foldl_nil, List.map_nil, List.sum_nil, add_zero]
  | cons p ps ih =>
    have hupdate : (addProcess g p).groups.total (measure f) =
        g.groups.total (measure f) + measure f p.2.rows :=
      SortedMap.total_update (g := measure f) (d := []) rfl
        (fun lines => measure_append f lines p.2.rows) _ _
    rw [List.foldl_cons, ih, hupdate, List.map_cons, List.sum_cons, add_assoc]

/-- The rows of a recognised kind inside the window. -/
def countedLines (usage : String) (since : Option ℤ) : List CostLine :=
  (parsedLines env usage).filter fun line => (Source.of line).isSome && inWindow env line.at_ since

/-- The groups of the harness-and-model view hold the counted rows. -/
theorem measure_costGroups (usage : String) (since : Option ℤ) :
    (costGroups env usage since).groups.total (measure f) = measure f (countedLines env usage since) := by
  let lines := (parsedLines env usage).filter fun line =>
    inWindow env line.at_ since || Source.of line = some .main
  obtain ⟨hmain, htotal⟩ := foldl_readLine f lines (.empty, [])
  have hgroups : (costGroups env usage since).groups.total (measure f) =
      measure f (lines.filter isOther) +
        measure f ((lines.filter fun line => Source.of line = some .main).filter fun line =>
          inWindow env line.at_ since) := by
    show ((mainProcesses env (lines.foldl readLine (.empty, [])).2 since).foldl addProcess
      ⟨(lines.foldl readLine (.empty, [])).1, .empty⟩).groups.total (measure f) = _
    rw [foldl_addProcess, htotal, hmain, measure_mainProcesses, List.nil_append]
    exact congrArg (· + _) (zero_add _)
  rw [hgroups, countedLines, List.filter_filter, List.filter_filter, List.filter_filter,
    measure_filter, measure_filter, measure_filter, measure, measure, ← List.sum_map_add]
  refine congrArg List.sum (List.map_congr_left fun line _ => ?_)
  -- a row counts as one of main or as another one, or it does not count
  cases hsource : Source.of line with
  | none => simp [isOther, hsource]
  | some source => by_cases h : source = .main <;> simp [isOther, hsource, h]

/-- The groups of the other views hold the entries that have a key. -/
theorem measure_buildGroups {κ : Type} [LinearOrder κ] (entries : List Entry) (unmetered : List κ)
    (key : Entry → Option κ) (hkey : ∀ entry ∈ entries, (key entry).isSome) :
    (buildGroups entries unmetered key).total (fun g => measure f (g.1.map Entry.line)) =
      measure f (entries.map Entry.line) := by
  let value (g : List Entry × ℕ) : M := measure f (g.1.map Entry.line)
  have hentries : ∀ groups : Groups κ, (entries.foldl (addEntry key) groups).total value =
      groups.total value + measure f (entries.map Entry.line) := by
    induction entries with
    | nil => exact fun groups => (add_zero _).symm
    | cons entry entries ih =>
      intro groups
      rw [List.forall_mem_cons] at hkey
      obtain ⟨k, hk⟩ := Option.isSome_iff_exists.mp hkey.1
      have hadd : (addEntry key groups entry).total value = groups.total value + f entry.line := by
        rw [addEntry, hk]
        apply SortedMap.total_update
        · rfl
        · intro g
          simp only [value, List.map_append, measure_append, List.map_singleton, measure_cons,
            measure_nil, add_zero]
      rw [List.foldl_cons, ih hkey.2, hadd, List.map_cons, measure_cons, add_assoc]
  have hunmetered : ∀ groups : Groups κ, (unmetered.foldl (fun groups k =>
      groups.update k ([], 0) fun g => (g.1, g.2 + 1)) groups).total value = groups.total value := by
    induction unmetered with
    | nil => exact fun groups => rfl
    | cons k unmetered ih =>
      intro groups
      rw [List.foldl_cons, ih]
      have hupdate : (groups.update k ([], 0) fun g => (g.1, g.2 + 1)).total value =
          groups.total value + 0 :=
        SortedMap.total_update (g := value) (d := ([], 0)) (f := fun g => (g.1, g.2 + 1)) rfl
          (fun g => (add_zero _).symm) groups k
      rw [hupdate, add_zero]
  rw [buildGroups, hunmetered, hentries]
  exact zero_add _

/-- Each line of the usage file has no `cost_source` or one that is a string. -/
def SourcesRead (usage : String) : Prop :=
  ∀ text ∈ Text.lines usage, (env.usageLine text).isSome → (env.costSource text).isSome

variable {env} in
theorem lines_parseLines {usage : String} (h : SourcesRead env usage) (since : Option ℤ) :
    (parseLines env usage since).map Prod.fst = countedLines env usage since := by
  rw [parseLines, countedLines, parsedLines, List.map_filterMap, List.filter_filterMap]
  refine List.filterMap_congr fun text htext => ?_
  cases hline : env.usageLine text with
  | none => simp [parseLine, hline]
  | some line =>
    obtain ⟨tag, htag⟩ := Option.isSome_iff_exists.mp (h text htext (by rw [hline]; rfl))
    cases hsource : Source.of line with
    | none => simp [parseLine, hline, hsource, Option.filter_some]
    | some source =>
      by_cases hin : inWindow env line.at_ since = true <;>
        simp [parseLine, hline, hsource, htag, hin, Option.filter_some]

theorem lines_entries (lines : List (CostLine × Bool)) (windows : List WorkerWindow) :
    (entries env lines windows).map Entry.line = lines.map Prod.fst := by
  rw [entries, List.map_map]
  rfl

theorem isSome_role (line : CostLine) : (Role.of line.kind).isSome = (Source.of line).isSome := by
  unfold Role.of Source.of
  split_ifs <;> simp_all

/-- The rows of every view, whatever the measure. -/
theorem measure_groupLines {inputs : Inputs} (h : SourcesRead env inputs.usage) (since : Option ℤ)
    (grouping : Grouping) :
    ((groupLines (inputs.entries env since) (parseWindows env inputs.workers) since grouping).map
      fun es => measure f (es.map Entry.line)).sum = measure f (countedLines env inputs.usage since) := by
  let es := inputs.entries env since
  have hlines : es.map Entry.line = countedLines env inputs.usage since :=
    (lines_entries env _ _).trans (lines_parseLines h since)
  have hsource : ∀ entry ∈ es, (Source.of entry.line).isSome := by
    intro entry hentry
    have hmem := hlines ▸ List.mem_map_of_mem hentry
    have hcounted := (List.mem_filter.mp hmem).2
    rw [Bool.and_eq_true] at hcounted
    exact hcounted.1
  rw [← hlines]
  cases grouping with
  | harness =>
    have hgroups := measure_buildGroups f es ((unmeteredCursors (parseWindows env inputs.workers) es
      since).map fun w => Source.worker w.harness) (fun entry => Source.of entry.line) hsource
    rw [groupLines, List.map_map]
    exact hgroups
  | role =>
    have hgroups := measure_buildGroups f es ((unmeteredCursors (parseWindows env inputs.workers) es
      since).map fun _ => Role.worker) (fun entry => Role.of entry.line.kind)
      (fun entry hentry => (isSome_role entry.line).trans (hsource entry hentry))
    rw [groupLines, List.map_map]
    exact hgroups
  | ticket =>
    have hgroups := measure_buildGroups f es ((unmeteredCursors (parseWindows env inputs.workers) es
      since).map fun w => ticketKey w.ticket) (fun entry => some (ticketKey
        (entry.window.bind fun position => (parseWindows env inputs.workers)[position]?.bind
          WorkerWindow.ticket))) (fun _ _ => rfl)
    rw [groupLines, List.map_map]
    exact hgroups

/-- Groups that hold the rows add up to their tokens. -/
theorem tokens_totalRow (usage : String) (since : Option ℤ) :
    (totalRow (costRows env usage since)).tokens =
      Tokens.total ((countedLines env usage since).map Tokens.of) := by
  have hgroups := measure_costGroups Tokens.of env usage since
  rw [totalRow, costRows, Tokens.total_eq_sum, Tokens.total_eq_sum, ← measure, ← hgroups,
    SortedMap.total, List.map_map, List.map_map]
  refine congrArg List.sum (List.map_congr_left fun group _ => ?_)
  exact Tokens.total_eq_sum _

theorem tokens_build {κ : Type} [LinearOrder κ] (groups : Groups κ) (label : κ → String)
    (priced : Entry → Usd) : (Row.total (build groups label priced)).tokens =
      ((groups.entries.map fun g => g.2.1).map fun es => measure Tokens.of (es.map Entry.line)).sum := by
  simp only [Row.total, build, Tokens.total_eq_sum, List.map_map]
  refine congrArg List.sum (List.map_congr_left fun group _ => ?_)
  simp only [Function.comp_apply, measure, List.map_map]
  rfl

theorem tokens_rows {inputs : Inputs} (h : SourcesRead env inputs.usage) (since : Option ℤ)
    (grouping : Grouping) : (Row.total (inputs.rows env grouping since)).tokens =
      Tokens.total ((countedLines env inputs.usage since).map Tokens.of) := by
  rw [Tokens.total_eq_sum, ← measure, ← measure_groupLines Tokens.of env h since grouping]
  cases grouping <;> exact tokens_build _ _ _

/-- Each counted row is in one group of each view. -/
theorem perm_groupLines {inputs : Inputs} (h : SourcesRead env inputs.usage) (since : Option ℤ)
    (grouping : Grouping) :
    ((groupLines (inputs.entries env since) (parseWindows env inputs.workers) since grouping).flatten.map
      Entry.line).Perm (countedLines env inputs.usage since) := by
  let groups := groupLines (inputs.entries env since) (parseWindows env inputs.workers) since grouping
  let single (line : CostLine) : Multiset CostLine := {line}
  have hmeasure := measure_groupLines single env h since grouping
  have hflat : (groups.map fun es => measure single (es.map Entry.line)).sum =
      measure single (groups.flatten.map Entry.line) := by
    rw [List.map_flatten, measure_flatten, List.map_map]
    rfl
  rw [measure_singleton, hflat, measure_singleton] at hmeasure
  exact Multiset.coe_eq_coe.mp hmeasure

theorem perm_costGroups (usage : String) (since : Option ℤ) :
    ((costGroups env usage since).groups.entries.map Prod.snd).flatten.Perm
      (countedLines env usage since) := by
  let groups := (costGroups env usage since).groups
  let single (line : CostLine) : Multiset CostLine := {line}
  have hmeasure := measure_costGroups single env usage since
  have hflat : groups.total (measure single) = measure single (groups.entries.map Prod.snd).flatten := by
    rw [measure_flatten, List.map_map]
    rfl
  rw [measure_singleton, hflat, measure_singleton] at hmeasure
  exact Multiset.coe_eq_coe.mp hmeasure

end Ralph.Worker.Costs
