import Ralph.Worker.Check

namespace Ralph.Worker.Check

section Run

variable (autoContinue : Bool) (inputs : ℕ → CheckInput) (facts : ℕ → Facts) (id : String)

/-- The worker stands once among the running workers of every check. -/
def Observed : Prop := ∀ n, (inputs n).running.filter (fun worker => decide (worker.id = id)) = [facts n]

def obsAt (n : ℕ) : WorkerObservation :=
  observe autoContinue (inputs n).reports (checks autoContinue inputs n).nudges (facts n)

def stateAt (n : ℕ) : WorkerState := classify (obsAt autoContinue inputs facts n)

def nudgedAt (n : ℕ) : Prop := .nudge id ∈ actionsAt autoContinue inputs n

instance (n : ℕ) : Decidable (nudgedAt autoContinue inputs id n) := inferInstanceAs (Decidable (_ ∈ _))

/-- The nudges sent in the first `n` checks. -/
def nudgesSent : ℕ → ℕ
  | 0 => 0
  | n + 1 => nudgesSent n + (actionsAt autoContinue inputs n).count (.nudge id)

/-- How often the last report changed over the first `n` checks. -/
def reportChanges : ℕ → ℕ
  | 0 => 0
  | 1 => 0
  | n + 2 => reportChanges (n + 1) + if (inputs (n + 1)).reports id ≠ (inputs n).reports id then 1 else 0

/-- The last nudge in front of check `n`. -/
def LastNudge (i n : ℕ) : Prop :=
  i < n ∧ nudgedAt autoContinue inputs id i ∧ ∀ k, i < k → k < n → ¬ nudgedAt autoContinue inputs id k

/-- At check `k` the worker has another last report than at check `i`. -/
def landed (i k : ℕ) : Prop := (inputs k).reports id ≠ none ∧ (inputs k).reports id ≠ (inputs i).reports id

variable {autoContinue inputs facts id}

theorem id_of_observed (h : Observed inputs facts id) (n : ℕ) : (facts n).id = id := by
  have hmem : facts n ∈ (inputs n).running.filter fun worker => decide (worker.id = id) := by
    rw [h n]
    exact List.mem_cons_self
  simpa using List.of_mem_filter hmem

theorem obsAt_id (h : Observed inputs facts id) (n : ℕ) : (obsAt autoContinue inputs facts n).id = id :=
  id_of_observed h n

theorem filter_observations (h : Observed inputs facts id) (n : ℕ) :
    ((inputs n).running.map (observe autoContinue (inputs n).reports (checks autoContinue inputs n).nudges)).filter
      (fun obs => decide (obs.id = id)) = [obsAt autoContinue inputs facts n] := by
  rw [List.filter_map]
  have hsame : ((fun obs : WorkerObservation => decide (obs.id = id)) ∘
      observe autoContinue (inputs n).reports (checks autoContinue inputs n).nudges) =
      fun worker => decide (worker.id = id) := rfl
  rw [hsame, h n]
  rfl

/-- What a check does about the worker. -/
theorem filter_actions (h : Observed inputs facts id) (n : ℕ) :
    (actionsAt autoContinue inputs n).filter (fun action => decide (action.worker = id)) =
      (planOne ((checks autoContinue inputs n).memory id) (obsAt autoContinue inputs facts n)).1 := by
  rw [actionsAt, check]
  dsimp only
  rw [plan_actions, filter_observations h, List.flatMap_singleton]

theorem memory_succ (h : Observed inputs facts id) (n : ℕ) : (checks autoContinue inputs (n + 1)).memory id =
    some (planOne ((checks autoContinue inputs n).memory id) (obsAt autoContinue inputs facts n)).2 := by
  rw [checks, check]
  dsimp only
  rw [plan_memory, filter_observations h]
  rfl

theorem nudgedAt_iff_mem (h : Observed inputs facts id) (n : ℕ) : nudgedAt autoContinue inputs id n ↔
    .nudge id ∈ (planOne ((checks autoContinue inputs n).memory id) (obsAt autoContinue inputs facts n)).1 := by
  rw [← filter_actions h, List.mem_filter]
  exact (and_iff_left (by simp [CheckAction.worker])).symm

theorem nudges_succ (h : Observed inputs facts id) (n : ℕ) : (checks autoContinue inputs (n + 1)).nudges id =
    if nudgedAt autoContinue inputs id n then some ((inputs n).reports id)
    else (checks autoContinue inputs n).nudges id := by
  have hrunning : (inputs n).running.any (fun worker => worker.id == id) = true := by
    rw [List.any_eq_true]
    have hmem : facts n ∈ (inputs n).running.filter fun worker => decide (worker.id = id) := by
      rw [h n]
      exact List.mem_cons_self
    exact ⟨facts n, (List.mem_filter.mp hmem).1, by simp [id_of_observed h n]⟩
  rw [checks, check]
  dsimp only
  rw [noteNudges_apply, if_pos hrunning]
  rfl

theorem count_nudge (h : Observed inputs facts id) (n : ℕ) : (actionsAt autoContinue inputs n).count (.nudge id) =
    if nudgedAt autoContinue inputs id n then 1 else 0 := by
  have hcount := count_nudge_planOne ((checks autoContinue inputs n).memory id) (obsAt autoContinue inputs facts n)
  rw [obsAt_id h, ← filter_actions h, List.count_filter (by simp [CheckAction.worker])] at hcount
  rw [hcount]
  have hiff := @nudgedAt_iff_mem autoContinue _ _ _ h n
  rw [← filter_actions h] at hiff
  exact if_congr hiff.symm rfl rfl

theorem flag_succ (h : Observed inputs facts id) (n : ℕ) :
    ((checks autoContinue inputs (n + 1)).memory id).any WorkerMemory.nudged = true ↔
      (((checks autoContinue inputs n).memory id).any WorkerMemory.nudged = true ∧
        (obsAt autoContinue inputs facts n).reportedSinceNudge = false) ∨ nudgedAt autoContinue inputs id n := by
  -- one round of `planOne`: the flag is kept while no report is seen, or set by a nudge
  rw [nudgedAt_iff_mem h, ← obsAt_id h n, nudge_mem_planOne, obsAt_id h, memory_succ h, Option.any_some, planOne]
  dsimp only
  cases ((checks autoContinue inputs n).memory id).any WorkerMemory.nudged <;>
    cases (obsAt autoContinue inputs facts n).reportedSinceNudge <;> simp

theorem lastNudge_succ_iff {i n : ℕ} : LastNudge autoContinue inputs id i (n + 1) ↔
    (i = n ∧ nudgedAt autoContinue inputs id n) ∨
      (LastNudge autoContinue inputs id i n ∧ ¬ nudgedAt autoContinue inputs id n) := by
  constructor
  · rintro ⟨hi, hnudged, hsince⟩
    rcases Nat.lt_succ_iff_lt_or_eq.mp hi with hlt | heq
    · exact .inr ⟨⟨hlt, hnudged, fun k hik hkn => hsince k hik (by omega)⟩, hsince n hlt (by omega)⟩
    · exact .inl ⟨heq, heq ▸ hnudged⟩
  · rintro (⟨rfl, hnudged⟩ | ⟨⟨hi, hnudged, hsince⟩, hnot⟩)
    · exact ⟨by omega, hnudged, fun k hik hkn => by omega⟩
    · refine ⟨by omega, hnudged, fun k hik hkn => ?_⟩
      rcases Nat.lt_succ_iff_lt_or_eq.mp hkn with hlt | heq
      · exact hsince k hik hlt
      · exact heq ▸ hnot

/-- The report remembered at the last nudge. -/
theorem nudges_of_last (h : Observed inputs facts id) {i n : ℕ} (hlast : LastNudge autoContinue inputs id i n) :
    (checks autoContinue inputs n).nudges id = some ((inputs i).reports id) := by
  induction n with
  | zero => exact absurd hlast.1 (Nat.not_lt_zero i)
  | succ n ih =>
    rw [nudges_succ h]
    rcases lastNudge_succ_iff.mp hlast with ⟨heq, hnudged⟩ | ⟨hbefore, hnot⟩
    · rw [if_pos hnudged, heq]
    · rw [if_neg hnot, ih hbefore]

/-- A check counts the worker as reported when it sees a new report and no sent marker. -/
theorem reported_iff (h : Observed inputs facts id) {i n : ℕ} (hlast : LastNudge autoContinue inputs id i n) :
    (obsAt autoContinue inputs facts n).reportedSinceNudge = true ↔ landed inputs id i n ∧ (facts n).sent = false := by
  have hreported : (obsAt autoContinue inputs facts n).reportedSinceNudge = (!(facts n).sent &&
      reportedSinceNudge ((inputs n).reports (facts n).id) ((checks autoContinue inputs n).nudges (facts n).id)) := rfl
  rw [hreported, id_of_observed h, nudges_of_last h hlast, reportedSinceNudge, landed]
  cases (facts n).sent <;> simp [Option.isSome_iff_ne_none]

/-- The memory of a nudge stands for the last nudge while no check has seen its report. -/
theorem flag_iff (h : Observed inputs facts id) (n : ℕ) :
    ((checks autoContinue inputs n).memory id).any WorkerMemory.nudged = true ↔
      ∃ i, LastNudge autoContinue inputs id i n ∧
        ∀ k, i < k → k < n → ¬ (landed inputs id i k ∧ (facts k).sent = false) := by
  induction n with
  | zero =>
    refine iff_of_false Bool.false_ne_true ?_
    rintro ⟨i, ⟨hi, _⟩, _⟩
    exact absurd hi (Nat.not_lt_zero i)
  | succ n ih =>
    rw [flag_succ h, ih]
    constructor
    -- a nudge of this check is the last one, and no check is behind it yet
    · intro hflag
      by_cases hnudged : nudgedAt autoContinue inputs id n
      · exact ⟨n, lastNudge_succ_iff.mpr (.inl ⟨rfl, hnudged⟩), fun k hnk hkn => by omega⟩
      · obtain ⟨⟨i, hlast, hunseen⟩, hreported⟩ := hflag.resolve_right hnudged
        refine ⟨i, lastNudge_succ_iff.mpr (.inr ⟨hlast, hnudged⟩), fun k hik hkn => ?_⟩
        rcases Nat.lt_succ_iff_lt_or_eq.mp hkn with hlt | heq
        · exact hunseen k hik hlt
        · rw [heq, ← reported_iff h hlast, hreported]
          exact Bool.false_ne_true
    · rintro ⟨i, hlast, hunseen⟩
      rcases lastNudge_succ_iff.mp hlast with ⟨_, hnudged⟩ | ⟨hbefore, _⟩
      · exact .inr hnudged
      · refine .inl ⟨⟨i, hbefore, fun k hik hkn => hunseen k hik (by omega)⟩, ?_⟩
        have hnot := hunseen n hbefore.1 (by omega)
        rw [← reported_iff h hbefore] at hnot
        exact Bool.eq_false_of_not_eq_true hnot

/-- A waiting worker is nudged unless a nudge stands whose report no check has seen. -/
theorem nudgedAt_iff (h : Observed inputs facts id) (n : ℕ) : nudgedAt autoContinue inputs id n ↔
    stateAt autoContinue inputs facts n = .waiting ∧ ∀ i, LastNudge autoContinue inputs id i n →
      ∃ k, i < k ∧ k ≤ n ∧ landed inputs id i k ∧ (facts k).sent = false := by
  rw [nudgedAt_iff_mem h, ← obsAt_id h n, nudge_mem_planOne, obsAt_id h, flag_iff h]
  refine and_congr_right fun _ => ?_
  constructor
  -- the report is landed at this check or at one before it
  · intro hnot i hlast
    by_contra hunseen
    rw [not_exists] at hunseen
    refine hnot ⟨⟨i, hlast, fun k hik hkn hseen => hunseen k ⟨hik, hkn.le, hseen⟩⟩, ?_⟩
    apply Bool.eq_false_of_not_eq_true
    rw [reported_iff h hlast]
    exact fun hseen => hunseen n ⟨hlast.1, le_rfl, hseen⟩
  · rintro hseen ⟨⟨i, hlast, hunseen⟩, hreported⟩
    obtain ⟨k, hik, hkn, hlanded⟩ := hseen i hlast
    rcases hkn.lt_or_eq with hlt | heq
    · exact hunseen k hik hlt hlanded
    · rw [heq, ← reported_iff h hlast, hreported] at hlanded
      cases hlanded

theorem lastNudge_unique {i j n : ℕ} (hi : LastNudge autoContinue inputs id i n)
    (hj : LastNudge autoContinue inputs id j n) : i = j := by
  rcases Nat.lt_trichotomy i j with hlt | heq | hgt
  · exact absurd hj.2.1 (hi.2.2 j hlt hj.1)
  · exact heq
  · exact absurd hi.2.1 (hj.2.2 i hgt hi.1)

theorem nudgesSent_cases (h : Observed inputs facts id) (n : ℕ) :
    nudgesSent autoContinue inputs id n = 0 ∨ ∃ i, LastNudge autoContinue inputs id i n ∧
      nudgesSent autoContinue inputs id n = nudgesSent autoContinue inputs id i + 1 := by
  induction n with
  | zero => exact .inl rfl
  | succ n ih =>
    rw [nudgesSent, count_nudge h]
    split_ifs with hnudged
    · exact .inr ⟨n, lastNudge_succ_iff.mpr (.inl ⟨rfl, hnudged⟩), rfl⟩
    · rcases ih with hnone | ⟨i, hlast, hsent⟩
      · exact .inl hnone
      · exact .inr ⟨i, lastNudge_succ_iff.mpr (.inr ⟨hlast, hnudged⟩), hsent⟩

theorem reportChanges_add_le {i k : ℕ} (hik : i ≤ k) :
    reportChanges inputs id (i + 1) + (if (inputs k).reports id ≠ (inputs i).reports id then 1 else 0) ≤
      reportChanges inputs id (k + 1) := by
  induction k, hik using Nat.le_induction with
  | base => simp
  | succ k hik ih =>
    rw [reportChanges]
    by_cases hnext : (inputs (k + 1)).reports id ≠ (inputs k).reports id
    · rw [if_pos hnext]
      split_ifs <;> omega
    · rw [if_neg hnext, not_not.mp hnext, Nat.add_zero]
      exact ih

theorem reportChanges_mono {m n : ℕ} (hmn : m ≤ n) : reportChanges inputs id m ≤ reportChanges inputs id n := by
  cases m with
  | zero => exact Nat.zero_le _
  | succ m =>
    obtain ⟨k, rfl⟩ : ∃ k, n = k + 1 := ⟨n - 1, by omega⟩
    have hle := @reportChanges_add_le inputs id m k (by omega)
    omega

/-- The nudges are one more than the changes of the last report at most. -/
theorem nudgesSent_le (h : Observed inputs facts id) (n : ℕ) :
    nudgesSent autoContinue inputs id n ≤ 1 + reportChanges inputs id n := by
  -- from the last nudge back to the one before it, with a new report between them
  induction n using Nat.strong_induction_on with
  | _ n ih =>
    rcases @nudgesSent_cases autoContinue _ _ _ h n with hnone | ⟨i, hlast, hsent⟩
    · omega
    · rcases @nudgesSent_cases autoContinue _ _ _ h i with hfirst | ⟨j, hbefore, hbefore_sent⟩
      · omega
      · obtain ⟨k, hjk, hki, ⟨_, hchanged⟩, _⟩ := ((nudgedAt_iff h i).mp hlast.2.1).2 j hbefore
        have hprev := ih (j + 1) (by have := hbefore.1; have := hlast.1; omega)
        rw [nudgesSent, count_nudge h, if_pos hbefore.2.1] at hprev
        have hstep := @reportChanges_add_le inputs id j k hjk.le
        rw [if_pos hchanged] at hstep
        have hmono := @reportChanges_mono inputs id (k + 1) n (by have := hlast.1; omega)
        omega

def cantTellAt (autoContinue : Bool) (inputs : ℕ → CheckInput) (facts : ℕ → Facts) (id : String) (n : ℕ) : Prop :=
  stateAt autoContinue inputs facts n = .unknown ∧ ∃ text, .inbox id text ∈ actionsAt autoContinue inputs n

theorem unknownPosted_of_since (h : Observed inputs facts id) {i n : ℕ} (hin : i < n)
    (hunknown : stateAt autoContinue inputs facts i = .unknown)
    (hsince : ∀ k, i < k → k < n →
      stateAt autoContinue inputs facts k = .unknown ∨ stateAt autoContinue inputs facts k = .working) :
    ((checks autoContinue inputs n).memory id).any WorkerMemory.unknownPosted = true := by
  induction n, hin using Nat.le_induction with
  | base =>
    rw [memory_succ h, Option.any_some, planOne]
    dsimp only
    rw [stateAt] at hunknown
    rw [hunknown]
  | succ n hin ih =>
    have hbefore := ih fun k hik hkn => hsince k hik (by omega)
    rw [memory_succ h, Option.any_some, planOne]
    dsimp only
    rcases hsince n hin (by omega) with hstate | hstate
    · rw [stateAt] at hstate
      rw [hstate]
    · rw [stateAt] at hstate
      rw [hstate]
      exact hbefore

theorem not_unknownPosted_of_cantTell (h : Observed inputs facts id) {n : ℕ}
    (hpost : cantTellAt autoContinue inputs facts id n) :
    ((checks autoContinue inputs n).memory id).any WorkerMemory.unknownPosted = false := by
  obtain ⟨hstate, text, hmem⟩ := hpost
  have hplanned : .inbox id text ∈
      (planOne ((checks autoContinue inputs n).memory id) (obsAt autoContinue inputs facts n)).1 := by
    rw [← filter_actions h, List.mem_filter]
    exact ⟨hmem, by simp [CheckAction.worker]⟩
  rw [stateAt] at hstate
  rw [planOne] at hplanned
  dsimp only at hplanned
  rcases List.mem_append.mp hplanned with hnudge | hinbox
  · split_ifs at hnudge
    · cases List.mem_singleton.mp hnudge
    · cases hnudge
  · obtain ⟨_, hposts, _⟩ := Option.map_eq_some_iff.mp (Option.mem_toList.mp hinbox)
    split_ifs at hposts with hfresh
    have hrepeat := hfresh.2
    rw [hstate, decide_eq_true rfl, Bool.true_and] at hrepeat
    exact hrepeat

end Run

/-- Nudges against reports over any run of checks. -/
theorem nudges_bounded {autoContinue : Bool} {inputs : ℕ → CheckInput} {facts : ℕ → Facts} {id : String}
    (h : Observed inputs facts id) :
    (∀ n, nudgesSent autoContinue inputs id n ≤ 1 + reportChanges inputs id n) ∧
      (∀ n, stateAt autoContinue inputs facts n = .waiting →
        (∀ m, n = m + 1 → stateAt autoContinue inputs facts m ≠ .waiting) →
        (((∀ i, LastNudge autoContinue inputs id i n → ∃ k, i < k ∧ k ≤ n ∧ landed inputs id i k) →
            nudgedAt autoContinue inputs id n) ↔
          ∀ i, LastNudge autoContinue inputs id i n → (∃ k, i < k ∧ k ≤ n ∧ landed inputs id i k) →
            ∃ k, i < k ∧ k ≤ n ∧ landed inputs id i k ∧ (facts k).sent = false)) ∧
      ∀ i j, i < j → cantTellAt autoContinue inputs facts id i → cantTellAt autoContinue inputs facts id j →
        ∃ k, i < k ∧ k < j ∧ stateAt autoContinue inputs facts k ≠ .unknown ∧
          stateAt autoContinue inputs facts k ≠ .working := by
  refine ⟨nudgesSent_le h, ?_, ?_⟩
  · intro n hwaiting _
    constructor
    · intro hclaim i hlast hlanded
      refine ((nudgedAt_iff h n).mp (hclaim fun j hj => ?_)).2 i hlast
      rw [lastNudge_unique hj hlast]
      exact hlanded
    · intro hseen hanswered
      exact (nudgedAt_iff h n).mpr ⟨hwaiting, fun i hlast => hseen i hlast (hanswered i hlast)⟩
  · intro i j hij hi hj
    by_contra hnone
    have hsince : ∀ k, i < k → k < j →
        stateAt autoContinue inputs facts k = .unknown ∨ stateAt autoContinue inputs facts k = .working := by
      intro k hik hkj
      by_contra hother
      rw [not_or] at hother
      exact hnone ⟨k, hik, hkj, hother⟩
    have hposted := unknownPosted_of_since h hij hi.1 hsince
    rw [not_unknownPosted_of_cantTell h hj] at hposted
    cases hposted

/-- A worker that is nudged, reports and gets a message, and stops again. -/
def napped : ℕ → Facts
  | 0 => ⟨"w", "", .codex, true, false, true, false, false, none, none, 0⟩
  | 1 => ⟨"w", "", .codex, true, false, false, false, true, none, none, 0⟩
  | _ => ⟨"w", "", .codex, true, false, true, false, true, none, none, 0⟩

def nappedInput (n : ℕ) : CheckInput := ⟨fun _ => if n = 0 then none else some "12:00", [napped n]⟩

theorem napped_observed : Observed nappedInput napped "w" := by
  intro n
  match n with
  | 0 => rfl
  | 1 => rfl
  | _ + 2 => rfl

theorem nudges_bounded_once : nudgesSent false nappedInput "w" 3 ≤ 1 + reportChanges nappedInput "w" 3 :=
  (nudges_bounded napped_observed).1 3

/-- The report landed, and the worker that stops again is not nudged. -/
theorem answered_not_nudged : Observed nappedInput napped "w" ∧ stateAt false nappedInput napped 2 = .waiting ∧
    stateAt false nappedInput napped 1 ≠ .waiting ∧ LastNudge false nappedInput "w" 0 2 ∧
    landed nappedInput "w" 0 1 ∧ ¬ nudgedAt false nappedInput "w" 2 := by
  refine ⟨napped_observed, by decide, by decide, ⟨by decide, by decide, ?_⟩, by unfold landed; decide, by decide⟩
  intro k hk hkn
  have hone : k = 1 := by omega
  rw [hone]
  decide

end Ralph.Worker.Check
