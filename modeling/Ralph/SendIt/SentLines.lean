import Ralph.Chat.Cell
import Ralph.Chat.QueuedRoutes
import Ralph.SendIt.Evidence

namespace Ralph.SendIt
open Chat Text Worker

theorem oneLine_planHash (env : Env) (plan : RunPlan) : OneLine (planHash env plan) := by
  have hjoin : ∀ bytes : List UInt8, OneLine (String.join (bytes.map hexByte)) := fun bytes => by
    have hdigit : ∀ n < 16, Nat.digitChar n ≠ '\n' := by decide
    rw [OneLine, String.toList_join]
    simp only [List.mem_flatMap, List.mem_map, not_exists, not_and]
    rintro text ⟨byte, -, rfl⟩
    have hlt := byte.toNat_lt
    simp only [hexByte, String.toList_ofList, List.mem_cons, List.not_mem_nil, or_false, not_or]
    exact ⟨(hdigit _ (by omega)).symm, (hdigit _ (by omega)).symm⟩
  exact hjoin _

/-- The text of a step after its number. -/
def lineText (step : Step) : String := step.task ++ (" · exit: " ++ step.criterion.label)

theorem stepLine_eq (plan : RunPlan) (index : ℕ) (step : Step) : stepLine plan index step =
    "[send-it " ++ toString (index + 1) ++ "/" ++ toString plan.steps.length ++ "] " ++
      lineText step := by
  simp only [stepLine, lineText, toString_string, String.append_assoc]

theorem opener_stepLine (index n : ℕ) :
    Opener ("[send-it " ++ toString (index + 1) ++ "/" ++ toString n ++ "] ") := by
  have hopen : Opener "[send-it " :=
    opener_of_head (c := '[') (by decide) (by decide) (by decide)
  exact (((hopen.append (oneLine_toString _)).append (by decide)).append (oneLine_toString _)).append
    (by decide)

theorem marks_stepLine (plan : RunPlan) (index : ℕ) (step : Step) :
    marks (stepLine plan index step) = moreMarks (lineText step) := by
  rw [stepLine_eq, (opener_stepLine index plan.steps.length).marks_append]

/-- A line of the judge's evidence opens no fence. -/
theorem marks_unmet (plan : RunPlan) (index : ℕ) (step : Step) {evidence : String}
    (h : OneLine evidence) :
    marks (stepLine plan index step ++ "\njudge: not met: " ++ evidence) =
      moreMarks (lineText step) := by
  have hopen : Opener "judge: not met: " :=
    opener_of_head (c := 'j') (by decide) (by decide) (by decide)
  have hsplit : "\njudge: not met: " = "\n" ++ "judge: not met: " := by decide
  have hline : stepLine plan index step ++ "\njudge: not met: " ++ evidence =
      stepLine plan index step ++ "\n" ++ ("judge: not met: " ++ evidence) := by
    rw [hsplit]
    simp only [String.append_assoc]
  rw [hline, marks_newline, marks_stepLine, hopen.marks_eq_nil h, List.append_nil]

/-- The format of an amount stays on its line. -/
def Env.FormatsAmounts (env : Env) : Prop := ∀ usd, OneLine (env.twoDecimals usd)

section Brief

variable {env : Env} (henv : env.FormatsAmounts)
include henv

theorem oneLine_actionLabel (action : Action) : OneLine (action.label env) := by
  cases action with
  | spawn harness =>
    exact (OneLine.append (by decide) (by cases harness <;> decide)).append (by decide)
  | paidRun maxUsd => exact OneLine.append (by decide) (henv maxUsd)
  | _ =>
    dsimp only [Action.label]
    decide

theorem oneLine_grantLabel (grant : Grant) : OneLine (grant.label env) := by
  cases grant with
  | turnCap turns => exact OneLine.append (by decide) (oneLine_toString turns)
  | costCap usd => exact OneLine.append (by decide) (henv usd)

omit henv in
theorem opener_number (n : ℕ) : Opener ("  " ++ toString n ++ ". ") := by
  obtain ⟨c, cs, hdigits⟩ := List.exists_cons_of_ne_nil (Nat.toDigits_ne_nil (n := n) (b := 10))
  have hn : (toString n).toList = c :: cs := by
    rw [Nat.toString_eq_ofList_toDigits, String.toList_ofList, hdigits]
  have hc : c.isDigit = true := isDigit_of_mem_toString (n := n) (by rw [hn]; exact List.mem_cons_self ..)
  have hws : ∀ d : Char, d.isDigit = true → ChatMemory.isWhitespace d = false ∧ d ≠ '`' := by
    intro d hd
    simp only [Char.isDigit, Bool.and_eq_true, decide_eq_true_eq, ge_iff_le,
      UInt32.le_iff_toNat_le] at hd
    change 48 ≤ d.toNat ∧ d.toNat ≤ 57 at hd
    constructor
    · simp only [ChatMemory.isWhitespace, Bool.or_eq_false_iff, Bool.and_eq_false_iff,
        decide_eq_false_iff_not, beq_eq_false_iff_ne]
      omega
    · rintro rfl
      exact absurd hd (by decide)
  refine ⟨((by decide : OneLine "  ").append (oneLine_toString n)).append (by decide), c, ?_,
    (hws c hc).2⟩
  have hspaces : "  ".toList = [' ', ' '] := by decide
  rw [String.toList_append, String.toList_append, hspaces, hn]
  simp [(hws c hc).1, show ChatMemory.isWhitespace ' ' = true by decide]

omit henv in
theorem marks_steps (steps : List (Step × ℕ)) : (steps.flatMap fun (step, index) =>
    [s!"  {index + 1}. {step.task}", s!"     exit: {step.criterion.label}"]).flatMap marks =
      (steps.map Prod.fst).flatMap fun step =>
        moreMarks step.task ++ moreMarks step.criterion.label := by
  have hexit : Opener "     exit: " :=
    opener_of_head (c := 'e') (by decide) (by decide) (by decide)
  induction steps with
  | nil => rfl
  | cons step steps ih =>
    obtain ⟨step, index⟩ := step
    rw [List.flatMap_cons, List.flatMap_append, ih]
    simp only [toString_string, List.flatMap_cons, List.flatMap_nil, List.append_nil,
      List.map_cons, (opener_number (index + 1)).marks_append, hexit.marks_append]

/-- The lines of a plan on screen: those of its texts after their first one can hold fences, and
no other line does. -/
theorem marks_renderRun (plan : RunPlan) : marks (renderRun env plan) =
    moreMarks plan.goal ++ plan.steps.flatMap fun step =>
      moreMarks step.task ++ moreMarks step.criterion.label := by
  have hgoal : Opener "Goal: " :=
    opener_of_head (c := 'G') (by decide) (by decide) (by decide)
  have hsteps : Opener "Steps:" :=
    opener_of_head (c := 'S') (by decide) (by decide) (by decide)
  have hnone : Opener "Allowed: none" :=
    opener_of_head (c := 'A') (by decide) (by decide) (by decide)
  have hallowed : Opener "Allowed: " :=
    opener_of_head (c := 'A') (by decide) (by decide) (by decide)
  have hcaps : Opener "Caps: " :=
    opener_of_head (c := 'C') (by decide) (by decide) (by decide)
  have hyou : Opener "You pre-approve:" :=
    opener_of_head (c := 'Y') (by decide) (by decide) (by decide)
  have hnothing : Opener "  - nothing" :=
    opener_of_head (c := '-') (by decide) (by decide) (by decide)
  have hgrant : Opener "  - " :=
    opener_of_head (c := '-') (by decide) (by decide) (by decide)
  have hactions : OneLine (", ".intercalate (plan.allowed.map (Action.label env))) :=
    oneLine_intercalate (by decide) (by simpa using fun a _ => oneLine_actionLabel henv a)
  have hgrants : (plan.grants.map fun grant => "  - " ++ grant.label env).flatMap marks = [] := by
    simp [List.flatMap_map, fun grant => hgrant.marks_eq_nil (oneLine_grantLabel henv grant)]
  have hcapsLine : marks s!"Caps: {plan.limits.maxTurns} turns, ${env.twoDecimals plan.limits.maxUsd}, {plan.judgeRounds} judge rounds" =
      [] := by
    refine Opener.marks_self ?_
    simp only [toString_string]
    exact (((((hcaps.append (oneLine_toString _)).append (by decide)).append (henv _)).append
      (by decide)).append (oneLine_toString _)).append (by decide)
  have hallowedLine : marks (if plan.allowed.map (Action.label env) = [] then "Allowed: none"
      else "Allowed: " ++ ", ".intercalate (plan.allowed.map (Action.label env))) = [] := by
    split_ifs
    · exact hnone.marks_self
    · exact hallowed.marks_eq_nil hactions
  have hnothingLine : (if plan.grants = [] then ["  - nothing"] else []).flatMap marks = [] := by
    split_ifs <;> simp [hnothing.marks_self]
  unfold renderRun
  dsimp only
  rw [marks_intercalate]
  simp only [List.flatMap_append, List.flatMap_cons, List.flatMap_nil, marks_steps,
    List.zipIdx_map_fst, hgrants, hallowedLine, hnothingLine, hcapsLine, hsteps.marks_self,
    hyou.marks_self, List.append_nil]
  rw [toString_string, toString_string, hgoal.marks_append]

/-- The text that a run opens with before the line of its first step. -/
def brief (env : Env) (plan : RunPlan) : String :=
  s!"send-it run {planHash env plan} is approved. Work the current step only, and take only the allowed actions; ralph checks each exit criterion and sends the next step.\n\n{renderRun env plan}\n\n"

theorem marks_brief (plan : RunPlan) (line : String) : marks (brief env plan ++ line) =
    (moreMarks plan.goal ++ plan.steps.flatMap fun step =>
      moreMarks step.task ++ moreMarks step.criterion.label) ++ marks line := by
  have hsend : Opener "send-it run " :=
    opener_of_head (c := 's') (by decide) (by decide) (by decide)
  have hempty : marks "" = [] := by simp [marks_eq, Text.parts, partMark, backtickRun, Chat.trimStart]
  have hsplit : brief env plan ++ line = "send-it run " ++ planHash env plan ++
      " is approved. Work the current step only, and take only the allowed actions; ralph checks each exit criterion and sends the next step." ++
      "\n" ++ ("" ++ "\n" ++ (renderRun env plan ++ "\n" ++ ("" ++ "\n" ++ line))) := by
    have happroved : " is approved. Work the current step only, and take only the allowed actions; ralph checks each exit criterion and sends the next step.\n\n" =
        " is approved. Work the current step only, and take only the allowed actions; ralph checks each exit criterion and sends the next step." ++
          "\n" ++ ("" ++ "\n") := by
      decide +kernel
    have hend : "\n\n" = "\n" ++ ("" ++ "\n") := by decide
    simp only [brief, toString_string, happroved, hend, String.append_assoc]
  rw [hsplit, marks_newline, marks_newline, marks_newline, marks_newline, hempty,
    marks_renderRun henv, ((hsend.append (oneLine_planHash env plan)).append (by decide +kernel)).marks_self]
  simp

end Brief

section Sends

variable {plan : RunPlan} {p : Progress} {text : String}

theorem stepMet_sends (h : (stepMet plan p).2 = .send text) :
    ∃ step, plan.steps[p.step + 1]? = some step ∧ text = stepLine plan (p.step + 1) step := by
  unfold stepMet at h
  dsimp only at h
  split at h
  · next step hstep => exact ⟨step, hstep, (Next.send.inj h).symm⟩
  · cases h

/-- The line of a step, with what an unmet verdict adds to it. -/
def Sends (plan : RunPlan) (ev : Event) (text : String) : Prop :=
  ∃ index step, plan.steps[index]? = some step ∧
    (text = stepLine plan index step ∨ ∃ result, ev = .verdict result ∧
      text = stepLine plan index step ++ "\njudge: not met: " ++
        (result.map (·.evidence)).getD noStepResult)

theorem advance_sends {ev : Event} (h : (advance plan p ev).2 = .send text) :
    Sends plan ev text := by
  have met : (stepMet plan p).2 = .send text → Sends plan ev text := fun hmet => by
    obtain ⟨step, hstep, htext⟩ := stepMet_sends hmet
    exact ⟨_, step, hstep, .inl htext⟩
  unfold advance at h
  split at h
  · cases h
  · next step hstep =>
    dsimp only at h
    split at h
    · exact ⟨p.step, step, hstep, .inl (Next.send.inj h).symm⟩
    · split_ifs at h
      unfold waitOn at h
      split at h <;> cases h
    · split_ifs at h
      exact met h
    · split_ifs at h
      · exact met h
      · exact ⟨p.step, step, hstep, .inl (Next.send.inj h).symm⟩
    · split_ifs at h
      · exact met h
      · exact ⟨p.step, step, hstep, .inl (Next.send.inj h).symm⟩
    · next result _ _ =>
      by_cases hmet : result.any (·.met)
      · rw [if_pos hmet] at h
        exact met h
      · rw [if_neg hmet] at h
        by_cases hrounds : plan.judgeRounds ≤ p.judgeRounds + if p.probing then 0 else 1
        · rw [if_pos hrounds] at h
          cases h
        · rw [if_neg hrounds] at h
          exact ⟨p.step, step, hstep, .inr ⟨result, rfl, (Next.send.inj h).symm⟩⟩
    · cases h

theorem advance_start_sends (h : (advance plan p .start).2 = .send text) :
    ∃ step, plan.steps[p.step]? = some step ∧ text = stepLine plan p.step step := by
  unfold advance at h
  split at h
  · cases h
  · next step hstep => exact ⟨step, hstep, (Next.send.inj h).symm⟩

/-- The step waits for a worker. -/
def AtWorker (plan : RunPlan) (index : ℕ) : Prop :=
  ∃ step worker, plan.steps[index]? = some step ∧ step.criterion = .workerDone worker

/-- A step whose line a run can open with: a resumed run looks first at what its step waits for,
and only a step that waits for a worker, or the one after it, is sent at once. -/
def Opens (plan : RunPlan) (index : ℕ) : Prop :=
  index = 0 ∨ AtWorker plan index ∨ ∃ before, index = before + 1 ∧ AtWorker plan before

theorem probe_sends {seen : Seen} (h : (probe plan p seen).2 = .send text) :
    ∃ index step, plan.steps[index]? = some step ∧ Opens plan index ∧
      text = stepLine plan index step := by
  unfold probe at h
  split at h
  · cases h
  · next step hstep =>
    split at h
    · next worker hworker =>
      have hat : AtWorker plan p.step := ⟨step, worker, hstep, hworker⟩
      split_ifs at h
      · obtain ⟨next, hnext, htext⟩ := stepMet_sends h
        exact ⟨_, next, hnext, .inr (.inr ⟨p.step, rfl, hat⟩), htext⟩
      · obtain ⟨step, hstep, htext⟩ := advance_start_sends h
        exact ⟨p.step, step, hstep, .inr (.inl hat), htext⟩
    · unfold waitOn at h
      split at h <;> cases h

end Sends

theorem send_of_briefed {next : Next} {brief text : String}
    (h : (match next with | .send line => Next.send (brief ++ line) | started => started) =
      .send text) : ∃ line, next = .send line ∧ text = brief ++ line := by
  cases next with
  | send line => exact ⟨line, rfl, (Next.send.inj h).symm⟩
  | _ => cases h

theorem startRun_sends {env : Env} {file : RunFile} {seen : Seen} {t : Ticked} {text : String}
    (hstart : startRun env file seen = some t) (h : t.next = .send text) :
    ∃ index step, file.plan.steps[index]? = some step ∧ Opens file.plan index ∧
      text = brief env file.plan ++ stepLine file.plan index step := by
  unfold startRun at hstart
  split_ifs at hstart
  dsimp only at hstart
  cases hresume : resumeStep env file with
  | none =>
    rw [hresume] at hstart
    obtain rfl := Option.some.inj hstart
    obtain ⟨line, hline, rfl⟩ := send_of_briefed h
    obtain ⟨step, hstep, rfl⟩ := advance_start_sends hline
    exact ⟨0, step, hstep, .inl rfl, rfl⟩
  | some number =>
    rw [hresume] at hstart
    obtain rfl := Option.some.inj hstart
    obtain ⟨line, hline, rfl⟩ := send_of_briefed h
    obtain ⟨index, step, hstep, hopens, rfl⟩ := probe_sends hline
    exact ⟨index, step, hstep, hopens, rfl⟩

theorem capped_sends {plan : RunPlan} {p : Progress} {run : Run} {decided : Next} {text : String}
    (h : capped plan p run decided = .send text) : decided = .send text := by
  by_cases hwait : decided = .wait
  · have hsend := capped_wait_isSend plan p run
    rw [← hwait, h] at hsend
    cases hsend
  · unfold capped at h
    split at h
    · cases h
    · rwa [if_neg hwait] at h

theorem tick_sends {env : Env} {d : Driving} {e : Ended} {text : String}
    (h : (tick env d e).next = .send text) :
    ∃ file ev, e.file = some file ∧ ev ∈ events d.awaiting e ∧ Sends file.plan ev text := by
  cases hadmitted : admitted env e d.hash with
  | error reason =>
    rw [(tick_of_refused hadmitted).2] at h
    cases h
  | ok file =>
    rw [(tick_of_admitted hadmitted).2] at h
    have hfold : (fold file.plan d.progress (events d.awaiting e)).2 = .send text := by
      split_ifs at h
      · exact h
      · exact capped_sends h
    have hmoved : fold file.plan d.progress (events d.awaiting e) ≠ (d.progress, .wait) := by
      intro hwait
      rw [hwait] at hfold
      cases hfold
    obtain ⟨ev, hev, heq⟩ :=
      fold_decided file.plan d.progress _ (events_outside d.awaiting e) hmoved
    rw [heq] at hfold
    exact ⟨file, ev, admitted_file hadmitted, hev, advance_sends hfold⟩

/-- The verdict of a turn came from a `step_result` call. -/
def Ended.FromCall (e : Ended) : Prop :=
  ∀ result, e.stepResult = some result → ∃ args, parseStepResult args = .ok result

theorem oneLine_evidence {e : Ended} (h : e.FromCall) :
    OneLine ((e.stepResult.map (·.evidence)).getD noStepResult) := by
  cases hresult : e.stepResult with
  | none => exact (by decide : OneLine noStepResult)
  | some result =>
    obtain ⟨args, hargs⟩ := h result hresult
    intro hmem
    exact absurd (notControl_of_parseStepResult hargs '\n' hmem) (by decide)

theorem verdict_of_mem_events {a : Awaiting} {e : Ended} {result : Option StepResult}
    (h : .verdict result ∈ events a e) : result = e.stepResult := by
  cases a with
  | turn => simp [events] at h
  | verdict => simpa [events] using h
  | report source => rcases List.mem_append.1 h with hw | hr <;> simp at *

/-- The lines that the texts of a plan add to the ones ralph writes. -/
def planLines (plan : RunPlan) : List String :=
  moreLines plan.goal ++ plan.steps.flatMap fun step =>
    moreLines step.task ++ moreLines step.criterion.label

/-- No fence that stands in the texts of the plan after their first lines is a cell: not in a step
as it is sent, and not in the whole plan with the step that it is followed by. -/
structure QuietPlan (plan : RunPlan) : Prop where
  step : ∀ step ∈ plan.steps, Quiet (moreLines (lineText step))
  opening : ∀ index step, plan.steps[index]? = some step → Opens plan index →
    Quiet (planLines plan ++ moreLines (lineText step))

/-- A message that is sent as it is: `prepare` runs nothing for it. -/
structure SentPlain (text : String) : Prop where
  bang : bang text = .plain
  cells : parseCells text = []
  prepared : preparedCells text = []

theorem sentPlain_iff {text : String} (h : text.toList.head? ≠ some '!') :
    SentPlain text ↔ ∀ runtime ∈ runtimesOf (marks text), runtime = none := by
  rw [← parseCells_eq_nil_iff]
  have hbang := bang_eq_plain_of_head h
  constructor
  · exact fun hplain => hplain.cells
  · intro hcells
    refine ⟨hbang, hcells, ?_⟩
    unfold preparedCells expand
    rw [hbang]
    exact hcells

theorem filterMap_planLines (plan : RunPlan) : (planLines plan).filterMap backtickRun =
    moreMarks plan.goal ++ plan.steps.flatMap fun step =>
      moreMarks step.task ++ moreMarks step.criterion.label := by
  simp only [planLines, List.filterMap_append, List.filterMap_flatMap, moreMarks]

/-- The line of a step is plain exactly when its text is quiet after its first line. -/
theorem stepLine_plain_iff (plan : RunPlan) (index : ℕ) (step : Step) :
    SentPlain (stepLine plan index step) ↔ Quiet (moreLines (lineText step)) := by
  have hhead : (stepLine plan index step).toList.head? ≠ some '!' := by
    simp [stepLine_eq]
  rw [sentPlain_iff hhead, marks_stepLine, quiet_iff, moreMarks]

theorem unmet_plain_iff (plan : RunPlan) (index : ℕ) (step : Step) {evidence : String}
    (h : OneLine evidence) :
    SentPlain (stepLine plan index step ++ "\njudge: not met: " ++ evidence) ↔
      Quiet (moreLines (lineText step)) := by
  have hhead : (stepLine plan index step ++ "\njudge: not met: " ++ evidence).toList.head? ≠
      some '!' := by
    simp [stepLine_eq]
  rw [sentPlain_iff hhead, marks_unmet plan index step h, quiet_iff, moreMarks]

theorem opening_plain_iff {env : Env} (henv : env.FormatsAmounts) (plan : RunPlan) (index : ℕ)
    (step : Step) : SentPlain (brief env plan ++ stepLine plan index step) ↔
      Quiet (planLines plan ++ moreLines (lineText step)) := by
  have hhead : (brief env plan ++ stepLine plan index step).toList.head? ≠ some '!' := by
    simp [brief]
  rw [sentPlain_iff hhead, marks_brief henv, marks_stepLine, quiet_iff, List.filterMap_append,
    filterMap_planLines, ← moreMarks]

theorem mem_answers {env : Env} {d : Driving} {es : List Ended} {u : Ticked}
    (h : u ∈ answers env d es) : ∃ d', ∃ e ∈ es, u = tick env d' e := by
  induction es generalizing d with
  | nil => cases h
  | cons e es ih =>
    rw [answers_cons, List.mem_cons] at h
    rcases h with rfl | h
    · exact ⟨d, e, List.mem_cons_self .., rfl⟩
    · obtain ⟨d', e', he', hu⟩ := ih h
      exact ⟨d', e', List.mem_cons_of_mem e he', hu⟩

/-- A run under quiet plans never runs a cell for a text that it sends. -/
theorem send_it_lines_plain (env : Env) (henv : env.FormatsAmounts) (file : RunFile) (seen : Seen)
    (t : Ticked) (es : List Ended) (hstart : startRun env file seen = some t)
    (hquiet : QuietPlan file.plan)
    (hplans : ∀ e ∈ es, ∀ now, e.file = some now → QuietPlan now.plan)
    (hcalls : ∀ e ∈ es, e.FromCall) :
    ∀ u ∈ t :: answers env t.driving es, ∀ text, u.next = .send text → SentPlain text := by
  intro u hu text hsend
  rcases List.mem_cons.1 hu with rfl | hu
  · obtain ⟨index, step, hstep, hopens, rfl⟩ := startRun_sends hstart hsend
    exact (opening_plain_iff henv file.plan index step).2 (hquiet.opening index step hstep hopens)
  · obtain ⟨d, e, he, rfl⟩ := mem_answers hu
    obtain ⟨now, ev, hfile, hev, index, step, hstep, htext⟩ := tick_sends hsend
    have hline := (hplans e he now hfile).step step (List.mem_of_getElem? hstep)
    rcases htext with rfl | ⟨result, rfl, rfl⟩
    · exact (stepLine_plain_iff now.plan index step).2 hline
    · rw [verdict_of_mem_events hev]
      exact (unmet_plain_iff now.plan index step (oneLine_evidence (hcalls e he))).2 hline

/-- A plan whose texts go over several lines, with a fence that is no cell. -/
def fencedPlan : RunPlan where
  goal := "ship\nand tell"
  steps := [⟨"fix it\n```rust\nfn main() \x7b\x7d\n```\nthen test", .judge "green?"⟩]
  allowed := []
  grants := []
  limits := ⟨3, 1⟩
  judgeRounds := 2

def fencedEnv : Env where
  canonical _ := "\x7b\"goal\":\"ship\\nand tell\",\"steps\":[\x7b\"do\":\"fix it\\n```rust\\nfn main() \x7b\x7d\\n```\\nthen test\",\"criterion\":\x7b\"kind\":\"judge\",\"question\":\"green?\"\x7d\x7d],\"allowed\":[],\"grants\":[],\"caps\":\x7b\"turns\":3,\"usd\":1.0,\"judge_rounds\":2\x7d\x7d"
  sha256 _ := [106, 88, 134, 36, 185, 146, 157, 21, 248, 30, 79, 236, 108, 10, 117, 233, 184, 68,
    194, 203, 64, 208, 208, 181, 84, 169, 59, 42, 210, 70, 209, 194]
  twoDecimals _ := "1.00"

def fencedFile : RunFile := ⟨fencedPlan, some "6a588624b992", none⟩

/-- The verdict of the first turn of its step is no, the later ones say nothing. -/
def fencedEnded (stepResult : Option StepResult) : Ended :=
  { demoEnded with file := some fencedFile, stepResult }

theorem quiet_fencedPlan : QuietPlan fencedPlan := by
  refine ⟨fun step hstep => ?_, fun index step hstep _ => ?_⟩
  · obtain rfl := List.mem_singleton.1 hstep
    rw [quiet_iff, ← moreMarks, moreMarks_eq]
    decide +kernel
  · obtain rfl := List.mem_singleton.1 (List.mem_of_getElem? hstep)
    rw [quiet_iff, List.filterMap_append, filterMap_planLines, ← moreMarks]
    simp only [moreMarks_eq]
    decide +kernel

theorem fenced_starts : (startRun fencedEnv fencedFile demoSeen).isSome := by
  decide +kernel

/-- The brief and the line of the refused step are sent, each with the fence in it. -/
theorem demo_lines_plain :
    let t := (startRun fencedEnv fencedFile demoSeen).get fenced_starts
    let sent := t :: answers fencedEnv t.driving [fencedEnded none, fencedEnded (some ⟨false, "red"⟩)]
    (sent.filter fun u => u.next.isSend).length = 2 ∧
      ∀ u ∈ sent, ∀ text, u.next = .send text → SentPlain text := by
  have hcount : (((startRun fencedEnv fencedFile demoSeen).get fenced_starts :: answers fencedEnv
      ((startRun fencedEnv fencedFile demoSeen).get fenced_starts).driving
      [fencedEnded none, fencedEnded (some ⟨false, "red"⟩)]).filter
        fun u => u.next.isSend).length = 2 := by decide +kernel
  have hcall : parseStepResult (.object [("met", .bool false), ("evidence", .string "red")]) =
      .ok ⟨false, "red"⟩ := by decide +kernel
  refine ⟨hcount, send_it_lines_plain fencedEnv (fun _ => (by decide : OneLine "1.00")) fencedFile
    demoSeen _ _ (Option.some_get fenced_starts).symm quiet_fencedPlan ?_ ?_⟩
  · simp [fencedEnded, fencedFile, quiet_fencedPlan]
  · simp only [List.forall_mem_cons, Ended.FromCall, fencedEnded]
    exact ⟨nofun, fun result hresult => ⟨_, Option.some.inj hresult ▸ hcall⟩, List.forall_mem_nil _⟩

/-- A plan whose only step holds a cell. -/
def cellRaw : RawPlan where
  goal := "ship"
  steps := [⟨"fix it\n```!sh\nrm -rf build\n```\nthen test", some (.checkPasses "cargo test")⟩]
  caps := { turns := some 3, usd := some 1 }

def cellPlan : RunPlan where
  goal := "ship"
  steps := [⟨"fix it\n```!sh\nrm -rf build\n```\nthen test", .checkPasses "cargo test"⟩]
  allowed := []
  grants := []
  limits := ⟨3, 1⟩
  judgeRounds := 2

def cellEnv : Env where
  canonical _ := "\x7b\"goal\":\"ship\",\"steps\":[\x7b\"do\":\"fix it\\n```!sh\\nrm -rf build\\n```\\nthen test\",\"criterion\":\x7b\"kind\":\"check_passes\",\"command\":\"cargo test\"\x7d\x7d],\"allowed\":[],\"grants\":[],\"caps\":\x7b\"turns\":3,\"usd\":1.0,\"judge_rounds\":2\x7d\x7d"
  sha256 _ := [92, 104, 224, 237, 174, 175, 237, 212, 51, 77, 182, 98, 31, 73, 210, 75, 41, 26, 134, 8, 52, 255, 228, 3, 26, 100, 131, 169, 197, 230, 208, 203]
  twoDecimals _ := "1.00"

def cellFile : RunFile := ⟨cellPlan, some "5c68e0edaeaf", none⟩

theorem task_runs_cell : ¬ ∀ (env : Env) (raw : RawPlan) (defaults : Limits) (file : RunFile)
    (seen : Seen) (t : Ticked) (text : String), env.FormatsAmounts →
    parseRun (.ok raw) defaults = .ok file.plan → startRun env file seen = some t →
    t.next = .send text → SentPlain text := by
  intro hall
  have hparse : parseRun (.ok cellRaw) cellPlan.limits = .ok cellFile.plan := by decide +kernel
  have hone : cellEnv.FormatsAmounts := fun _ => (by decide : OneLine "1.00")
  have hstart : ∃ t, startRun cellEnv cellFile demoSeen = some t ∧
      t.next = .send (brief cellEnv cellPlan ++ stepLine cellPlan 0 cellPlan.steps[0]) := by
    have happroved : cellFile.isApproved cellEnv = true := by decide +kernel
    have hresume : resumeStep cellEnv cellFile = none := rfl
    unfold startRun
    rw [happroved, hresume]
    exact ⟨_, rfl, rfl⟩
  obtain ⟨t, ht, hsend⟩ := hstart
  have hplain := hall cellEnv cellRaw cellPlan.limits cellFile demoSeen t _ hone hparse ht hsend
  have hcells := hplain.cells
  rw [parseCells_eq_nil_iff, marks_brief hone, marks_stepLine] at hcells
  simp only [moreMarks_eq] at hcells
  revert hcells
  decide +kernel

end Ralph.SendIt
