import Mathlib.Tactic
import Ralph.Machine
import Ralph.SendIt.Drive

namespace Ralph.SendIt
open Worker

/-- The answers that end a run. -/
def Next.isFinal : Next → Bool
  | .stop _ | .done => true
  | _ => false

/-- The answers that make the chat do something more for the run. -/
def Next.acts : Next → Bool
  | .send _ | .judge | .hold _ | .watch _ | .check _ => true
  | _ => false

def StepResult.unmet (result : Option StepResult) : Bool := !result.any (·.met)

def Progress.nextRound (p : Progress) : ℕ := p.judgeRounds + if p.probing then 0 else 1

/-- What an event that comes from outside can do to a run. -/
inductive Outcome (plan : RunPlan) (p : Progress) : Event → Progress → Next → Prop
  | wait (ev : Event) : Outcome plan p ev p .wait
  | final (ev : Event) {next : Next} (h : next.isFinal) : Outcome plan p ev p next
  | met {ev : Event} (text : String) (hev : ∀ r, ev = .verdict r → StepResult.unmet r = false)
      (h : p.step + 1 < plan.steps.length) : Outcome plan p ev { step := p.step + 1 } (.send text)
  | probed (outcome : WatchOutcome) (text : String) (hstep : p.step < plan.steps.length)
      (h : p.probing) : Outcome plan p (.watched outcome) { p with probing := false } (.send text)
  | unmet (r : Option StepResult) (text : String) (hstep : p.step < plan.steps.length)
      (h : p.nextRound < plan.judgeRounds) :
      Outcome plan p (.verdict r) { step := p.step, judgeRounds := p.nextRound, probing := false }
        (.send text)

def Event.Outside : Event → Prop
  | .start | .turnEnded _ => False
  | _ => True

theorem stepMet_outcome (plan : RunPlan) (p : Progress) (ev : Event)
    (hev : ∀ r, ev = .verdict r → StepResult.unmet r = false) :
    Outcome plan p ev (stepMet plan p).1 (stepMet plan p).2 := by
  unfold stepMet
  dsimp only
  split
  · next step hstep =>
    exact .met _ hev (List.getElem?_eq_some_iff.1 hstep).1
  · exact .final _ rfl

theorem advance_outcome (plan : RunPlan) (p : Progress) (ev : Event) (hev : ev.Outside) :
    Outcome plan p ev (advance plan p ev).1 (advance plan p ev).2 := by
  unfold advance
  split
  · exact .final _ rfl
  · next step hstep =>
    have hlt := (List.getElem?_eq_some_iff.1 hstep).1
    dsimp only
    split
    · exact hev.elim
    · exact hev.elim
    · split_ifs
      · exact stepMet_outcome plan p _ (by simp)
      · exact .final _ rfl
      · exact .wait _
    · split_ifs with _ hprobing
      · exact stepMet_outcome plan p _ (by simp)
      · exact .probed _ _ hlt hprobing
      · exact .final _ rfl
    · split_ifs with _ hprobing
      · exact stepMet_outcome plan p _ (by simp)
      · exact .probed _ _ hlt hprobing
      · exact .final _ rfl
    · next r question _ =>
      by_cases hmet : r.any (·.met)
      · rw [if_pos hmet]
        refine stepMet_outcome plan p _ fun r' hr' => ?_
        cases hr'
        simp [StepResult.unmet, hmet]
      · rw [if_neg hmet]
        by_cases hrounds : plan.judgeRounds ≤ p.judgeRounds + if p.probing then 0 else 1
        · rw [if_pos hrounds]
          exact .final _ rfl
        · rw [if_neg hrounds]
          exact .unmet r _ hlt (Nat.lt_of_not_le hrounds)
    · exact .wait _

theorem fold_outcome (plan : RunPlan) (p : Progress) (evs : List Event)
    (h : ∀ ev ∈ evs, ev.Outside) :
    fold plan p evs = (p, .wait) ∨
      ∃ ev ∈ evs, Outcome plan p ev (fold plan p evs).1 (fold plan p evs).2 := by
  induction evs with
  | nil => exact .inl rfl
  | cons ev evs ih =>
    have hfirst := advance_outcome plan p ev (h ev (List.mem_cons_self ..))
    unfold fold
    split
    · next p' heq =>
      rw [heq] at hfirst
      have hp : p' = p := by
        cases hfirst with
        | wait => rfl
        | final _ hf => simp [Next.isFinal] at hf
      rw [hp]
      rcases ih fun ev' hev' => h ev' (List.mem_cons_of_mem ev hev') with hwait | ⟨ev', hev', ho⟩
      · exact .inl hwait
      · exact .inr ⟨ev', List.mem_cons_of_mem ev hev', ho⟩
    · exact .inr ⟨ev, List.mem_cons_self .., hfirst⟩

theorem events_outside (a : Awaiting) (e : Ended) : ∀ ev ∈ events a e, ev.Outside := by
  intro ev hev
  cases a with
  | turn => simp [events] at hev
  | verdict =>
    obtain rfl : ev = .verdict e.stepResult := by simpa [events] using hev
    trivial
  | report source =>
    rcases List.mem_append.1 hev with hw | hr
    · obtain ⟨o, -, rfl⟩ := by simpa using hw
      trivial
    · obtain ⟨r, -, rfl⟩ := List.mem_map.1 hr
      trivial

/-- An outcome that decides and does not end the run sends a step that exists. -/
theorem Outcome.sends {plan : RunPlan} {p p' : Progress} {ev : Event} {next : Next}
    (h : Outcome plan p ev p' next) (hfinal : next.isFinal = false) (hwait : next ≠ .wait) :
    p'.step < plan.steps.length ∧ ∃ text, next = .send text := by
  cases h with
  | wait => exact absurd rfl hwait
  | final _ h => simp [h] at hfinal
  | met text _ h => exact ⟨h, text, rfl⟩
  | probed _ text hstep _ => exact ⟨hstep, text, rfl⟩
  | unmet _ text hstep _ => exact ⟨hstep, text, rfl⟩

theorem Outcome.step_le {plan : RunPlan} {p p' : Progress} {ev : Event} {next : Next}
    (h : Outcome plan p ev p' next) : p.step ≤ p'.step ∧ p'.step ≤ p.step + 1 := by
  cases h <;> simp

def counted (d : Driving) (e : Ended) : Run :=
  { turns := d.run.turns + 1, spentUsd := d.run.spentUsd + e.costUsd }

def Awaiting.isReport : Awaiting → Bool
  | .report _ => true
  | _ => false

/-- The run after a tick: the turn that settles a report is free. -/
def charged (d : Driving) (e : Ended) (decided : Next) : Run :=
  if d.awaiting.isReport && decided ≠ .wait then { counted d e with turns := d.run.turns }
  else counted d e

/-- What is answered when nothing final was decided: the caps come first. -/
def capped (plan : RunPlan) (p : Progress) (run : Run) (decided : Next) : Next :=
  match (advance plan p (.turnEnded run)).2 with
  | .stop reason => .stop reason
  | waiting => if decided = .wait then waiting else decided

theorem admitted_file {env : Env} {e : Ended} {hash : String} {file : RunFile}
    (h : admitted env e hash = .ok file) : e.file = some file := by
  unfold admitted at h
  split at h
  · cases h
  · next file' hfile =>
    -- every branch but the last one refuses
    (repeat' split at h) <;> first
      | exact hfile.trans (congrArg some (Except.ok.inj h))
      | cases h

theorem tick_cases (env : Env) (d : Driving) {e : Ended} {file : RunFile}
    (hfile : e.file = some file) :
    (∃ reason, (tick env d e).next = .stop reason ∧ (tick env d e).driving.progress = d.progress) ∨
      ∃ p decided, fold file.plan d.progress (events d.awaiting e) = (p, decided) ∧
        (tick env d e).driving.progress = p ∧
        (tick env d e).driving.run = charged d e decided ∧
        (tick env d e).next =
          if decided.isFinal then decided else capped file.plan p (charged d e decided) decided := by
  unfold tick
  dsimp only
  cases hadm : admitted env e d.hash with
  | error reason => exact .inl ⟨reason, rfl, rfl⟩
  | ok file' =>
    obtain rfl : file' = file :=
      Option.some.inj ((admitted_file hadm).symm.trans hfile)
    dsimp only
    rcases fold file'.plan d.progress (events d.awaiting e) with ⟨p, decided⟩
    refine .inr ⟨p, decided, rfl, ?_⟩
    cases decided <;> exact ⟨rfl, rfl, rfl⟩

theorem fold_events (plan : RunPlan) (d : Driving) (e : Ended) :
    fold plan d.progress (events d.awaiting e) = (d.progress, .wait) ∨
      ∃ ev ∈ events d.awaiting e, Outcome plan d.progress ev
        (fold plan d.progress (events d.awaiting e)).1
        (fold plan d.progress (events d.awaiting e)).2 :=
  fold_outcome plan d.progress _ (events_outside d.awaiting e)

/-- The steps go up one by one. -/
theorem tick_step (env : Env) (d : Driving) {e : Ended} {file : RunFile}
    (hfile : e.file = some file) :
    d.progress.step ≤ (tick env d e).driving.progress.step ∧
      (tick env d e).driving.progress.step ≤ d.progress.step + 1 := by
  rcases tick_cases env d hfile with ⟨reason, -, hp⟩ | ⟨p, decided, hfold, hp, -, -⟩
  · simp [hp]
  · rw [hp]
    rcases fold_events file.plan d e with hwait | ⟨ev, -, ho⟩
    · obtain rfl := (Prod.mk.inj (hfold.symm.trans hwait)).1
      simp
    · rw [hfold] at ho
      exact ho.step_le

/-- A run within the caps of its plan. -/
def WithinCaps (plan : RunPlan) (run : Run) : Prop :=
  run.turns < (grantedLimits plan).maxTurns ∧ run.spentUsd < (grantedLimits plan).maxUsd

theorem capped_within {plan : RunPlan} {p : Progress} {run : Run} {decided : Next}
    (h : (capped plan p run decided).isFinal = false)
    (hstep : decided = .wait ∨ p.step < plan.steps.length) : WithinCaps plan run := by
  unfold capped advance at h
  cases hs : plan.steps[p.step]? with
  | none =>
    rw [hs] at h
    rcases hstep with rfl | hlt
    · simp [Next.isFinal] at h
    · exact absurd (List.getElem?_eq_none_iff.1 hs) (Nat.not_le.2 hlt)
  | some step =>
    rw [hs] at h
    dsimp only at h
    by_cases hturns : (grantedLimits plan).maxTurns ≤ run.turns
    · simp [hturns, Next.isFinal] at h
    · by_cases husd : (grantedLimits plan).maxUsd ≤ run.spentUsd
      · simp [hturns, husd, Next.isFinal] at h
      · exact ⟨Nat.lt_of_not_le hturns, lt_of_not_ge husd⟩

/-- A tick that does not end the run leaves it within its caps. -/
theorem tick_within (env : Env) (d : Driving) {e : Ended} {file : RunFile}
    (hfile : e.file = some file) (h : (tick env d e).next.isFinal = false) :
    WithinCaps file.plan (tick env d e).driving.run := by
  rcases tick_cases env d hfile with ⟨reason, hnext, -⟩ | ⟨p, decided, hfold, -, hrun, hnext⟩
  · simp [hnext, Next.isFinal] at h
  · rw [hrun]
    rw [hnext] at h
    split_ifs at h with hfinal
    · simp [hfinal] at h
    · refine capped_within h ?_
      rcases fold_events file.plan d e with hwait | ⟨ev, -, ho⟩
      · exact .inl (Prod.mk.inj (hfold.symm.trans hwait)).2
      · rw [hfold] at ho
        by_cases hw : decided = .wait
        · exact .inl hw
        · exact .inr (ho.sends (by simpa using hfinal) hw).1

/-- The turns, the steps and the probe that are left. -/
def left (plan : RunPlan) (d : Driving) : ℕ :=
  ((grantedLimits plan).maxTurns - d.run.turns) + (plan.steps.length - d.progress.step) +
    d.progress.probing.toNat

/-- Progress never takes a step or a probe back, and the event of a settled report uses one up. -/
theorem Outcome.left_le {plan : RunPlan} {p p' : Progress} {ev : Event} {next : Next}
    (h : Outcome plan p ev p' next) :
    plan.steps.length - p'.step + p'.probing.toNat ≤
      plan.steps.length - p.step + p.probing.toNat := by
  cases h with
  | wait => exact le_rfl
  | final => exact le_rfl
  | met _ _ h => simp; omega
  | probed => simp
  | unmet => simp

theorem Outcome.left_lt {plan : RunPlan} {p p' : Progress} {ev : Event} {next : Next}
    (h : Outcome plan p ev p' next) (hfinal : next.isFinal = false) (hwait : next ≠ .wait)
    (hev : ∀ r, ev ≠ .verdict r) :
    plan.steps.length - p'.step + p'.probing.toNat <
      plan.steps.length - p.step + p.probing.toNat := by
  cases h with
  | wait => exact absurd rfl hwait
  | final _ h => simp [h] at hfinal
  | met _ _ h => simp; omega
  | probed _ _ _ hprobing => simp [hprobing]
  | unmet r => exact absurd rfl (hev r)

theorem tick_left (env : Env) (d : Driving) {e : Ended} {file : RunFile}
    (hfile : e.file = some file) (h : (tick env d e).next.isFinal = false) :
    left file.plan (tick env d e).driving < left file.plan d := by
  have hwithin := (tick_within env d hfile h).1
  rcases tick_cases env d hfile with ⟨reason, hnext, -⟩ | ⟨p, decided, hfold, hp, hrun, hnext⟩
  · simp [hnext, Next.isFinal] at h
  rw [hnext] at h
  have hfinal : decided.isFinal = false := by
    by_contra hf
    rw [if_pos (by simpa using hf)] at h
    exact hf h
  unfold left
  rw [hrun] at hwithin ⊢
  rw [hp]
  rcases fold_events file.plan d e with hwait | ⟨ev, hev, ho⟩
  · -- nothing was decided: the turn counts
    obtain ⟨rfl, rfl⟩ := Prod.mk.inj (hfold.symm.trans hwait)
    have hturns : (charged d e .wait).turns = d.run.turns + 1 := by simp [charged, counted]
    omega
  · rw [hfold] at ho
    by_cases hw : decided = .wait
    · have hle := ho.left_le
      have hturns : (charged d e decided).turns = d.run.turns + 1 := by simp [charged, counted, hw]
      dsimp only at hle
      omega
    · cases ha : d.awaiting with
      | report source =>
        -- a settled report is free, but it uses up a step or the probe
        have hturns : (charged d e decided).turns = d.run.turns := by
          simp [charged, ha, Awaiting.isReport, hw]
        have hlt := ho.left_lt hfinal hw fun r hr => by
          rw [ha, hr] at hev
          rcases List.mem_append.1 hev with hmem | hmem <;> simp at hmem
        dsimp only at hlt
        omega
      | _ =>
        have hturns : (charged d e decided).turns = d.run.turns + 1 := by
          simp [charged, counted, ha, Awaiting.isReport]
        have hle := ho.left_le
        dsimp only at hle
        omega

def tickStep (env : Env) (d : Driving) (e : Ended) : Driving × List Ticked :=
  ((tick env d e).driving, [tick env d e])

/-- The answers of the ticks of a run. -/
abbrev answers (env : Env) (d : Driving) (es : List Ended) : List Ticked :=
  Machine.outputs (tickStep env) d es

@[simp] theorem answers_cons (env : Env) (d : Driving) (e : Ended) (es : List Ended) :
    answers env d (e :: es) = tick env d e :: answers env (tick env d e).driving es := rfl

theorem answers_take (env : Env) (d : Driving) (es : List Ended) (n : ℕ) :
    (answers env d es).take n = answers env d (es.take n) := by
  induction es generalizing d n with
  | nil => simp
  | cons e es ih =>
    cases n with
    | zero => rfl
    | succ n => rw [List.take_succ_cons, answers_cons, answers_cons, List.take_succ_cons, ih]

section Runs

variable {env : Env} {file : RunFile} {es : List Ended}

theorem length_lt_left (hfile : ∀ e ∈ es, e.file = some file) (hes : es ≠ []) (d : Driving)
    (h : ∀ t ∈ answers env d es, t.next.isFinal = false) : es.length < left file.plan d := by
  induction es generalizing d with
  | nil => exact absurd rfl hes
  | cons e es ih =>
    have he := hfile e (List.mem_cons_self ..)
    have hfirst := h _ (List.mem_cons_self ..)
    have hlt := tick_left env d he hfirst
    cases es with
    | nil =>
      have hwithin := (tick_within env d he hfirst).1
      have hpos : 0 < left file.plan (tick env d e).driving := by
        unfold left
        omega
      simp only [List.length_singleton]
      omega
    | cons e' es =>
      have hrest := ih (fun x hx => hfile x (List.mem_cons_of_mem e hx)) (by simp)
        (tick env d e).driving fun t ht => h t (List.mem_cons_of_mem _ ht)
      simp only [List.length_cons] at hrest ⊢
      omega

theorem answers_within (hfile : ∀ e ∈ es, e.file = some file) (d : Driving) :
    ∀ t ∈ answers env d es, t.next.isFinal = false → WithinCaps file.plan t.driving.run := by
  induction es generalizing d with
  | nil => simp
  | cons e es ih =>
    intro t ht hfinal
    rcases List.mem_cons.1 ht with rfl | ht
    · exact tick_within env d (hfile e (List.mem_cons_self ..)) hfinal
    · exact ih (fun x hx => hfile x (List.mem_cons_of_mem e hx)) _ t ht hfinal

theorem steps_chain (hfile : ∀ e ∈ es, e.file = some file) (d : Driving) :
    (d.progress.step :: (answers env d es).map (·.driving.progress.step)).IsChain
      fun p q => p ≤ q ∧ q ≤ p + 1 := by
  induction es generalizing d with
  | nil => exact .singleton _
  | cons e es ih =>
    rw [answers_cons, List.map_cons, List.isChain_cons_cons]
    exact ⟨tick_step env d (hfile e (List.mem_cons_self ..)),
      ih (fun x hx => hfile x (List.mem_cons_of_mem e hx)) _⟩

end Runs

def Next.isSend : Next → Bool
  | .send _ => true
  | _ => false

/-- An unmet verdict on step `i` that is followed by another send. -/
def resent (env : Env) (i : ℕ) (d : Driving) (e : Ended) : Bool :=
  d.awaiting == .verdict && d.progress.step == i && StepResult.unmet e.stepResult &&
    (tick env d e).next.isSend

def resends (env : Env) (i : ℕ) : Driving → List Ended → ℕ
  | _, [] => 0
  | d, e :: es => (resent env i d e).toNat + resends env i (tick env d e).driving es

theorem capped_wait_isSend (plan : RunPlan) (p : Progress) (run : Run) :
    (capped plan p run .wait).isSend = false := by
  unfold capped advance
  cases plan.steps[p.step]? with
  | none => rfl
  | some step =>
    dsimp only
    by_cases hturns : (grantedLimits plan).maxTurns ≤ run.turns
    · rw [if_pos hturns]
      rfl
    · rw [if_neg hturns]
      by_cases husd : (grantedLimits plan).maxUsd ≤ run.spentUsd
      · rw [if_pos husd]
        rfl
      · rw [if_neg husd]
        cases step.criterion <;> rfl

theorem tick_resent {env : Env} {i : ℕ} {d : Driving} {e : Ended} {file : RunFile}
    (hfile : e.file = some file) (h : resent env i d e) :
    d.progress.step = i ∧ d.progress.nextRound < file.plan.judgeRounds ∧
      (tick env d e).driving.progress =
        { step := i, judgeRounds := d.progress.nextRound, probing := false } := by
  simp only [resent, Bool.and_eq_true, beq_iff_eq] at h
  obtain ⟨⟨⟨hawait, rfl⟩, hunmet⟩, hsend⟩ := h
  refine ⟨rfl, ?_⟩
  rcases tick_cases env d hfile with ⟨reason, hnext, -⟩ | ⟨p, decided, hfold, hp, -, hnext⟩
  · simp [hnext, Next.isSend] at hsend
  rw [hnext] at hsend
  have hnotwait : decided ≠ .wait := by
    rintro rfl
    rw [if_neg (by simp [Next.isFinal]), capped_wait_isSend] at hsend
    cases hsend
  have hnotfinal : decided.isFinal = false := by
    by_contra hf
    rw [if_pos (by simpa using hf)] at hsend
    cases decided <;> simp_all [Next.isFinal, Next.isSend]
  rw [hp]
  rcases fold_events file.plan d e with hwait | ⟨ev, hev, ho⟩
  · exact absurd (Prod.mk.inj (hfold.symm.trans hwait)).2 hnotwait
  · rw [hfold] at ho
    obtain rfl : ev = .verdict e.stepResult := by simpa [hawait, events] using hev
    cases ho with
    | wait => exact absurd rfl hnotwait
    | final _ hf => exact absurd hf (by simp [hnotfinal])
    | met _ hmet _ => exact absurd hunmet (by simp [hmet _ rfl])
    | unmet _ _ _ hrounds => exact ⟨hrounds, rfl⟩

theorem Outcome.progress_cases {plan : RunPlan} {p p' : Progress} {ev : Event} {next : Next}
    (h : Outcome plan p ev p' next) :
    p'.step = p.step + 1 ∧ p'.probing = false ∨
      p'.step = p.step ∧ p.judgeRounds ≤ p'.judgeRounds ∧ p'.probing.toNat ≤ p.probing.toNat := by
  cases h with
  | wait => exact .inr ⟨rfl, le_rfl, le_rfl⟩
  | final => exact .inr ⟨rfl, le_rfl, le_rfl⟩
  | met => exact .inl ⟨rfl, rfl⟩
  | probed => exact .inr ⟨rfl, le_rfl, Nat.zero_le _⟩
  | unmet => exact .inr ⟨rfl, Nat.le_add_right _ _, Nat.zero_le _⟩

theorem tick_progress (env : Env) (d : Driving) {e : Ended} {file : RunFile}
    (hfile : e.file = some file) :
    (tick env d e).driving.progress.step = d.progress.step + 1 ∧
        (tick env d e).driving.progress.probing = false ∨
      (tick env d e).driving.progress.step = d.progress.step ∧
        d.progress.judgeRounds ≤ (tick env d e).driving.progress.judgeRounds ∧
        (tick env d e).driving.progress.probing.toNat ≤ d.progress.probing.toNat := by
  rcases tick_cases env d hfile with ⟨reason, -, hp⟩ | ⟨p, decided, hfold, hp, -, -⟩
  · rw [hp]
    exact .inr ⟨rfl, le_rfl, le_rfl⟩
  · rw [hp]
    rcases fold_events file.plan d e with hwait | ⟨ev, -, ho⟩
    · obtain rfl := (Prod.mk.inj (hfold.symm.trans hwait)).1
      exact .inr ⟨rfl, le_rfl, le_rfl⟩
    · rw [hfold] at ho
      exact ho.progress_cases

/-- The resends of step `i` that are still possible. -/
def resendsLeft (plan : RunPlan) (i : ℕ) (p : Progress) : ℕ :=
  if i < p.step then 0
  else if i = p.step then plan.judgeRounds - p.judgeRounds + p.probing.toNat
  else plan.judgeRounds

theorem resends_le {env : Env} {file : RunFile} {es : List Ended}
    (hfile : ∀ e ∈ es, e.file = some file) (i : ℕ) (d : Driving) :
    resends env i d es ≤ resendsLeft file.plan i d.progress := by
  induction es generalizing d with
  | nil => exact Nat.zero_le _
  | cons e es ih =>
    have he := hfile e (List.mem_cons_self ..)
    have hrest := ih (fun x hx => hfile x (List.mem_cons_of_mem e hx)) (tick env d e).driving
    rw [resends]
    refine (Nat.add_le_add_left hrest _).trans ?_
    cases hr : resent env i d e with
    | true =>
      obtain ⟨hstep, hrounds, hp⟩ := tick_resent he hr
      rw [hp]
      unfold Progress.nextRound at hrounds ⊢
      cases hprobing : d.progress.probing <;> simp [resendsLeft, hstep, hprobing] at hrounds ⊢
      all_goals omega
    | false =>
      have hprogress := tick_progress env d he
      rw [Bool.toNat_false, Nat.zero_add]
      unfold resendsLeft
      rcases hprogress with ⟨hstep, hprobing⟩ | ⟨hstep, hrounds, hprobing⟩
      · rw [hstep, hprobing]
        split_ifs <;> simp <;> omega
      · rw [hstep]
        split_ifs <;> omega

theorem start_of_some {env : Env} {file : RunFile} {seen : Seen} {t : Ticked}
    (h : startRun env file seen = some t) :
    t.driving.run.turns = 0 ∧
      t.driving.progress =
        (match resumeStep env file with
          | some step => probe file.plan { step := step - 1 } seen
          | none => advance file.plan { step := 0 } .start).1 := by
  unfold startRun at h
  split_ifs at h
  cases hr : resumeStep env file with
  | none =>
    rw [hr] at h
    obtain rfl := Option.some.inj h
    exact ⟨rfl, rfl⟩
  | some step =>
    rw [hr] at h
    obtain rfl := Option.some.inj h
    exact ⟨rfl, rfl⟩

theorem advance_start (plan : RunPlan) (p : Progress) : (advance plan p .start).1 = p := by
  unfold advance
  cases plan.steps[p.step]? <;> rfl

theorem stepMet_probing (plan : RunPlan) {p : Progress} (h : p.probing = false) :
    (stepMet plan p).1.probing = false := by
  unfold stepMet
  dsimp only
  split
  · rfl
  · exact h

theorem probe_probing {plan : RunPlan} {p : Progress} {seen : Seen} (hp : p.probing = false)
    (h : (probe plan p seen).1.probing) : (probe plan p seen).1.step = p.step := by
  unfold probe at h ⊢
  cases hs : plan.steps[p.step]? with
  | none => rfl
  | some step =>
    rw [hs] at h
    dsimp only at h ⊢
    generalize step.criterion = criterion at h ⊢
    cases criterion with
    | workerDone worker =>
      dsimp only at h ⊢
      by_cases hdone : seen.last worker = some "done"
      · rw [if_pos hdone, stepMet_probing plan hp] at h
        cases h
      · rw [if_neg hdone]
        split_ifs
        · rfl
        · rw [advance_start]
    | _ => rfl

theorem resumeStep_pos {env : Env} {file : RunFile} {step : ℕ}
    (h : resumeStep env file = some step) : 1 ≤ step := by
  unfold resumeStep at h
  split at h
  · cases h
  · split_ifs at h with hvalid
    obtain rfl := Option.some.inj h
    exact hvalid.2.1

/-- Only a resumed run probes, and only the step that it resumes at. -/
theorem resumeStep_of_probing {env : Env} {file : RunFile} {seen : Seen} {t : Ticked}
    (h : startRun env file seen = some t) (hprobing : t.driving.progress.probing) :
    resumeStep env file = some (t.driving.progress.step + 1) := by
  obtain ⟨-, hp⟩ := start_of_some h
  rw [hp] at hprobing ⊢
  cases hr : resumeStep env file with
  | none =>
    rw [hr] at hprobing
    rw [advance_start] at hprobing
    cases hprobing
  | some step =>
    rw [hr] at hprobing
    have hpos := resumeStep_pos hr
    have hstep := probe_probing rfl hprobing
    dsimp only at hstep ⊢
    rw [hstep]
    congr 1
    omega

theorem resendsLeft_le (plan : RunPlan) (i : ℕ) (p : Progress) :
    resendsLeft plan i p ≤ plan.judgeRounds + if p.probing ∧ p.step = i then 1 else 0 := by
  unfold resendsLeft
  by_cases hprobing : p.probing ∧ p.step = i
  · obtain ⟨hp, rfl⟩ := hprobing
    simp [hp]
  · rw [if_neg hprobing]
    split_ifs with hlt hi
    · omega
    · have hnot : p.probing = false := by
        by_contra hp
        exact hprobing ⟨by simpa using hp, hi.symm⟩
      rw [hnot, Bool.toNat_false]
      omega
    · omega

/-- An approved run always stops within its caps: one of the first answers is final, no answer
that goes on exceeds a cap, the steps go up one by one, and a step is sent again after an unmet
verdict at most as often as the plan allows, and once more where the run was resumed. -/
theorem run_stops_within_caps (env : Env) (file : RunFile) (seen : Seen) (t : Ticked)
    (es : List Ended) (hstart : startRun env file seen = some t)
    (hfile : ∀ e ∈ es, e.file = some file) :
    ((grantedLimits file.plan).maxTurns + file.plan.steps.length + 1 ≤ es.length →
      ∃ u ∈ (answers env t.driving es).take
        ((grantedLimits file.plan).maxTurns + file.plan.steps.length + 1), u.next.isFinal) ∧
    (∀ u ∈ answers env t.driving es, u.next.acts →
      u.driving.run.turns < (grantedLimits file.plan).maxTurns ∧
        u.driving.run.spentUsd < (grantedLimits file.plan).maxUsd) ∧
    (t.driving.progress.step :: (answers env t.driving es).map (·.driving.progress.step)).IsChain
      (fun p q => p ≤ q ∧ q ≤ p + 1) ∧
    ∀ i, resends env i t.driving es ≤
      file.plan.judgeRounds + if resumeStep env file = some (i + 1) then 1 else 0 := by
  refine ⟨fun hlen => ?_, fun u hu hacts => ?_, steps_chain hfile _, fun i => ?_⟩
  · by_contra hnone
    rw [answers_take] at hnone
    generalize hbound : (grantedLimits file.plan).maxTurns + file.plan.steps.length + 1 = bound
      at hnone hlen
    have hne : es.take bound ≠ [] :=
      List.ne_nil_of_length_pos (by rw [List.length_take]; omega)
    have hlt := length_lt_left (fun e he => hfile e (List.mem_of_mem_take he)) hne t.driving
      fun u hu => by
        by_contra hfinal
        exact hnone ⟨u, hu, by simpa using hfinal⟩
    have hturns := (start_of_some hstart).1
    have hprobe := Bool.toNat_le t.driving.progress.probing
    rw [List.length_take] at hlt
    unfold left at hlt
    omega
  · refine answers_within hfile _ u hu ?_
    cases hn : u.next <;> simp_all [Next.acts, Next.isFinal]
  · refine (resends_le hfile i t.driving).trans ((resendsLeft_le _ _ _).trans ?_)
    split_ifs with hprobing hresume
    · omega
    · exact absurd (hprobing.2 ▸ resumeStep_of_probing hstart hprobing.1) hresume
    · omega
    · omega

def demoPlan : RunPlan where
  goal := "ship"
  steps := [⟨"test it", .judge "green?"⟩]
  allowed := []
  grants := []
  limits := ⟨3, 1⟩
  judgeRounds := 2

/-- The canonical text of the plan and its digest. -/
def demoEnv : Env where
  canonical _ := "\x7b\"goal\":\"ship\",\"steps\":[\x7b\"do\":\"test it\",\"criterion\":\x7b\"kind\":\"judge\",\"question\":\"green?\"\x7d\x7d],\"allowed\":[],\"grants\":[],\"caps\":\x7b\"turns\":3,\"usd\":1.0,\"judge_rounds\":2\x7d\x7d"
  sha256 _ := [63, 236, 95, 20, 27, 74, 186, 182, 140, 128, 52, 178, 118, 196, 76, 99, 83, 68, 29,
    56, 81, 17, 248, 211, 100, 78, 63, 231, 231, 240, 128, 167]
  twoDecimals _ := "1.00"

def demoFile : RunFile := ⟨demoPlan, some "3fec5f141b4a", some ⟨1, "3fec5f141b4a"⟩⟩

def demoSeen : Seen := ⟨fun _ => none, []⟩

/-- A turn that ended with nothing that stops a run, and with no verdict. -/
def demoEnded : Ended where
  file := some demoFile
  replied := true
  asked := false
  typed := false
  queued := []
  costUsd := 0
  stepResult := none
  drained := []
  unread := []
  answered := []
  watched := none
  refused := none

theorem demo_starts : (startRun demoEnv demoFile demoSeen).isSome := by
  decide +kernel

theorem demo_run_stops : ∃ u ∈ (answers demoEnv ((startRun demoEnv demoFile demoSeen).get
    demo_starts).driving (List.replicate 5 demoEnded)).take 5, u.next.isFinal :=
  (run_stops_within_caps demoEnv demoFile demoSeen _ (List.replicate 5 demoEnded)
    (Option.some_get demo_starts).symm (by simp [demoEnded])).1 (by decide)

end Ralph.SendIt
