import Ralph.Switch
import Ralph.Worker.Stall

namespace Ralph.Worker.Stall

def Happened.isContinued : Happened → Bool
  | .continued => true
  | _ => false

/-- A touch of the marker by others, or a report. -/
def Happened.isGoAhead : Happened → Bool
  | .touched | .reported => true
  | _ => false

def Happened.isRecorded : Happened → Bool
  | .recorded => true
  | _ => false

/-- An alert whose record was saved. -/
def Happened.isAlertSaved : Happened → Bool
  | .alertWritten .written => true
  | _ => false

/-- A continue was sent, and no one touched the marker or reported since. -/
def Unanswered (history : List Happened) : Prop :=
  ∃ earlier later, history = earlier ++ .continued :: later ∧ ∀ event ∈ later, event.isGoAhead = false

/-- A write that leaves a record no older than the second of the marker, and an alert that leaves a
record at all. -/
def Happened.Keeps : Happened → Prop
  | .stamped .written now sent _ => ∀ t ∈ sent, t ≤ now
  | .stamped .kept _ sent record => ∃ r ∈ record, ∀ t ∈ sent, t ≤ r.at_
  | .stamped .emptied _ _ _ => False
  | .alertWritten outcome => outcome ≠ .emptied
  | _ => True

instance : DecidablePred Happened.Keeps
  | .stamped .written now sent _ => inferInstanceAs (Decidable (∀ t ∈ sent, t ≤ now))
  | .stamped .kept _ sent record => inferInstanceAs (Decidable (∃ r ∈ record, ∀ t ∈ sent, t ≤ r.at_))
  | .stamped .emptied _ _ _ => inferInstanceAs (Decidable False)
  | .alertWritten outcome => inferInstanceAs (Decidable (outcome ≠ .emptied))
  | .touched | .reported | .recorded | .continued | .alertPosted => inferInstanceAs (Decidable True)

/-- All writes behind an unanswered continue are such ones. -/
def Kept (history : List Happened) : Prop :=
  ∀ earlier event later, history = earlier ++ event :: later → Unanswered earlier → event.Keeps

theorem Kept.of_forall {history : List Happened} (h : ∀ event ∈ history, event.Keeps) : Kept history := by
  rintro earlier event later rfl -
  exact h event (List.mem_append_right _ List.mem_cons_self)

theorem Kept.of_append {history more : List Happened} (h : Kept (history ++ more)) : Kept history := by
  intro earlier event later heq
  exact h earlier event (later ++ more) (by rw [heq, List.append_assoc, List.cons_append])

/-- Where the two switches stand: a continue that nobody answered, an alert saved for this record. -/
structure Flags (w : World) (go saved : Bool) : Prop where
  go : switch Happened.isContinued Happened.isGoAhead false w.history = some go
  saved : switch Happened.isAlertSaved Happened.isRecorded false w.history = some saved

/-- What others do leaves the record alone, and shows in the history where it matters. -/
structure Quiet (w w' : World) : Prop where
  record : w'.record = w.record
  history : ∃ more, w'.history = w.history ++ more ∧ (∀ event ∈ more, event.isGoAhead = true) ∧
    (more = [] → w'.sent = w.sent ∧ w'.lastReport = w.lastReport)

namespace Quiet

theorem refl (w : World) : Quiet w w :=
  ⟨rfl, [], (List.append_nil _).symm, List.forall_mem_nil _, fun _ => ⟨rfl, rfl⟩⟩

theorem trans {w w' w'' : World} (h : Quiet w w') (h' : Quiet w' w'') : Quiet w w'' := by
  obtain ⟨more, hmore, hgo, hsame⟩ := h.history
  obtain ⟨more', hmore', hgo', hsame'⟩ := h'.history
  refine ⟨h'.record.trans h.record, more ++ more', ?_, ?_, fun hnil => ?_⟩
  · rw [hmore', hmore, List.append_assoc]
  · rw [List.forall_mem_append]
    exact ⟨hgo, hgo'⟩
  · obtain ⟨hnil, hnil'⟩ := List.append_eq_nil_iff.mp hnil
    exact ⟨(hsame' hnil').1.trans (hsame hnil).1, (hsame' hnil').2.trans (hsame hnil).2⟩

theorem same {w w' : World} (h : Quiet w w') (hhistory : w'.history = w.history) :
    w'.sent = w.sent ∧ w'.lastReport = w.lastReport := by
  obtain ⟨more, hmore, -, hsame⟩ := h.history
  rw [hhistory] at hmore
  exact hsame (List.append_right_eq_self.mp hmore.symm)

theorem other (w : World) (o : Other) : Quiet w (w.other o) := by
  cases o with
  | time clock disk => exact ⟨rfl, [], (List.append_nil _).symm, List.forall_mem_nil _, fun _ => ⟨rfl, rfl⟩⟩
  | touch => exact ⟨rfl, [.touched], rfl, by rw [List.forall_mem_singleton]; rfl, fun h => by cases h⟩
  | report last deletesSent =>
    exact ⟨rfl, [.reported], rfl, by rw [List.forall_mem_singleton]; rfl, fun h => by cases h⟩
  | mark mark => exact ⟨rfl, [], (List.append_nil _).symm, List.forall_mem_nil _, fun _ => ⟨rfl, rfl⟩⟩

theorem others (os : List Other) (w : World) : Quiet w (os.foldl World.other w) := by
  induction os generalizing w with
  | nil => exact refl w
  | cons o os ih => exact (other w o).trans (ih (w.other o))

theorem before (env : Env) (w : World) : Quiet w (before env w) := by
  obtain ⟨hrecord, hhistory⟩ := others (env.inputs w.step).others w
  exact ⟨hrecord, hhistory⟩

end Quiet

section Runs

variable {env : Env} {w w' : World} {go saved : Bool}

theorem switch_quiet {more : List Happened} (h : ∀ event ∈ more, event.isGoAhead = true) (hne : more ≠ []) (on : Bool) :
    switch Happened.isContinued Happened.isGoAhead on more = some false := by
  induction more generalizing on with
  | nil => exact absurd rfl hne
  | cons event more ih =>
    rw [List.forall_mem_cons] at h
    have hevent : event.isContinued = false := by
      cases event <;> first | rfl | exact absurd h.1 Bool.false_ne_true
    rw [switch_off hevent h.1]
    cases more with
    | nil => rfl
    | cons event' more => exact ih h.2 (List.cons_ne_nil _ _) false

theorem Flags.quiet (h : Flags w go saved) (hquiet : Quiet w w') :
    ∃ go', Flags w' go' saved ∧ (go' = true → go = true ∧ w'.history = w.history) := by
  obtain ⟨more, hmore, hgo, -⟩ := hquiet.history
  have hsaved : switch Happened.isAlertSaved Happened.isRecorded false w'.history = some saved := by
    rw [hmore, switch_append_of h.saved]
    refine switch_of_neither (fun event hevent => ?_) saved
    have := hgo event hevent
    cases event <;> first | exact ⟨rfl, rfl⟩ | exact absurd this Bool.false_ne_true
  by_cases hnil : more = []
  · rw [hnil, List.append_nil] at hmore
    exact ⟨go, ⟨hmore ▸ h.go, hsaved⟩, fun hon => ⟨hon, hmore⟩⟩
  · refine ⟨false, ⟨?_, hsaved⟩, fun hon => absurd hon Bool.false_ne_true⟩
    rw [hmore, switch_append_of h.go]
    exact switch_quiet hgo hnil go

theorem Flags.unanswered (h : Flags w true saved) : Unanswered w.history := by
  obtain ⟨hon, -⟩ | ⟨earlier, event, later, heq, hevent, hlater⟩ := exists_on_of_switch h.go
  · cases hon
  · have hcontinued : event = .continued := by
      cases event <;> first | rfl | exact absurd hevent Bool.false_ne_true
    exact ⟨earlier, later, hcontinued ▸ heq, hlater⟩

/-- An event that moves neither switch. -/
theorem Flags.neutral (h : Flags w go saved) {event : Happened}
    (hgo : event.isContinued = false ∧ event.isGoAhead = false)
    (hsaved : event.isAlertSaved = false ∧ event.isRecorded = false) (hhistory : w'.history = w.history ++ [event]) :
    Flags w' go saved := by
  constructor
  · rw [hhistory, switch_append_of h.go, switch_keep hgo.1 hgo.2, switch_nil]
  · rw [hhistory, switch_append_of h.saved, switch_keep hsaved.1 hsaved.2, switch_nil]

def ReportedSince (env : Env) (w : World) : Prop :=
  reportedSinceGoAhead w.sentSecs (w.lastReport.bind env.reportSecs) = true

/-- A record no older than the second of the marker, or a report since: nothing sends a continue. -/
def Covered (env : Env) (w : World) : Prop :=
  (∃ r ∈ w.record, ∀ t ∈ w.sentSecs, t ≤ r.at_) ∨ ReportedSince env w

/-- What holds between two ticks. -/
structure Sound (env : Env) (w : World) (go saved : Bool) : Prop where
  flags : Flags w go saved
  covered : go = true → Covered env w
  alerted : saved = true → ∀ r ∈ w.record, r.alerted = true

theorem Covered.congr (h : Covered env w) (hrecord : w'.record = w.record)
    (hsame : w'.sent = w.sent ∧ w'.lastReport = w.lastReport) : Covered env w' := by
  unfold Covered ReportedSince World.sentSecs
  rw [hrecord, hsame.1, hsame.2]
  exact h

theorem Sound.quiet (h : Sound env w go saved) (hquiet : Quiet w w') : ∃ go', Sound env w' go' saved := by
  obtain ⟨go', hflags, hgo⟩ := h.flags.quiet hquiet
  refine ⟨go', hflags, fun hon => ?_, fun hsaved => hquiet.record ▸ h.alerted hsaved⟩
  obtain ⟨hgo, hhistory⟩ := hgo hon
  exact (h.covered hgo).congr hquiet.record (hquiet.same hhistory)

theorem Quiet.middle {w'' : World} (h : Quiet w w') (h' : Quiet w' w'') (hhistory : w''.history = w.history) :
    w'.history = w.history ∧ w''.history = w'.history := by
  obtain ⟨more, hmore, -⟩ := h.history
  obtain ⟨more', hmore', -⟩ := h'.history
  rw [hmore', hmore, List.append_assoc] at hhistory
  obtain ⟨hnil, hnil'⟩ := List.append_eq_nil_iff.mp (List.append_right_eq_self.mp hhistory)
  rw [hnil, List.append_nil] at hmore
  rw [hnil', List.append_nil] at hmore'
  exact ⟨hmore, hmore'⟩

/-- Facts that are read one after the other are those of the end, if no one came between. -/
theorem facts_spec (env : Env) (w : World) : Quiet w (facts env w).2 ∧
    (facts env w).1.record = (facts env w).2.record ∧ ((facts env w).2.history = w.history →
      (facts env w).1.sentAt = (facts env w).2.sentSecs ∧
        ((facts env w).1.reported = true ↔ ReportedSince env (facts env w).2)) := by
  have h1 := Quiet.before env w
  have h2 := Quiet.before env (before env w)
  have h3 := Quiet.before env (before env (before env w))
  have h4 := Quiet.before env (before env (before env (before env w)))
  have h5 := Quiet.before env (before env (before env (before env (before env w))))
  -- the marker is read behind `h2`, so only `hlate` may still move it
  have hlate := (h3.trans h4).trans h5
  refine ⟨((h1.trans h2).trans hlate), h5.record.symm, fun hhistory => ?_⟩
  obtain ⟨hfirst, hrest⟩ := h1.middle (h2.trans hlate) hhistory
  obtain ⟨hsecond, hlast⟩ := h2.middle hlate hrest
  have hsent : (facts env w).1.sentAt = (facts env w).2.sentSecs :=
    congrArg (Option.map secs) (hlate.same hlast).1.symm
  have hreport : (before env w).lastReport = (facts env w).2.lastReport := ((h2.trans hlate).same hrest).2.symm
  refine ⟨hsent, ?_⟩
  have hreported : (facts env w).1.reported =
      reportedSinceGoAhead (facts env w).1.sentAt ((before env w).lastReport.bind env.reportSecs) := rfl
  rw [hreported, hsent, hreport]
  rfl

/-- Why an action was chosen. -/
def Reason (f : StallFacts) : StallAction → Prop
  | .none => True
  | .continue_ => f.record = none ∧ f.reported = false
  | .alert => ∃ r ∈ f.record, r.alerted = false
  | .resetRecord => ∃ r ∈ f.record, ∃ t ∈ f.sentAt, r.at_ < t

theorem stallAction_reason (f : StallFacts) : Reason f (stallAction f) := by
  rw [stallAction]
  split_ifs with hreset
  · obtain ⟨r, hr, hgo⟩ := (Option.any_eq_true _ _).mp hreset
    obtain ⟨t, ht, hlt⟩ := (Option.any_eq_true _ _).mp hgo
    exact ⟨r, hr, t, ht, of_decide_eq_true hlt⟩
  · cases f.activity with
    | none => trivial
    | some mark =>
      dsimp only
      by_cases hstop : (mark.busy || f.reported) = true
      · rw [if_pos hstop]
        trivial
      rw [if_neg hstop]
      rw [Bool.or_eq_true, not_or] at hstop
      cases hrecord : f.record with
      | none =>
        dsimp only
        split_ifs
        · exact ⟨hrecord, Bool.eq_false_iff.mpr hstop.2⟩
        · trivial
      | some r =>
        dsimp only
        split_ifs with halert
        · rw [Bool.and_eq_true, Bool.not_eq_true'] at halert
          exact ⟨r, hrecord, halert.1⟩
        · trivial

theorem removeRecord_sound (env : Env) (hflags : Flags w go saved) (hreported : go = true → ReportedSince env w)
    (halerted : saved = true → ∀ r ∈ w.record, r.alerted = true) : ∃ go', Sound env (removeRecord env w) go' saved := by
  have hquiet := Quiet.before env w
  obtain ⟨go', hflags', hgo⟩ := hflags.quiet hquiet
  refine ⟨go', ⟨hflags'.go, hflags'.saved⟩, fun hon => .inr ?_, fun hsaved r hr => ?_⟩
  · obtain ⟨hgo, hhistory⟩ := hgo hon
    obtain ⟨hsent, hreport⟩ := hquiet.same hhistory
    have h := hreported hgo
    unfold ReportedSince World.sentSecs at h ⊢
    rw [← hsent, ← hreport] at h
    exact h
  · have hrecord : (removeRecord env w).record = if (env.inputs w.step).removed then none else (before env w).record := rfl
    rw [hrecord] at hr
    split_ifs at hr
    · exact absurd hr (Option.not_mem_none r)
    · exact halerted hsaved r (hquiet.record ▸ hr)

/-- A write behind a history that the switch stands on in: it keeps the record. -/
theorem Kept.keeps {event : Happened} (hkept : Kept (w.history ++ [event])) (hflags : Flags w true saved) : event.Keeps :=
  hkept w.history event [] rfl hflags.unanswered

theorem recordAlert_sound {r : AutoContinue} (h : Sound env w go saved) (hrecord : w.record = some r)
    (halerted : r.alerted = false) (hkept : Kept (recordAlert env r w).history) :
    ∃ go' saved', Sound env (recordAlert env r w) go' saved' := by
  obtain rfl : saved = false := by
    rw [← Bool.not_eq_true]
    intro hsaved
    exact Bool.false_ne_true (halerted.symm.trans (h.alerted hsaved r hrecord))
  obtain ⟨go₁, hfirst⟩ := h.quiet (Quiet.before env w)
  have hrecord₁ := (Quiet.before env w).record.trans hrecord
  unfold recordAlert at hkept ⊢
  dsimp only at hkept ⊢
  generalize (env.inputs w.step).write = outcome at hkept ⊢
  generalize before env w = w₁ at hfirst hrecord₁ hkept ⊢
  have hkeeps : go₁ = true → outcome ≠ .emptied := by
    rintro rfl
    exact hkept.keeps hfirst.flags
  -- the alert counts as saved; a failed write leaves the flag as it was
  cases outcome with
  | written =>
    refine ⟨go₁, true, ⟨?_, ?_⟩, fun hgo => ?_, fun _ r' hr' => ?_⟩
    · rw [switch_append_of hfirst.flags.go]
      exact switch_keep rfl rfl
    · rw [switch_append_of hfirst.flags.saved]
      exact switch_on rfl
    · obtain ⟨r₁, hr₁, hold⟩ | hreported := hfirst.covered hgo
      · obtain rfl := Option.some.inj (hrecord₁.symm.trans hr₁)
        exact .inl ⟨r.markAlerted, rfl, hold⟩
      · exact .inr hreported
    · rw [← Option.some.inj hr']
      rfl
  | kept =>
    exact ⟨go₁, false, hfirst.flags.neutral ⟨rfl, rfl⟩ ⟨rfl, rfl⟩ rfl, fun hgo => hfirst.covered hgo, hfirst.alerted⟩
  | emptied =>
    exact ⟨go₁, false, hfirst.flags.neutral ⟨rfl, rfl⟩ ⟨rfl, rfl⟩ rfl, fun hgo => absurd rfl (hkeeps hgo),
      fun hsaved => absurd hsaved Bool.false_ne_true⟩

theorem alertStalled_sound {record : Option AutoContinue} (h : Sound env w go saved) (hrecord : w.record = record)
    (halerted : ∀ r ∈ record, r.alerted = false) (hkept : Kept (alertStalled env record w).history) :
    ∃ go' saved', Sound env (alertStalled env record w) go' saved' := by
  obtain ⟨go₁, hfirst⟩ := h.quiet (Quiet.before env w)
  have hposted : Sound env ((before env w).happens .alertPosted) go₁ saved :=
    ⟨hfirst.flags.neutral ⟨rfl, rfl⟩ ⟨rfl, rfl⟩ rfl, hfirst.covered, hfirst.alerted⟩
  have hrecord₁ : ((before env w).happens .alertPosted).record = record :=
    (Quiet.before env w).record.trans hrecord
  cases record with
  | none => exact ⟨go₁, saved, hposted⟩
  | some r => exact recordAlert_sound hposted hrecord₁ (halerted r rfl) hkept

theorem stampRecord_sound (hflags : Flags w go false) (hkept : Kept (stampRecord env w).history) :
    ∃ go', Sound env (stampRecord env w) go' false := by
  obtain ⟨go₁, hflags₁, -⟩ := hflags.quiet ((Quiet.before env w).trans (Quiet.before env (before env w)))
  unfold stampRecord at hkept ⊢
  dsimp only at hkept ⊢
  generalize (env.inputs (before env w).step).write = outcome at hkept ⊢
  generalize secs (before env w).clock = now at hkept ⊢
  generalize before env (before env w) = w₂ at hflags₁ hkept ⊢
  -- what the stamp leaves covers the continue, by `Kept`
  refine ⟨go₁, hflags₁.neutral ⟨rfl, rfl⟩ ⟨rfl, rfl⟩ rfl, fun hgo => ?_, fun hsaved => absurd hsaved Bool.false_ne_true⟩
  subst hgo
  have hkeeps := hkept.keeps hflags₁
  left
  cases outcome with
  | written => exact ⟨_, rfl, hkeeps⟩
  | kept => exact hkeeps
  | emptied => exact hkeeps.elim

/-- The facts of a tick: what they show of an unanswered continue is still so. -/
theorem facts_sound (h : Sound env w go saved) : ∃ go', Sound env (facts env w).2 go' saved ∧
    (go' = true → (facts env w).1.sentAt = (facts env w).2.sentSecs ∧
      ((facts env w).1.reported = true ↔ ReportedSince env (facts env w).2)) := by
  obtain ⟨hquiet, -, hfacts⟩ := facts_spec env w
  obtain ⟨go', hflags, hgo⟩ := h.flags.quiet hquiet
  refine ⟨go', ⟨hflags, fun hon => ?_, fun hsaved => hquiet.record ▸ h.alerted hsaved⟩, fun hon => hfacts (hgo hon).2⟩
  obtain ⟨hgo, hhistory⟩ := hgo hon
  exact (h.covered hgo).congr hquiet.record (hquiet.same hhistory)

theorem Flags.quiet_off (h : Flags w false saved) (hquiet : Quiet w w') : Flags w' false saved := by
  obtain ⟨go', hflags, hgo⟩ := h.quiet hquiet
  cases go' with
  | false => exact hflags
  | true => exact absurd (hgo rfl).1 Bool.false_ne_true

/-- A continue is decided on only where none is unanswered. -/
theorem not_go_of_continue {f : StallFacts} (hcontinue : stallAction f = .continue_) (hrecord : f.record = w.record)
    (hcovered : Covered env w) : ¬ (f.reported = true ↔ ReportedSince env w) := by
  intro hiff
  have hreason := stallAction_reason f
  rw [hcontinue] at hreason
  obtain ⟨r, hr, -⟩ | hreported := hcovered
  · rw [← hrecord, hreason.1] at hr
    exact Option.not_mem_none r hr
  · exact Bool.false_ne_true (hreason.2.symm.trans (hiff.mpr hreported))

theorem nudge_sound (h : Flags w false false) (hkept : Kept
    (runSteps env (afterSend (nudge env w).1) (nudge env w).2).history) :
    ∃ go', Sound env (runSteps env (afterSend (nudge env w).1) (nudge env w).2) go' false := by
  have hbefore := h.quiet_off (Quiet.before env w)
  unfold nudge at hkept ⊢
  dsimp only at hkept ⊢
  split_ifs at hkept ⊢
  · -- the continue goes out, and the marker and the record follow
    have hsent : Flags ((before env w).happens .continued) true false := by
      constructor
      · change switch _ _ _ ((before env w).history ++ [.continued]) = _
        rw [switch_append_of hbefore.go]
        exact switch_on rfl
      · change switch _ _ _ ((before env w).history ++ [.continued]) = _
        rw [switch_append_of hbefore.saved]
        exact switch_keep rfl rfl
    obtain ⟨go₁, hmarked, -⟩ := hsent.quiet (Quiet.before env _)
    have hmarked' : Flags (markSent env ((before env w).happens .continued)) go₁ false := ⟨hmarked.go, hmarked.saved⟩
    have hlog := Quiet.before env (stampRecord env (markSent env ((before env w).happens .continued)))
    have hkept' : Kept (stampRecord env (markSent env ((before env w).happens .continued))).history := by
      obtain ⟨more, hmore, -⟩ := hlog.history
      have hfinal : Kept (before env (stampRecord env (markSent env ((before env w).happens .continued)))).history := hkept
      rw [hmore] at hfinal
      exact hfinal.of_append
    obtain ⟨go₂, hstamped⟩ := stampRecord_sound hmarked' hkept'
    exact hstamped.quiet hlog
  · exact removeRecord_sound env hbefore (fun hgo => absurd hgo Bool.false_ne_true)
      fun hsaved => absurd hsaved Bool.false_ne_true

theorem autoContinueWorker_sound (h : Sound env w go saved) (hkept : Kept (autoContinueWorker env w).history) :
    ∃ go' saved', Sound env (autoContinueWorker env w) go' saved' := by
  obtain ⟨go₁, hsound, hagree⟩ := facts_sound h
  obtain ⟨-, hrecord, -⟩ := facts_spec env w
  unfold autoContinueWorker at hkept ⊢
  generalize facts env w = f at hsound hagree hrecord hkept ⊢
  obtain ⟨found, w₁⟩ := f
  dsimp only at hsound hagree hrecord hkept ⊢
  by_cases hcontinue : stallAction found = .continue_
  · rw [if_neg (not_not_intro hcontinue)] at hkept ⊢
    -- an unanswered continue is covered, and then no continue is decided on
    have hoff : go₁ = false := by
      rw [← Bool.not_eq_true]
      intro hgo
      exact not_go_of_continue hcontinue hrecord (hsound.covered hgo) (hagree hgo).2
    subst hoff
    have hreason := stallAction_reason found
    rw [hcontinue] at hreason
    have hquiet := (Quiet.before env w₁).trans (Quiet.before env (before env w₁))
    have hflags := hsound.flags.quiet_off hquiet
    have hnone : (before env (before env w₁)).record = none := hquiet.record.trans (hrecord.symm.trans hreason.1)
    unfold recordContinue at hkept ⊢
    dsimp only at hkept ⊢
    generalize (env.inputs (before env w₁).step).write = outcome at hkept ⊢
    generalize before env (before env w₁) = w₃ at hflags hnone hkept ⊢
    cases outcome with
    | written =>
      have hrecorded : ∀ record unrecorded, Flags
          { w₃ with record, unrecorded, history := w₃.history ++ [.recorded] } false false := by
        intro record unrecorded
        constructor
        · change switch _ _ _ (w₃.history ++ [.recorded]) = _
          rw [switch_append_of hflags.go]
          exact switch_keep rfl rfl
        · change switch _ _ _ (w₃.history ++ [.recorded]) = _
          rw [switch_append_of hflags.saved]
          exact switch_off rfl rfl
      obtain ⟨go', hdone⟩ := nudge_sound (hrecorded _ _) hkept
      exact ⟨go', false, hdone⟩
    -- without a saved record nothing is sent
    | kept | emptied =>
      refine ⟨false, saved, ⟨?_, ?_⟩, fun hgo => absurd hgo Bool.false_ne_true, fun _ r hr => ?_⟩
      · change switch _ _ _ (w₃.history ++ []) = _
        rw [List.append_nil]
        exact hflags.go
      · change switch _ _ _ (w₃.history ++ []) = _
        rw [List.append_nil]
        exact hflags.saved
      · first
          | exact absurd hr (Option.not_mem_none r)
          | exact absurd (hnone ▸ hr) (Option.not_mem_none r)
  · rw [if_pos hcontinue]
    exact ⟨go₁, saved, hsound⟩

theorem stallStep_sound (h : Sound env w go saved) (hkept : Kept (stallStep env w).history) :
    ∃ go' saved', Sound env (stallStep env w) go' saved' := by
  obtain ⟨go₁, hsound, hagree⟩ := facts_sound h
  obtain ⟨-, hrecord, -⟩ := facts_spec env w
  unfold stallStep at hkept ⊢
  generalize facts env w = f at hsound hagree hrecord hkept ⊢
  obtain ⟨found, w₁⟩ := f
  dsimp only at hsound hagree hrecord hkept ⊢
  -- a report takes the record away, and covers the continue from now on
  by_cases hreported : (found.reported && found.record.isSome) = true
  · rw [if_pos hreported]
    rw [Bool.and_eq_true] at hreported
    obtain ⟨go₂, hdone⟩ := removeRecord_sound env hsound.flags (fun hgo => (hagree hgo).2.mp hreported.1)
      hsound.alerted
    exact ⟨go₂, saved, hdone⟩
  · rw [if_neg hreported] at hkept ⊢
    have hreason := stallAction_reason found
    cases haction : stallAction found with
    | none => exact ⟨go₁, saved, hsound⟩
    | continue_ =>
      rw [haction] at hkept
      exact autoContinueWorker_sound hsound hkept
    | alert =>
      rw [haction] at hkept hreason
      obtain ⟨r, hr, halerted⟩ := hreason
      refine alertStalled_sound hsound hrecord.symm (fun r' hr' => ?_) hkept
      rw [Option.mem_unique hr' hr]
      exact halerted
    | resetRecord =>
      rw [haction] at hreason
      obtain ⟨r, hr, t, ht, hlt⟩ := hreason
      -- the record is older than the marker, so it does not cover the continue
      have hsince : go₁ = true → ReportedSince env w₁ := by
        intro hgo
        obtain ⟨r', hr', hold⟩ | hreported := hsound.covered hgo
        · have hsame : r = r' := Option.mem_unique (hrecord ▸ hr) hr'
          have ht' : t ∈ w₁.sentSecs := (hagree hgo).1 ▸ ht
          exact absurd (hold t ht') (not_le.mpr (hsame ▸ hlt))
        · exact hreported
      obtain ⟨go₂, hdone⟩ := removeRecord_sound env hsound.flags hsince hsound.alerted
      exact ⟨go₂, saved, hdone⟩

theorem Quiet.grows (h : Quiet w w') : w.history <+: w'.history := by
  obtain ⟨more, hmore, -⟩ := h.history
  exact ⟨more, hmore.symm⟩

theorem before_grows (env : Env) (w : World) : w.history <+: (before env w).history := (Quiet.before env w).grows

theorem removeRecord_grows (env : Env) (w : World) : w.history <+: (removeRecord env w).history := before_grows env w

theorem recordContinue_grows (env : Env) (at_ : ℕ) (w : World) : w.history <+: (recordContinue env at_ w).2.history :=
  (before_grows env w).trans (List.prefix_append _ _)

theorem nudge_grows (env : Env) (w : World) : w.history <+: (nudge env w).2.history := by
  rw [nudge]
  split_ifs
  · have hsent : w.history <+: ((before env w).happens .continued).history :=
      (before_grows env w).trans (List.prefix_append _ _)
    exact hsent.trans (before_grows env _)
  · exact before_grows env w

theorem runStep_grows (env : Env) (w : World) (step : ContinueStep) : w.history <+: (runStep env w step).history := by
  cases step with
  | stampRecord => exact ((before_grows env w).trans (before_grows env _)).trans (List.prefix_append _ _)
  | removeRecord => exact removeRecord_grows env w
  | log => exact before_grows env w

theorem runSteps_grows (env : Env) (steps : List ContinueStep) (w : World) :
    w.history <+: (runSteps env steps w).history := by
  induction steps generalizing w with
  | nil => exact List.prefix_rfl
  | cons step steps ih => exact (runStep_grows env w step).trans (ih (runStep env w step))

theorem autoContinueWorker_grows (env : Env) (w : World) : w.history <+: (autoContinueWorker env w).history := by
  have hfacts := (facts_spec env w).1.grows
  unfold autoContinueWorker
  generalize facts env w = f at hfacts ⊢
  obtain ⟨found, w₁⟩ := f
  dsimp only at hfacts ⊢
  have hrecorded : w.history <+: (recordContinue env (secs (before env w₁).clock) (before env w₁)).2.history :=
    (hfacts.trans (before_grows env w₁)).trans (recordContinue_grows env _ _)
  split_ifs
  · exact hfacts
  · exact hrecorded
  · exact (hrecorded.trans (nudge_grows env _)).trans (runSteps_grows env _ _)

theorem alertStalled_grows (env : Env) (record : Option AutoContinue) (w : World) :
    w.history <+: (alertStalled env record w).history := by
  have hposted : w.history <+: ((before env w).happens .alertPosted).history :=
    (before_grows env w).trans (List.prefix_append _ _)
  cases record with
  | none => exact hposted
  | some record => exact hposted.trans ((before_grows env _).trans (List.prefix_append _ _))

theorem stallStep_grows (env : Env) (w : World) : w.history <+: (stallStep env w).history := by
  have hfacts := (facts_spec env w).1.grows
  unfold stallStep
  generalize facts env w = f at hfacts ⊢
  obtain ⟨found, w₁⟩ := f
  dsimp only at hfacts ⊢
  refine hfacts.trans ?_
  split_ifs
  · exact removeRecord_grows env w₁
  · cases stallAction found with
    | none => exact List.prefix_rfl
    | continue_ => exact autoContinueWorker_grows env w₁
    | alert => exact alertStalled_grows env found.record w₁
    | resetRecord => exact removeRecord_grows env w₁

theorem ticks_sound (hw : w.history = []) {n : ℕ} (hkept : Kept (ticks env n w).history) :
    ∃ go saved, Sound env (ticks env n w) go saved := by
  induction n with
  | zero =>
    refine ⟨false, false, ⟨?_, ?_⟩, fun h => absurd h Bool.false_ne_true, fun h => absurd h Bool.false_ne_true⟩ <;>
    · change switch _ _ _ w.history = _
      rw [hw, switch_nil]
  | succ n ih =>
    obtain ⟨more, hmore⟩ := stallStep_grows env (ticks env n w)
    have hbefore : Kept (ticks env n w).history := by
      change Kept (stallStep env (ticks env n w)).history at hkept
      rw [← hmore] at hkept
      exact hkept.of_append
    -- the writes of the first `n` ticks are among those of all
    obtain ⟨go, saved, hsound⟩ := ih hbefore
    exact stallStep_sound hsound hkept

theorem one_continue_per_go_ahead (env : Env) (w : World) (hw : w.history = []) (n : ℕ)
    (hkept : Kept (ticks env n w).history) :
    (∀ earlier mid later, (ticks env n w).history = earlier ++ .continued :: mid ++ .continued :: later →
      ∃ event ∈ mid, event.isGoAhead) ∧
    (∀ earlier mid later,
      (ticks env n w).history = earlier ++ .alertWritten .written :: mid ++ .alertWritten .written :: later →
        .recorded ∈ mid) := by
  obtain ⟨go, saved, hsound⟩ := ticks_sound hw hkept
  refine ⟨fun earlier mid later heq => ?_, fun earlier mid later heq => ?_⟩
  · have hgo : (switch Happened.isContinued Happened.isGoAhead false (ticks env n w).history).isSome := by
      rw [hsound.flags.go, Option.isSome_some]
    rw [heq] at hgo
    exact exists_off_of_switch hgo rfl rfl
  · have hsaved : (switch Happened.isAlertSaved Happened.isRecorded false (ticks env n w).history).isSome := by
      rw [hsound.flags.saved, Option.isSome_some]
    rw [heq] at hsaved
    obtain ⟨event, hevent, hrecorded⟩ := exists_off_of_switch hsaved rfl rfl
    cases event with
    | recorded => exact hevent
    | _ => exact absurd hrecorded Bool.false_ne_true

end Runs

/-- A worker whose process failed at the second 200, after a message at 100. -/
def failedWorker : World :=
  ⟨some (100 * nanosPerSec), some ⟨200, .failed⟩, none, none, 201 * nanosPerSec, 201 * nanosPerSec, false, 0, []⟩

/-- One of the writes ends otherwise than well, and something comes before one of the operations. -/
def oneAccident (writeAt : ℕ) (outcome : Written) (otherAt : ℕ) (others : List Other) : Env where
  reportSecs := fun _ => none
  checkSecs := 15
  inputs := fun step =>
    ⟨if step = otherAt then others else [], if step = writeAt then outcome else .written, true, true, true⟩

/-- Ten seconds later a reply, and the process fails once more. -/
def repliedAndFailed : List Other :=
  [.time (10 * nanosPerSec) (10 * nanosPerSec), .touch, .mark (some ⟨211, .failed⟩)]

theorem one_continue_per_go_ahead_replied :
    (ticks (oneAccident 0 .written 17 repliedAndFailed) 3 failedWorker).history.countP Happened.isContinued = 2 ∧
    ∀ earlier mid later, (ticks (oneAccident 0 .written 17 repliedAndFailed) 3 failedWorker).history =
      earlier ++ .continued :: mid ++ .continued :: later → ∃ event ∈ mid, event.isGoAhead :=
  ⟨by decide +kernel, (one_continue_per_go_ahead (oneAccident 0 .written 17 repliedAndFailed) failedWorker rfl 3
    (Kept.of_forall (by decide +kernel))).1⟩

/-- The stamp behind the continue empties the record, so the touch of the continue counts as a go-ahead. -/
theorem second_continue_without_go_ahead :
    ∃ env w n earlier mid later, w.history = [] ∧
      (ticks env n w).history = earlier ++ .continued :: mid ++ .continued :: later ∧
      ∀ event ∈ mid, event.isGoAhead = false :=
  ⟨oneAccident 15 .emptied 17 [.time (10 * nanosPerSec) (10 * nanosPerSec), .mark (some ⟨211, .failed⟩)],
    failedWorker, 2, [.recorded], [.stamped .emptied 201 (some 201) (some (.new 201 reasonApiError)), .recorded],
    [.stamped .written 211 (some 211) (some (.new 211 reasonApiError))], rfl, by decide +kernel, by decide⟩

end Ralph.Worker.Stall
