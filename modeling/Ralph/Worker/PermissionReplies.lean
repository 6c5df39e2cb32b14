import Ralph.Worker.PermissionReply

namespace Ralph.Worker

variable {ι : Type*} {s s' : ReplyFiles ι} {i j : ι}

namespace ReplyFiles

theorem Ok.idle (h : s.Ok) (hclaim : s.claim = none) : s.host = .idle := by
  have hhost := h.host
  rw [HostOk] at hhost
  cases hs : s.host with
  | idle => rfl
  | claimed =>
    rw [hs] at hhost
    rcases hhost with ⟨i, hi, _⟩
    rw [hclaim] at hi
    cases hi
  | handling i =>
    rw [hs] at hhost
    rw [hclaim] at hhost
    cases hhost.1
  | handled verdict =>
    rw [hs] at hhost
    rcases hhost with ⟨i, hi, _⟩
    rw [hclaim] at hi
    cases hi
  | closing verdict =>
    rw [hs] at hhost
    rcases hhost with ⟨i, hi, _⟩
    rw [hclaim] at hi
    cases hi

theorem Ok.claim_of_idle (h : s.Ok) (hidle : s.host = .idle) : s.claim = none := by
  have hhost := h.host
  rw [HostOk, hidle] at hhost
  exact hhost

end ReplyFiles

open ReplyFiles

/-- The host waits for an answer as long as there is none. -/
theorem TakeAnswer.not_of_empty (h : s.Ok) (hanswer : s.answer = none) (hclaim : s.claim = none) :
    ¬ TakeAnswer s s' := by
  have hidle := h.idle hclaim
  intro hstep
  cases hstep with
  | claim _ hsome =>
    rw [hanswer] at hsome
    cases hsome
  | read hhost =>
    rw [hidle] at hhost
    cases hhost
  | handle hhost =>
    rw [hidle] at hhost
    cases hhost
  | taken hhost =>
    rw [hidle] at hhost
    cases hhost
  | refused hhost =>
    rw [hidle] at hhost
    cases hhost
  | close hhost =>
    rw [hidle] at hhost
    cases hhost

theorem TakeAnswer.log_mono (h : TakeAnswer s s') : ∀ e ∈ s.log, e ∈ s'.log := by
  intro e he
  cases h with
  | handle => exact List.mem_append_left _ he
  | claim => exact he
  | read => exact he
  | taken => exact he
  | refused => exact he
  | close => exact he

theorem TakeAnswer.lock_eq (h : TakeAnswer s s') : s'.lock = s.lock := by
  cases h with
  | handle => rfl
  | claim => rfl
  | read => rfl
  | taken => rfl
  | refused => rfl
  | close => rfl

theorem TakeAnswer.answer_eq_none (h : TakeAnswer s s') (hanswer : s.answer = none) : s'.answer = none := by
  cases h with
  | claim => rfl
  | handle => exact hanswer
  | read => exact hanswer
  | taken => exact hanswer
  | refused => exact hanswer
  | close => exact hanswer

theorem TakeAnswer.ok (hs : s.Ok) (h : TakeAnswer s s') : s'.Ok := by
  have hhost := hs.host
  rw [HostOk] at hhost
  cases h with
  | claim hidle hanswer =>
    exact {
      host := ⟨_, rfl, (hs.new _ hanswer).1⟩
      unlocked := fun _ => rfl
      new := fun k hnone => absurd hnone (Option.not_mem_none k)
      once := hs.once }
  | read hclaimed hclaim =>
    rw [hclaimed] at hhost
    rcases hhost with ⟨i, hi, hnew⟩
    rw [hi] at hclaim
    rw [Option.some.inj hclaim] at hi hnew
    exact ⟨⟨hi, hnew⟩, hs.unlocked, hs.new, hs.once⟩
  | @handle i hhandling verdict =>
    rw [hhandling] at hhost
    refine ⟨⟨i, hhost.1, List.mem_append_right _ List.mem_cons_self⟩, hs.unlocked, ?_, ?_⟩
    · intro k hk
      refine ⟨?_, (hs.new k hk).2⟩
      rintro ⟨other, hother⟩
      rcases List.mem_append.mp hother with hold | hnew
      · exact (hs.new k hk).1 ⟨other, hold⟩
      · have hsame := congrArg Prod.fst (List.mem_singleton.mp hnew)
        dsimp only at hsame
        exact (hs.new k hk).2 (hsame ▸ hhost.1)
    · rw [List.map_append, List.nodup_append]
      refine ⟨hs.once, List.nodup_singleton _, ?_⟩
      intro k hk other hother heq
      rw [List.mem_map] at hk
      rcases hk with ⟨⟨k', verdict'⟩, hmem, rfl⟩
      rw [List.map_singleton, List.mem_singleton] at hother
      dsimp only at heq hother
      rw [hother] at heq
      exact hhost.2 ⟨verdict', heq ▸ hmem⟩
  | taken hhandled =>
    rw [hhandled] at hhost
    exact ⟨hhost, hs.unlocked, hs.new, hs.once⟩
  | refused hhandled =>
    rw [hhandled] at hhost
    exact ⟨hhost, hs.unlocked, hs.new, hs.once⟩
  | close hclosing =>
    exact {
      host := rfl
      unlocked := hs.unlocked
      new := fun k hk => ⟨(hs.new k hk).1, fun hnone => Option.some_ne_none _ hnone.symm⟩
      once := hs.once }

/-- An answer that the host has not seen does not come to it by another way than the answer file. -/
theorem TakeAnswer.fresh (hs : s.Ok) (h : TakeAnswer s s') (hfresh : s.Fresh j) : s'.Fresh j := by
  have hhost := hs.host
  rw [HostOk] at hhost
  cases h with
  | claim hidle hanswer =>
    exact ⟨fun hnone => Option.some_ne_none _ hnone.symm, fun hclaim => hfresh.answer (hanswer.trans hclaim), hfresh.log⟩
  | read => exact ⟨hfresh.answer, hfresh.claim, hfresh.log⟩
  | @handle i hhandling verdict =>
    rw [hhandling] at hhost
    refine ⟨hfresh.answer, hfresh.claim, ?_⟩
    rintro ⟨other, hother⟩
    rcases List.mem_append.mp hother with hold | hnew
    · exact hfresh.log ⟨other, hold⟩
    · have hsame := congrArg Prod.fst (List.mem_singleton.mp hnew)
      dsimp only at hsame
      exact hfresh.claim (hsame ▸ hhost.1)
  | taken => exact ⟨hfresh.answer, hfresh.claim, hfresh.log⟩
  | refused => exact ⟨hfresh.answer, hfresh.claim, hfresh.log⟩
  | close => exact ⟨hfresh.answer, fun hnone => Option.some_ne_none _ hnone.symm, hfresh.log⟩

/-- The host goes on with an answer that it has claimed. -/
theorem TakeAnswer.claimed (hs : s.Ok) (h : TakeAnswer s s') (hclaimed : s.Claimed j) :
    s'.Claimed j ∨ s'.Finished j := by
  have hhost := hs.host
  have herror := hclaimed.error
  rw [HostOk] at hhost
  rw [ErrorOk] at herror
  cases h with
  | claim hidle =>
    have hnone := hs.claim_of_idle hidle
    rw [hclaimed.claim] at hnone
    cases hnone
  | read hhost' =>
    rw [hhost'] at herror
    exact .inl ⟨hclaimed.answer, hclaimed.claim, herror⟩
  | @handle i hhandling verdict =>
    rw [hhandling] at herror hhost
    have hsame : i = j := Option.some.inj (hhost.1.symm.trans hclaimed.claim)
    refine .inl ⟨hclaimed.answer, hclaimed.claim, ?_, herror⟩
    rw [hsame]
    exact List.mem_append_right _ List.mem_cons_self
  | taken hhandled =>
    rw [hhandled] at herror
    exact .inl ⟨hclaimed.answer, hclaimed.claim, herror.1, herror.2⟩
  | refused hhandled =>
    rw [hhandled] at herror
    exact .inl ⟨hclaimed.answer, hclaimed.claim, herror.1, rfl⟩
  | close hclosing =>
    rw [hclosing] at herror
    exact .inr ⟨hclaimed.answer, rfl, _, herror.1, herror.2⟩

theorem TakeAnswer.waiting (hs : s.Ok) (h : TakeAnswer s s') (hwaiting : s.Waiting j) : s'.Claimed j := by
  have hidle := hs.idle hwaiting.claim
  cases h with
  | claim _ hanswer =>
    exact ⟨rfl, hanswer.symm.trans hwaiting.answer, hwaiting.error⟩
  | read hhost =>
    rw [hidle] at hhost
    cases hhost
  | handle hhost =>
    rw [hidle] at hhost
    cases hhost
  | taken hhost =>
    rw [hidle] at hhost
    cases hhost
  | refused hhost =>
    rw [hidle] at hhost
    cases hhost
  | close hhost =>
    rw [hidle] at hhost
    cases hhost

theorem TakeAnswer.inFlight (hs : s.Ok) (h : TakeAnswer s s') (hflight : s.InFlight j) : s'.InFlight j := by
  rcases hflight with hwaiting | hclaimed | hfinished
  · exact .inr (.inl (h.waiting hs hwaiting))
  · exact .inr (h.claimed hs hclaimed)
  · exact absurd h (TakeAnswer.not_of_empty hs hfinished.answer hfinished.claim)

theorem TakeAnswer.gone (hs : s.Ok) (h : TakeAnswer s s') (hgone : s.Claimed j ∨ s.Finished j) :
    s'.Claimed j ∨ s'.Finished j := by
  rcases hgone with hclaimed | hfinished
  · exact h.claimed hs hclaimed
  · exact absurd h (TakeAnswer.not_of_empty hs hfinished.answer hfinished.claim)

/-- The host keeps what a call knows in any phase. -/
theorem TakeAnswer.phaseOk (hs : s.Ok) (h : TakeAnswer s s') {phase : ReplyPhase} (hphase : s.PhaseOk j phase) :
    s'.PhaseOk j phase := by
  cases phase with
  | start => exact h.fresh hs hphase
  | locked => exact ⟨h.fresh hs hphase.1, h.answer_eq_none hphase.2⟩
  | settled => exact absurd h (TakeAnswer.not_of_empty hs hphase.2.1 hphase.2.2)
  | cleared => exact absurd h (TakeAnswer.not_of_empty hs hphase.2.1 hphase.2.2.1)
  | staged => exact absurd h (TakeAnswer.not_of_empty hs hphase.2.1 hphase.2.2.1)
  | posted => exact h.inFlight hs hphase
  | pending => exact h.inFlight hs hphase
  | timedOut => exact h.inFlight hs hphase
  | answerGone => exact h.gone hs hphase
  | notRemoved => exact h.gone hs hphase
  | withdrawn => exact ⟨h.fresh hs hphase.1, h.answer_eq_none hphase.2⟩
  | finished => exact absurd h (TakeAnswer.not_of_empty hs hphase.answer hphase.claim)
  | told message => exact ⟨h.answer_eq_none hphase.1, h.log_mono _ hphase.2⟩
  | done result =>
    cases result with
    | answered => exact h.log_mono _ hphase
    | refused message => exact h.log_mono _ hphase
    | lockTimeout => exact h.fresh hs hphase
    | earlierAnswer => exact h.fresh hs hphase
    | notPickedUp => exact h.fresh hs hphase
    | outcomeUnknown => trivial

/-- What the other calls and the host leave a call. -/
structure ReplyRely (j : ι) (s s' : ReplyFiles ι) : Prop where
  log : ∀ e ∈ s.log, e ∈ s'.log
  fresh : s.Fresh j → s'.Fresh j
  lock : s'.lock = some j ↔ s.lock = some j
  held : s.lock = some j → s' = s ∨ s.Ok ∧ TakeAnswer s s'

/-- The id of a call, the lock and its phase. -/
structure ReplyOwn (i : ι) (s : ReplyFiles ι) (call : ReplyCall ι) : Prop where
  id : call.id = i
  lock : call.phase.Holds ↔ s.lock = some i
  phase : s.PhaseOk i call.phase

theorem ReplyRely.refl (j : ι) (s : ReplyFiles ι) : ReplyRely j s s :=
  ⟨fun _ he => he, fun h => h, Iff.rfl, fun _ => .inl rfl⟩

/-- A call with the lock is left alone by the others. -/
theorem ReplyRely.of_holder (hlock : s.lock = some i) (hji : j ≠ i) (hlock' : s'.lock ≠ some j) (hlog : s'.log = s.log)
    (hfresh : s.Fresh j → s'.Fresh j) : ReplyRely j s s' := by
  have hother : s.lock ≠ some j := by
    rw [hlock]
    intro hsame
    exact hji (Option.some.inj hsame).symm
  exact ⟨fun e he => hlog ▸ he, hfresh, iff_of_false hlock' hother, fun hheld => absurd hheld hother⟩

theorem ReplyOwn.stable {call : ReplyCall ι} (hrely : ReplyRely j s s') (hown : ReplyOwn j s call) :
    ReplyOwn j s' call := by
  refine ⟨hown.id, hown.lock.trans hrely.lock.symm, ?_⟩
  have hphase := hown.phase
  by_cases hholds : call.phase.Holds
  · rcases hrely.held (hown.lock.mp hholds) with heq | ⟨hok, hstep⟩
    · rw [heq]
      exact hphase
    · exact hstep.phaseOk hok hphase
  · cases hcase : call.phase with
    | start =>
      rw [hcase] at hphase
      exact hrely.fresh hphase
    | done result =>
      rw [hcase] at hphase
      cases result with
      | answered => exact hrely.log _ hphase
      | refused message => exact hrely.log _ hphase
      | lockTimeout => exact hrely.fresh hphase
      | earlierAnswer => exact hrely.fresh hphase
      | notPickedUp => exact hrely.fresh hphase
      | outcomeUnknown => trivial
    | _ =>
      rw [hcase] at hholds
      exact absurd trivial hholds

/-- The host keeps the files in order and leaves every call what it relies on. -/
theorem TakeAnswer.guarantee (hs : s.Ok) (h : TakeAnswer s s') : s'.Ok ∧ ∀ j, ReplyRely j s s' :=
  ⟨h.ok hs, fun _ => ⟨h.log_mono, h.fresh hs, by rw [h.lock_eq], fun _ => .inr ⟨hs, h⟩⟩⟩

/-- What a call gives the others after an operation. -/
def ReplyGuarantee (i : ι) (s s' : ReplyFiles ι) (phase : ReplyPhase) : Prop :=
  s'.Ok ∧ ReplyOwn i s' ⟨i, phase⟩ ∧ ∀ j, j ≠ i → ReplyRely j s s'

theorem guarantee_of_eq {phase : ReplyPhase} (hs : s.Ok) (hlock : phase.Holds ↔ s.lock = some i)
    (hphase : s.PhaseOk i phase) : ReplyGuarantee i s s phase :=
  ⟨hs, ⟨rfl, hlock, hphase⟩, fun j _ => .refl j s⟩

/-- The call keeps the lock. -/
theorem guarantee_of_held {phase : ReplyPhase} (hlock : s.lock = some i) (hok : s'.Ok) (hlock' : s'.lock = some i)
    (hholds : phase.Holds) (hlog : s'.log = s.log) (hfresh : ∀ j, j ≠ i → s.Fresh j → s'.Fresh j)
    (hphase : s'.PhaseOk i phase) : ReplyGuarantee i s s' phase := by
  refine ⟨hok, ⟨rfl, iff_of_true hholds hlock', hphase⟩, fun j hji => ?_⟩
  apply ReplyRely.of_holder hlock hji _ hlog (hfresh j hji)
  rw [hlock']
  intro hsame
  exact hji (Option.some.inj hsame).symm

/-- The call returns and gives the lock back. -/
theorem guarantee_of_released {result : ReplyResult} (hlock : s.lock = some i) (hok : s'.Ok) (hlock' : s'.lock = none)
    (hlog : s'.log = s.log) (hfresh : ∀ j, j ≠ i → s.Fresh j → s'.Fresh j)
    (hphase : s'.PhaseOk i (.done result)) : ReplyGuarantee i s s' (.done result) := by
  have hnone : ∀ j, s'.lock ≠ some j := by
    intro j hsome
    rw [hlock'] at hsome
    cases hsome
  exact ⟨hok, ⟨rfl, iff_of_false id (hnone i), hphase⟩,
    fun j hji => ReplyRely.of_holder hlock hji (hnone j) hlog (hfresh j hji)⟩

theorem ReplyFiles.Ok.withLock (hs : s.Ok) (lock : Option ι) (h : lock = none → s.answer = none) :
    ({ s with lock := lock } : ReplyFiles ι).Ok := ⟨hs.host, h, hs.new, hs.once⟩

theorem ReplyFiles.Fresh.of_same (h : s.Fresh j) (hanswer : s'.answer = s.answer) (hclaim : s'.claim = s.claim)
    (hlog : s'.log = s.log) : s'.Fresh j := by
  refine ⟨hanswer ▸ h.answer, hclaim ▸ h.claim, ?_⟩
  rw [Handled, hlog]
  exact h.log

/-- Only the host takes an answer away, so the claim or its outcome is there. -/
theorem ReplyFiles.InFlight.of_no_answer (h : s.InFlight i) (hanswer : s.answer = none) :
    s.Claimed i ∨ s.Finished i := by
  rcases h with hwaiting | hgone
  · rw [hwaiting.answer] at hanswer
    cases hanswer
  · exact hgone

theorem ReplyFiles.finished_of_no_claim (h : s.Claimed i ∨ s.Finished i) (hclaim : s.claim = none) :
    s.Finished i := by
  rcases h with hclaimed | hfinished
  · rw [hclaimed.claim] at hclaim
    cases hclaim
  · exact hfinished

/-- The lock was free, so no other call loses it. -/
theorem guarantee_of_lock (hs : s.Ok) (hfresh : s.Fresh i) (hfree : s.lock = none) :
    ReplyGuarantee i s { s with lock := some i } .locked := by
  have hok : ({ s with lock := some i } : ReplyFiles ι).Ok := hs.withLock _ fun hnone => absurd hnone (Option.some_ne_none _)
  refine ⟨hok, ⟨rfl, iff_of_true trivial rfl, hfresh.of_same rfl rfl rfl, hs.unlocked hfree⟩, ?_⟩
  intro j hji
  have hother : s.lock ≠ some j := by
    rw [hfree]
    exact (Option.some_ne_none j).symm
  exact {
    log := fun e he => he
    fresh := fun hfresh => hfresh.of_same rfl rfl rfl
    lock := iff_of_false (fun hsame => hji (Option.some.inj hsame).symm) hother
    held := fun hheld => absurd hheld hother }

/-- A call that leaves answer, claim and log alone gives the lock back. -/
theorem guarantee_of_unlock {result : ReplyResult} (hs : s.Ok) (hlock : s.lock = some i) (hanswer : s.answer = none)
    (hphase : ({ s with lock := none } : ReplyFiles ι).PhaseOk i (.done result)) :
    ReplyGuarantee i s { s with lock := none } (.done result) :=
  guarantee_of_released hlock (hs.withLock none fun _ => hanswer) rfl rfl
    (fun _ _ hfresh => hfresh.of_same rfl rfl rfl) hphase

theorem guarantee_of_clear (hs : s.Ok) (hlock : s.lock = some i) (hphase : s.PhaseOk i .settled) :
    ReplyGuarantee i s { s with error := none } .cleared :=
  guarantee_of_held hlock ⟨hs.host, hs.unlocked, hs.new, hs.once⟩ hlock trivial rfl
    (fun _ _ hfresh => hfresh.of_same rfl rfl rfl) ⟨hphase.1.of_same rfl rfl rfl, hphase.2.1, hphase.2.2, rfl⟩

theorem guarantee_of_stage (hs : s.Ok) (hlock : s.lock = some i) (hphase : s.PhaseOk i .cleared) :
    ReplyGuarantee i s { s with staging := some i } .staged :=
  guarantee_of_held hlock ⟨hs.host, hs.unlocked, hs.new, hs.once⟩ hlock trivial rfl
    (fun _ _ hfresh => hfresh.of_same rfl rfl rfl)
    ⟨hphase.1.of_same rfl rfl rfl, hphase.2.1, hphase.2.2.1, hphase.2.2.2, rfl⟩

/-- The rename puts the staged answer in place, and this call is its writer. -/
theorem guarantee_of_post (hs : s.Ok) (hlock : s.lock = some i) (hphase : s.PhaseOk i .staged) :
    ReplyGuarantee i s { s with answer := s.staging, staging := none } .posted := by
  obtain ⟨hfresh, hanswer, hclaim, herror, hstaging⟩ := hphase
  have hok : ({ s with answer := s.staging, staging := none } : ReplyFiles ι).Ok := {
    host := hs.host
    unlocked := fun hnone => absurd (hlock.symm.trans hnone) (Option.some_ne_none _)
    new := by
      intro k hk
      have hsame : i = k := Option.some.inj (hstaging.symm.trans hk)
      rw [← hsame]
      exact ⟨hfresh.log, hfresh.claim⟩
    once := hs.once }
  refine guarantee_of_held hlock hok hlock trivial rfl ?_ ?_
  · intro j hji hother
    exact ⟨fun hsame => hji (Option.some.inj (hstaging.symm.trans hsame)).symm, hother.claim, hother.log⟩
  · exact .inl ⟨hstaging, hclaim, herror, hfresh.log⟩

/-- The answer is still in place, so the host has seen none of it. -/
theorem guarantee_of_withdraw (hs : s.Ok) (hlock : s.lock = some i) (hflight : s.InFlight i)
    (hanswer : s.answer ≠ none) : ReplyGuarantee i s { s with answer := none } .withdrawn := by
  have hok : ({ s with answer := none } : ReplyFiles ι).Ok := {
    host := hs.host
    unlocked := fun _ => rfl
    new := fun k hnone => absurd hnone (Option.not_mem_none k)
    once := hs.once }
  refine guarantee_of_held hlock hok hlock trivial rfl ?_ ?_
  · intro j _ hfresh
    exact ⟨fun hnone => Option.some_ne_none _ hnone.symm, hfresh.claim, hfresh.log⟩
  · rcases hflight with hwaiting | hclaimed | hfinished
    · refine ⟨⟨fun hnone => Option.some_ne_none _ hnone.symm, ?_, hwaiting.log⟩, rfl⟩
      intro hclaim
      exact absurd (hwaiting.claim.symm.trans hclaim) (Option.some_ne_none _).symm
    · exact absurd hclaimed.answer hanswer
    · exact absurd hfinished.answer hanswer

/-- The message that is read is the one of this call. -/
theorem guarantee_of_readError {message : String} (hs : s.Ok) (hlock : s.lock = some i) (hfinished : s.Finished i)
    (herror : s.error = some message) : ReplyGuarantee i s s (.told message) := by
  refine guarantee_of_eq hs (iff_of_true trivial hlock) ⟨hfinished.answer, ?_⟩
  rcases hfinished.error with ⟨verdict, hlog, hmessage⟩
  cases verdict with
  | taken =>
    rw [herror] at hmessage
    cases hmessage
  | refused other =>
    have hsame : message = other := Option.some.inj (herror.symm.trans hmessage)
    rw [hsame]
    exact hlog

theorem guarantee_of_noError (hs : s.Ok) (hlock : s.lock = some i) (hfinished : s.Finished i)
    (herror : s.error = none) : ReplyGuarantee i s { s with lock := none } (.done .answered) := by
  apply guarantee_of_unlock hs hlock hfinished.answer
  rcases hfinished.error with ⟨verdict, hlog, hmessage⟩
  cases verdict with
  | taken => exact hlog
  | refused other =>
    rw [herror] at hmessage
    cases hmessage

/-- So does every operation of a call. -/
theorem ReplyMove.guarantee {phase : ReplyPhase} {call' : ReplyCall ι} (hs : s.Ok)
    (hlock : phase.Holds ↔ s.lock = some i) (hphase : s.PhaseOk i phase) (h : ReplyMove s ⟨i, phase⟩ s' call') :
    call'.id = i ∧ ReplyGuarantee i s s' call'.phase := by
  constructor
  · cases h <;> rfl
  cases h with
  | lock hfree => exact guarantee_of_lock hs hphase hfree
  | lockTimeout | answerExists | poll | timeout => exact guarantee_of_eq hs hlock hphase
  | settle hclaim => exact guarantee_of_eq hs hlock ⟨hphase.1, hphase.2, hclaim⟩
  -- a claim that stays is left alone, and the call gives up
  | settleTimeout =>
    exact guarantee_of_unlock hs (hlock.mp trivial) hphase.2 (hphase.1.of_same rfl rfl rfl)
  | clear => exact guarantee_of_clear hs (hlock.mp trivial) hphase
  | stage => exact guarantee_of_stage hs (hlock.mp trivial) hphase
  | post => exact guarantee_of_post hs (hlock.mp trivial) hphase
  | answerGone hanswer | notRemoved hanswer => exact guarantee_of_eq hs hlock (hphase.of_no_answer hanswer)
  | claimExists => exact guarantee_of_eq hs hlock (.inr hphase)
  | claimGone hclaim | finishedLate hclaim =>
    exact guarantee_of_eq hs hlock (ReplyFiles.finished_of_no_claim hphase hclaim)
  | withdraw hanswer => exact guarantee_of_withdraw hs (hlock.mp trivial) hphase hanswer
  | notPickedUp =>
    exact guarantee_of_unlock hs (hlock.mp trivial) hphase.2 (hphase.1.of_same rfl rfl rfl)
  -- the claim is still open when the wait ends, so nothing is said of the outcome
  | outcomeUnknown =>
    have hanswer : s.answer = none := hphase.elim (·.answer) (·.answer)
    exact guarantee_of_unlock hs (hlock.mp trivial) hanswer trivial
  | readError herror => exact guarantee_of_readError hs (hlock.mp trivial) hphase herror
  | noError herror => exact guarantee_of_noError hs (hlock.mp trivial) hphase herror
  | clearError =>
    exact guarantee_of_released (hlock.mp trivial) ⟨hs.host, fun _ => hphase.1, hs.new, hs.once⟩ rfl rfl
      (fun _ _ hfresh => hfresh.of_same rfl rfl rfl) hphase.2

theorem ReplyMove.not_done {call call' : ReplyCall ι} (h : ReplyMove s call s' call') (result : ReplyResult) :
    call.phase ≠ .done result := by
  intro hdone
  cases h
  all_goals cases hdone

/-- What each operation leaves the other parties. -/
theorem reply_protocol : Interleaving.Protocol ReplyMove TakeAnswer ReplyFiles.Ok
    (fun (i : ι) s call => ReplyOwn i s call) fun j s s' => ReplyRely j s s' where
  stable hrely _ hown := hown.stable hrely
  move := by
    intro i s call s' call' hs hown h
    cases call with
    | mk id phase =>
      have hid := hown.id
      dsimp only at hid
      subst hid
      have hmove := h.guarantee hs hown.lock hown.phase
      refine ⟨hmove.2.1, ⟨hmove.1, hmove.2.2.1.lock, hmove.2.2.1.phase⟩, hmove.2.2.2⟩
  outside hs h := h.guarantee hs

section Runs

variable [DecidableEq ι] {error : Option String} {staging : Option ι}
  {w w' : Interleaving.World ι (ReplyFiles ι) (ReplyCall ι)}

theorem ok_of_run (h : ReplyRun (replyStart error staging) w) :
    w.shared.Ok ∧ ∀ i, ReplyOwn i w.shared (w.party i) := by
  apply reply_protocol.run _ _ h
  · exact {
      host := rfl
      unlocked := fun _ => rfl
      new := fun k hnone => absurd hnone (Option.not_mem_none k)
      once := List.nodup_nil }
  · intro i
    have hfresh : (replyStart error staging).shared.Fresh i := {
      answer := fun hnone => Option.some_ne_none _ hnone.symm
      claim := fun hnone => Option.some_ne_none _ hnone.symm
      log := fun hlog => absurd hlog.choose_spec List.not_mem_nil }
    exact ⟨rfl, iff_of_false id fun hnone => Option.some_ne_none _ hnone.symm, hfresh⟩

/-- A call that has returned does nothing more. -/
theorem done_of_run (h : ReplyRun w w') {result : ReplyResult} (hdone : (w.party i).phase = .done result) :
    (w'.party i).phase = .done result := by
  induction h with
  | refl => exact hdone
  | tail _ hstep ih =>
    cases hstep with
    | outside => exact ih
    | @move k s call hmove =>
      by_cases hik : i = k
      · subst hik
        exact absurd ih (hmove.not_done result)
      · dsimp only
        rw [Function.update_of_ne hik]
        exact ih

/-- Each answer is handled at most once, and a call is told what became of its own. -/
theorem told_own_outcome (h : ReplyRun (replyStart error staging) w) :
    (w.shared.log.map Prod.fst).Nodup ∧
    (∀ i, (w.party i).phase = .done .answered → ∀ verdict, (i, verdict) ∈ w.shared.log ↔ verdict = .taken) ∧
    (∀ i message, (w.party i).phase = .done (.refused message) →
      ∀ verdict, (i, verdict) ∈ w.shared.log ↔ verdict = .refused message) ∧
    (∀ i, (w.party i).phase = .done .notPickedUp → ∀ w', ReplyRun w w' → ∀ verdict, (i, verdict) ∉ w'.shared.log) ∧
    ∀ i, (w.party i).phase = .done .outcomeUnknown → ∀ w', ReplyRun w w' → ∀ j,
      ((w'.party j).phase = .done .answered → (j, .taken) ∈ w'.shared.log ∧ j ≠ i) ∧
        ∀ message, (w'.party j).phase = .done (.refused message) → (j, .refused message) ∈ w'.shared.log ∧ j ≠ i := by
  have hrun := ok_of_run h
  have hsame : ∀ i verdict verdict', (i, verdict) ∈ w.shared.log → (i, verdict') ∈ w.shared.log →
      verdict = verdict' := by
    intro i verdict verdict' hmem hmem'
    exact congrArg Prod.snd (List.inj_on_of_nodup_map hrun.1.once hmem hmem' rfl)
  refine ⟨hrun.1.once, ?_, ?_, ?_, ?_⟩
  · intro i hdone verdict
    have hphase := (hrun.2 i).phase
    rw [hdone] at hphase
    constructor
    · intro hmem
      exact hsame i _ _ hmem hphase
    · intro htaken
      rw [htaken]
      exact hphase
  · intro i message hdone verdict
    have hphase := (hrun.2 i).phase
    rw [hdone] at hphase
    constructor
    · intro hmem
      exact hsame i _ _ hmem hphase
    · intro hrefused
      rw [hrefused]
      exact hphase
  · intro i hdone w' hlater verdict hmem
    have hphase := ((ok_of_run (h.trans hlater)).2 i).phase
    rw [done_of_run hlater hdone] at hphase
    exact hphase.log ⟨verdict, hmem⟩
  · intro i hdone w' hlater j
    have hunknown := done_of_run hlater hdone
    have hphase := ((ok_of_run (h.trans hlater)).2 j).phase
    constructor
    · intro hanswered
      rw [hanswered] at hphase
      refine ⟨hphase, ?_⟩
      rintro rfl
      rw [hunknown] at hanswered
      cases hanswered
    · intro message hrefused
      rw [hrefused] at hphase
      refine ⟨hphase, ?_⟩
      rintro rfl
      rw [hunknown] at hrefused
      cases hrefused

end Runs

/-- A call gives up on a slow host, and another waits for the claim to go. The host refuses the first
answer with the second call at the lock, and takes the second. -/
theorem told_own_outcome_two_calls : ∃ w : Interleaving.World ℕ (ReplyFiles ℕ) (ReplyCall ℕ),
    ReplyRun (replyStart (some "old") (some 7)) w ∧
      (w.party 0).phase = .done .outcomeUnknown ∧ (0, .refused "stale") ∈ w.shared.log ∧
      (w.party 1).phase = .done .answered ∧
      (∀ verdict, (1, verdict) ∈ w.shared.log ↔ verdict = .taken) ∧
      (w.shared.log.map Prod.fst).Nodup := by
  have hstart : ReplyRun (replyStart (some "old") (some 7)) (replyStart (some "old") (some 7)) := .refl
  have hlock := hstart.tail (.move 0 (.lock rfl))
  have hsettle := hlock.tail (.move 0 (.settle rfl))
  have hclear := hsettle.tail (.move 0 .clear)
  have hstage := hclear.tail (.move 0 .stage)
  have hpost := hstage.tail (.move 0 .post)
  have hclaim := hpost.tail (.outside (.claim rfl rfl))
  have hgone := hclaim.tail (.move 0 (.answerGone rfl))
  have hpending := hgone.tail (.move 0 (.claimExists nofun))
  have htimeout := hpending.tail (.move 0 .timeout)
  have hnot := htimeout.tail (.move 0 (.notRemoved rfl))
  have hunknown := hnot.tail (.move 0 (.outcomeUnknown nofun))
  -- the host still holds the claim of the first call
  have hlock₁ := hunknown.tail (.move 1 (.lock rfl))
  have hread := hlock₁.tail (.outside (.read rfl rfl))
  have hhandle := hread.tail (.outside (.handle rfl (.refused "stale")))
  have hrefuse := hhandle.tail (.outside (.refused rfl))
  have hclose := hrefuse.tail (.outside (.close rfl))
  have hsettle₁ := hclose.tail (.move 1 (.settle rfl))
  have hclear₁ := hsettle₁.tail (.move 1 .clear)
  have hstage₁ := hclear₁.tail (.move 1 .stage)
  have hpost₁ := hstage₁.tail (.move 1 .post)
  have hclaim₁ := hpost₁.tail (.outside (.claim rfl rfl))
  have hgone₁ := hclaim₁.tail (.move 1 (.answerGone rfl))
  have hread₁ := hgone₁.tail (.outside (.read rfl rfl))
  have hhandle₁ := hread₁.tail (.outside (.handle rfl .taken))
  have htaken₁ := hhandle₁.tail (.outside (.taken rfl))
  have hclose₁ := htaken₁.tail (.outside (.close rfl))
  have hfinish₁ := hclose₁.tail (.move 1 (.claimGone rfl))
  have hdone := hfinish₁.tail (.move 1 (.noError rfl))
  have htold := told_own_outcome hdone
  exact ⟨_, hdone, rfl, List.mem_cons_self, rfl, htold.2.1 1 rfl, htold.1⟩

end Ralph.Worker
