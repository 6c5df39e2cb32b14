import Ralph.Wire.DiffSegments

namespace Ralph.Wire.Diff
open CommonPrefix

section Max

variable {α : Type*} (key : α → ℕ)

theorem maxByKey_concat (xs : List α) (x : α) : maxByKey key (xs ++ [x]) =
    match maxByKey key xs with
    | none => some x
    | some b => if key b ≤ key x then some x else some b := by
  rw [maxByKey, List.foldl_concat]
  rfl

theorem maxByKey_split (xs : List α) :
    (maxByKey key xs = none ∧ xs = []) ∨ ∃ before m after, maxByKey key xs = some m ∧ xs = before ++ m :: after ∧
      (∀ x ∈ before, key x ≤ key m) ∧ ∀ x ∈ after, key x < key m := by
  induction xs using List.reverseRecOn with
  | nil => exact .inl ⟨rfl, rfl⟩
  | append_singleton xs x ih =>
    rw [maxByKey_concat]
    right
    obtain ⟨hnone, hnil⟩ | ⟨before, m, after, hm, hxs, hbefore, hafter⟩ := ih
    · rw [hnone, hnil]
      exact ⟨[], x, [], rfl, rfl, List.forall_mem_nil _, List.forall_mem_nil _⟩
    · rw [hm]
      dsimp only
      split_ifs with hle
      · refine ⟨xs, x, [], rfl, rfl, fun y hy => ?_, List.forall_mem_nil _⟩
        rw [hxs, List.mem_append, List.mem_cons] at hy
        obtain hy | rfl | hy := hy
        · exact (hbefore y hy).trans hle
        · exact hle
        · exact (hafter y hy).le.trans hle
      · refine ⟨before, m, after ++ [x], rfl, by rw [hxs, List.append_assoc, List.cons_append], hbefore, ?_⟩
        intro y hy
        rw [List.mem_append, List.mem_singleton] at hy
        obtain hy | rfl := hy
        · exact hafter y hy
        · exact not_le.mp hle

end Max

section Calls

variable {Amount : Type} (arith : Arith) {input : Pair Amount} {through : ℕ} {bSegments : List PromptSegment}
  {cache : PrefixCache}

/-- A call from `a` up to `b` that wrote or read the entry through a segment of `b`. -/
structure Touches (input : Pair Amount) (through : ℕ) (bSegments : List PromptSegment) (cache : PrefixCache)
    (call : CallRecord Amount) : Prop where
  member : call ∈ input.session
  from_a : input.a.seq ≤ call.seq
  before_b : call.seq < input.b.seq
  inference : call.kind = .inference
  shares : ∃ segments, segmentsOf input.provider call = some segments ∧ Shares through bSegments segments ∧
    ∀ lookback, cache = .explicit lookback → reaches segments through lookback

/-- The touch with the highest number, the last one in the session's order. -/
structure Newest (input : Pair Amount) (through : ℕ) (bSegments : List PromptSegment) (cache : PrefixCache)
    (call : CallRecord Amount) : Prop where
  touches : Touches input through bSegments cache call
  highest : ∃ before after, input.session = before ++ call :: after ∧
    (∀ c ∈ before, Touches input through bSegments cache c → c.seq ≤ call.seq) ∧
    ∀ c ∈ after, Touches input through bSegments cache c → c.seq < call.seq

theorem Newest.unique {call call' : CallRecord Amount} (h : Newest input through bSegments cache call)
    (h' : Newest input through bSegments cache call') : call = call' := by
  obtain ⟨before, after, hsession, hbefore, hafter⟩ := h.highest
  obtain ⟨before', after', hsession', hbefore', hafter'⟩ := h'.highest
  rw [hsession] at hsession'
  obtain ⟨mid, hmid, hrest⟩ | ⟨mid, hmid, hrest⟩ := List.append_eq_append_iff.mp hsession'
  · cases mid with
    | nil => exact (List.cons.inj hrest).1
    | cons c mid =>
      -- `call` stands in front of `call'`
      obtain ⟨rfl, hmore⟩ := List.cons.inj hrest
      have hle := hbefore' call (by rw [hmid]; exact List.mem_append_right _ List.mem_cons_self) h.touches
      have hlt := hafter call' (hmore ▸ List.mem_append_right _ List.mem_cons_self) h'.touches
      exact absurd hle (not_le.mpr hlt)
  · cases mid with
    | nil => exact (List.cons.inj hrest).1.symm
    | cons c mid =>
      obtain ⟨rfl, hmore⟩ := List.cons.inj hrest
      have hle := hbefore call' (by rw [hmid]; exact List.mem_append_right _ List.mem_cons_self) h'.touches
      have hlt := hafter' call (hmore ▸ List.mem_append_right _ List.mem_cons_self) h.touches
      exact absurd hle (not_le.mpr hlt)

theorem touches_eq (h : through < bSegments.length) (cache : PrefixCache) (segments : List PromptSegment) :
    ∃ touch, touches cache through bSegments segments = some touch ∧
      (touch = true ↔ Shares through bSegments segments ∧
        ∀ lookback, cache = .explicit lookback → reaches segments through lookback) := by
  rw [touches.eq_def, sharesThrough_eq h, Option.map_some]
  refine ⟨_, rfl, ?_⟩
  rw [Bool.and_eq_true, decide_eq_true_eq]
  cases cache with
  | explicit lookback =>
    refine and_congr_right fun _ => ⟨fun hreach lookback' heq => ?_, fun hreach => hreach lookback rfl⟩
    rw [← PrefixCache.explicit.inj heq]
    exact hreach
  | implicit tier minTokens =>
    exact and_congr_right fun _ => iff_of_true rfl fun lookback heq => PrefixCache.noConfusion heq

open Classical in
/-- The calls that `last_touch` goes through are the touches. -/
theorem lastTouch_eq (h : through < bSegments.length) (input : Pair Amount) (cache : PrefixCache) :
    lastTouch input through bSegments cache =
      some ((maxByKey CallRecord.seq
        (input.session.filter fun call => Touches input through bSegments cache call)).getD input.a) := by
  -- no touch is out of bounds, so the pass over the session does not panic
  have htouch := fun segments => touches_eq h cache segments
  choose touch htouch hiff using htouch
  have hof : ∀ call, touchOf input through bSegments cache call =
      some ((segmentsOf input.provider call).bind fun segments => if touch segments then some call else none) := by
    intro call
    rw [touchOf]
    cases segmentsOf input.provider call with
    | none => rfl
    | some segments =>
      dsimp only
      rw [htouch, Option.map_some, Option.bind_some]
  rw [lastTouch, filterMapSome_eq fun call _ => hof call, Option.map_some, List.filterMap_filter]
  congr 3
  rw [← List.filterMap_eq_filter]
  apply List.filterMap_congr
  intro call hcall
  -- the numbers and the kind are checked first, the prompt behind them
  rw [Option.guard_apply]
  split_ifs with hrange htouches htouches
  · obtain ⟨segments, hsegments, hshares⟩ := (of_decide_eq_true htouches).shares
    rw [hsegments, Option.bind_some, if_pos ((hiff segments).mpr hshares)]
  · cases hsegments : segmentsOf input.provider call with
    | none => rfl
    | some segments =>
      rw [Option.bind_some, if_neg]
      intro ht
      rw [Bool.and_eq_true, Bool.and_eq_true, decide_eq_true_eq, decide_eq_true_eq, beq_iff_eq] at hrange
      exact htouches (decide_eq_true
        ⟨hcall, hrange.1.1, hrange.1.2, hrange.2, segments, hsegments, (hiff segments).mp ht⟩)
  · have ht := of_decide_eq_true htouches
    refine absurd ?_ hrange
    rw [Bool.and_eq_true, Bool.and_eq_true, decide_eq_true_eq, decide_eq_true_eq, beq_iff_eq]
    exact ⟨⟨ht.from_a, ht.before_b⟩, ht.inference⟩
  · rfl

open Classical in
theorem lastTouch_newest (h : through < bSegments.length) (ha : Touches input through bSegments cache input.a) :
    ∃ touch, lastTouch input through bSegments cache = some touch ∧ Newest input through bSegments cache touch := by
  rw [lastTouch_eq h]
  obtain ⟨-, hnil⟩ | ⟨before, m, after, hm, hsplit, hbefore, hafter⟩ := maxByKey_split CallRecord.seq
    (input.session.filter fun call => Touches input through bSegments cache call)
  · have hmem : input.a ∈ input.session.filter fun call => Touches input through bSegments cache call :=
      List.mem_filter.mpr ⟨ha.member, decide_eq_true ha⟩
    rw [hnil] at hmem
    exact absurd hmem List.not_mem_nil
  · rw [hm, Option.getD_some]
    obtain ⟨before', rest, hsession, hb, hrest⟩ := List.filter_eq_append_iff.mp hsplit
    obtain ⟨mid, after', hmid, hno, hmt, ha'⟩ := List.filter_eq_cons_iff.mp hrest
    refine ⟨m, rfl, of_decide_eq_true hmt, before' ++ mid, after', ?_, fun c hc ht => ?_, fun c hc ht => ?_⟩
    · rw [hsession, hmid, List.append_assoc]
    · rw [List.mem_append] at hc
      obtain hc | hc := hc
      · exact hbefore c (hb ▸ List.mem_filter.mpr ⟨hc, decide_eq_true ht⟩)
      · exact absurd (decide_eq_true ht) (hno c hc)
    · exact hafter c (ha' ▸ List.mem_filter.mpr ⟨hc, decide_eq_true ht⟩)

/-- The earlier call of the pair is a touch of the entry that it wrote. -/
theorem touches_base {prompts : Prompts} {bp : Breakpoint} (ha : input.a ∈ input.session)
    (hpair : checkPair (some input.a) input.b = .ok ())
    (hprompts : promptsOf input.provider input.a input.b = some prompts)
    (hbp : servableBreakpoint prompts (sharedPrefix prompts.a prompts.b) = some (some bp)) :
    Touches input bp.index prompts.b prompts.prefixCache input.a := by
  rw [checkPair] at hpair
  split_ifs at hpair with hb hkind hseq
  obtain ⟨hlea, -⟩ := sharedPrefix_le prompts.a prompts.b
  obtain ⟨served, hserved, hinside⟩ := servableBreakpoint_spec prompts hlea
  have hlt : bp.index < sharedPrefix prompts.a prompts.b :=
    hinside bp (Option.some.inj (hserved.symm.trans hbp))
  obtain ⟨hindex, -, hcontents⟩ := le_sharedPrefix_iff.mp (Nat.succ_le_of_lt hlt)
  refine ⟨ha, le_rfl, not_le.mp hseq, not_not.mp hkind, prompts.a, ?_, ⟨hindex, hcontents⟩, fun lookback hcache => ?_⟩
  · rw [promptsOf] at hprompts
    rw [segmentsOf]
    cases haBody : input.a.requestBody with
    | base64 text => rw [haBody] at hprompts; cases hprompts
    | json aBody =>
      cases hbBody : input.b.requestBody with
      | base64 text => rw [haBody, hbBody] at hprompts; cases hprompts
      | json bBody =>
        rw [haBody, hbBody] at hprompts
        rw [← Option.some.inj hprompts]
  · rw [servableBreakpoint, upTo_of_le hlea, hcache, Option.map_some, Option.some_inj] at hbp
    obtain ⟨-, segment, hsegment, hmark⟩ := mem_marked (List.mem_of_find?_eq_some hbp)
    have hreach := List.find?_some hbp
    rw [List.getElem?_take_of_lt hlt] at hsegment
    cases lookback with
    | zero =>
      -- a window of no segments reaches nothing
      rw [reaches, List.take_zero] at hreach
      exact absurd hreach Bool.false_ne_true
    | succ lookback =>
      obtain ⟨hlength, heq⟩ := List.getElem?_eq_some_iff.mp hsegment
      rw [reaches, List.drop_eq_getElem_cons hlength, List.take_succ_cons, List.any_cons, heq, hmark,
        Option.isSome_some, Bool.true_or]

theorem changedVerdict_ne_ttl (input : Pair Amount) (facts : List FactDiff) (headers : List HeaderDiff)
    (gap : ℤ) (ttl since : ℕ) : changedVerdict input facts headers ≠ some (.ttlExpired gap ttl since) := by
  rw [changedVerdict]
  dsimp only
  split_ifs <;> intro h <;> cases h

theorem tooShortVerdict_ne_ttl (cache : PrefixCache) (servable : ℕ) (gap : ℤ) (ttl since : ℕ) :
    tooShortVerdict cache servable ≠ some (.ttlExpired gap ttl since) := by
  rw [tooShortVerdict.eq_def]
  split
  · split_ifs <;> intro h <;> cases h
  · intro h
    cases h

theorem lapseVerdict_ttl_iff {bp : Breakpoint} {gap : ℤ} {ttl since : ℕ} :
    lapseVerdict input bp bSegments cache = some (.ttlExpired gap ttl since) ↔
      bp.tier = .ttl ttl ∧ ∃ touch, lastTouch input bp.index bSegments cache = some touch ∧
        asI64 ttl < gapSecs input.b touch ∧ gap = gapSecs input.b touch ∧ since = touch.seq := by
  rw [lapseVerdict]
  cases htier : bp.tier with
  | unspecified =>
    refine iff_of_false (fun h => ?_) fun h => CacheTier.noConfusion h.1
    cases h
  | ttl seconds =>
    dsimp only
    rw [CacheTier.ttl.injEq, Option.map_eq_some_iff]
    constructor
    · rintro ⟨touch, htouch, hverdict⟩
      split_ifs at hverdict with hlapsed
      cases hverdict
      exact ⟨rfl, touch, htouch, hlapsed, rfl, rfl⟩
    · rintro ⟨hseconds, touch, htouch, hlapsed, hgap, hsince⟩
      refine ⟨touch, htouch, ?_⟩
      rw [hseconds, if_pos hlapsed, hgap, hsince]

theorem missVerdict_ttl_iff {facts : List FactDiff} {headers : List HeaderDiff} {prompts : Prompts} {bp : Breakpoint}
    {servable : ℕ} {gap : ℤ} {ttl since : ℕ} :
    missVerdict input facts headers prompts bp servable = some (.ttlExpired gap ttl since) ↔
      changedVerdict input facts headers = none ∧ tooShortVerdict prompts.prefixCache servable = none ∧
        lapseVerdict input bp prompts.b prompts.prefixCache = some (.ttlExpired gap ttl since) := by
  rw [missVerdict]
  cases hchanged : changedVerdict input facts headers with
  | some verdict =>
    refine iff_of_false (fun h => ?_) fun h => Option.some_ne_none _ h.1
    exact changedVerdict_ne_ttl input facts headers gap ttl since (hchanged.trans h)
  | none =>
    cases hshort : tooShortVerdict prompts.prefixCache servable with
    | some verdict =>
      refine iff_of_false (fun h => ?_) fun h => Option.some_ne_none _ h.2.1
      exact tooShortVerdict_ne_ttl prompts.prefixCache servable gap ttl since (hshort.trans h)
    | none => exact ⟨fun h => ⟨rfl, rfl, h⟩, fun h => h.2.2⟩

/-- The comparison comes down to the age of the entry: the call read fewer tokens than the cache
could serve, nothing that both sides record explains it, and the entry has this time to live. -/
structure ChecksTtl (input : Pair Amount) (prompts : Prompts) (bp : Breakpoint) (seconds : ℕ) : Prop where
  compared : promptsOf input.provider input.a input.b = some prompts
  served : servableBreakpoint prompts (sharedPrefix prompts.a prompts.b) = some (some bp)
  tier : bp.tier = .ttl seconds
  missed : ∃ usage servable method, countedUsage input.b = some usage ∧
    servableTokens arith input bp prompts.b (totalBytes (prompts.b.take (bp.index + 1))) usage =
      some (servable, method) ∧
    arith.agrees usage.cacheRead servable = false ∧ tooShortVerdict prompts.prefixCache servable = none
  unchanged : changedVerdict input (factDiffs arith input.a input.b)
    (headerDiffs input.provider input.a input.b) = none

theorem explain_ttl_iff {facts : List FactDiff} {headers : List HeaderDiff} {prompts : Prompts} {served : Verdict}
    {explanation : Explanation} {gap : ℤ} {ttl since : ℕ} (hserved : served ≠ .ttlExpired gap ttl since)
    (h : explain arith input facts headers prompts (sharedPrefix prompts.a prompts.b) served = some explanation) :
    explanation.verdict = .ttlExpired gap ttl since ↔ ∃ bp usage servable method,
      servableBreakpoint prompts (sharedPrefix prompts.a prompts.b) = some (some bp) ∧
      countedUsage input.b = some usage ∧
      servableTokens arith input bp prompts.b (totalBytes (prompts.b.take (bp.index + 1))) usage =
        some (servable, method) ∧
      arith.agrees usage.cacheRead servable = false ∧
      missVerdict input facts headers prompts bp servable = some (.ttlExpired gap ttl since) := by
  -- where a step of `explain` answers or fails early, neither side holds
  obtain ⟨hlea, hleb⟩ := sharedPrefix_le prompts.a prompts.b
  obtain ⟨bp, hbp, hinside⟩ := servableBreakpoint_spec prompts hlea
  rw [explain, hbp, Option.bind_some] at h
  cases bp with
  | none =>
    rw [← Option.some.inj h]
    refine iff_of_false Verdict.noConfusion ?_
    rintro ⟨bp, -, -, -, hsome, -⟩
    rw [hbp] at hsome
    exact absurd (Option.some.inj hsome).symm (Option.some_ne_none bp)
  | some bp =>
    have hlt : bp.index < prompts.b.length := (hinside bp rfl).trans_le hleb
    dsimp only at h
    rw [upTo_of_le hlt, Option.bind_some] at h
    cases husage : countedUsage input.b with
    | none =>
      rw [husage] at h
      rw [← Option.some.inj h]
      refine iff_of_false Verdict.noConfusion ?_
      rintro ⟨-, usage, -, -, -, hsome, -⟩
      exact absurd hsome.symm (Option.some_ne_none usage)
    | some usage =>
      rw [husage] at h
      dsimp only at h
      cases htokens : servableTokens arith input bp prompts.b (totalBytes (prompts.b.take (bp.index + 1))) usage with
      | none => rw [htokens] at h; cases h
      | some tokens =>
        obtain ⟨servable, method⟩ := tokens
        rw [htokens, Option.bind_some] at h
        obtain ⟨verdict, hverdict, rfl⟩ := Option.map_eq_some_iff.mp h
        dsimp only
        constructor
        · intro heq
          split_ifs at hverdict with hagrees
          -- enough was read: the verdict is the one for a served prefix
          · exact absurd ((Option.some.inj hverdict).trans heq) hserved
          · exact ⟨bp, usage, servable, method, hbp, rfl, htokens, Bool.eq_false_iff.mpr hagrees, heq ▸ hverdict⟩
        · rintro ⟨bp', usage', servable', method', hbp', husage', htokens', hagrees, hmiss⟩
          rw [hbp, Option.some_inj, Option.some_inj] at hbp'
          subst hbp'
          rw [Option.some_inj] at husage'
          subst husage'
          rw [htokens, Option.some_inj, Prod.mk.injEq] at htokens'
          rw [← htokens'.1] at hagrees hmiss
          rw [if_neg (by rw [hagrees]; exact Bool.false_ne_true), hmiss, Option.some_inj] at hverdict
          exact hverdict.symm

theorem verdict_ttl_iff {basePicked : Bool} {view : DiffView} {gap : ℤ} {ttl since : ℕ}
    (h : diffView arith ⟨some input.a, input.b, input.session, input.provider, basePicked⟩ = some view) :
    view.explanation.verdict = .ttlExpired gap ttl since ↔ ∃ prompts bp touch, ChecksTtl arith input prompts bp ttl ∧
      lastTouch input bp.index prompts.b prompts.prefixCache = some touch ∧ asI64 ttl < gapSecs input.b touch ∧
      gap = gapSecs input.b touch ∧ since = touch.seq := by
  rw [diffView] at h
  dsimp only at h
  cases hprompts : promptsOf input.provider input.a input.b with
  | none =>
    rw [hprompts] at h
    rw [← Option.some.inj h]
    refine iff_of_false Verdict.noConfusion ?_
    rintro ⟨prompts, bp, touch, hchecks, -⟩
    exact absurd (hchecks.compared.symm.trans hprompts) (Option.some_ne_none prompts)
  | some prompts =>
    rw [hprompts] at h
    obtain ⟨div, -, h⟩ := Option.bind_eq_some_iff.mp h
    obtain ⟨explanation, hexplain, rfl⟩ := Option.map_eq_some_iff.mp h
    have hserved : servedVerdict prompts (sharedPrefix prompts.a prompts.b) div ≠ .ttlExpired gap ttl since := by
      rw [servedVerdict.eq_def]
      split <;> exact Verdict.noConfusion
    dsimp only
    rw [explain_ttl_iff arith hserved hexplain]
    constructor
    · rintro ⟨bp, usage, servable, method, hbp, husage, htokens, hagrees, hmiss⟩
      obtain ⟨hchanged, hshort, hlapse⟩ := missVerdict_ttl_iff.mp hmiss
      obtain ⟨htier, touch, htouch⟩ := lapseVerdict_ttl_iff.mp hlapse
      exact ⟨prompts, bp, touch, ⟨hprompts, hbp, htier, ⟨usage, servable, method, husage, htokens, hagrees, hshort⟩,
        hchanged⟩, htouch⟩
    · rintro ⟨prompts', bp, touch, hchecks, htouch⟩
      obtain rfl := Option.some.inj (hprompts.symm.trans hchecks.compared)
      obtain ⟨usage, servable, method, husage, htokens, hagrees, hshort⟩ := hchecks.missed
      exact ⟨bp, usage, servable, method, hchecks.served, husage, htokens, hagrees,
        missVerdict_ttl_iff.mpr ⟨hchecks.unchanged, hshort, lapseVerdict_ttl_iff.mpr ⟨hchecks.tier, touch, htouch⟩⟩⟩

/-- A call that ended more than the time to live before `b` started. -/
def Outlived (ttl : ℕ) (b call : CallRecord Amount) : Prop :=
  (ttl : ℤ) * 1000000000 < b.startedAt - call.endedAt

/-- A touch that no other one ended after. -/
def LastInTime (input : Pair Amount) (through : ℕ) (bSegments : List PromptSegment) (cache : PrefixCache)
    (call : CallRecord Amount) : Prop :=
  Touches input through bSegments cache call ∧
    ∀ c, Touches input through bSegments cache c → c.endedAt ≤ call.endedAt

/-- Where the view says that the entry expired, every touch ended more than the time to live before,
and the gap and the number are those of the last one in time. -/
def Justified (input : Pair Amount) (view : DiffView) : Prop :=
  ∀ gap ttl since, view.explanation.verdict = .ttlExpired gap ttl since → ∃ prompts bp,
    promptsOf input.provider input.a input.b = some prompts ∧
    servableBreakpoint prompts (sharedPrefix prompts.a prompts.b) = some (some bp) ∧
    (∀ c, Touches input bp.index prompts.b prompts.prefixCache c → Outlived ttl input.b c) ∧
    ∃ last, LastInTime input bp.index prompts.b prompts.prefixCache last ∧
      gap = gapSecs input.b last ∧ since = last.seq

/-- Where the comparison comes down to the age of the entry and the touch with the highest number is
too old, that touch (or one under the same number, as many seconds before `b`) is the last in time,
and too old by the time to live itself. -/
def NewestEndsLast (input : Pair Amount) : Prop :=
  ∀ prompts bp ttl newest, ChecksTtl arith input prompts bp ttl →
    Newest input bp.index prompts.b prompts.prefixCache newest → asI64 ttl < gapSecs input.b newest →
    ∃ last, LastInTime input bp.index prompts.b prompts.prefixCache last ∧ last.seq = newest.seq ∧
      gapSecs input.b last = gapSecs input.b newest ∧ Outlived ttl input.b last

theorem ttl_justified_iff (input : Pair Amount) (basePicked : Bool) (ha : input.a ∈ input.session)
    (hpair : checkPair (some input.a) input.b = .ok ()) {view : DiffView}
    (hview : diffView arith ⟨some input.a, input.b, input.session, input.provider, basePicked⟩ = some view) :
    Justified input view ↔ NewestEndsLast arith input := by
  have hnewest : ∀ {prompts bp}, promptsOf input.provider input.a input.b = some prompts →
      servableBreakpoint prompts (sharedPrefix prompts.a prompts.b) = some (some bp) →
      ∃ touch, lastTouch input bp.index prompts.b prompts.prefixCache = some touch ∧
        Newest input bp.index prompts.b prompts.prefixCache touch := by
    intro prompts bp hprompts hbp
    obtain ⟨hlea, hleb⟩ := sharedPrefix_le prompts.a prompts.b
    obtain ⟨served, hserved, hinside⟩ := servableBreakpoint_spec prompts hlea
    have hlt := (hinside bp (Option.some.inj (hserved.symm.trans hbp))).trans_le hleb
    exact lastTouch_newest hlt (touches_base ha hpair hprompts hbp)
  constructor
  · intro hjustified prompts bp ttl newest hchecks hnew hold
    obtain ⟨touch, htouch, hnew'⟩ := hnewest hchecks.compared hchecks.served
    rw [hnew'.unique hnew] at htouch
    obtain ⟨prompts', bp', hprompts', hbp', hall, last, hlast, hgap, hseq⟩ := hjustified _ _ _
      ((verdict_ttl_iff arith hview).mpr ⟨prompts, bp, newest, hchecks, htouch, hold, rfl, rfl⟩)
    obtain rfl := Option.some.inj (hprompts'.symm.trans hchecks.compared)
    obtain rfl := Option.some.inj (Option.some.inj (hbp'.symm.trans hchecks.served))
    exact ⟨last, hlast, hseq.symm, hgap.symm, hall last hlast.1⟩
  · intro hends gap ttl since hverdict
    obtain ⟨prompts, bp, touch, hchecks, htouch, hold, hgap, hsince⟩ := (verdict_ttl_iff arith hview).mp hverdict
    obtain ⟨touch', htouch', hnew⟩ := hnewest hchecks.compared hchecks.served
    obtain rfl := Option.some.inj (htouch'.symm.trans htouch)
    obtain ⟨last, hlast, hseq, hgap', hout⟩ := hends prompts bp ttl touch' hchecks hnew hold
    refine ⟨prompts, bp, hchecks.compared, hchecks.served, fun c hc => ?_, last, hlast, hgap.trans hgap'.symm,
      hsince.trans hseq.symm⟩
    exact hout.trans_le (sub_le_sub_left (hlast.2 c hc) _)

end Calls

/-- The one cached prompt of two sessions of calls, kept for five minutes. -/
def cachedBlock : PromptSegment := ⟨"messages[0].content[0]", "head", "head", some fiveMin⟩

def oneBlock : Provider := ⟨fun _ => [cachedBlock], fun _ => .explicit 20, [], []⟩

/-- Nine tenths and shares without rounding errors. -/
def exactArith : Arith where
  sameValue := fun _ _ => true
  agrees := fun read servable => decide (9 * servable ≤ 10 * read)
  scaled := fun bytes tokens total => (2 * bytes * tokens + total) / (2 * total)

def missed : UsageOutcome := .reported ⟨5, 0, [⟨fiveMin, 100⟩], 7, none, []⟩

/-- A call that started and ended at these seconds. -/
def callAt (seq : ℕ) (start stop : ℤ) : CallRecord ℕ where
  seq := seq
  startedAt := start * 1000000000
  firstByteAt := none
  endedAt := stop * 1000000000
  method := "POST"
  path := "/v1/messages"
  status := some 200
  kind := .inference
  facts := ⟨some "m", []⟩
  requestHeaders := []
  responseHeaders := []
  requestBody := .json .null
  rawUsage := none
  usage := missed
  inputEquivalent := none
  complete := true
  error := none
  responseEvents := none

def apart : Pair ℕ := ⟨callAt 1 0 20, callAt 3 1000 1010, [callAt 1 0 20, callAt 3 1000 1010], oneBlock⟩

theorem ttl_justified_apart : ∃ view,
    diffView exactArith ⟨some apart.a, apart.b, apart.session, apart.provider, false⟩ = some view ∧
      view.explanation.verdict = .ttlExpired 980 300 1 ∧ Justified apart view := by
  have hverdict : (diffView exactArith ⟨some apart.a, apart.b, apart.session, apart.provider, false⟩).map
      (·.explanation.verdict) = some (.ttlExpired 980 300 1) := by decide
  obtain ⟨view, hview, hv⟩ := Option.map_eq_some_iff.mp hverdict
  refine ⟨view, hview, hv, (ttl_justified_iff exactArith apart false List.mem_cons_self rfl hview).mpr ?_⟩
  intro prompts bp ttl newest hchecks hnew hold
  obtain rfl := Option.some.inj (hchecks.compared.symm.trans rfl)
  obtain rfl := Option.some.inj (Option.some.inj (hchecks.served.symm.trans rfl))
  obtain rfl : 300 = ttl := CacheTier.ttl.inj hchecks.tier
  have honly : ∀ c, Touches apart 0 [cachedBlock] (.explicit 20) c → c = apart.a := by
    intro c hc
    have hmem := hc.member
    rw [apart, List.mem_cons, List.mem_singleton] at hmem
    refine hmem.resolve_right fun h => ?_
    exact absurd hc.before_b (by rw [h]; decide)
  obtain rfl := honly newest hnew.touches
  refine ⟨apart.a, ⟨hnew.touches, fun c hc => ?_⟩, rfl, rfl, by rw [Outlived]; decide⟩
  rw [honly c hc]

/-- The second call starts and ends while the first one runs. -/
def overlapping : Pair ℕ :=
  ⟨callAt 1 0 900, callAt 3 1000 1010, [callAt 1 0 900, callAt 2 10 20, callAt 3 1000 1010], oneBlock⟩

theorem overlapping_not_justified : overlapping.a ∈ overlapping.session ∧
    checkPair (some overlapping.a) overlapping.b = .ok () ∧ ∃ view,
      diffView exactArith ⟨some overlapping.a, overlapping.b, overlapping.session, overlapping.provider, false⟩ =
        some view ∧ view.explanation.verdict = .ttlExpired 980 300 2 ∧ ¬ Justified overlapping view := by
  have hverdict : (diffView exactArith
      ⟨some overlapping.a, overlapping.b, overlapping.session, overlapping.provider, false⟩).map
        (·.explanation.verdict) = some (.ttlExpired 980 300 2) := by decide
  obtain ⟨view, hview, hv⟩ := Option.map_eq_some_iff.mp hverdict
  refine ⟨List.mem_cons_self, rfl, view, hview, hv, fun h => ?_⟩
  obtain ⟨prompts, bp, hprompts, hbp, hall, -⟩ := h 980 300 2 hv
  have hbase := hall overlapping.a (touches_base List.mem_cons_self rfl hprompts hbp)
  rw [Outlived] at hbase
  exact absurd hbase (by decide)

end Ralph.Wire.Diff
