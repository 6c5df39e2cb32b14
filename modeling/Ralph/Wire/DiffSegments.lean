import Ralph.Wire.Diff

namespace Ralph.Wire.Diff
open CharBoundary CommonPrefix String

theorem upTo_of_le {α : Type*} {xs : List α} {n : ℕ} (h : n ≤ xs.length) : upTo xs n = some (xs.take n) := if_pos h

theorem filterMapSome_eq {α β : Type*} {f : α → Option (Option β)} {g : α → Option β} {xs : List α}
    (h : ∀ x ∈ xs, f x = some (g x)) : filterMapSome f xs = some (xs.filterMap g) := by
  induction xs with
  | nil => rfl
  | cons x xs ih =>
    rw [List.forall_mem_cons] at h
    rw [filterMapSome, h.1, Option.bind_some, ih h.2, Option.map_some]
    cases hg : g x with
    | none => rw [List.filterMap_cons_none hg, Option.toList_none, List.nil_append]
    | some y => rw [List.filterMap_cons_some hg, Option.toList_some, List.singleton_append]

/-- The segments go through `through` with the contents of `bSegments`. -/
def Shares (through : ℕ) (bSegments segments : List PromptSegment) : Prop :=
  through < segments.length ∧
    (segments.take (through + 1)).map PromptSegment.content =
      (bSegments.take (through + 1)).map PromptSegment.content

instance (through : ℕ) (bSegments segments : List PromptSegment) : Decidable (Shares through bSegments segments) :=
  inferInstanceAs (Decidable (_ ∧ _))

theorem all_zip_content (left right : List PromptSegment) (h : left.length = right.length) :
    ((left.zip right).all fun (l, r) => l.content == r.content) =
      decide (left.map PromptSegment.content = right.map PromptSegment.content) := by
  induction left generalizing right with
  | nil => rw [List.length_nil] at h; rw [List.length_eq_zero_iff.mp h.symm]; rfl
  | cons l left ih =>
    cases right with
    | nil => cases h
    | cons r right =>
      rw [List.zip_cons_cons, List.all_cons, ih right (Nat.succ.inj h), Bool.eq_iff_iff]
      simp only [Bool.and_eq_true, beq_iff_eq, decide_eq_true_eq, List.map_cons, List.cons.injEq]

theorem sharesThrough_eq {through : ℕ} {bSegments : List PromptSegment} (h : through < bSegments.length)
    (segments : List PromptSegment) :
    sharesThrough through bSegments segments = some (decide (Shares through bSegments segments)) := by
  rw [sharesThrough]
  split_ifs with hlen
  · rw [upTo_of_le hlen, upTo_of_le h, Option.bind_some, Option.map_some, all_zip_content]
    · rw [Option.some_inj, decide_eq_decide]
      exact (and_iff_right hlen).symm
    · rw [List.length_take, List.length_take]
      omega
  · rw [Option.some_inj, eq_comm, decide_eq_false_iff_not]
    exact fun hshares => hlen hshares.1

theorem mem_marked {segments : List PromptSegment} {bp : Breakpoint} (h : bp ∈ marked segments) :
    bp.index < segments.length ∧ ∃ segment, segments[bp.index]? = some segment ∧ segment.breakpoint = some bp.tier := by
  rw [marked, List.mem_filterMap] at h
  obtain ⟨⟨segment, index⟩, hmem, hbp⟩ := h
  rw [List.mem_reverse, List.mem_zipIdx_iff_getElem?] at hmem
  obtain ⟨tier, htier, rfl⟩ := Option.map_eq_some_iff.mp hbp
  exact ⟨(List.getElem?_eq_some_iff.mp hmem).1, segment, hmem, htier⟩

theorem sharedPrefix_le (a b : List PromptSegment) : sharedPrefix a b ≤ a.length ∧ sharedPrefix a b ≤ b.length := by
  obtain ⟨ha, hb, -⟩ := shared_spec (a.map PromptSegment.content) (b.map PromptSegment.content)
  rw [List.length_map] at ha hb
  exact ⟨ha, hb⟩

theorem le_sharedPrefix_iff {a b : List PromptSegment} {n : ℕ} : n ≤ sharedPrefix a b ↔
    n ≤ a.length ∧ n ≤ b.length ∧ (a.take n).map PromptSegment.content = (b.take n).map PromptSegment.content := by
  rw [sharedPrefix, le_shared_iff, List.length_map, List.length_map, List.map_take, List.map_take]

theorem servableBreakpoint_spec (prompts : Prompts) {shared : ℕ} (h : shared ≤ prompts.a.length) :
    ∃ served, servableBreakpoint prompts shared = some served ∧ ∀ bp, served = some bp → bp.index < shared := by
  rw [servableBreakpoint, upTo_of_le h]
  refine ⟨_, rfl, fun bp hbp => ?_⟩
  split at hbp
  · next lookback hcache =>
    have hlt := (mem_marked (List.mem_of_find?_eq_some hbp)).1
    rw [List.length_take] at hlt
    omega
  · next tier minTokens hcache =>
    split_ifs at hbp with hzero
    rw [← Option.some.inj hbp]
    exact Nat.sub_one_lt hzero

/-- A piece of a text between two of its characters, from around the offset on. -/
def CutFrom (text piece : String) (offset : ℕ) : Prop :=
  ∃ before after, text.toList = before ++ piece.toList ++ after ∧ utf8Len before ≤ offset ∧
    utf8Len piece.toList ≤ excerptBytes

theorem excerpt_spec (text : String) (offset : ℕ) :
    ∃ piece, excerpt text offset = some piece ∧ CutFrom text piece offset := by
  rw [excerpt]
  obtain ⟨hstart, hle⟩ := Chat.floorBoundary_spec text.toList (min offset (textLen text))
  generalize hs : Chat.floorBoundary text.toList (min offset (textLen text)) = start at hstart hle
  have hfirst : floorBoundary text offset = start := hs
  obtain ⟨hstop, hstople⟩ := Chat.floorBoundary_spec text.toList (min (start + excerptBytes) (textLen text))
  have hfits : start ≤ min (start + excerptBytes) (textLen text) :=
    le_min (Nat.le_add_right _ _) (hle.trans (min_le_right _ _))
  have hmax := Chat.le_floorBoundary hfits hstart
  generalize hs' : Chat.floorBoundary text.toList (min (start + excerptBytes) (textLen text)) = stop
    at hstop hstople hmax
  have hlast : floorBoundary text (start + excerptBytes) = stop := hs'
  rw [hfirst, hlast]
  obtain ⟨before, rest, htext, hbefore⟩ := isCharBoundary_iff.mp hstart
  rw [htext] at hstop
  obtain ⟨piece, after, hrest, hlen, -⟩ := exists_sliceTo hstop (hbefore.trans_le hmax)
  have hcut : utf8Len (before ++ piece) = stop := by
    rw [utf8Len_append]
    omega
  have hwhole : text.toList = before ++ piece ++ after := by rw [htext, hrest, List.append_assoc]
  have hto : sliceTo text.toList stop = some (before ++ piece) := by
    rw [hwhole, ← hcut]
    exact (slices_append (before ++ piece) after).2.1
  have hfrom : sliceFrom (before ++ piece) start = some piece := by
    rw [← hbefore]
    exact (slices_append before piece).2.2
  refine ⟨String.ofList piece, ?_, before, after, ?_, ?_, ?_⟩
  · rw [hto, Option.bind_some, hfrom, Option.map_some]
  · rw [String.toList_ofList]
    exact hwhole
  · rw [hbefore]
    exact hle.trans (min_le_left _ _)
  · rw [String.toList_ofList, hlen, hbefore]
    have hbound := hstople.trans (min_le_left _ _)
    omega

/-- The first byte at which two texts differ, or the length of the shorter one. -/
def IsFirstDifference (x y : List UInt8) (n : ℕ) : Prop :=
  x.take n = y.take n ∧
    ((∃ p q, x[n]? = some p ∧ y[n]? = some q ∧ p ≠ q) ∨ n = min x.length y.length)

theorem isFirstDifference (x y : List UInt8) : IsFirstDifference x y (firstDifference x y) := by
  rw [firstDifference_eq]
  obtain ⟨hx, hy, htake⟩ := shared_spec x y
  refine ⟨htake, ?_⟩
  by_cases hlt : shared x y < min x.length y.length
  · obtain ⟨hltx, hlty⟩ := lt_min_iff.mp hlt
    have hp := List.getElem?_eq_getElem hltx
    have hq := List.getElem?_eq_getElem hlty
    exact .inl ⟨_, _, hp, hq, ne_of_shared hp hq⟩
  · exact .inr (le_antisymm (le_min hx hy) (not_lt.mp hlt))

/-- What the view says of where the prompts part. -/
structure Parts (a b : List PromptSegment) (shared : ℕ) (div : Divergence) : Prop where
  index : div.index = shared
  segments : ∃ left right, a[shared]? = some left ∧ b[shared]? = some right ∧ div.labelA = left.label ∧
    div.labelB = right.label ∧ IsFirstDifference (textBytes left.content) (textBytes right.content) div.offset ∧
    CutFrom left.content div.aExcerpt div.offset ∧ CutFrom right.content div.bExcerpt div.offset

theorem divergence_spec (shared : ℕ) (a b : List PromptSegment) :
    ∃ div, divergence shared a b = some div ∧ (div.isSome ↔ shared < a.length ∧ shared < b.length) ∧
      ∀ d, div = some d → Parts a b shared d := by
  rw [divergence]
  cases ha : a[shared]? with
  | none =>
    refine ⟨none, rfl, ?_, fun d hd => absurd hd (Option.not_mem_none d)⟩
    have hlen := List.getElem?_eq_none_iff.mp ha
    exact iff_of_false Bool.false_ne_true fun h => absurd h.1 (not_lt.mpr hlen)
  | some left =>
    cases hb : b[shared]? with
    | none =>
      refine ⟨none, rfl, ?_, fun d hd => absurd hd (Option.not_mem_none d)⟩
      have hlen := List.getElem?_eq_none_iff.mp hb
      exact iff_of_false Bool.false_ne_true fun h => absurd h.2 (not_lt.mpr hlen)
    | some right =>
      have hfirst := isFirstDifference (textBytes left.content) (textBytes right.content)
      obtain ⟨x, hx, hcutx⟩ := excerpt_spec left.content
        (firstDifference (textBytes left.content) (textBytes right.content))
      obtain ⟨y, hy, hcuty⟩ := excerpt_spec right.content
        (firstDifference (textBytes left.content) (textBytes right.content))
      dsimp only
      rw [hx, Option.bind_some, hy, Option.map_some]
      refine ⟨_, rfl, ?_, fun d hd => ?_⟩
      · exact iff_of_true rfl ⟨(List.getElem?_eq_some_iff.mp ha).1, (List.getElem?_eq_some_iff.mp hb).1⟩
      · rw [← Option.some.inj hd]
        exact ⟨rfl, left, right, ha, hb, rfl, rfl, hfirst, hcutx, hcuty⟩

/-- The shared segments, the one at the divergence and those after it are all of them. -/
theorem labels_account {segments : List PromptSegment} {shared : ℕ} {label : Option String}
    (h : ∀ l, label = some l → (segments[shared]?).map PromptSegment.label = some l) :
    segments.map PromptSegment.label = (segments.take shared).map PromptSegment.label ++ label.toList ++
      labelsAfter segments (shared + if label.isSome then 1 else 0) := by
  cases label with
  | none =>
    rw [labelsAfter, Option.toList_none, List.append_nil, Option.isSome_none, if_neg Bool.false_ne_true, Nat.add_zero,
      ← List.map_append, List.take_append_drop]
  | some l =>
    obtain ⟨segment, hsegment, hl⟩ := Option.map_eq_some_iff.mp (h l rfl)
    rw [labelsAfter, Option.isSome_some, if_pos rfl, ← hl, Option.toList_some]
    conv_lhs => rw [← Splice.take_append_drop_one hsegment]
    rw [List.map_append, List.map_append, List.map_singleton]

section Calls

variable {Amount : Type} (arith : Arith)

theorem exists_filterMapSome {α β : Type*} {f : α → Option (Option β)} (h : ∀ x, ∃ y, f x = some y) (xs : List α) :
    ∃ ys, filterMapSome f xs = some ys := by
  choose g hg using h
  exact ⟨_, filterMapSome_eq fun x _ => hg x⟩

theorem exists_lastTouch {through : ℕ} {bSegments : List PromptSegment} (h : through < bSegments.length)
    (input : Pair Amount) (cache : PrefixCache) : ∃ touch, lastTouch input through bSegments cache = some touch := by
  have htouch : ∀ call, ∃ y, touchOf input through bSegments cache call = some y := by
    intro call
    rw [touchOf]
    cases segmentsOf input.provider call with
    | none => exact ⟨none, rfl⟩
    | some segments =>
      dsimp only
      rw [touches.eq_def, sharesThrough_eq h]
      exact ⟨_, rfl⟩
  obtain ⟨touching, htouching⟩ := exists_filterMapSome htouch (input.session.filter fun call =>
    decide (input.a.seq ≤ call.seq) && decide (call.seq < input.b.seq) && (call.kind == .inference))
  rw [lastTouch, htouching]
  exact ⟨_, rfl⟩

theorem exists_anchorTokens {index : ℕ} {bSegments : List PromptSegment} (h : index < bSegments.length)
    (input : Pair Amount) : ∃ anchor, anchorTokens input index bSegments = some anchor := by
  have hanchor : ∀ call, ∃ y, anchorOf input index bSegments call = some y := by
    intro call
    rw [anchorOf]
    split
    · rw [sharesThrough_eq h]
      exact ⟨_, rfl⟩
    · exact ⟨none, rfl⟩
  obtain ⟨anchors, hanchors⟩ := exists_filterMapSome hanchor (input.session.filter fun call =>
    decide (call.seq ≤ input.b.seq) && (call.kind == .inference))
  rw [anchorTokens, hanchors]
  exact ⟨_, rfl⟩

theorem exists_missVerdict {input : Pair Amount} {prompts : Prompts} {bp : Breakpoint} (h : bp.index < prompts.b.length)
    (facts : List FactDiff) (headers : List HeaderDiff) (servable : ℕ) :
    ∃ verdict, missVerdict input facts headers prompts bp servable = some verdict := by
  rw [missVerdict]
  split
  · exact ⟨_, rfl⟩
  · exact ⟨_, rfl⟩
  · rw [lapseVerdict]
    split
    · obtain ⟨touch, htouch⟩ := exists_lastTouch h input prompts.prefixCache
      rw [htouch]
      exact ⟨_, rfl⟩
    · exact ⟨_, rfl⟩

/-- The bytes of `b` through a breakpoint. -/
def bytesThrough (b : List PromptSegment) (bp : Option Breakpoint) : ℕ :=
  match bp with
  | none => 0
  | some bp => totalBytes (b.take (bp.index + 1))

theorem explain_spec (input : Pair Amount) (facts : List FactDiff) (headers : List HeaderDiff) {prompts : Prompts}
    {shared : ℕ} (ha : shared ≤ prompts.a.length) (hb : shared ≤ prompts.b.length) (served : Verdict) :
    ∃ explanation bp, explain arith input facts headers prompts shared served = some explanation ∧
      servableBreakpoint prompts shared = some bp ∧ (∀ p, bp = some p → p.index < shared) ∧
      explanation.servableBytes = bytesThrough prompts.b bp := by
  obtain ⟨bp, hbp, hinside⟩ := servableBreakpoint_spec prompts ha
  rw [explain, hbp, Option.bind_some]
  cases bp with
  | none => exact ⟨_, none, rfl, rfl, hinside, rfl⟩
  | some bp =>
    have hlt : bp.index < prompts.b.length := (hinside bp rfl).trans_le hb
    dsimp only
    rw [upTo_of_le hlt, Option.bind_some]
    cases countedUsage input.b with
    | none => exact ⟨_, some bp, rfl, rfl, hinside, rfl⟩
    | some usage =>
      obtain ⟨anchor, hanchor⟩ := exists_anchorTokens hlt input
      dsimp only
      rw [servableTokens, hanchor, Option.map_some, Option.bind_some]
      split_ifs
      · exact ⟨_, some bp, rfl, rfl, hinside, rfl⟩
      · obtain ⟨verdict, hverdict⟩ := exists_missVerdict hlt facts headers _
        rw [hverdict]
        exact ⟨_, some bp, rfl, rfl, hinside, rfl⟩

/-- A view that accounts for the segments of both prompts. -/
structure Accounts (prompts : Prompts) (view : DiffView) : Prop where
  longest : ∀ n, n ≤ view.sharedSegments ↔ n ≤ prompts.a.length ∧ n ≤ prompts.b.length ∧
    (prompts.a.take n).map PromptSegment.content = (prompts.b.take n).map PromptSegment.content
  labels_a : prompts.a.map PromptSegment.label = (prompts.a.take view.sharedSegments).map PromptSegment.label ++
    (view.divergence.map Divergence.labelA).toList ++ view.removed
  labels_b : prompts.b.map PromptSegment.label = (prompts.b.take view.sharedSegments).map PromptSegment.label ++
    (view.divergence.map Divergence.labelB).toList ++ view.added
  diverges : view.divergence.isSome ↔
    view.sharedSegments < prompts.a.length ∧ view.sharedSegments < prompts.b.length
  parts : ∀ div, view.divergence = some div → Parts prompts.a prompts.b view.sharedSegments div
  servable : ∃ bp, servableBreakpoint prompts view.sharedSegments = some bp ∧
    (∀ p, bp = some p → p.index < view.sharedSegments) ∧
    view.explanation.servableBytes = bytesThrough prompts.b bp

theorem diff_view_accounts (input : DiffInput Amount) :
    ∃ view, diffView arith input = some view ∧ ∀ a prompts, input.a = some a →
      promptsOf input.provider a input.b = some prompts → Accounts prompts view := by
  rw [diffView]
  cases input.a with
  | none => exact ⟨_, rfl, fun a prompts ha => absurd ha (Option.not_mem_none a)⟩
  | some a =>
    dsimp only
    cases hprompts : promptsOf input.provider a input.b with
    | none =>
      refine ⟨_, rfl, fun a' prompts ha h => ?_⟩
      rw [← Option.some.inj ha, hprompts] at h
      exact absurd h (Option.not_mem_none prompts)
    | some prompts =>
      obtain ⟨ha, hb⟩ := sharedPrefix_le prompts.a prompts.b
      obtain ⟨div, hdiv, hsome, hparts⟩ := divergence_spec (sharedPrefix prompts.a prompts.b) prompts.a prompts.b
      obtain ⟨explanation, bp, hexplain, hbp, hinside, hbytes⟩ := explain_spec arith
        ⟨a, input.b, input.session, input.provider⟩ (factDiffs arith a input.b) (headerDiffs input.provider a input.b)
        ha hb (servedVerdict prompts (sharedPrefix prompts.a prompts.b) div)
      dsimp only
      rw [hdiv, Option.bind_some, hexplain, Option.map_some]
      refine ⟨_, rfl, fun a' prompts' ha' h => ?_⟩
      rw [← Option.some.inj ha', hprompts] at h
      rw [← Option.some.inj h]
      exact {
        longest := fun n => le_sharedPrefix_iff
        labels_a := by
          have hlabel : ∀ l, div.map Divergence.labelA = some l →
              (prompts.a[sharedPrefix prompts.a prompts.b]?).map PromptSegment.label = some l := by
            intro l hl
            obtain ⟨d, hd, rfl⟩ := Option.map_eq_some_iff.mp hl
            obtain ⟨left, right, hleft, -, hlabel, -⟩ := (hparts d hd).segments
            rw [hleft, hlabel, Option.map_some]
          have hlabels := labels_account hlabel
          rw [Option.isSome_map] at hlabels
          exact hlabels
        labels_b := by
          have hlabel : ∀ l, div.map Divergence.labelB = some l →
              (prompts.b[sharedPrefix prompts.a prompts.b]?).map PromptSegment.label = some l := by
            intro l hl
            obtain ⟨d, hd, rfl⟩ := Option.map_eq_some_iff.mp hl
            obtain ⟨left, right, -, hright, -, hlabel, -⟩ := (hparts d hd).segments
            rw [hright, hlabel, Option.map_some]
          have hlabels := labels_account hlabel
          rw [Option.isSome_map] at hlabels
          exact hlabels
        diverges := hsome
        parts := hparts
        servable := ⟨bp, hbp, hinside, hbytes⟩ }

end Calls

end Ralph.Wire.Diff
