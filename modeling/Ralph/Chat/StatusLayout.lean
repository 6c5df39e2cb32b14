import Ralph.Chat.StatusBar

namespace Ralph.Chat.StatusBar

variable {segments : List Segment}

theorem modify_append_cons {α : Type*} (f : α → α) (before : List α) (x : α) (after : List α) :
    (before ++ x :: after).modify before.length f = before ++ f x :: after := by
  induction before with
  | nil => rfl
  | cons y before ih => simpa using ih

theorem eraseIdx_append_cons {α : Type*} (before : List α) (x : α) (after : List α) :
    (before ++ x :: after).eraseIdx before.length = before ++ after := by
  induction before with
  | nil => rfl
  | cons y before ih => simpa using ih

def shorter (p : Placed segments) : Placed segments := { p with variant := p.variant + 1 }

@[simp] theorem info_shorter (p : Placed segments) : (shorter p).info = p.info := rfl

@[simp] theorem segment_shorter (p : Placed segments) : (shorter p).segment = p.segment := rfl

@[simp] theorem variant_shorter (p : Placed segments) : (shorter p).variant = p.variant + 1 := rfl

/-- All that one round can do. A segment leaves only when no shorter form is left anywhere. -/
theorem shrink_cases {placed placed' : List (Placed segments)} (h : shrink placed = some placed') :
    (∃ before p after, placed = before ++ p :: after ∧ placed' = before ++ shorter p :: after ∧
        compactable p = true ∧
        (∀ q ∈ before, compactable q = true → q.info.priority ≤ p.info.priority) ∧
        ∀ q ∈ after, compactable q = true → q.info.priority < p.info.priority) ∨
      ∃ before p after, placed = before ++ p :: after ∧ placed' = before ++ after ∧
        droppable p = true ∧ (∀ q ∈ placed, compactable q = false) ∧
        (∀ q ∈ before, droppable q = true → q.info.priority ≤ p.info.priority) ∧
        ∀ q ∈ after, droppable q = true → q.info.priority < p.info.priority := by
  rw [shrink] at h
  split at h
  · next at_ hat =>
    left
    obtain ⟨before, p, after, rfl, rfl, hp, hbefore, hafter⟩ := foremost_split hat
    refine ⟨before, p, after, rfl, ?_, hp, hbefore, hafter⟩
    rw [← Option.some.inj h, modify_append_cons]
    rfl
  · next hnone =>
    right
    obtain ⟨at_, hat, rfl⟩ := Option.map_eq_some_iff.1 h
    obtain ⟨before, p, after, rfl, rfl, hp, hbefore, hafter⟩ := foremost_split hat
    exact ⟨before, p, after, rfl, eraseIdx_append_cons _ _ _, hp, foremost_eq_none hnone, hbefore, hafter⟩

theorem shrink_eq_none {placed : List (Placed segments)} (h : shrink placed = none) :
    ∀ p ∈ placed, compactable p = false ∧ droppable p = false := by
  rw [shrink] at h
  split at h
  · cases h
  · next hnone =>
    intro p hp
    exact ⟨foremost_eq_none hnone p hp, foremost_eq_none (Option.map_eq_none_iff.1 h) p hp⟩

theorem bulk_shrink {placed placed' : List (Placed segments)} (h : shrink placed = some placed') :
    bulk placed' < bulk placed := by
  rcases shrink_cases h with ⟨before, p, after, rfl, rfl, hp, -⟩ | ⟨before, p, after, rfl, rfl, -⟩
  · have hlt : p.variant + 1 < p.info.variants.length := of_decide_eq_true hp
    simp only [bulk, List.map_append, List.map_cons, List.sum_append, List.sum_cons, info_shorter,
      variant_shorter]
    omega
  · simp only [bulk, List.map_append, List.map_cons, List.sum_append, List.sum_cons]
    omega

def degrading (segments : List Segment) : Descent (List (Placed segments)) where
  step := shrink
  measure := bulk
  decreases := fun _ _ => bulk_shrink

def fits (widths : Widths) (separator : Separator) (width : ℕ) (placed : List (Placed segments)) : Bool :=
  decide (used widths placed separator ≤ width)

def everything (segments : List Segment) : List (Placed segments) :=
  (List.finRange segments.length).map fun segment => ⟨segment, 0⟩

/-- The `loop` of `layout`, from all segments in their longest form. -/
def layout (widths : Widths) (segments : List Segment) (width : ℕ) (separator : Separator) :
    List (Placed segments) :=
  (degrading segments).settle (fits widths separator width) (everything segments)

/-- Of two segments, which one gives way first. -/
def Outlasts (a b : Fin segments.length) : Prop :=
  (segments.get a).priority < (segments.get b).priority ∨
    (segments.get a).priority = (segments.get b).priority ∧ a < b

/-- What holds of the bar at every width: segments stand in their order, each in a form it has;
the mode is there; a segment takes a shorter form only when those that give way before it have
none left, and leaves only after them and when no segment has a shorter form left. -/
structure Degraded (placed : List (Placed segments)) : Prop where
  forward : placed.Pairwise fun p q => p.segment < q.segment
  form : ∀ p ∈ placed, p.variant = 0 ∨ p.variant < p.info.variants.length
  mode : ∀ i : Fin segments.length, (segments.get i).priority ≤ modePriority → ∃ p ∈ placed, p.segment = i
  compacted : ∀ p ∈ placed, ∀ q ∈ placed, 0 < p.variant → Outlasts p.segment q.segment → compactable q = false
  dropped : ∀ i : Fin segments.length, (∀ p ∈ placed, p.segment ≠ i) →
    ∀ p ∈ placed, compactable p = false ∧ Outlasts p.segment i

theorem degraded_everything : Degraded (everything segments) where
  forward := by
    rw [everything, List.pairwise_map]
    exact List.pairwise_lt_finRange _
  form := by
    intro p hp
    obtain ⟨i, -, rfl⟩ := List.mem_map.1 hp
    exact .inl rfl
  mode := fun i _ => ⟨⟨i, 0⟩, List.mem_map.2 ⟨i, List.mem_finRange i, rfl⟩, rfl⟩
  compacted := by
    intro p hp q _ hvariant
    obtain ⟨i, -, rfl⟩ := List.mem_map.1 hp
    exact absurd hvariant (lt_irrefl 0)
  dropped := fun i hi => absurd rfl (hi ⟨i, 0⟩ (List.mem_map.2 ⟨i, List.mem_finRange i, rfl⟩))

/-- In a list in order, the chosen place is the one that outlasts none of its kind. -/
theorem outlasts_of_split {before after : List (Placed segments)} {p : Placed segments}
    (hforward : (before ++ p :: after).Pairwise fun p q => p.segment < q.segment)
    {among : Placed segments → Bool}
    (hbefore : ∀ q ∈ before, among q = true → q.info.priority ≤ p.info.priority)
    (hafter : ∀ q ∈ after, among q = true → q.info.priority < p.info.priority)
    {q : Placed segments} (hq : q ∈ before ++ after) (hamong : among q = true) :
    Outlasts q.segment p.segment := by
  rw [List.pairwise_append, List.pairwise_cons] at hforward
  rcases List.mem_append.1 hq with hq | hq
  · rcases lt_or_eq_of_le (hbefore q hq hamong) with hlt | heq
    · exact .inl hlt
    · exact .inr ⟨heq, hforward.2.2 q hq p List.mem_cons_self⟩
  · exact .inl (hafter q hq hamong)

theorem not_outlasts_of_outlasts {a b : Fin segments.length} (h : Outlasts a b) : ¬ Outlasts b a := by
  rintro (hlt | ⟨heq, hlt⟩)
  · rcases h with h | ⟨h, -⟩ <;> omega
  · rcases h with h | ⟨-, h⟩
    · omega
    · exact absurd hlt (lt_asymm h)

theorem mem_split {α : Type*} {before after : List α} {x y : α} :
    y ∈ before ++ x :: after ↔ y = x ∨ y ∈ before ++ after := by
  simp only [List.mem_append, List.mem_cons]
  tauto

theorem Degraded.compact {before after : List (Placed segments)} {p : Placed segments}
    (h : Degraded (before ++ p :: after)) (hp : compactable p = true)
    (hbefore : ∀ q ∈ before, compactable q = true → q.info.priority ≤ p.info.priority)
    (hafter : ∀ q ∈ after, compactable q = true → q.info.priority < p.info.priority) :
    Degraded (before ++ shorter p :: after) := by
  constructor
  case forward =>
    have hforward := List.pairwise_map.2 h.forward
    rw [← List.pairwise_map (f := Placed.segment)]
    simpa using hforward
  case form =>
    intro q hq
    rcases mem_split.1 hq with rfl | hq
    · exact .inr (of_decide_eq_true hp)
    · exact h.form q (mem_split.2 (.inr hq))
  case mode =>
    intro i hi
    obtain ⟨q, hq, hseg⟩ := h.mode i hi
    rcases mem_split.1 hq with rfl | hq
    · exact ⟨shorter q, mem_split.2 (.inl rfl), hseg⟩
    · exact ⟨q, mem_split.2 (.inr hq), hseg⟩
  case compacted =>
    intro a ha b hb hvariant houtlasts
    rcases mem_split.1 hb with rfl | hb
    · rcases mem_split.1 ha with rfl | ha
      · exact absurd houtlasts (not_outlasts_of_outlasts houtlasts)
      · -- A shorter form before `p` would mean that `p` had none left.
        have hnone := h.compacted a (mem_split.2 (.inr ha)) p (mem_split.2 (.inl rfl)) hvariant houtlasts
        rw [hp] at hnone
        cases hnone
    · by_contra hcompact
      have hfirst := outlasts_of_split h.forward hbefore hafter hb (by simpa using hcompact)
      rcases mem_split.1 ha with rfl | ha
      · exact not_outlasts_of_outlasts houtlasts hfirst
      · exact hcompact (h.compacted a (mem_split.2 (.inr ha)) b (mem_split.2 (.inr hb)) hvariant houtlasts)
  case dropped =>
    intro i hi
    have hnone : ∀ q ∈ before ++ p :: after, q.segment ≠ i := by
      intro q hq
      rcases mem_split.1 hq with rfl | hq
      · exact hi (shorter q) (mem_split.2 (.inl rfl))
      · exact hi q (mem_split.2 (.inr hq))
    have hlast := (h.dropped i hnone p (mem_split.2 (.inl rfl))).1
    rw [hp] at hlast
    cases hlast

theorem Degraded.drop {before after : List (Placed segments)} {p : Placed segments}
    (h : Degraded (before ++ p :: after)) (hp : droppable p = true)
    (hcompact : ∀ q ∈ before ++ p :: after, compactable q = false)
    (hbefore : ∀ q ∈ before, droppable q = true → q.info.priority ≤ p.info.priority)
    (hafter : ∀ q ∈ after, droppable q = true → q.info.priority < p.info.priority) :
    Degraded (before ++ after) := by
  have hp : modePriority < p.info.priority := of_decide_eq_true hp
  constructor
  case forward =>
    exact h.forward.sublist (List.Sublist.append_left (List.sublist_cons_self p after) before)
  case form => exact fun q hq => h.form q (mem_split.2 (.inr hq))
  case mode =>
    intro i hi
    obtain ⟨q, hq, rfl⟩ := h.mode i hi
    rcases mem_split.1 hq with rfl | hq
    · exact absurd hi (not_le.2 hp)
    · exact ⟨q, hq, rfl⟩
  case compacted => exact fun a _ b hb _ _ => hcompact b (mem_split.2 (.inr hb))
  case dropped =>
    intro i hi q hq
    refine ⟨hcompact q (mem_split.2 (.inr hq)), ?_⟩
    by_cases hpi : p.segment = i
    · subst hpi
      cases hdrop : droppable q with
      | true => exact outlasts_of_split h.forward hbefore hafter hq hdrop
      | false =>
        have hle : q.info.priority ≤ modePriority := not_lt.1 (of_decide_eq_false hdrop)
        exact .inl (hle.trans_lt hp)
    · refine (h.dropped i ?_ q (mem_split.2 (.inr hq))).2
      intro r hr
      rcases mem_split.1 hr with rfl | hr
      · exact hpi
      · exact hi r hr

theorem Degraded.shrink {placed placed' : List (Placed segments)} (h : Degraded placed)
    (hstep : shrink placed = some placed') : Degraded placed' := by
  rcases shrink_cases hstep with ⟨before, p, after, rfl, rfl, hp, hbefore, hafter⟩ |
    ⟨before, p, after, rfl, rfl, hp, hcompact, hbefore, hafter⟩
  · exact h.compact hp hbefore hafter
  · exact h.drop hp hcompact hbefore hafter

/-- At every width the bar is one of the ways to degrade it, and it fits or is the mode alone in
its shortest form. -/
theorem degraded_layout (widths : Widths) (segments : List Segment) (width : ℕ) (separator : Separator) :
    Degraded (layout widths segments width separator) ∧
      (used widths (layout widths segments width separator) separator ≤ width ∨
        ∀ p ∈ layout widths segments width separator,
          p.info.priority ≤ modePriority ∧ p.info.variants.length ≤ p.variant + 1) := by
  constructor
  · exact Descent.settle_invariant (fun _ _ h hstep => h.shrink hstep) degraded_everything
  · rcases Descent.settle_stops (fits widths separator width) (everything segments) with hfits | hlast
    · exact .inl (of_decide_eq_true hfits)
    · right
      intro p hp
      obtain ⟨hcompact, hdrop⟩ := shrink_eq_none hlast p hp
      exact ⟨not_lt.1 (of_decide_eq_false hdrop), not_lt.1 (of_decide_eq_false hcompact)⟩

/-- A round brings no segment and no longer form. -/
theorem shows_of_shrink {placed placed' : List (Placed segments)} (h : shrink placed = some placed') :
    ∀ p ∈ placed', ∃ q ∈ placed, q.segment = p.segment ∧ q.variant ≤ p.variant := by
  intro p hp
  rcases shrink_cases h with ⟨before, r, after, rfl, rfl, -⟩ | ⟨before, r, after, rfl, rfl, -⟩
  · rcases mem_split.1 hp with rfl | hp
    · exact ⟨r, mem_split.2 (.inl rfl), rfl, Nat.le_succ _⟩
    · exact ⟨p, mem_split.2 (.inr hp), rfl, le_rfl⟩
  · exact ⟨p, mem_split.2 (.inr hp), rfl, le_rfl⟩

theorem shows_of_down {placed placed' : List (Placed segments)}
    (h : Relation.ReflTransGen (degrading segments).Down placed placed') :
    ∀ p ∈ placed', ∃ q ∈ placed, q.segment = p.segment ∧ q.variant ≤ p.variant := by
  induction h with
  | refl => exact fun p hp => ⟨p, hp, rfl, le_rfl⟩
  | tail _ hstep ih =>
    intro p hp
    obtain ⟨q, hq, hseg, hvariant⟩ := shows_of_shrink hstep p hp
    obtain ⟨r, hr, hrseg, hrvariant⟩ := ih q hq
    exact ⟨r, hr, hrseg.trans hseg, hrvariant.trans hvariant⟩

/-- A narrower bar shows no segment that a wider one leaves out, and none in a longer form; and it
gives up nothing that would still fit. -/
theorem layout_narrower (widths : Widths) (segments : List Segment) (separator : Separator)
    (width more : ℕ) :
    (∀ p ∈ layout widths segments width separator,
        ∃ q ∈ layout widths segments (width + more) separator,
          q.segment = p.segment ∧ q.variant ≤ p.variant) ∧
      (used widths (layout widths segments (width + more) separator) separator ≤ width →
        layout widths segments width separator = layout widths segments (width + more) separator) := by
  have hlax : ∀ placed : List (Placed segments), fits widths separator width placed = true →
      fits widths separator (width + more) placed = true := by
    intro placed hfits
    have hle : used widths placed separator ≤ width := of_decide_eq_true hfits
    exact decide_eq_true (by omega)
  constructor
  · exact shows_of_down (Descent.settle_of_stricter hlax (everything segments))
  · intro hfits
    exact Descent.settle_eq_of_enough hlax (decide_eq_true hfits)

end Ralph.Chat.StatusBar
