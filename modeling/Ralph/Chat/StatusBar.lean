import Ralph.Descent
import Ralph.ListSums

namespace Ralph.Chat.StatusBar

inductive Side
  | left
  | right
  deriving DecidableEq, Repr

inductive Mode
  | hold
  | nap
  | inbox
  | work
  | idle
  deriving DecidableEq, Repr

inductive Kind
  | mode (mode : Mode)
  | queue (mode : Mode)
  | hold (mode : Mode)
  | mail (mode : Mode)
  | name
  | workers
  | watches
  | schedule
  | process (mode : Mode)
  | cost (mode : Mode)
  deriving DecidableEq, Repr

inductive Shade
  | modeIdleFg
  | modeIdleBg
  | modeHoldFg
  | modeHoldBg
  | modeNapFg
  | modeNapBg
  | modeInboxFg
  | modeInboxBg
  | modeWorkFg
  | modeWorkBg
  | storeFg
  | workersFg
  | watchesFg
  | baseBg
  deriving DecidableEq, Repr

inductive Separator
  | block
  | powerline
  | bar
  deriving DecidableEq, Repr

structure Span where
  text : String
  fg : Shade
  bg : Shade
  bold : Bool
  deriving DecidableEq, Repr

structure Segment where
  variants : List String
  priority : ℕ
  side : Side
  kind : Kind
  deriving DecidableEq, Repr

inductive Edge
  | fill
  | seg (kind : Kind)
  deriving DecidableEq, Repr

def modeBg : Mode → Shade
  | .idle => .modeIdleBg
  | .hold => .modeHoldBg
  | .nap => .modeNapBg
  | .inbox => .modeInboxBg
  | .work => .modeWorkBg

def modeFg : Mode → Shade
  | .idle => .modeIdleFg
  | .hold => .modeHoldFg
  | .nap => .modeNapFg
  | .inbox => .modeInboxFg
  | .work => .modeWorkFg

def Kind.bg : Kind → Shade
  | .mode m | .queue m | .hold m | .mail m | .process m | .cost m => modeBg m
  | .name | .workers | .watches | .schedule => .baseBg

def Kind.fg : Kind → Shade
  | .mode m | .queue m | .hold m | .mail m | .process m | .cost m => modeFg m
  | .name => .storeFg
  | .workers => .workersFg
  | .watches | .schedule => .watchesFg

def Kind.bold : Kind → Bool
  | .mode _ | .cost _ => true
  | _ => false

def Edge.bg : Edge → Shade
  | .fill => .baseBg
  | .seg kind => kind.bg

/-- The width tables of the terminal. -/
structure Widths where
  text : String → ℕ
  char : Char → Option ℕ

def thinRule : String := "│"
def leftArrow : String := "\ue0b0"
def leftThin : String := "\ue0b1"
def rightArrow : String := "\ue0b2"
def rightThin : String := "\ue0b3"

def arrow : Side → String
  | .left => leftArrow
  | .right => rightArrow

def thin : Side → String
  | .left => leftThin
  | .right => rightThin

def arrowSpan (side : Side) (before after : Edge) : Span :=
  match side with
  | .left => ⟨arrow side, before.bg, after.bg, false⟩
  | .right => ⟨arrow side, after.bg, before.bg, false⟩

/-- What stands between two neighbours of one side. -/
def glue (separator : Separator) (side : Side) : Edge → Edge → Option Span
  | .seg a, .seg b =>
    if a.bg = b.bg then
      match separator with
      | .block => none
      | .bar => some ⟨thinRule, a.fg, a.bg, false⟩
      | .powerline => some ⟨thin side, a.fg, a.bg, false⟩
    else
      match separator with
      | .block => none
      | .bar => some ⟨thinRule, .storeFg, .baseBg, false⟩
      | .powerline => some (arrowSpan side (.seg a) (.seg b))
  | .fill, .seg kind =>
    if kind.bg = .baseBg then none
    else if separator = .powerline then some (arrowSpan side .fill (.seg kind))
    else none
  | .seg kind, .fill =>
    if kind.bg = .baseBg then none
    else if separator = .powerline then some (arrowSpan side (.seg kind) .fill)
    else none
  | .fill, .fill => none

/-- A segment of the bar in one of its forms. The index is one of the segment list's. -/
structure Placed (segments : List Segment) where
  segment : Fin segments.length
  variant : ℕ
  deriving DecidableEq

variable {segments : List Segment}

def Placed.info (p : Placed segments) : Segment := segments.get p.segment

def segmentSpan (segment : Segment) (variant : ℕ) : Span where
  text := " " ++ (segment.variants[variant]?).getD "" ++ " "
  fg := segment.kind.fg
  bg := segment.kind.bg
  bold := segment.kind.bold

/-- The loop of `side_spans`, with the edge it comes from. -/
def joined (separator : Separator) (side : Side) : Option Edge → List (Placed segments) → List Span
  | previous, [] =>
    if side = .left then (previous.bind fun edge => glue separator side edge .fill).toList else []
  | previous, p :: items =>
    (previous.bind fun edge => glue separator side edge (.seg p.info.kind)).toList ++
      segmentSpan p.info p.variant :: joined separator side (some (.seg p.info.kind)) items

def sideSpans (placed : List (Placed segments)) (side : Side) (separator : Separator) : List Span :=
  joined separator side (if side = .left then none else some .fill)
    (placed.filter fun p => p.info.side = side)

def spansWidth (widths : Widths) (spans : List Span) : ℕ := (spans.map fun span => widths.text span.text).sum

def used (widths : Widths) (placed : List (Placed segments)) (separator : Separator) : ℕ :=
  spansWidth widths (sideSpans placed .left separator) + spansWidth widths (sideSpans placed .right separator)

def modePriority : ℕ := 0

/-- `Iterator::max_by_key` on the enumerated list: of the greatest keys, the last. -/
def lastMax {α : Type*} (key : α → ℕ) (items : List α) : Option α :=
  items.foldl (fun best item =>
    match best with
    | none => some item
    | some found => if key found ≤ key item then some item else some found) none

def compactable (p : Placed segments) : Bool := decide (p.variant + 1 < p.info.variants.length)

def droppable (p : Placed segments) : Bool := decide (modePriority < p.info.priority)

/-- The place of the last segment of the greatest priority among some. -/
def foremost (placed : List (Placed segments)) (among : Placed segments → Bool) : Option ℕ :=
  (lastMax (fun q : Placed segments × ℕ => q.1.info.priority)
    (placed.zipIdx.filter fun q => among q.1)).map (·.2)

/-- One round of `layout` on a bar that is too wide: a shorter form, else one segment less. -/
def shrink (placed : List (Placed segments)) : Option (List (Placed segments)) :=
  match foremost placed compactable with
  | some at_ => some (placed.modify at_ fun p => { p with variant := p.variant + 1 })
  | none => (foremost placed droppable).map placed.eraseIdx

/-- What is left to take away: a segment counts once, and each shorter form of it. -/
def bulk (placed : List (Placed segments)) : ℕ :=
  (placed.map fun p => p.info.variants.length - p.variant + 1).sum

theorem lastMax_concat {α : Type*} (key : α → ℕ) (items : List α) (item : α) :
    lastMax key (items ++ [item]) =
      match lastMax key items with
      | none => some item
      | some found => if key found ≤ key item then some item else some found := by
  rw [lastMax, List.foldl_concat]
  rfl

theorem lastMax_eq_none {α : Type*} {key : α → ℕ} {items : List α} (h : lastMax key items = none) :
    items = [] := by
  cases items using List.reverseRecOn with
  | nil => rfl
  | append_singleton items item =>
    rw [lastMax_concat] at h
    split at h
    · cases h
    · split_ifs at h

/-- What stands behind the chosen item has a smaller key, and what stands before it no greater. -/
theorem lastMax_split {α : Type*} {key : α → ℕ} {items : List α} {x : α} (h : lastMax key items = some x) :
    ∃ before after, items = before ++ x :: after ∧ (∀ y ∈ before, key y ≤ key x) ∧
      ∀ y ∈ after, key y < key x := by
  induction items using List.reverseRecOn generalizing x with
  | nil => cases h
  | append_singleton items item ih =>
    rw [lastMax_concat] at h
    cases hlast : lastMax key items with
    | none =>
      rw [hlast] at h
      obtain rfl := Option.some.inj h
      exact ⟨[], [], by rw [lastMax_eq_none hlast, List.nil_append], by simp, by simp⟩
    | some found =>
      rw [hlast] at h
      obtain ⟨before, after, rfl, hbefore, hafter⟩ := ih hlast
      dsimp only at h
      split_ifs at h with hle
      · obtain rfl := Option.some.inj h
        refine ⟨before ++ found :: after, [], rfl, ?_, by simp⟩
        intro y hy
        rcases List.mem_append.1 hy with hy | hy
        · exact (hbefore y hy).trans hle
        · rcases List.mem_cons.1 hy with rfl | hy
          · exact hle
          · exact (hafter y hy).le.trans hle
      · obtain rfl := Option.some.inj h
        refine ⟨before, after ++ [item], by simp, hbefore, ?_⟩
        intro y hy
        rcases List.mem_append.1 hy with hy | hy
        · exact hafter y hy
        · rw [List.mem_singleton.1 hy]
          omega

theorem foremost_eq_none {placed : List (Placed segments)} {among : Placed segments → Bool}
    (h : foremost placed among = none) : ∀ p ∈ placed, among p = false := by
  intro p hp
  obtain ⟨i, hi⟩ := List.mem_iff_getElem?.1 hp
  have hnil := lastMax_eq_none (Option.map_eq_none_iff.1 h)
  by_contra hamong
  have hmem : (p, i) ∈ placed.zipIdx.filter fun q => among q.1 :=
    List.mem_filter.2 ⟨List.mk_mem_zipIdx_iff_getElem?.2 hi, by simpa using hamong⟩
  rw [hnil] at hmem
  exact absurd hmem List.not_mem_nil

/-- The chosen place, and how the others compare with it. -/
theorem foremost_split {placed : List (Placed segments)} {among : Placed segments → Bool} {at_ : ℕ}
    (h : foremost placed among = some at_) :
    ∃ before p after, placed = before ++ p :: after ∧ before.length = at_ ∧ among p = true ∧
      (∀ q ∈ before, among q = true → q.info.priority ≤ p.info.priority) ∧
      ∀ q ∈ after, among q = true → q.info.priority < p.info.priority := by
  obtain ⟨⟨p, i⟩, hlast, rfl⟩ := Option.map_eq_some_iff.1 h
  obtain ⟨first, last, hsplit, hfirst, hlast⟩ := lastMax_split hlast
  have hmem : ∀ q j, placed[j]? = some q → among q = true → (q, j) ∈ first ++ (p, i) :: last := by
    intro q j hq hamong
    rw [← hsplit]
    exact List.mem_filter.2 ⟨List.mk_mem_zipIdx_iff_getElem?.2 hq, by simpa using hamong⟩
  have hp : (p, i) ∈ placed.zipIdx.filter fun q => among q.1 := by rw [hsplit]; simp
  obtain ⟨hpmem, hpamong⟩ := List.mem_filter.1 hp
  obtain ⟨hi, hget⟩ := List.getElem?_eq_some_iff.1 (List.mk_mem_zipIdx_iff_getElem?.1 hpmem)
  have hindex : ((first ++ (p, i) :: last).map (·.2)).Pairwise (· < ·) := by
    rw [← hsplit]
    refine List.Pairwise.sublist (List.Sublist.map _ List.filter_sublist) ?_
    rw [List.zipIdx_map_snd]
    exact List.pairwise_lt_range'
  rw [List.map_append, List.map_cons, List.pairwise_append, List.pairwise_cons] at hindex
  refine ⟨placed.take i, p, placed.drop (i + 1), ?_, by simpa using hi.le, hpamong, ?_, ?_⟩
  · rw [← hget, List.cons_getElem_drop_succ, List.take_append_drop]
  · intro q hq hamong
    obtain ⟨j, hj⟩ := List.mem_iff_getElem?.1 hq
    rw [List.getElem?_take] at hj
    split_ifs at hj with hji
    rcases List.mem_append.1 (hmem q j hj hamong) with hin | hin
    · exact hfirst _ hin
    · rcases List.mem_cons.1 hin with heq | hin
      · rw [(Prod.mk.inj heq).1]
      · have hlt := hindex.2.1.1 _ (List.mem_map_of_mem hin)
        dsimp only at hlt
        omega
  · intro q hq hamong
    obtain ⟨j, hj⟩ := List.mem_iff_getElem?.1 hq
    rw [List.getElem?_drop] at hj
    rcases List.mem_append.1 (hmem q _ hj hamong) with hin | hin
    · have hlt := hindex.2.2 _ (List.mem_map_of_mem hin) _ List.mem_cons_self
      dsimp only at hlt
      omega
    · rcases List.mem_cons.1 hin with heq | hin
      · have hidx := (Prod.mk.inj heq).2
        omega
      · exact hlast _ hin

end Ralph.Chat.StatusBar
