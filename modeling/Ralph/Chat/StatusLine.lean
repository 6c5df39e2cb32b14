import Ralph.Chat.StatusLayout

namespace Ralph.Chat.StatusBar

variable {segments : List Segment}

def charWidth (widths : Widths) (c : Char) : ℕ := (widths.char c).getD 0

def charsWidth (widths : Widths) (text : List Char) : ℕ := (text.map (charWidth widths)).sum

/-- The inner loop of `truncate_spans`: what fits of one text, and the columns left. A character
that does not fit leaves none. -/
def takeWidth (widths : Widths) : ℕ → List Char → List Char × ℕ
  | remaining, [] => ([], remaining)
  | remaining, c :: cs =>
    if remaining < charWidth widths c then ([], 0)
    else
      let (text, left) := takeWidth widths (remaining - charWidth widths c) cs
      (c :: text, left)

def truncateSpans (widths : Widths) : ℕ → List Span → List Span
  | _, [] => []
  | remaining, span :: spans =>
    let (text, left) := takeWidth widths remaining span.text.toList
    if text = [] then []
    else
      { span with text := String.ofList text } ::
        if left = 0 then [] else truncateSpans widths left spans

/-- The whole line: the left side, what fills the width, the right side. -/
def fullLine (widths : Widths) (placed : List (Placed segments)) (width : ℕ) (separator : Separator) :
    List Span :=
  let fill : Span := ⟨String.ofList (List.replicate (width - used widths placed separator) ' '),
    .storeFg, .baseBg, false⟩
  sideSpans placed .left separator ++ (if fill.text = "" then [] else [fill]) ++
    sideSpans placed .right separator

def compose (widths : Widths) (placed : List (Placed segments)) (width : ℕ) (separator : Separator) :
    List Span :=
  truncateSpans widths width (fullLine widths placed width separator)

/-- The characters of a line. -/
def chars (spans : List Span) : List Char := spans.flatMap fun span => span.text.toList

@[simp] theorem charsWidth_nil (widths : Widths) : charsWidth widths [] = 0 := rfl

@[simp] theorem charsWidth_cons (widths : Widths) (c : Char) (cs : List Char) :
    charsWidth widths (c :: cs) = charWidth widths c + charsWidth widths cs := rfl

@[simp] theorem charsWidth_append (widths : Widths) (a b : List Char) :
    charsWidth widths (a ++ b) = charsWidth widths a + charsWidth widths b := by
  simp [charsWidth]

@[simp] theorem chars_nil : chars [] = [] := rfl

@[simp] theorem chars_cons (span : Span) (spans : List Span) :
    chars (span :: spans) = span.text.toList ++ chars spans := rfl

@[simp] theorem chars_append (a b : List Span) : chars (a ++ b) = chars a ++ chars b :=
  List.flatMap_append

/-- What one text gives and what it leaves stay within the columns; columns are left over only
behind a whole text. -/
theorem takeWidth_spec (widths : Widths) (remaining : ℕ) (cs : List Char) :
    (takeWidth widths remaining cs).1 <+: cs ∧
      charsWidth widths (takeWidth widths remaining cs).1 + (takeWidth widths remaining cs).2 ≤ remaining ∧
      ((takeWidth widths remaining cs).2 ≠ 0 → (takeWidth widths remaining cs).1 = cs) := by
  induction cs generalizing remaining with
  | nil => simp [takeWidth]
  | cons c cs ih =>
    rw [takeWidth]
    split_ifs with hc
    · exact ⟨List.nil_prefix, Nat.zero_le _, fun h => absurd rfl h⟩
    · obtain ⟨hpre, hle, hwhole⟩ := ih (remaining - charWidth widths c)
      generalize takeWidth widths (remaining - charWidth widths c) cs = taken at hpre hle hwhole ⊢
      obtain ⟨text, left⟩ := taken
      dsimp only at hpre hle hwhole ⊢
      refine ⟨(List.prefix_cons_inj c).2 hpre, ?_, fun h => congrArg (c :: ·) (hwhole h)⟩
      rw [charsWidth_cons]
      omega

theorem takeWidth_of_le (widths : Widths) {remaining : ℕ} {cs : List Char}
    (h : charsWidth widths cs ≤ remaining) :
    takeWidth widths remaining cs = (cs, remaining - charsWidth widths cs) := by
  induction cs generalizing remaining with
  | nil => rfl
  | cons c cs ih =>
    rw [charsWidth_cons] at h ⊢
    rw [takeWidth, if_neg (by omega), ih (by omega), Nat.sub_add_eq]

theorem chars_truncateSpans (widths : Widths) (remaining : ℕ) (spans : List Span) :
    chars (truncateSpans widths remaining spans) <+: chars spans ∧
      charsWidth widths (chars (truncateSpans widths remaining spans)) ≤ remaining := by
  induction spans generalizing remaining with
  | nil => exact ⟨List.prefix_rfl, Nat.zero_le _⟩
  | cons span spans ih =>
    obtain ⟨hpre, hle, hwhole⟩ := takeWidth_spec widths remaining span.text.toList
    rw [truncateSpans]
    generalize takeWidth widths remaining span.text.toList = taken at hpre hle hwhole
    obtain ⟨text, left⟩ := taken
    dsimp only at hpre hle hwhole ⊢
    split_ifs with htext hleft
    · exact ⟨List.nil_prefix, Nat.zero_le _⟩
    · simp only [chars_cons, chars_nil, String.toList_ofList, List.append_nil]
      exact ⟨hpre.trans (List.prefix_append _ _), by omega⟩
    · obtain ⟨hrest, hwidth⟩ := ih left
      rw [chars_cons, chars_cons, String.toList_ofList, charsWidth_append, hwhole hleft]
      rw [hwhole hleft] at hle
      exact ⟨(List.prefix_append_right_inj _).2 hrest, by omega⟩

/-- Nothing is cut from a line that fits, but for what takes no columns. -/
theorem charsWidth_truncateSpans (widths : Widths) {remaining : ℕ} {spans : List Span}
    (hne : ∀ span ∈ spans, span.text ≠ "") (h : charsWidth widths (chars spans) ≤ remaining) :
    charsWidth widths (chars (truncateSpans widths remaining spans)) = charsWidth widths (chars spans) := by
  induction spans generalizing remaining with
  | nil => rfl
  | cons span spans ih =>
    rw [chars_cons, charsWidth_append] at h ⊢
    have htext : span.text.toList ≠ [] := fun hnil =>
      hne span List.mem_cons_self (String.toList_inj.1 (hnil.trans String.toList_empty.symm))
    rw [truncateSpans, takeWidth_of_le widths (by omega)]
    dsimp only
    rw [if_neg htext, chars_cons, String.toList_ofList, charsWidth_append]
    split_ifs with hleft
    · rw [chars_nil, charsWidth_nil]
      omega
    · rw [ih (fun s hs => hne s (List.mem_cons_of_mem _ hs)) (by omega)]

theorem text_glue {separator : Separator} {side : Side} {before after : Edge} {span : Span}
    (h : glue separator side before after = some span) : span.text ≠ "" := by
  have harrow : arrow side ≠ "" := by cases side <;> decide
  have hthin : thin side ≠ "" := by cases side <;> decide
  have hrule : thinRule ≠ "" := by decide
  have hspan : ∀ a b, (arrowSpan side a b).text = arrow side := by
    intro a b
    cases side <;> rfl
  cases before with
  | fill =>
    cases after with
    | fill => exact nomatch h
    | seg kind =>
      simp only [glue] at h
      split_ifs at h
      rw [← Option.some.inj h, hspan]
      exact harrow
  | seg a =>
    cases after with
    | fill =>
      simp only [glue] at h
      split_ifs at h
      rw [← Option.some.inj h, hspan]
      exact harrow
    | seg b =>
      simp only [glue] at h
      split_ifs at h
      · cases separator with
        | block => exact nomatch h
        | bar =>
          rw [← Option.some.inj h]
          exact hrule
        | powerline =>
          rw [← Option.some.inj h]
          exact hthin
      · cases separator with
        | block => exact nomatch h
        | bar =>
          rw [← Option.some.inj h]
          exact hrule
        | powerline =>
          rw [← Option.some.inj h, hspan]
          exact harrow

theorem text_segmentSpan (segment : Segment) (variant : ℕ) : (segmentSpan segment variant).text ≠ "" := by
  intro h
  have hlist := congrArg String.toList h
  simp [segmentSpan] at hlist

theorem text_joined (separator : Separator) (side : Side) (previous : Option Edge)
    (items : List (Placed segments)) : ∀ span ∈ joined separator side previous items, span.text ≠ "" := by
  have hglued : ∀ (previous : Option Edge) (edge : Edge),
      ∀ span ∈ (previous.bind fun before => glue separator side before edge).toList, span.text ≠ "" := by
    intro previous edge span hspan
    obtain ⟨before, -, hglue⟩ := Option.bind_eq_some_iff.1 (Option.mem_toList.1 hspan)
    exact text_glue hglue
  induction items generalizing previous with
  | nil =>
    intro span hspan
    rw [joined] at hspan
    split_ifs at hspan
    · exact hglued previous .fill span hspan
    · cases hspan
  | cons p items ih =>
    intro span hspan
    rw [joined, List.mem_append, List.mem_cons] at hspan
    rcases hspan with hspan | rfl | hspan
    · exact hglued previous _ span hspan
    · exact text_segmentSpan _ _
    · exact ih _ span hspan

theorem text_fullLine (widths : Widths) (placed : List (Placed segments)) (width : ℕ)
    (separator : Separator) : ∀ span ∈ fullLine widths placed width separator, span.text ≠ "" := by
  intro span hspan
  simp only [fullLine, List.mem_append] at hspan
  rcases hspan with (hspan | hspan) | hspan
  · exact text_joined _ _ _ _ span hspan
  · split_ifs at hspan with hfill
    · cases hspan
    · rwa [List.mem_singleton.1 hspan]
  · exact text_joined _ _ _ _ span hspan

/-- The bar never takes more columns than there are and shows the line from its start. When the
layout fits and the texts are as wide as their characters, it fills the width exactly. -/
theorem compose_line (widths : Widths) (placed : List (Placed segments)) (width : ℕ) (separator : Separator) :
    chars (compose widths placed width separator) <+: chars (fullLine widths placed width separator) ∧
      charsWidth widths (chars (compose widths placed width separator)) ≤ width ∧
      (used widths placed separator ≤ width → widths.char ' ' = some 1 →
        (∀ side, ∀ span ∈ sideSpans placed side separator,
          widths.text span.text = charsWidth widths span.text.toList) →
        charsWidth widths (chars (compose widths placed width separator)) = width) := by
  obtain ⟨hpre, hle⟩ := chars_truncateSpans widths width (fullLine widths placed width separator)
  refine ⟨hpre, hle, ?_⟩
  intro hfits hspace hsum
  have hside : ∀ side, charsWidth widths (chars (sideSpans placed side separator)) =
      spansWidth widths (sideSpans placed side separator) := by
    intro side
    have hspans := hsum side
    generalize sideSpans placed side separator = spans at hspans ⊢
    induction spans with
    | nil => rfl
    | cons span spans ih =>
      rw [chars_cons, charsWidth_append, ← hspans span List.mem_cons_self,
        ih fun s hs => hspans s (List.mem_cons_of_mem _ hs)]
      rfl
  have hfull : charsWidth widths (chars (fullLine widths placed width separator)) = width := by
    have hblank : ∀ n, charsWidth widths (List.replicate n ' ') = n := by
      intro n
      simp [charsWidth, charWidth, hspace]
    simp only [fullLine, chars_append, charsWidth_append, hside]
    split_ifs with hfill
    · have hzero : width - used widths placed separator = 0 := by
        simpa using congrArg String.toList hfill
      rw [chars_nil, charsWidth_nil]
      unfold used at hzero hfits
      omega
    · rw [chars_cons, chars_nil, List.append_nil, String.toList_ofList, hblank]
      unfold used at hfits ⊢
      omega
  rw [compose, charsWidth_truncateSpans widths (text_fullLine widths placed width separator) hfull.le, hfull]

theorem compose_line_work :
    charsWidth ⟨String.length, fun _ => some 1⟩
      (chars (compose ⟨String.length, fun _ => some 1⟩
        (everything [⟨["WORK"], 0, .left, .mode .work⟩, ⟨["w1", "1w"], 6, .right, .workers⟩])
        20 .powerline)) = 20 := by
  refine (compose_line _ _ _ _).2.2 (by decide) rfl ?_
  intro side
  cases side <;> decide

end Ralph.Chat.StatusBar
