import Ralph.ChatMemory.RangePages
import Ralph.TextSize

namespace Ralph.ChatMemory
open String TextSize

/-- The entry that a read starts with, from its first character to show on, and its text. -/
def firstSlice (window : Window) (tree : Tree) (request : RangeRequest) : Option (Slice × String) :=
  match checkRequest request window.total with
  | .error _ => none
  | .ok c => (window.get c.next).map fun entry =>
    let text := viewText entry tree c.next request.mode
    (⟨c.next, entry, text.length, c.offset⟩, text)

/-- The page is one block with at most one character of the text. -/
def RangePage.IsLone (page : RangePage) (s : Slice) (text : String) : Prop :=
  page.blocks = [s.block text 0] ∨ page.blocks = [s.block text 1]

instance (page : RangePage) (s : Slice) (text : String) : Decidable (page.IsLone s text) :=
  inferInstanceAs (Decidable (_ ∨ _))

/-- The read goes on inside a text of a power of ten of characters, and the block with all that is
left of it, two characters or more, is one byte too long for the page. -/
structure OneOver (s : Slice) (text : String) (budget : ℕ) : Prop where
  inside : 0 < s.offset
  power : ∃ k, s.total = 10 ^ k
  left : s.offset + 2 ≤ s.total
  size : (s.block text (s.total - s.offset)).utf8ByteSize = budget * bytesPerToken + 1

def Slice.baseSize (s : Slice) : ℕ :=
  (s!"#{s.index} · {s.entry.role.asStr} · {s.entry.at_} · {s.total} chars").utf8ByteSize

theorem Slice.size_header (s : Slice) (count : ℕ) :
    (s.header count).utf8ByteSize = if s.offset = 0 ∧ count = s.total then s.baseSize
      else s.baseSize + 11 + digits (s.offset + 1) + digits (s.offset + count) := by
  unfold Slice.header
  simp only
  split_ifs
  · rfl
  · simp only [utf8ByteSize_append, Slice.baseSize, digits, toString]
    have hchars : " · chars ".utf8ByteSize = 10 := by decide
    have hdash : "-".utf8ByteSize = 1 := by decide
    omega

theorem Slice.size_block (s : Slice) (text : String) (count : ℕ) :
    (s.block text count).utf8ByteSize = (s.header count).utf8ByteSize + 1 +
      utf8Len ((text.toList.drop s.offset).take count) := by
  simp only [Slice.block, utf8ByteSize_append, toString, utf8ByteSize_ofList]
  have hline : "\n".utf8ByteSize = 1 := by decide
  omega

theorem size_snoc (blocks : List String) (b : String) :
    ("\n\n".intercalate (blocks ++ [b])).utf8ByteSize =
      ("\n\n".intercalate blocks).utf8ByteSize + (if blocks = [] then 0 else 2) + b.utf8ByteSize := by
  induction blocks with
  | nil => simp
  | cons a blocks ih =>
    by_cases hnil : blocks = []
    · subst hnil
      have hsep : "\n\n".utf8ByteSize = 2 := by decide
      rw [List.singleton_append, String.intercalate_cons_of_ne_nil (by simp)]
      simp only [String.intercalate_singleton, utf8ByteSize_append, hsep]
      simp
    · rw [List.cons_append, String.intercalate_cons_of_ne_nil (by simp),
        String.intercalate_cons_of_ne_nil hnil]
      simp only [utf8ByteSize_append, ih, if_neg hnil, reduceCtorEq, if_false]
      omega

theorem utf8Len_pos {cs : List Char} (h : cs ≠ []) : 0 < utf8Len cs := by
  cases cs with
  | nil => exact absurd rfl h
  | cons c cs =>
    have hpos := c.utf8Size_pos
    rw [utf8Len_cons]
    omega

/-- What fits, fits; one more character does not. -/
theorem Slice.fitting_spec (room used : ℕ) (cs : List Char) :
    (fitting room used cs = 0 ∨ used + utf8Len (cs.take (fitting room used cs)) ≤ room) ∧
      (cs.length ≤ fitting room used cs ∨
        room < used + utf8Len (cs.take (fitting room used cs + 1))) := by
  induction cs generalizing used with
  | nil => simp [fitting]
  | cons c cs ih =>
    rw [fitting]
    split_ifs with hfits
    · obtain ⟨hle, hlt⟩ := ih (used + c.utf8Size)
      simp only [List.take_succ_cons, utf8Len_cons, List.length_cons]
      refine ⟨Or.inr ?_, ?_⟩
      · rcases hle with hzero | hle
        · rw [hzero, List.take_zero, utf8Len_nil]
          omega
        · omega
      · rcases hlt with hlt | hlt
        · exact Or.inl (by omega)
        · exact Or.inr (by omega)
    · refine ⟨Or.inl rfl, Or.inr ?_⟩
      rw [Nat.zero_add, List.take_succ_cons, List.take_zero, utf8Len_cons, utf8Len_nil]
      omega

section Cut

variable {s : Slice} {text : String} {left budget : ℕ}

theorem length_left (htotal : s.total = text.length) :
    (text.toList.drop s.offset).length = s.total - s.offset := by
  rw [List.length_drop, String.length_toList, htotal]

/-- A block cut to the room of the header of one character less fits, unless it is not cut at all:
then the header it got has a digit more. -/
theorem size_cut (htotal : s.total = text.length)
    (hlong : left < (s.block text (s.total - s.offset)).utf8ByteSize) {fit : ℕ}
    (hfit : s.fittingChars text (left - ((s.header (s.total - s.offset - 1)).utf8ByteSize + 1)) = fit)
    (hpos : fit ≠ 0) :
    (s.block text fit).utf8ByteSize ≤ left ∨
      (fit = s.total - s.offset ∧ 0 < s.offset ∧ (∃ k, s.total = 10 ^ k) ∧
        (s.block text (s.total - s.offset)).utf8ByteSize = left + 1) := by
  have hlen := length_left htotal
  obtain ⟨hroom, -⟩ := Slice.fitting_spec
    (left - ((s.header (s.total - s.offset - 1)).utf8ByteSize + 1)) 0 (text.toList.drop s.offset)
  have hle := Slice.fitting_le (left - ((s.header (s.total - s.offset - 1)).utf8ByteSize + 1)) 0
    (text.toList.drop s.offset)
  rw [← Slice.fittingChars, hfit] at hroom hle
  rw [hlen] at hle
  have hbytes : 0 < utf8Len ((text.toList.drop s.offset).take fit) := by
    apply utf8Len_pos
    rw [ne_eq, List.take_eq_nil_iff, not_or]
    refine ⟨hpos, fun hnil => ?_⟩
    rw [hnil, List.length_nil] at hlen
    omega
  have hheader : (s.header (s.total - s.offset - 1)).utf8ByteSize =
      s.baseSize + 11 + digits (s.offset + 1) + digits (s.offset + (s.total - s.offset - 1)) := by
    rw [Slice.size_header, if_neg (by omega)]
  have hshown := hroom.resolve_left hpos
  rw [hheader] at hshown
  rcases Nat.lt_or_ge fit (s.total - s.offset) with hlt | hge
  · left
    have hdigits : digits (s.offset + fit) ≤ digits (s.offset + (s.total - s.offset - 1)) :=
      digits_mono (by omega)
    rw [Slice.size_block, Slice.size_header, if_neg (by omega)]
    omega
  · obtain rfl : fit = s.total - s.offset := by omega
    have hall : (text.toList.drop s.offset).take (s.total - s.offset) = text.toList.drop s.offset :=
      List.take_of_length_le hlen.le
    rw [Slice.size_block, Slice.size_header] at hlong ⊢
    rw [hall] at hshown hlong hbytes ⊢
    rcases Nat.eq_zero_or_pos s.offset with hzero | hinside
    · rw [if_pos ⟨hzero, by omega⟩] at hlong
      omega
    · rw [if_neg (by omega)] at hlong ⊢
      have hnext : s.offset + (s.total - s.offset) = s.offset + (s.total - s.offset - 1) + 1 := by omega
      rcases digits_succ (s.offset + (s.total - s.offset - 1)) with hsame | ⟨hmore, hpower⟩
      · rw [hnext, hsame] at hlong
        omega
      · rw [hnext, hmore] at hlong ⊢
        exact Or.inr ⟨rfl, hinside, ⟨digits (s.offset + (s.total - s.offset - 1)), by omega⟩, by omega⟩

theorem size_block_lt (htotal : s.total = text.length) (hinside : 0 < s.offset) {count more : ℕ}
    (hlt : count < more) (hmore : more ≤ s.total - s.offset) :
    (s.block text count).utf8ByteSize < (s.block text more).utf8ByteSize := by
  have hdigits := digits_mono (show s.offset + count ≤ s.offset + more by omega)
  have hsplit : (text.toList.drop s.offset).take more = (text.toList.drop s.offset).take count ++
      ((text.toList.drop s.offset).drop count).take (more - count) := by
    rw [← List.take_add, Nat.add_sub_cancel' hlt.le]
  have hbytes : 0 < utf8Len (((text.toList.drop s.offset).drop count).take (more - count)) := by
    apply utf8Len_pos
    rw [ne_eq, List.take_eq_nil_iff, List.drop_eq_nil_iff, length_left htotal]
    omega
  rw [Slice.size_block, Slice.size_block, hsplit, utf8Len_append, Slice.size_header,
    Slice.size_header, if_neg (by omega), if_neg (by omega)]
  omega

/-- In the one case where it is too long the block is not cut. -/
theorem OneOver.fit (h : OneOver s text budget) (htotal : s.total = text.length) :
    s.fittingChars text (budget * bytesPerToken -
      ((s.header (s.total - s.offset - 1)).utf8ByteSize + 1)) = s.total - s.offset := by
  obtain ⟨hinside, ⟨k, hpower⟩, hleft, hsize⟩ := h
  have hlen := length_left htotal
  obtain ⟨k, rfl⟩ : ∃ j, k = j + 1 := by
    cases k with
    | zero => omega
    | succ k => exact ⟨k, rfl⟩
  have hdigits := digits_pow k
  rw [← hpower] at hdigits
  have hend : s.offset + (s.total - s.offset) = s.total := by omega
  have hbefore : s.offset + (s.total - s.offset - 1) = s.total - 1 := by omega
  have hall : (text.toList.drop s.offset).take (s.total - s.offset) = text.toList.drop s.offset :=
    List.take_of_length_le hlen.le
  rw [Slice.size_block, Slice.size_header, if_neg (by omega), hall, hend, hdigits] at hsize
  have hheader : (s.header (s.total - s.offset - 1)).utf8ByteSize =
      s.baseSize + 11 + digits (s.offset + 1) + digits (s.total - 1) := by
    rw [Slice.size_header, if_neg (by omega), hbefore]
  obtain ⟨-, hmore⟩ := Slice.fitting_spec (budget * bytesPerToken -
    ((s.header (s.total - s.offset - 1)).utf8ByteSize + 1)) 0 (text.toList.drop s.offset)
  have hle := Slice.fitting_le (budget * bytesPerToken -
    ((s.header (s.total - s.offset - 1)).utf8ByteSize + 1)) 0 (text.toList.drop s.offset)
  rw [hheader] at hmore hle ⊢
  rw [hlen] at hle hmore
  refine le_antisymm hle (hmore.resolve_right ?_)
  intro hlt
  have htake := utf8Len_le_of_sublist (List.take_sublist
    (Slice.fitting (budget * bytesPerToken - (s.baseSize + 11 + digits (s.offset + 1) +
      digits (s.total - 1) + 1)) 0 (text.toList.drop s.offset) + 1) (text.toList.drop s.offset))
  omega

/-- The page keeps to the budget or is one bare block, just in case it is not one byte over. -/
def KeepsBudget (s : Slice) (text : String) (budget : ℕ) (page : RangePage) : Prop :=
  (page.text.utf8ByteSize ≤ budget * bytesPerToken ∨ page.IsLone s text) ↔ ¬ OneOver s text budget

/-- A page with a block: what it holds, with a blank line and the room left, is in the budget. -/
structure Later (s : Slice) (text : String) (budget : ℕ) (p : Page) : Prop where
  fits : ¬ OneOver s text budget
  some : p.blocks ≠ []
  offset : p.cursor.offset = 0
  room : (("\n\n".intercalate p.blocks).utf8ByteSize ≤ budget * bytesPerToken ∧
      (p.left = 0 ∨ ("\n\n".intercalate p.blocks).utf8ByteSize + 2 + p.left ≤
        budget * bytesPerToken)) ∨
    (p.left = 0 ∧ p.blocks = [s.block text 0])

theorem Later.finish {p : Page} (h : Later s text budget p) (next : Option Cursor) :
    KeepsBudget s text budget ⟨p.blocks, next⟩ := by
  refine iff_of_true ?_ h.fits
  rcases h.room with ⟨hsize, -⟩ | ⟨-, hlone⟩
  · exact Or.inl hsize
  · exact Or.inr (Or.inl hlone)

theorem header_pos (s : Slice) (count : ℕ) : 0 < (s.header count).utf8ByteSize := by
  have hbase : 0 < s.baseSize := by
    have hmark : "#".utf8ByteSize = 1 := by decide
    simp only [Slice.baseSize, utf8ByteSize_append, toString]
    omega
  rw [Slice.size_header]
  split_ifs <;> omega

theorem text_snoc {blocks : List String} (hne : blocks ≠ []) (b : String) (next : Option Cursor) :
    (RangePage.mk (blocks ++ [b]) next).text.utf8ByteSize =
      ("\n\n".intercalate blocks).utf8ByteSize + 2 + b.utf8ByteSize := by
  rw [RangePage.text, size_snoc, if_neg hne]

/-- A round on a page with a block keeps the page in the budget. -/
theorem Later.round {p : Page} (h : Later s text budget p) (entry : Entry) (view : String) :
    (∀ q, Page.roundOf entry view p = .inl q → Later s text budget q) ∧
      ∀ page, Page.roundOf entry view p = .inr (.ok (.page page)) → KeepsBudget s text budget page := by
  have hroom : 0 < p.left → ("\n\n".intercalate p.blocks).utf8ByteSize + 2 + p.left ≤
      budget * bytesPerToken := by
    intro hleft
    rcases h.room with ⟨-, hzero | hroom⟩ | ⟨hzero, -⟩
    · omega
    · exact hroom
    · omega
  unfold Page.roundOf
  simp only [h.offset, gt_iff_lt, lt_irrefl, false_and, if_false, Nat.sub_zero]
  set slice : Slice := ⟨p.cursor.next, entry, view.length, 0⟩ with hslice
  have hpos := header_pos slice view.length
  have hblock := Slice.size_block slice view view.length
  refine ⟨fun q hq => ?_, fun page hpage => ?_⟩
  · split_ifs at hq with hwhole
    cases hq
    have hfits := hwhole.resolve_right fun hnil => h.some hnil.1
    have hin := hroom (by omega)
    refine ⟨h.fits, by simp, rfl, Or.inl ?_⟩
    rw [size_snoc, if_neg h.some]
    exact ⟨by omega, by dsimp only; omega⟩
  · split_ifs at hpage with hwhole hbreak hzero
    · cases hpage
      exact h.finish _
    · exact absurd ⟨hzero, h.some⟩ hbreak
    · cases hpage
      rw [not_or] at hwhole
      have hlong : p.left < (slice.block view (slice.total - slice.offset)).utf8ByteSize := by
        have hlt := hwhole.1
        rw [hslice] at hlt ⊢
        exact Nat.lt_of_not_le hlt
      have hcut := size_cut (s := slice) rfl hlong rfl hzero
      have hsize := hcut.resolve_right fun hover => absurd hover.2.1 (lt_irrefl 0)
      have hleft : 0 < p.left := by
        have hpart := header_pos slice (slice.fittingChars view
          (p.left - ((slice.header (slice.total - slice.offset - 1)).utf8ByteSize + 1)))
        have hsizes := Slice.size_block slice view (slice.fittingChars view
          (p.left - ((slice.header (slice.total - slice.offset - 1)).utf8ByteSize + 1)))
        omega
      have hin := hroom hleft
      refine iff_of_true (Or.inl ?_) h.fits
      simp only [Page.showPart]
      rw [text_snoc h.some]
      exact le_trans (by simpa [hslice] using hsize) hin

/-- The first round of a page. -/
theorem first_round {p : Page} {entry : Entry}
    (hs : s = ⟨p.cursor.next, entry, text.length, p.cursor.offset⟩) (hblocks : p.blocks = [])
    (hleft : p.left = budget * bytesPerToken) :
    (∀ q, Page.roundOf entry text p = .inl q → Later s text budget q) ∧
      ∀ page, Page.roundOf entry text p = .inr (.ok (.page page)) → KeepsBudget s text budget page := by
  have htotal : s.total = text.length := by rw [hs]
  have hoffset : s.offset = p.cursor.offset := by rw [hs]
  unfold Page.roundOf
  simp only [← hs, hblocks, List.nil_append, true_and, ne_eq, not_true_eq_false, and_false, if_false]
  rw [← hoffset, ← htotal, hleft]
  refine ⟨fun q hq => ?_, fun page hpage => ?_⟩
  · split_ifs at hq with hstale hwhole
    cases hq
    -- a whole entry goes on to the next round only if it fits, or if no text is left
    have hover : ¬ OneOver s text budget := by
      rintro ⟨-, -, hmore, hsize⟩
      rcases hwhole with hfits | hnone
      · omega
      · omega
    refine ⟨hover, by simp, rfl, ?_⟩
    rcases hwhole with hfits | hnone
    · exact Or.inl ⟨by simpa using hfits, by rw [String.intercalate_singleton]; dsimp only; omega⟩
    · by_cases hfits : (s.block text (s.total - s.offset)).utf8ByteSize ≤ budget * bytesPerToken
      · exact Or.inl ⟨by simpa using hfits, by rw [String.intercalate_singleton]; dsimp only; omega⟩
      · exact Or.inr ⟨by dsimp only; omega, by rw [hnone]⟩
  · split_ifs at hpage with hstale hwhole hzero
    · cases hpage
    · -- Not a character fits, and one is shown.
      cases hpage
      refine iff_of_true (Or.inr (Or.inr (by simp [Page.showPart, hblocks]))) ?_
      intro hover
      have hfit := hover.fit htotal
      have hmore := hover.left
      omega
    · cases hpage
      rw [not_or, not_le] at hwhole
      rcases size_cut htotal hwhole.1 rfl hzero with hfits | ⟨hall, hinside, hpower, hsize⟩
      · refine iff_of_true (Or.inl ?_) ?_
        · simpa [RangePage.text, Page.showPart, hblocks] using hfits
        · intro hover
          rw [hover.fit htotal, hover.size] at hfits
          omega
      · rw [hall]
        -- with one character left the page is a lone character
        by_cases hmore : s.offset + 2 ≤ s.total
        · refine iff_of_false ?_ (not_not.mpr ⟨hinside, hpower, hmore, hsize⟩)
          have hblock : ∀ count, count < s.total - s.offset →
              [s.block text (s.total - s.offset)] ≠ [s.block text count] := by
            intro count hcount heq
            have hlt := size_block_lt htotal hinside hcount le_rfl
            rw [List.singleton_inj.mp heq] at hlt
            exact lt_irrefl _ hlt
          simp only [RangePage.text, RangePage.IsLone, Page.showPart, hblocks, List.nil_append,
            String.intercalate_singleton, hsize]
          rintro (hfits | hzero | hone)
          · omega
          · exact hblock 0 (by omega) hzero
          · exact hblock 1 (by omega) hone
        · have hone : s.total - s.offset = 1 := by omega
          refine iff_of_true (Or.inr (Or.inr ?_)) fun hover => hmore hover.left
          simp only [Page.showPart, hblocks, List.nil_append, hone]

end Cut

theorem checkRequest_lt {request : RangeRequest} {len : ℕ} {c : Cursor}
    (h : checkRequest request len = .ok c) : c.next < c.stop := by
  unfold checkRequest at h
  split_ifs at h with hback hbeyond hbudget
  unfold startCursor at h
  cases hcursor : request.cursor with
  | none =>
    rw [hcursor] at h
    cases h
    dsimp only [rangeLimit]
    omega
  | some d =>
    rw [hcursor] at h
    obtain ⟨_, hvalid, hd⟩ := Fallible.bind_eq_ok.mp h
    cases hd
    unfold validateCursor at hvalid
    split_ifs at hvalid with hmode hstop hnext
    omega

/-- A page keeps to its budget, but for one character or none alone, unless the read goes on in a
text of a power of ten of characters and all that is left of it is one byte too long. -/
theorem page_within_budget_iff {window : Window} {tree : Tree} {request : RangeRequest}
    {page : RangePage} (h : readRange window tree request = .ok (.page page)) :
    ∃ s text, firstSlice window tree request = some (s, text) ∧
      ((page.text.utf8ByteSize ≤ request.budget * bytesPerToken ∨ page.IsLone s text) ↔
        ¬ OneOver s text request.budget) := by
  obtain ⟨c, hcheck, hrun⟩ := Fallible.bind_eq_ok.mp h
  set start : Page := ⟨c, request.budget * bytesPerToken, []⟩ with hstart
  have hround : (Page.body window tree request.mode).step start =
      Page.round window tree request.mode start := rfl
  rw [Page.round, if_pos (checkRequest_lt hcheck)] at hround
  cases hentry : window.get c.next with
  | none =>
    rw [hstart] at hround
    simp only [hentry] at hround
    rw [Loop.Body.run_of_done _ hround] at hrun
    cases hrun
  | some entry =>
    rw [hstart] at hround
    simp only [hentry] at hround
    rw [← hstart] at hround
    set text := viewText entry tree c.next request.mode with htext
    refine ⟨⟨c.next, entry, text.length, c.offset⟩, text, ?_, ?_⟩
    · rw [firstSlice, hcheck]
      simp only [hentry, Option.map_some, htext]
    · have hleft : start.left = request.budget * bytesPerToken := rfl
      have hslice : (⟨c.next, entry, text.length, c.offset⟩ : Slice) =
        ⟨start.cursor.next, entry, text.length, start.cursor.offset⟩ := rfl
      obtain ⟨hagain, hdone⟩ := first_round hslice rfl hleft
      cases hstep : Page.roundOf entry text start with
      | inl q =>
        rw [hstep] at hround
        rw [Loop.Body.run_of_again _ hround] at hrun
        have hrest := (Page.body window tree request.mode).run_of_invariant
          (I := Later ⟨c.next, entry, text.length, c.offset⟩ text request.budget)
          (Q := fun r => ∀ page, r = .ok (.page page) →
            KeepsBudget ⟨c.next, entry, text.length, c.offset⟩ text request.budget page)
          (s := q) ?_ ?_ (hagain q hstep)
        · exact hrest page hrun
        · intro p q hp hq
          have hq' : Page.round window tree request.mode p = .inl q := hq
          rw [Page.round] at hq'
          split_ifs at hq'
          split at hq'
          · cases hq'
          · exact (hp.round _ _).1 q hq'
        · intro p r hp hr page hpage
          have hr' : Page.round window tree request.mode p = .inr r := hr
          rw [hpage] at hr'
          rw [Page.round] at hr'
          split_ifs at hr'
          · split at hr'
            · cases hr'
            · exact (hp.round _ _).2 page hr'
          · cases hr'
            exact hp.finish _
      | inr r =>
        rw [hstep] at hround
        rw [Loop.Body.run_of_done _ hround] at hrun
        rw [hrun] at hstep
        exact hdone page hstep

/-- A message of a hundred characters, the last three of two bytes, in two pages. -/
def demoEntries : List Entry :=
  [⟨.user, "2026-01-01T00:00:00Z", String.ofList (List.replicate 97 'x') ++ "ééé", false⟩]

def demoRequest : RangeRequest := ⟨0, 0, .raw, 38, none⟩

def demoCursor : Cursor := ⟨0, 52, 1, .raw⟩

def demoSecond : String :=
  "#0 · user · 2026-01-01T00:00:00Z · 100 chars · chars 53-100\n" ++
    (String.ofList (List.replicate 45 'x') ++ "ééé")

theorem demo_budget : ∃ s text,
    firstSlice (Window.full demoEntries) (fun _ => none) { demoRequest with cursor := some demoCursor } =
      some (s, text) ∧
    (((RangePage.mk [demoSecond] none).text.utf8ByteSize ≤ 38 * bytesPerToken ∨
        (RangePage.mk [demoSecond] none).IsLone s text) ↔ ¬ OneOver s text 38) := by
  have hpage : readRange (Window.full demoEntries) (fun _ => none)
      { demoRequest with cursor := some demoCursor } = .ok (.page ⟨[demoSecond], none⟩) := by
    decide +kernel
  exact page_within_budget_iff hpage

/-- The second page of a read takes one byte more than its budget. -/
theorem page_one_over : ¬ ∀ (entries : List Entry) (tree : Tree) (request : RangeRequest)
    (first page : RangePage) (c : Cursor) (s : Slice) (text : String),
    readRange (Window.full entries) tree request = .ok (.page first) → first.next = some c →
    readRange (Window.full entries) tree { request with cursor := some c } = .ok (.page page) →
    firstSlice (Window.full entries) tree { request with cursor := some c } = some (s, text) →
    page.text.utf8ByteSize ≤ request.budget * bytesPerToken ∨ page.IsLone s text := by
  intro h
  have hfirst : readRange (Window.full demoEntries) (fun _ => none) demoRequest =
      .ok (.page ⟨["#0 · user · 2026-01-01T00:00:00Z · 100 chars · chars 1-52\n" ++
        String.ofList (List.replicate 52 'x')], some demoCursor⟩) := by decide +kernel
  have hsecond : readRange (Window.full demoEntries) (fun _ => none)
      { demoRequest with cursor := some demoCursor } = .ok (.page ⟨[demoSecond], none⟩) := by
    decide +kernel
  have hkeeps := h _ _ _ _ _ _ _ _ hfirst rfl hsecond rfl
  revert hkeeps
  decide +kernel

end Ralph.ChatMemory
