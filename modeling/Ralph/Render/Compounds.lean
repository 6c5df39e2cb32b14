import Ralph.Render.Wrap

namespace Ralph.Render
open CharBoundary ChatMemory
open String (utf8Len utf8Len_nil utf8Len_cons utf8Len_append)

theorem length_origins (index previousEnd : ℕ) (text : List Char) :
    (origins index previousEnd text).length = utf8Len (visible text) := by
  induction text generalizing index previousEnd with
  | nil => rfl
  | cons c cs ih =>
    rw [origins, visible]
    by_cases hmarker : isMarker c = true
    · rw [if_pos hmarker, ih, List.filter_cons_of_neg (by simp [hmarker])]
      rfl
    · rw [if_neg hmarker, List.length_append, List.length_replicate, ih, List.filter_cons_of_pos (by simp [hmarker]),
        utf8Len_cons, Nat.add_comm]
      rfl

theorem origins_mem {index previousEnd stop : ℕ} {text : List Char} (h : stop ∈ origins index previousEnd text) :
    stop = previousEnd ∨ ∃ l r, text = l ++ r ∧ stop = index + utf8Len l := by
  induction text generalizing index previousEnd with
  | nil => cases h
  | cons c cs ih =>
    rw [origins] at h
    by_cases hmarker : isMarker c = true
    · rw [if_pos hmarker] at h
      rcases ih h with hold | ⟨l, r, htext, hstop⟩
      · exact .inl hold
      · refine .inr ⟨c :: l, r, by rw [htext, List.cons_append], ?_⟩
        rw [utf8Len_cons, hstop]
        omega
    · rw [if_neg hmarker, List.mem_append] at h
      rcases h with hhere | hlater
      · exact .inl (List.eq_of_mem_replicate hhere)
      · right
        rcases ih hlater with hold | ⟨l, r, htext, hstop⟩
        · refine ⟨[c], cs, rfl, ?_⟩
          rw [utf8Len_cons, utf8Len_nil, hold, Nat.zero_add]
        · refine ⟨c :: l, r, by rw [htext, List.cons_append], ?_⟩
          rw [utf8Len_cons, hstop]
          omega

theorem breakOpportunities_boundary {env : WrapEnv} {text : List Char} {stop : ℕ} (h : stop ∈ breakOpportunities env text) :
    isCharBoundary text stop = true := by
  obtain ⟨index, _, hindex⟩ := List.mem_map.mp h
  rw [← hindex, List.getD_eq_getElem?_getD]
  cases horigin : (origins 0 0 text)[index]? with
  | none => exact isCharBoundary_end text
  | some origin =>
    rcases origins_mem (List.mem_of_getElem? horigin) with hzero | ⟨l, r, htext, hl⟩
    · rw [Option.getD_some, hzero]
      exact isCharBoundary_zero text
    · rw [Option.getD_some, hl, Nat.zero_add]
      exact isCharBoundary_iff.mpr ⟨l, r, htext, rfl⟩

/-- What the line breaks of `unicode-linebreak` satisfy: increasing boundaries of the text up to its end. -/
structure WrapEnv.Breaking (env : WrapEnv) : Prop where
  increasing : ∀ text, (env.linebreaks text).Pairwise (· < ·)
  boundary : ∀ text, ∀ index ∈ env.linebreaks text, isCharBoundary text index = true
  last : ∀ text, text ≠ [] → (env.linebreaks text).getLast? = some (utf8Len text)

/-- The end of the visible text is the end of the text. -/
theorem breakOpportunities_last {env : WrapEnv} (henv : env.Breaking) {text : List Char} (h : visible text ≠ []) :
    (breakOpportunities env text).getLast? = some (utf8Len text) := by
  rw [breakOpportunities, List.getLast?_map, henv.last _ h, Option.map_some, List.getD_eq_getElem?_getD,
    List.getElem?_eq_none (length_origins 0 0 text).le, Option.getD_none]

theorem Broken.init {env : WrapEnv} (henv : env.Breaking) (text : List Char) (first rest : ℕ) :
    Broken env text first rest ⟨[], text, [], none, breakOpportunities env text,
      fun _ h => absurd h (Option.not_mem_none _)⟩ where
  whole := rfl
  parts := ⟨[], rfl, rfl, fun _ _ h => by cases h⟩
  breaks _ h := breakOpportunities_boundary h
  fit _ h := absurd h (Option.not_mem_none _)
  last h := .inl (breakOpportunities_last henv h)

theorem breakLines_lined {env : WrapEnv} (henv : env.Breaking) (text : List Char) (first rest : ℕ) :
    ∃ lines, breakLines env text first rest = some lines ∧ Lined env text first rest lines :=
  (Broken.init henv text first rest).run

theorem utf8Len_trimEnd_le (part : List Char) : utf8Len (trimEnd part) ≤ utf8Len part := by
  obtain ⟨blanks, hblanks⟩ := trimEnd_prefix part
  conv_rhs => rw [← hblanks, utf8Len_append]
  exact Nat.le_add_right _ _

theorem le_of_mem_spans {start : ℕ} {parts : List (List Char)} {range : ℕ × ℕ} (h : range ∈ spans start parts) :
    start ≤ range.1 := by
  induction parts generalizing start with
  | nil => cases h
  | cons part parts ih =>
    rw [spans, List.mem_cons] at h
    rcases h with hhere | hlater
    · rw [hhere]
    · have hle := ih hlater
      omega

theorem spans_pairwise (start : ℕ) (parts : List (List Char)) :
    (spans start parts).Pairwise fun a b => a.2 ≤ b.1 := by
  induction parts generalizing start with
  | nil => exact List.Pairwise.nil
  | cons part parts ih =>
    rw [spans]
    refine List.Pairwise.cons (fun range hrange => ?_) (ih _)
    have hle := le_of_mem_spans hrange
    have htrim := utf8Len_trimEnd_le part
    dsimp only
    omega

theorem spans_boundary {start : ℕ} {before : List Char} {parts : List (List Char)} (hstart : utf8Len before = start)
    {range : ℕ × ℕ} (h : range ∈ spans start parts) : range.1 ≤ range.2 ∧
      isCharBoundary (before ++ parts.flatten) range.1 = true ∧
      isCharBoundary (before ++ parts.flatten) range.2 = true := by
  induction parts generalizing start before with
  | nil => cases h
  | cons part parts ih =>
    rw [spans, List.mem_cons] at h
    rw [List.flatten_cons]
    rcases h with hhere | hlater
    · obtain ⟨blanks, hblanks⟩ := trimEnd_prefix part
      rw [hhere]
      refine ⟨Nat.le_add_right _ _, isCharBoundary_iff.mpr ⟨before, _, rfl, hstart⟩,
        isCharBoundary_iff.mpr ⟨before ++ trimEnd part, blanks ++ parts.flatten, ?_, ?_⟩⟩
      · conv_lhs => rw [← hblanks]
        simp only [List.append_assoc]
      · rw [utf8Len_append, hstart]
    · have hnext : utf8Len (before ++ part) = start + utf8Len part := by rw [utf8Len_append, hstart]
      rw [← List.append_assoc]
      exact ih hnext hlater

theorem trimEnd_blanks (part : List Char) : ∃ blanks, part = trimEnd part ++ blanks ∧ ∀ c ∈ blanks, isWhitespace c = true := by
  refine ⟨part.rtakeWhile isWhitespace, List.rdropWhile_append_rtakeWhile.symm, fun c hc => ?_⟩
  exact List.mem_rtakeWhile_imp hc

/-- A compound of `minimad`: a text and its style. -/
structure Compound (σ : Type*) where
  style : σ
  src : List Char

variable {σ : Type*}

/-- `Compound::sub`, where `none` is a panic. -/
abbrev Sub (σ : Type*) := Compound σ → ℕ → ℕ → Option (Compound σ)

/-- Between two boundaries `Compound::sub` is the piece there, in the same style. -/
def Slices (sub : Sub σ) : Prop := ∀ style before kept after,
  sub ⟨style, before ++ (kept ++ after)⟩ (utf8Len before) (utf8Len before + utf8Len kept) = some ⟨style, kept⟩

variable {sub : Sub σ}

/-- `slice_compounds`, with the compounds from `offset` on. -/
def sliceCompounds (sub : Sub σ) (range : ℕ × ℕ) : ℕ → List (Compound σ) → Option (List (Compound σ))
  | _, [] => some []
  | offset, compound :: compounds =>
    let high := offset + utf8Len compound.src
    let start := max range.1 offset
    let stop := min range.2 high
    if start < stop then
      (sub compound (start - offset) (stop - offset)).bind fun part =>
        (sliceCompounds sub range high compounds).map (part :: ·)
    else sliceCompounds sub range high compounds

/-- The characters of compounds, each with its byte and the style of its compound. -/
def places : ℕ → List (Compound σ) → List (ℕ × σ × Char)
  | _, [] => []
  | offset, compound :: compounds =>
    (charIndices offset compound.src).map (fun place => (place.1, compound.style, place.2)) ++
      places (offset + utf8Len compound.src) compounds

def styled (compounds : List (Compound σ)) : List (σ × Char) :=
  compounds.flatMap fun compound => compound.src.map fun c => (compound.style, c)

theorem boundary_within {before src after : List Char} {i : ℕ} (h : isCharBoundary (before ++ (src ++ after)) i = true)
    (hlow : utf8Len before ≤ i) (hhigh : i ≤ utf8Len before + utf8Len src) :
    ∃ a b, src = a ++ b ∧ utf8Len a = i - utf8Len before := by
  obtain ⟨a, b, hsplit, hlen, _⟩ := exists_sliceTo h hlow
  rcases List.append_eq_append_iff.mp hsplit with ⟨more, hmore, hafter⟩ | ⟨b', hsrc, _⟩
  · refine ⟨src, [], (List.append_nil src).symm, ?_⟩
    rw [hmore, utf8Len_append] at hlen
    omega
  · exact ⟨a, b', hsrc, hlen⟩

/-- The part of a compound that stands in a range. -/
theorem Slices.sub_spec (hsub : Slices sub) {before after : List Char} (compound : Compound σ)
    {range : ℕ × ℕ}
    (hstart : isCharBoundary (before ++ (compound.src ++ after)) range.1 = true)
    (hstop : isCharBoundary (before ++ (compound.src ++ after)) range.2 = true)
    (hmeets : max range.1 (utf8Len before) < min range.2 (utf8Len before + utf8Len compound.src)) :
    ∃ kept, sub compound (max range.1 (utf8Len before) - utf8Len before)
        (min range.2 (utf8Len before + utf8Len compound.src) - utf8Len before) = some ⟨compound.style, kept⟩ ∧
      (charIndices (utf8Len before) compound.src).filter (fun place => inRange range place.1) =
        charIndices (max range.1 (utf8Len before)) kept := by
  have hlow : isCharBoundary (before ++ (compound.src ++ after)) (max range.1 (utf8Len before)) = true := by
    rcases max_choice range.1 (utf8Len before) with hmax | hmax
    · rw [hmax]
      exact hstart
    · rw [hmax]
      exact isCharBoundary_iff.mpr ⟨before, _, rfl, rfl⟩
  have hhigh : isCharBoundary (before ++ (compound.src ++ after))
      (min range.2 (utf8Len before + utf8Len compound.src)) = true := by
    rcases min_choice range.2 (utf8Len before + utf8Len compound.src) with hmin | hmin
    · rw [hmin]
      exact hstop
    · rw [hmin]
      exact isCharBoundary_iff.mpr ⟨before ++ compound.src, after, (List.append_assoc _ _ _).symm, utf8Len_append _ _⟩
  obtain ⟨a, b, hab, ha⟩ := boundary_within hlow (by omega) (by omega)
  obtain ⟨d, c, hdc, hd⟩ := boundary_within hhigh (by omega) (by omega)
  obtain ⟨kept, hkept⟩ : ∃ kept, compound.src = a ++ (kept ++ c) ∧ d = a ++ kept := by
    rcases List.append_eq_append_iff.mp (hab.symm.trans hdc) with ⟨kept, hd', hb⟩ | ⟨more, ha', _⟩
    · exact ⟨kept, by rw [hab, hb], hd'⟩
    · rw [ha', utf8Len_append] at ha
      omega
  have hlen : utf8Len d = utf8Len a + utf8Len kept := by rw [hkept.2, utf8Len_append]
  refine ⟨kept, ?_, ?_⟩
  · obtain ⟨style, src⟩ := compound
    obtain rfl : src = a ++ (kept ++ c) := hkept.1
    rw [← ha, ← hd, hlen]
    exact hsub style a kept c
  · have hfilter := @charIndices_filter (utf8Len before) a kept c range ?_ ?_
    · rw [← List.append_assoc] at hkept
      rw [hkept.1, hfilter]
      congr 1
      omega
    · intro place hplace
      rw [List.append_assoc, ← hkept.1] at hplace
      have hin := charIndices_mem hplace
      omega
    · intro place hplace
      rw [List.append_assoc, ← hkept.1] at hplace
      have hin := charIndices_mem hplace
      omega

/-- A compound outside a range has no character in it. -/
theorem filter_of_outside {low : ℕ} {src : List Char} {range : ℕ × ℕ}
    (h : ¬ max range.1 low < min range.2 (low + utf8Len src)) :
    (charIndices low src).filter (fun place => inRange range place.1) = [] := by
  refine List.filter_eq_nil_iff.mpr fun place hplace => ?_
  have hin := charIndices_mem hplace
  rw [inRange_iff]
  omega

theorem sliceCompounds_styled (hsub : Slices sub) {before : List Char} {compounds : List (Compound σ)} {range : ℕ × ℕ}
    (hstart : isCharBoundary (before ++ compounds.flatMap Compound.src) range.1 = true)
    (hstop : isCharBoundary (before ++ compounds.flatMap Compound.src) range.2 = true) :
    ∃ slice, sliceCompounds sub range (utf8Len before) compounds = some slice ∧
      styled slice = ((places (utf8Len before) compounds).filter fun place => inRange range place.1).map Prod.snd := by
  induction compounds generalizing before with
  | nil => exact ⟨[], rfl, rfl⟩
  | cons compound compounds ih =>
    rw [List.flatMap_cons] at hstart hstop
    have hnext : utf8Len (before ++ compound.src) = utf8Len before + utf8Len compound.src := utf8Len_append _ _
    obtain ⟨slice, hslice, hstyled⟩ := @ih (before ++ compound.src)
      (by rw [List.append_assoc]; exact hstart) (by rw [List.append_assoc]; exact hstop)
    rw [hnext] at hslice hstyled
    rw [places, List.filter_append, List.filter_map, List.map_append, ← hstyled]
    by_cases hmeets : max range.1 (utf8Len before) < min range.2 (utf8Len before + utf8Len compound.src)
    · obtain ⟨kept, hpart, hfilter⟩ := hsub.sub_spec compound hstart hstop hmeets
      refine ⟨⟨compound.style, kept⟩ :: slice, ?_, ?_⟩
      · simp only [sliceCompounds, if_pos hmeets, hpart, hslice, Option.bind_some, Option.map_some]
      · have hkept : (charIndices (utf8Len before) compound.src).filter
            ((fun place : ℕ × σ × Char => inRange range place.1) ∘ fun place => (place.1, compound.style, place.2)) =
            charIndices (max range.1 (utf8Len before)) kept := hfilter
        rw [hkept, styled, List.flatMap_cons, List.map_map]
        conv_lhs => rw [← charIndices_snd (max range.1 (utf8Len before)) kept, List.map_map]
        rfl
    · refine ⟨slice, ?_, ?_⟩
      · simp only [sliceCompounds, if_neg hmeets, hslice]
      · have hnone : (charIndices (utf8Len before) compound.src).filter
            ((fun place : ℕ × σ × Char => inRange range place.1) ∘ fun place => (place.1, compound.style, place.2)) = [] :=
          filter_of_outside hmeets
        rw [hnone]
        rfl

theorem places_charIndices (offset : ℕ) (compounds : List (Compound σ)) :
    (places offset compounds).map (fun place => (place.1, place.2.2)) =
      charIndices offset (compounds.flatMap Compound.src) := by
  induction compounds generalizing offset with
  | nil => rfl
  | cons compound compounds ih =>
    rw [places, List.map_append, ih, List.flatMap_cons, charIndices_append, List.map_map]
    congr 1
    exact List.map_id _

theorem places_pairwise (offset : ℕ) (compounds : List (Compound σ)) :
    (places offset compounds).Pairwise fun a b => a.1 < b.1 := by
  have hplaces := charIndices_pairwise offset (compounds.flatMap Compound.src)
  rw [← places_charIndices, List.pairwise_map] at hplaces
  exact hplaces

/-- The slices of lines hold what each of them keeps. -/
theorem slices_of_lines (hsub : Slices sub) {compounds : List (Compound σ)} {lines : List (ℕ × ℕ)}
    (h : ∀ range ∈ lines, isCharBoundary (compounds.flatMap Compound.src) range.1 = true ∧
      isCharBoundary (compounds.flatMap Compound.src) range.2 = true) :
    ∃ slices, lines.mapM (fun range => sliceCompounds sub range 0 compounds) = some slices ∧
      slices.map styled = lines.map fun range =>
        ((places 0 compounds).filter fun place => inRange range place.1).map Prod.snd := by
  induction lines with
  | nil => exact ⟨[], rfl, rfl⟩
  | cons range lines ih =>
    obtain ⟨slices, hslices, hstyled⟩ := ih fun other hother => h other (List.mem_cons_of_mem _ hother)
    obtain ⟨hstart, hstop⟩ := h range List.mem_cons_self
    obtain ⟨slice, hslice, hkept⟩ := @sliceCompounds_styled σ sub hsub [] compounds range hstart hstop
    rw [utf8Len_nil] at hslice hkept
    refine ⟨slice :: slices, ?_, ?_⟩
    · rw [List.mapM_cons, hslice, hslices]
      rfl
    · rw [List.map_cons, List.map_cons, hkept, hstyled]

theorem flatMap_styled {compounds : List (Compound σ)} {lines : List (ℕ × ℕ)}
    (hordered : lines.Pairwise fun a b => a.2 ≤ b.1) :
    (lines.map fun range => ((places 0 compounds).filter fun place => inRange range place.1).map Prod.snd).flatten =
      ((places 0 compounds).filter fun place => lines.any fun range => inRange range place.1).map Prod.snd := by
  rw [← filter_ranges (places_pairwise 0 compounds) hordered, List.flatMap_def, List.map_flatten, List.map_map]
  rfl

/-- Every line of a text is as wide as it may be, and the slices keep all but the blanks at the ends of lines. -/
theorem break_lines_keep (env : WrapEnv) (henv : env.Breaking) (sub : Sub σ) (hsub : Slices sub)
    (compounds : List (Compound σ)) (first rest : ℕ) :
    ∃ lines parts slices, breakLines env (compounds.flatMap Compound.src) first rest = some lines ∧
      parts.flatten = compounds.flatMap Compound.src ∧ lines = spans 0 parts ∧
      (∀ part ∈ parts, ∃ blanks, part = trimEnd part ++ blanks ∧ ∀ c ∈ blanks, isWhitespace c = true) ∧
      lines.Pairwise (fun a b => a.2 ≤ b.1) ∧
      (∀ range ∈ lines, range.1 ≤ range.2 ∧ isCharBoundary (compounds.flatMap Compound.src) range.1 = true ∧
        isCharBoundary (compounds.flatMap Compound.src) range.2 = true) ∧
      (∀ i part, parts[i]? = some part → visible (compounds.flatMap Compound.src) = [] ∨
        columns env (trimEnd part) ≤ max (if i = 0 then first else rest) 1 ∨ ∃ c, trimEnd part = [c]) ∧
      lines.mapM (fun range => sliceCompounds sub range 0 compounds) = some slices ∧
      slices.map styled = lines.map (fun range =>
        ((places 0 compounds).filter fun place => inRange range place.1).map Prod.snd) ∧
      (slices.map styled).flatten =
        ((places 0 compounds).filter fun place => lines.any fun range => inRange range place.1).map Prod.snd := by
  obtain ⟨lines, hlines, parts, hwhole, hspans, hnarrow⟩ :=
    breakLines_lined henv (compounds.flatMap Compound.src) first rest
  have hordered : lines.Pairwise fun a b => a.2 ≤ b.1 := by
    rw [hspans]
    exact spans_pairwise 0 parts
  have hranges : ∀ range ∈ lines, range.1 ≤ range.2 ∧ isCharBoundary (compounds.flatMap Compound.src) range.1 = true ∧
      isCharBoundary (compounds.flatMap Compound.src) range.2 = true := by
    intro range hrange
    rw [hspans] at hrange
    rw [← hwhole]
    exact @spans_boundary 0 [] parts utf8Len_nil range hrange
  obtain ⟨slices, hslices, hstyled⟩ := slices_of_lines hsub fun range hrange => (hranges range hrange).2
  refine ⟨lines, parts, slices, hlines, hwhole, hspans, fun part _ => trimEnd_blanks part, hordered, hranges,
    hnarrow, hslices, hstyled, ?_⟩
  rw [hstyled]
  exact flatMap_styled hordered

/-- The only break is the end of the text. -/
def endEnv (width : Char → ℕ) : WrapEnv where
  width := width
  linebreaks text := if text = [] then [] else [utf8Len text]

theorem endEnv_breaking (width : Char → ℕ) : (endEnv width).Breaking where
  increasing text := by
    dsimp only [endEnv]
    split_ifs
    · exact List.Pairwise.nil
    · exact List.pairwise_singleton _ _
  boundary text index h := by
    dsimp only [endEnv] at h
    split_ifs at h
    · cases h
    · rw [List.mem_singleton.mp h]
      exact isCharBoundary_end text
  last text h := by
    dsimp only [endEnv]
    rw [if_neg h]
    rfl

/-- The bytes between two places, which panics inside a character. -/
def subBytes : Sub σ := fun compound start stop =>
  (sliceFrom compound.src start).bind fun tail =>
    (sliceTo tail (stop - start)).map fun src => ⟨compound.style, src⟩

theorem slices_subBytes : Slices (subBytes : Sub σ) := by
  intro style before kept after
  rw [subBytes, (slices_append before (kept ++ after)).2.2, Option.bind_some, Nat.add_sub_cancel_left,
    (slices_append kept after).2.1, Option.map_some]

theorem break_lines_keep_word : ∃ lines parts slices,
    breakLines (endEnv fun _ => 1) ("abc ".toList) 2 0 = some lines ∧
      parts.flatten = "abc ".toList ∧ lines = spans 0 parts ∧
      lines.mapM (fun range => sliceCompounds subBytes range 0
        [⟨true, "ab".toList⟩, ⟨false, "c ".toList⟩]) = some slices ∧
      (slices.map styled).flatten = ((places 0 [⟨true, "ab".toList⟩, ⟨false, "c ".toList⟩]).filter fun place =>
        lines.any fun range => inRange range place.1).map Prod.snd := by
  obtain ⟨lines, parts, slices, hlines, hwhole, hspans, _, _, _, _, hslices, _, hkept⟩ :=
    break_lines_keep (endEnv fun _ => 1) (endEnv_breaking _) subBytes slices_subBytes
      [⟨true, "ab".toList⟩, ⟨false, "c ".toList⟩] 2 0
  exact ⟨lines, parts, slices, hlines, hwhole, hspans, hslices, hkept⟩

/-- With columns of their own, markers alone are never broken. -/
theorem markers_unbroken : ∃ env : WrapEnv, env.Breaking ∧
    breakLines env ['\u200B', '\u200C'] 1 1 = some [(0, 6)] ∧ trimEnd ['\u200B', '\u200C'] = ['\u200B', '\u200C'] ∧
    ¬ (columns env ['\u200B', '\u200C'] ≤ max 1 1 ∨ ∃ c, ['\u200B', '\u200C'] = [c]) := by
  refine ⟨endEnv fun _ => 1, endEnv_breaking _, by decide, by decide, ?_⟩
  rintro (hnarrow | ⟨c, hc⟩)
  · exact absurd hnarrow (by decide)
  · cases hc

end Ralph.Render
