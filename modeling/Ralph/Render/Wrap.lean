import Ralph.CharIndices
import Ralph.Loop
import Ralph.Chat.Words

namespace Ralph.Render
open CharBoundary ChatMemory
open String (utf8Len utf8Len_nil utf8Len_cons utf8Len_append)

/-- The columns of a character, and the bytes of a text in front of which a line may break. -/
structure WrapEnv where
  width : Char → ℕ
  linebreaks : List Char → List ℕ

/-- The characters that `mark_links` puts around what is painted. -/
def MARKERS : List Char :=
  ['\u200B', '\u200C', '\u200D', '\u2060', '\u2061', '\u2062', '\u2063', '\u2064', '\uFEFF', '\u200E']

def isMarker (c : Char) : Bool := decide (c ∈ MARKERS)

def columns (env : WrapEnv) (text : List Char) : ℕ := (text.map env.width).sum

def trimEnd (text : List Char) : List Char := text.rdropWhile isWhitespace

/-- For each byte of the visible text, the end of the visible character in front of its character. -/
def origins : ℕ → ℕ → List Char → List ℕ
  | _, _, [] => []
  | index, previousEnd, c :: cs =>
    if isMarker c then origins (index + c.utf8Size) previousEnd cs
    else List.replicate c.utf8Size previousEnd ++ origins (index + c.utf8Size) (index + c.utf8Size) cs

def visible (text : List Char) : List Char := text.filter fun c => !isMarker c

def breakOpportunities (env : WrapEnv) (text : List Char) : List ℕ :=
  (env.linebreaks (visible text)).map fun index => (origins 0 0 text).getD index (utf8Len text)

/-- The byte of `text` at which a line of `limit` columns is cut, at least one character in. -/
def hardCut (env : WrapEnv) (limit : ℕ) : ℕ → ℕ → List Char → ℕ
  | _, index, [] => index
  | used, index, c :: cs =>
    if limit < used + env.width c ∧ 0 < index then index
    else hardCut env limit (used + env.width c) (index + c.utf8Size) cs

/-- The loop of `break_lines`: the text up to `start` and from there on. -/
structure BreakState where
  before : List Char
  rest : List Char
  lines : List (ℕ × ℕ)
  fit : Option ℕ
  breaks : List ℕ
  ahead : ∀ stop ∈ fit, utf8Len before < stop

def BreakState.start (s : BreakState) : ℕ := utf8Len s.before

def BreakState.limit (s : BreakState) (first rest : ℕ) : ℕ := max (if s.lines = [] then first else rest) 1

theorem le_hardCut (env : WrapEnv) (limit used index : ℕ) (cs : List Char) : index ≤ hardCut env limit used index cs := by
  induction cs generalizing used index with
  | nil => exact le_refl index
  | cons c cs ih =>
    rw [hardCut]
    split_ifs
    · exact le_refl index
    · exact (Nat.le_add_right _ _).trans (ih _ _)

theorem hardCut_pos (env : WrapEnv) (limit : ℕ) {cs : List Char} (h : cs ≠ []) : 0 < hardCut env limit 0 0 cs := by
  cases cs with
  | nil => exact absurd rfl h
  | cons c cs =>
    rw [hardCut, if_neg (by omega)]
    have hle := le_hardCut env limit (0 + env.width c) (0 + c.utf8Size) cs
    have hpos := Char.utf8Size_pos c
    omega

/-- Where the line is cut. -/
def BreakState.cut (env : WrapEnv) (s : BreakState) (first rest : ℕ) : ℕ :=
  s.fit.getD (s.start + hardCut env (s.limit first rest) 0 0 s.rest)

theorem BreakState.lt_cut (env : WrapEnv) (s : BreakState) (first rest : ℕ) (h : s.rest ≠ []) :
    s.start < s.cut env first rest := by
  rw [cut]
  cases hfit : s.fit with
  | none =>
    have hpos := hardCut_pos env (s.limit first rest) h
    rw [Option.getD_none]
    omega
  | some stop =>
    rw [Option.getD_some]
    exact s.ahead stop hfit

theorem rest_ne_nil {s : BreakState} {stop : ℕ} {segment : List Char} (hstop : ¬ stop ≤ s.start)
    (hsegment : sliceTo s.rest (stop - s.start) = some segment) : s.rest ≠ [] := by
  obtain ⟨r, hrest, hlen⟩ := sliceTo_eq_some hsegment
  have hpos : 0 < utf8Len segment := by omega
  rw [hrest]
  exact List.append_ne_nil_of_left_ne_nil (utf8Len_pos.mp hpos) r

/-- A cut takes a character at least. -/
theorem length_pos_of_cut (env : WrapEnv) (s : BreakState) (first rest : ℕ) (hrest : s.rest ≠ []) {line : List Char}
    (hline : sliceTo s.rest (s.cut env first rest - s.start) = some line) :
    0 < line.length ∧ 0 < s.rest.length := by
  have hcut := s.lt_cut env first rest hrest
  obtain ⟨r, hr, hlen⟩ := sliceTo_eq_some hline
  exact ⟨List.length_pos_iff.mpr (utf8Len_pos.mp (by omega)), List.length_pos_iff.mpr hrest⟩

/-- The answer `none` is the panic of a slice inside a character. -/
def breakBody (env : WrapEnv) (first rest : ℕ) : Loop.Body BreakState (Option (List (ℕ × ℕ))) where
  step s :=
    match s.breaks with
    | [] =>
      .inr (some (if s.rest ≠ [] ∨ s.lines = [] then
        s.lines ++ [(s.start, max (utf8Len (trimEnd (s.before ++ s.rest))) s.start)]
      else s.lines))
    | stop :: breaks =>
      -- a break behind the start of the line is passed over
      if hstop : stop ≤ s.start then .inl ⟨s.before, s.rest, s.lines, none, breaks, fun _ h => absurd h (Option.not_mem_none _)⟩
      else
        match sliceTo s.rest (stop - s.start) with
        | none => .inr none
        | some segment =>
          -- the line may go on up to this break
          if columns env (trimEnd segment) ≤ s.limit first rest then
            .inl ⟨s.before, s.rest, s.lines, some stop, breaks,
              fun _ h => Option.some.inj h ▸ not_le.mp hstop⟩
          else
            -- the line ends at the last break that fits, and this break is looked at again
            match sliceTo s.rest (s.cut env first rest - s.start) with
            | none => .inr none
            | some line =>
              .inl ⟨s.before ++ line, s.rest.drop line.length,
                s.lines ++ [(s.start, s.start + utf8Len (trimEnd line))], none, stop :: breaks,
                fun _ h => absurd h (Option.not_mem_none _)⟩
  measure s := s.breaks.length + s.rest.length
  decreases s s' hs := by
    cases hbreaks : s.breaks with
    | nil =>
      rw [hbreaks] at hs
      cases hs
    | cons stop breaks =>
      rw [hbreaks] at hs
      dsimp only at hs
      split_ifs at hs with hstop
      · rw [← Sum.inl.inj hs]
        dsimp only
        rw [List.length_cons]
        omega
      · cases hsegment : sliceTo s.rest (stop - s.start) with
        | none =>
          rw [hsegment] at hs
          cases hs
        | some segment =>
          rw [hsegment] at hs
          dsimp only at hs
          split_ifs at hs with hfits
          · rw [← Sum.inl.inj hs]
            dsimp only
            rw [List.length_cons]
            omega
          · cases hline : sliceTo s.rest (s.cut env first rest - s.start) with
            | none =>
              rw [hline] at hs
              cases hs
            | some line =>
              rw [hline] at hs
              rw [← Sum.inl.inj hs]
              dsimp only
              have hpos := length_pos_of_cut env s first rest (rest_ne_nil hstop hsegment) hline
              rw [List.length_drop, List.length_cons]
              omega

def breakLines (env : WrapEnv) (text : List Char) (first rest : ℕ) : Option (List (ℕ × ℕ)) :=
  (breakBody env first rest).run ⟨[], text, [], none, breakOpportunities env text, fun _ h => absurd h (Option.not_mem_none _)⟩

/-- The ranges of the parts of a text, each without the blanks at its end. -/
def spans : ℕ → List (List Char) → List (ℕ × ℕ)
  | _, [] => []
  | start, part :: parts => (start, start + utf8Len (trimEnd part)) :: spans (start + utf8Len part) parts

theorem spans_concat (start : ℕ) (parts : List (List Char)) (part : List Char) :
    spans start (parts ++ [part]) = spans start parts ++
      [(start + utf8Len parts.flatten, start + utf8Len parts.flatten + utf8Len (trimEnd part))] := by
  induction parts generalizing start with
  | nil =>
    rw [List.nil_append, List.flatten_nil, utf8Len_nil, Nat.add_zero]
    rfl
  | cons p parts ih =>
    rw [List.cons_append, spans, spans, ih, List.flatten_cons, utf8Len_append, List.cons_append, Nat.add_assoc]

theorem length_spans (start : ℕ) (parts : List (List Char)) : (spans start parts).length = parts.length := by
  induction parts generalizing start with
  | nil => rfl
  | cons p parts ih => rw [spans, List.length_cons, List.length_cons, ih]

/-- A line fits its width, or is one character. -/
def Narrow (env : WrapEnv) (first rest i : ℕ) (part : List Char) : Prop :=
  columns env (trimEnd part) ≤ max (if i = 0 then first else rest) 1 ∨ ∃ c, trimEnd part = [c]

theorem trimEnd_prefix (part : List Char) : trimEnd part <+: part := List.rdropWhile_prefix _ _

theorem trimEnd_append_of_blank (before : List Char) {rest : List Char} (h : ∀ c ∈ rest, isWhitespace c = true) :
    trimEnd (before ++ rest) = trimEnd before := by
  induction rest using List.reverseRecOn with
  | nil => rw [List.append_nil]
  | append_singleton rest c ih =>
    rw [← List.append_assoc, trimEnd, List.rdropWhile_concat_pos _ _ _ (h c (List.mem_append_right _ List.mem_cons_self))]
    exact ih fun d hd => h d (List.mem_append_left _ hd)

theorem columns_append (env : WrapEnv) (a b : List Char) : columns env (a ++ b) = columns env a + columns env b := by
  rw [columns, List.map_append, List.sum_append]
  rfl

theorem columns_trimEnd_le (env : WrapEnv) (part : List Char) : columns env (trimEnd part) ≤ columns env part := by
  obtain ⟨blanks, hblanks⟩ := trimEnd_prefix part
  conv_rhs => rw [← hblanks, columns_append]
  exact Nat.le_add_right _ _

/-- Past its first character a cut keeps within the limit. -/
theorem hardCut_within (env : WrapEnv) (limit used index : ℕ) (hindex : 0 < index) (cs : List Char) :
    ∃ line r, cs = line ++ r ∧ hardCut env limit used index cs = index + utf8Len line ∧
      (line = [] ∨ used + columns env line ≤ limit) := by
  induction cs generalizing used index with
  | nil => exact ⟨[], [], rfl, by rw [hardCut, utf8Len_nil, Nat.add_zero], .inl rfl⟩
  | cons c cs ih =>
    rw [hardCut]
    split_ifs with hover
    · exact ⟨[], c :: cs, rfl, by rw [utf8Len_nil, Nat.add_zero], .inl rfl⟩
    · obtain ⟨line, r, hcs, hcut, hwithin⟩ := ih (used + env.width c) (index + c.utf8Size) (by omega)
      refine ⟨c :: line, r, by rw [hcs, List.cons_append], ?_, .inr ?_⟩
      · rw [hcut, utf8Len_cons]
        omega
      · have hcolumns : columns env (c :: line) = env.width c + columns env line := by
          rw [columns, List.map_cons, List.sum_cons]
          rfl
        rw [hcolumns]
        rcases hwithin with hnil | hwithin
        · rw [hnil]
          have hzero : columns env [] = 0 := rfl
          omega
        · omega

theorem hardCut_narrow (env : WrapEnv) (limit : ℕ) {cs : List Char} (h : cs ≠ []) :
    ∃ line r, cs = line ++ r ∧ hardCut env limit 0 0 cs = utf8Len line ∧
      (columns env (trimEnd line) ≤ limit ∨ ∃ c, trimEnd line = [c]) := by
  cases cs with
  | nil => exact absurd rfl h
  | cons c cs =>
    have hpos := Char.utf8Size_pos c
    obtain ⟨line, r, hcs, hcut, hwithin⟩ := hardCut_within env limit (0 + env.width c) (0 + c.utf8Size) (by omega) cs
    refine ⟨c :: line, r, by rw [hcs, List.cons_append], ?_, ?_⟩
    · rw [hardCut, if_neg (by omega), hcut, utf8Len_cons]
      omega
    · rcases hwithin with hnil | hwithin
      · rw [hnil]
        by_cases hblank : isWhitespace c = true
        · have hnone : trimEnd [c] = [] := by simp [trimEnd, List.rdropWhile, hblank]
          rw [hnone]
          exact .inl (Nat.zero_le limit)
        · exact .inr ⟨c, by simp [trimEnd, List.rdropWhile, hblank]⟩
      · left
        have hcolumns : columns env (c :: line) = env.width c + columns env line := by
          rw [columns, List.map_cons, List.sum_cons]
          rfl
        have hle := columns_trimEnd_le env (c :: line)
        omega

/-- The text cut into the lines that the loop has pushed. -/
structure Broken (env : WrapEnv) (text : List Char) (first rest : ℕ) (s : BreakState) : Prop where
  whole : s.before ++ s.rest = text
  parts : ∃ parts, parts.flatten = s.before ∧ s.lines = spans 0 parts ∧
    ∀ i part, parts[i]? = some part → Narrow env first rest i part
  breaks : ∀ stop ∈ s.breaks, isCharBoundary text stop = true
  fit : ∀ stop ∈ s.fit, ∃ segment, sliceTo s.rest (stop - s.start) = some segment ∧
    columns env (trimEnd segment) ≤ s.limit first rest
  last : visible text ≠ [] → s.breaks.getLast? = some (utf8Len text) ∨
    s.breaks = [] ∧ (s.rest = [] ∨ columns env (trimEnd s.rest) ≤ s.limit first rest)

/-- The lines at the end of the loop. -/
def Lined (env : WrapEnv) (text : List Char) (first rest : ℕ) (lines : List (ℕ × ℕ)) : Prop :=
  ∃ parts, parts.flatten = text ∧ lines = spans 0 parts ∧
    ∀ i part, parts[i]? = some part → visible text = [] ∨ Narrow env first rest i part

section Loop

variable {env : WrapEnv} {text : List Char} {first rest : ℕ} {s s' : BreakState}

theorem limit_of_parts {parts : List (List Char)} (h : s.lines = spans 0 parts) :
    s.limit first rest = max (if parts.length = 0 then first else rest) 1 := by
  have hlines : s.lines = [] ↔ parts.length = 0 := by
    rw [h, ← List.length_eq_zero_iff, length_spans]
  simp only [BreakState.limit, hlines]

theorem getElem?_concat_cases {parts : List (List Char)} {part other : List Char} {i : ℕ}
    (h : (parts ++ [other])[i]? = some part) : parts[i]? = some part ∨ i = parts.length ∧ part = other := by
  rw [List.getElem?_append] at h
  split_ifs at h with hlt
  · exact .inl h
  · have hzero := (List.getElem?_eq_some_iff.mp h).1
    rw [List.length_singleton] at hzero
    have hi : i = parts.length := by omega
    rw [hi, Nat.sub_self] at h
    exact .inr ⟨hi, (Option.some.inj h).symm⟩

/-- The last line of the text. -/
theorem Broken.finish (h : Broken env text first rest s) (hbreaks : s.breaks = []) :
    Lined env text first rest (if s.rest ≠ [] ∨ s.lines = [] then
      s.lines ++ [(s.start, max (utf8Len (trimEnd (s.before ++ s.rest))) s.start)] else s.lines) := by
  obtain ⟨parts, hbefore, hlines, hnarrow⟩ := h.parts
  by_cases hpush : s.rest ≠ [] ∨ s.lines = []
  · rw [if_pos hpush]
    refine ⟨parts ++ [s.rest], ?_, ?_, ?_⟩
    · rw [List.flatten_append, hbefore, List.flatten_singleton, h.whole]
    · have hend : max (utf8Len (trimEnd (s.before ++ s.rest))) s.start = s.start + utf8Len (trimEnd s.rest) := by
        -- a blank rest is trimmed away, and more in front of it may be
        by_cases hblank : ∀ c ∈ s.rest, isWhitespace c = true
        · have hnone : trimEnd s.rest = [] := List.rdropWhile_eq_nil_iff.mpr hblank
          have hpre : trimEnd (s.before ++ s.rest) <+: s.before := by
            rw [trimEnd_append_of_blank s.before hblank]
            exact trimEnd_prefix s.before
          obtain ⟨more, hmore⟩ := hpre
          have hlen : s.start = utf8Len (trimEnd (s.before ++ s.rest)) + utf8Len more := by
            rw [BreakState.start, ← utf8Len_append, hmore]
          rw [hnone, utf8Len_nil]
          omega
        · have htext : ∃ c ∈ s.rest, isWhitespace c = false := by simpa using hblank
          have hsplit : trimEnd (s.before ++ s.rest) = s.before ++ trimEnd s.rest :=
            Chat.rdropWhile_append_of_text htext s.before
          rw [hsplit, utf8Len_append, BreakState.start]
          omega
      rw [hend, spans_concat, Nat.zero_add, hbefore, hlines]
      rfl
    · intro i part hpart
      rcases getElem?_concat_cases hpart with hold | ⟨hi, hrest⟩
      · exact .inr (hnarrow i part hold)
      · by_cases hvisible : visible text = []
        · exact .inl hvisible
        · right
          left
          rw [hi, hrest, ← limit_of_parts hlines]
          rcases h.last hvisible with hlast | ⟨_, hnil | hfits⟩
          · rw [hbreaks] at hlast
            cases hlast
          · rw [hnil]
            exact Nat.zero_le _
          · exact hfits
  · rw [if_neg hpush]
    rw [not_or, not_not] at hpush
    refine ⟨parts, ?_, hlines, fun i part hpart => .inr (hnarrow i part hpart)⟩
    rw [hbefore, ← h.whole, hpush.1, List.append_nil]

theorem getLast?_cons {stop : ℕ} {breaks : List ℕ} {last : ℕ} (h : (stop :: breaks).getLast? = some last) :
    breaks.getLast? = some last ∨ breaks = [] ∧ stop = last := by
  cases breaks with
  | nil => exact .inr ⟨rfl, Option.some.inj h⟩
  | cons next breaks =>
    rw [List.getLast?_cons_cons] at h
    exact .inl h

theorem Broken.getLast (h : Broken env text first rest s) {stop : ℕ} {breaks : List ℕ}
    (hbreaks : s.breaks = stop :: breaks) (hvisible : visible text ≠ []) :
    s.breaks.getLast? = some (utf8Len text) := by
  rcases h.last hvisible with hlast | ⟨hnone, _⟩
  · exact hlast
  · rw [hbreaks] at hnone
    cases hnone

/-- A break is passed. -/
theorem Broken.passed (h : Broken env text first rest s) {stop : ℕ} {breaks : List ℕ}
    (hbreaks : s.breaks = stop :: breaks) {fit : Option ℕ} (ahead : ∀ stop ∈ fit, utf8Len s.before < stop)
    (hfit : ∀ stop ∈ fit, ∃ segment, sliceTo s.rest (stop - s.start) = some segment ∧
      columns env (trimEnd segment) ≤ s.limit first rest)
    (hend : stop = utf8Len text → s.rest = [] ∨ columns env (trimEnd s.rest) ≤ s.limit first rest) :
    Broken env text first rest ⟨s.before, s.rest, s.lines, fit, breaks, ahead⟩ where
  whole := h.whole
  parts := h.parts
  breaks other hother := h.breaks other (hbreaks ▸ List.mem_cons_of_mem _ hother)
  fit := hfit
  last hvisible := by
    have hlast := h.getLast hbreaks hvisible
    rw [hbreaks] at hlast
    rcases getLast?_cons hlast with hlater | ⟨hnone, hstop⟩
    · exact .inl hlater
    · exact .inr ⟨hnone, hend hstop⟩

/-- A line is cut off. -/
theorem Broken.pushed (h : Broken env text first rest s) {line r : List Char} (hrest : s.rest = line ++ r)
    (hnarrow : columns env (trimEnd line) ≤ s.limit first rest ∨ ∃ c, trimEnd line = [c]) {stop : ℕ} {breaks : List ℕ}
    (hbreaks : s.breaks = stop :: breaks) : Broken env text first rest ⟨s.before ++ line, s.rest.drop line.length,
      s.lines ++ [(s.start, s.start + utf8Len (trimEnd line))], none, stop :: breaks,
      fun _ h => absurd h (Option.not_mem_none _)⟩ where
  whole := by
    dsimp only
    rw [hrest, List.drop_left, List.append_assoc, ← hrest, h.whole]
  parts := by
    obtain ⟨parts, hbefore, hlines, hparts⟩ := h.parts
    refine ⟨parts ++ [line], ?_, ?_, ?_⟩
    · rw [List.flatten_append, hbefore, List.flatten_singleton]
    · dsimp only
      rw [spans_concat, Nat.zero_add, hbefore, hlines]
      rfl
    · intro i part hpart
      rcases getElem?_concat_cases hpart with hold | ⟨hi, hline⟩
      · exact hparts i part hold
      · rw [limit_of_parts hlines] at hnarrow
        rw [hi, hline]
        exact hnarrow
  breaks := hbreaks ▸ h.breaks
  fit stop hstop := absurd hstop (Option.not_mem_none _)
  last hvisible := .inl (hbreaks ▸ h.getLast hbreaks hvisible)

theorem Broken.step (h : Broken env text first rest s) {stop : ℕ} {breaks : List ℕ}
    (hbreaks : s.breaks = stop :: breaks) :
    ∃ s', (breakBody env first rest).step s = .inl s' ∧ Broken env text first rest s' := by
  have hlen : utf8Len text = s.start + utf8Len s.rest := by
    rw [← h.whole, utf8Len_append]
    rfl
  dsimp only [breakBody]
  rw [hbreaks]
  dsimp only
  by_cases hstop : stop ≤ s.start
  -- a break behind the start of the line is passed over
  · rw [dif_pos hstop]
    refine ⟨_, rfl, h.passed hbreaks _ (fun _ hnone => absurd hnone (Option.not_mem_none _)) fun hend => .inl ?_⟩
    by_contra hne
    have hpos : 0 < utf8Len s.rest := utf8Len_pos.mpr hne
    omega
  · have hboundary : isCharBoundary (s.before ++ s.rest) stop = true := by
      rw [h.whole]
      exact h.breaks stop (hbreaks ▸ List.mem_cons_self)
    obtain ⟨segment, r, hrest, hsize, hsegment⟩ := exists_sliceTo hboundary (not_le.mp hstop).le
    have hne := rest_ne_nil hstop hsegment
    have hslice : sliceTo s.rest (stop - s.start) = some segment := hsegment
    rw [dif_neg hstop, hslice]
    dsimp only
    -- a segment that fits is remembered, and one that does not ends the line before it
    by_cases hfits : columns env (trimEnd segment) ≤ s.limit first rest
    · rw [if_pos hfits]
      refine ⟨_, rfl, h.passed hbreaks _ ?_ ?_⟩
      · intro other hother
        rw [← Option.some.inj hother]
        exact ⟨segment, hslice, hfits⟩
      · intro hend
        right
        have hnone : r = [] := by
          by_contra hmore
          have hpos := utf8Len_pos.mpr hmore
          have hstart : s.start = utf8Len s.before := rfl
          rw [hrest, utf8Len_append] at hlen
          omega
        rw [hrest, hnone, List.append_nil]
        exact hfits
    · rw [if_neg hfits]
      obtain ⟨line, r', hline, hcut, hnarrow⟩ : ∃ line r', s.rest = line ++ r' ∧
          sliceTo s.rest (s.cut env first rest - s.start) = some line ∧
          (columns env (trimEnd line) ≤ s.limit first rest ∨ ∃ c, trimEnd line = [c]) := by
        cases hfit : s.fit with
        -- no break fits, so the line is cut where its columns are full
        | none =>
          obtain ⟨line, r', hline, hcut, hnarrow⟩ := hardCut_narrow env (s.limit first rest) hne
          refine ⟨line, r', hline, ?_, hnarrow⟩
          rw [BreakState.cut, hfit, Option.getD_none, hcut, Nat.add_sub_cancel_left]
          conv_lhs => rw [hline]
          exact (slices_append line r').2.1
        | some other =>
          obtain ⟨line, hline, hnarrow⟩ := h.fit other hfit
          obtain ⟨r', hr', _⟩ := sliceTo_eq_some hline
          refine ⟨line, r', hr', ?_, .inl hnarrow⟩
          rw [BreakState.cut, hfit, Option.getD_some, hline]
      rw [hcut]
      exact ⟨_, rfl, h.pushed hline hnarrow hbreaks⟩

theorem Broken.run (h : Broken env text first rest s) :
    ∃ lines, (breakBody env first rest).run s = some lines ∧ Lined env text first rest lines := by
  revert h
  refine (breakBody env first rest).run_induction (fun s r => Broken env text first rest s →
    ∃ lines, r = some lines ∧ Lined env text first rest lines) ?_ ?_ s
  · intro s r hs h
    cases hbreaks : s.breaks with
    | nil =>
      dsimp only [breakBody] at hs
      rw [hbreaks] at hs
      exact ⟨_, (Sum.inr.inj hs).symm, h.finish hbreaks⟩
    | cons stop breaks =>
      obtain ⟨s', hs', _⟩ := h.step hbreaks
      rw [hs] at hs'
      cases hs'
  · intro s s' r hs ih h
    apply ih
    cases hbreaks : s.breaks with
    | nil =>
      dsimp only [breakBody] at hs
      rw [hbreaks] at hs
      cases hs
    | cons stop breaks =>
      obtain ⟨s'', hs'', hnext⟩ := h.step hbreaks
      rw [hs] at hs''
      exact Sum.inl.inj hs'' ▸ hnext

end Loop

end Ralph.Render
