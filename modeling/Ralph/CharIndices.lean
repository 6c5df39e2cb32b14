import Ralph.CharBoundary

namespace Ralph.CharBoundary
open String (utf8Len utf8Len_nil utf8Len_cons utf8Len_append)

theorem utf8Len_pos {cs : List Char} : 0 < utf8Len cs ↔ cs ≠ [] := by
  cases cs with
  | nil => simp
  | cons c cs =>
    have hpos := Char.utf8Size_pos c
    simp only [utf8Len_cons, ne_eq, reduceCtorEq, not_false_eq_true, iff_true]
    omega

theorem sliceTo_eq_some {cs l : List Char} {i : ℕ} (h : sliceTo cs i = some l) :
    ∃ r, cs = l ++ r ∧ utf8Len l = i := by
  induction cs, i using isCharBoundary.induct generalizing l with
  | case1 cs =>
    unfold sliceTo at h
    cases h
    exact ⟨cs, rfl, utf8Len_nil⟩
  | case2 i =>
    unfold sliceTo at h
    cases h
  | case3 c cs i ih =>
    rw [sliceTo] at h
    split_ifs at h with hfits
    obtain ⟨l', hl', rfl⟩ := Option.map_eq_some_iff.mp h
    obtain ⟨r, hr, hlen⟩ := ih hl'
    refine ⟨r, by rw [hr, List.cons_append], ?_⟩
    rw [utf8Len_cons]
    omega

/-- A boundary of the whole text behind `before` cuts the rest of the text. -/
theorem exists_sliceTo {before rest : List Char} {stop : ℕ}
    (hstop : isCharBoundary (before ++ rest) stop = true) (hle : utf8Len before ≤ stop) :
    ∃ segment r, rest = segment ++ r ∧ utf8Len segment = stop - utf8Len before ∧
      sliceTo rest (stop - utf8Len before) = some segment := by
  obtain ⟨l, r, htext, hl⟩ := isCharBoundary_iff.mp hstop
  rcases List.append_eq_append_iff.mp htext with ⟨segment, hseg, hrest⟩ | ⟨more, hmore, hr⟩
  · have hlen : utf8Len segment = stop - utf8Len before := by
      rw [← hl, hseg, utf8Len_append]
      omega
    refine ⟨segment, r, hrest, hlen, ?_⟩
    rw [← hlen, hrest]
    exact (slices_append segment r).2.1
  · have hzero : utf8Len more = 0 := by
      rw [hmore, utf8Len_append] at hle
      omega
    have hsub : stop - utf8Len before = 0 := by
      rw [hmore, utf8Len_append]
      omega
    refine ⟨[], rest, rfl, ?_, ?_⟩
    · rw [hsub, utf8Len_nil]
    · rw [hsub]
      unfold sliceTo
      rfl

/-- `str::char_indices`, with the text at byte `low`. -/
def charIndices : ℕ → List Char → List (ℕ × Char)
  | _, [] => []
  | low, c :: cs => (low, c) :: charIndices (low + c.utf8Size) cs

theorem charIndices_append (low : ℕ) (a b : List Char) :
    charIndices low (a ++ b) = charIndices low a ++ charIndices (low + utf8Len a) b := by
  induction a generalizing low with
  | nil => simp [charIndices]
  | cons c a ih =>
    rw [List.cons_append, charIndices, charIndices, ih, List.cons_append, utf8Len_cons, Nat.add_assoc,
      Nat.add_comm c.utf8Size]

theorem charIndices_snd (low : ℕ) (cs : List Char) : (charIndices low cs).map Prod.snd = cs := by
  induction cs generalizing low with
  | nil => rfl
  | cons c cs ih => rw [charIndices, List.map_cons, ih]

theorem charIndices_mem {low : ℕ} {cs : List Char} {p : ℕ × Char} (h : p ∈ charIndices low cs) :
    low ≤ p.1 ∧ p.1 < low + utf8Len cs := by
  induction cs generalizing low with
  | nil => cases h
  | cons c cs ih =>
    have hpos := Char.utf8Size_pos c
    rw [charIndices, List.mem_cons] at h
    rw [utf8Len_cons]
    rcases h with hhead | htail
    · rw [hhead]
      dsimp only
      omega
    · have hrest := ih htail
      omega

theorem charIndices_pairwise (low : ℕ) (cs : List Char) : (charIndices low cs).Pairwise fun a b => a.1 < b.1 := by
  induction cs generalizing low with
  | nil => exact List.Pairwise.nil
  | cons c cs ih =>
    rw [charIndices]
    refine List.Pairwise.cons (fun p hp => ?_) (ih _)
    have hin := charIndices_mem hp
    have hpos := Char.utf8Size_pos c
    dsimp only
    omega

/-- Whether a byte stands in a range. -/
def inRange (range : ℕ × ℕ) (index : ℕ) : Bool := decide (range.1 ≤ index) && decide (index < range.2)

theorem inRange_iff {range : ℕ × ℕ} {index : ℕ} :
    inRange range index = true ↔ range.1 ≤ index ∧ index < range.2 := by
  rw [inRange, Bool.and_eq_true, decide_eq_true_eq, decide_eq_true_eq]

/-- The characters between two boundaries are those whose bytes stand in the range. -/
theorem charIndices_filter (low : ℕ) (a b c : List Char) {range : ℕ × ℕ}
    (hstart : ∀ p ∈ charIndices low (a ++ b ++ c), range.1 ≤ p.1 ↔ low + utf8Len a ≤ p.1)
    (hstop : ∀ p ∈ charIndices low (a ++ b ++ c), p.1 < range.2 ↔ p.1 < low + utf8Len a + utf8Len b) :
    (charIndices low (a ++ b ++ c)).filter (fun p => inRange range p.1) = charIndices (low + utf8Len a) b := by
  rw [charIndices_append, charIndices_append, utf8Len_append] at *
  have ha : (charIndices low a).filter (fun p => inRange range p.1) = [] := by
    refine List.filter_eq_nil_iff.mpr fun p hp => ?_
    have hmem : p ∈ charIndices low a ++ charIndices (low + utf8Len a) b ++
        charIndices (low + (utf8Len a + utf8Len b)) c :=
      List.mem_append_left _ (List.mem_append_left _ hp)
    rw [inRange_iff, hstart p hmem]
    have hplace := charIndices_mem hp
    omega
  have hb : (charIndices (low + utf8Len a) b).filter (fun p => inRange range p.1) = charIndices (low + utf8Len a) b := by
    refine List.filter_eq_self.mpr fun p hp => ?_
    have hmem : p ∈ charIndices low a ++ charIndices (low + utf8Len a) b ++
        charIndices (low + (utf8Len a + utf8Len b)) c :=
      List.mem_append_left _ (List.mem_append_right _ hp)
    rw [inRange_iff, hstart p hmem, hstop p hmem]
    have hplace := charIndices_mem hp
    omega
  have hc : (charIndices (low + (utf8Len a + utf8Len b)) c).filter (fun p => inRange range p.1) = [] := by
    refine List.filter_eq_nil_iff.mpr fun p hp => ?_
    have hmem : p ∈ charIndices low a ++ charIndices (low + utf8Len a) b ++
        charIndices (low + (utf8Len a + utf8Len b)) c := List.mem_append_right _ hp
    rw [inRange_iff, hstop p hmem]
    have hplace := charIndices_mem hp
    omega
  rw [List.filter_append, List.filter_append, ha, hb, hc, List.nil_append, List.append_nil]

section Ranges

variable {α : Type*}

/-- In an ordered list what lies in front of `m` comes before what does not. -/
theorem filter_append_filter {byte : α → ℕ} {places : List α} (hplaces : places.Pairwise fun a b => byte a < byte b) {m : ℕ}
    {p q : α → Bool} (hp : ∀ x, p x = true → byte x < m) (hq : ∀ x, q x = true → m ≤ byte x) :
    places.filter p ++ places.filter q = places.filter fun x => p x || q x := by
  induction places with
  | nil => rfl
  | cons x places ih =>
    obtain ⟨hx, hrest⟩ := List.pairwise_cons.mp hplaces
    by_cases hpx : p x = true
    · have hqx : ¬ q x = true := by
        intro hqx
        have hbefore := hp x hpx
        have hbehind := hq x hqx
        omega
      rw [List.filter_cons_of_pos hpx, List.filter_cons_of_neg hqx, List.filter_cons_of_pos (by simp [hpx]),
        List.cons_append, ih hrest]
    · by_cases hqx : q x = true
      · have hnone : places.filter p = [] := by
          refine List.filter_eq_nil_iff.mpr fun y hy hpy => ?_
          have hlater := hx y hy
          have hbefore := hp y hpy
          have hbehind := hq x hqx
          omega
        have hih := ih hrest
        rw [hnone, List.nil_append] at hih
        rw [List.filter_cons_of_neg hpx, List.filter_cons_of_pos hqx, List.filter_cons_of_pos (by simp [hqx]), hnone,
          List.nil_append, hih]
      · rw [List.filter_cons_of_neg hpx, List.filter_cons_of_neg hqx, List.filter_cons_of_neg (by simp [hpx, hqx]),
          ih hrest]

/-- Ranges in order pick the places of all of them in order. -/
theorem filter_ranges {places : List (ℕ × α)} (hplaces : places.Pairwise fun a b => a.1 < b.1) {ranges : List (ℕ × ℕ)}
    (hranges : ranges.Pairwise fun a b => a.2 ≤ b.1) :
    (ranges.flatMap fun range => places.filter fun place => inRange range place.1) =
      places.filter fun place => ranges.any fun range => inRange range place.1 := by
  induction ranges with
  | nil => simp
  | cons range ranges ih =>
    obtain ⟨hrange, hrest⟩ := List.pairwise_cons.mp hranges
    rw [List.flatMap_cons, ih hrest]
    refine @filter_append_filter _ Prod.fst places hplaces range.2 _ _ ?_ ?_
    · intro place hplace
      exact (inRange_iff.mp hplace).2
    · intro place hplace
      obtain ⟨other, hother, hin⟩ := List.any_eq_true.mp hplace
      have hle := hrange other hother
      have hstart := (inRange_iff.mp hin).1
      omega

end Ranges

end Ralph.CharBoundary
