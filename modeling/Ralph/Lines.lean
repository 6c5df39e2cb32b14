import Mathlib.Tactic

namespace Ralph.Lines

variable {α : Type*} (sep : α)

/-- Every line with the separator that ends it. -/
def join (ls : List (List α)) : List α := (ls.map (· ++ [sep])).flatten

@[simp] theorem join_nil : join sep ([] : List (List α)) = [] := rfl

@[simp] theorem join_cons (l : List α) (ls : List (List α)) :
    join sep (l :: ls) = l ++ sep :: join sep ls := by simp [join]

@[simp] theorem join_append (ls ms : List (List α)) :
    join sep (ls ++ ms) = join sep ls ++ join sep ms := by simp [join]

/-- Lines with the offset each starts at, the first at `base`. -/
def spans : ℕ → List (List α) → List (ℕ × List α)
  | _, [] => []
  | base, l :: ls => (base, l) :: spans (base + l.length + 1) ls

theorem spans_append (base : ℕ) (ls ms : List (List α)) :
    spans base (ls ++ ms) = spans base ls ++ spans (base + (join sep ls).length) ms := by
  induction ls generalizing base with
  | nil => simp [spans]
  | cons l ls ih =>
    simp only [List.cons_append, spans, ih, join_cons, List.length_append, List.length_cons]
    congr 3
    omega

theorem map_snd_spans (base : ℕ) (ls : List (List α)) : (spans base ls).map Prod.snd = ls := by
  induction ls generalizing base with
  | nil => rfl
  | cons l ls ih => simp [spans, ih]

theorem mem_spans {base : ℕ} {ls : List (List α)} {s : ℕ × List α} (h : s ∈ spans base ls) :
    ∃ ms ns, ls = ms ++ s.2 :: ns ∧ s.1 = base + (join sep ms).length := by
  induction ls generalizing base with
  | nil => simp [spans] at h
  | cons l ls ih =>
    rw [spans, List.mem_cons] at h
    rcases h with rfl | h
    · exact ⟨[], ls, rfl, by simp⟩
    · obtain ⟨ms, ns, rfl, hs⟩ := ih h
      refine ⟨l :: ms, ns, rfl, ?_⟩
      rw [hs, join_cons, List.length_append, List.length_cons]
      omega

theorem le_of_mem_spans {base : ℕ} {ls : List (List α)} {s : ℕ × List α}
    (h : s ∈ spans base ls) : base ≤ s.1 := by
  induction ls generalizing base with
  | nil => simp [spans] at h
  | cons l ls ih =>
    rw [spans, List.mem_cons] at h
    rcases h with rfl | h
    · exact le_rfl
    · have := ih h
      omega

theorem pairwise_spans (base : ℕ) (ls : List (List α)) :
    (spans base ls).Pairwise fun s t => s.1 + s.2.length < t.1 := by
  induction ls generalizing base with
  | nil => exact .nil
  | cons l ls ih => exact .cons (fun t ht => le_of_mem_spans ht) (ih _)

/-- Where record `i` starts, or where the last record's line ends. -/
def offset (base : ℕ) (rs : List (ℕ × List α)) (i : ℕ) : ℕ :=
  match rs[i]? with
  | some s => s.1
  | none => (rs.getLast?.map fun s => s.1 + s.2.length + 1).getD base

theorem offset_of_lt {rs : List (ℕ × List α)} {i : ℕ} (base : ℕ) (h : i < rs.length) :
    offset base rs i = rs[i].1 := by
  simp [offset, h]

theorem offset_length (base : ℕ) (rs : List (ℕ × List α)) :
    offset base rs rs.length = (rs.getLast?.map fun s => s.1 + s.2.length + 1).getD base := by
  simp [offset]

theorem offset_base {rs : List (ℕ × List α)} (h : rs ≠ []) (base base' i : ℕ) :
    offset base rs i = offset base' rs i := by
  simp [offset, List.getLast?_eq_some_getLast h]

theorem offset_cons_succ (base : ℕ) (l : List α) (rs : List (ℕ × List α)) (i : ℕ) :
    offset base ((base, l) :: rs) (i + 1) = offset (base + l.length + 1) rs i := by
  cases rs with
  | nil => simp [offset]
  | cons r rs =>
    rw [offset_base (List.cons_ne_nil r rs) (base + l.length + 1) base]
    simp only [offset, List.getElem?_cons_succ, List.getLast?_cons_cons]

theorem offset_take {rs : List (ℕ × List α)} {i j : ℕ} (base : ℕ) (hij : i < j) (hj : j ≤ rs.length) :
    offset base (rs.take j) i = offset base rs i := by
  rw [offset_of_lt base (by rw [List.length_take]; omega), offset_of_lt base (by omega),
    List.getElem_take]

variable [DecidableEq α]

/-- The lines that a separator ends, and the torn rest after the last one. -/
def cut : List α → List (List α) × List α
  | [] => ([], [])
  | a :: x =>
    if a = sep then ([] :: (cut x).1, (cut x).2)
    else
      match cut x with
      | ([], r) => ([], a :: r)
      | (l :: ls, r) => ((a :: l) :: ls, r)

theorem cut_of_notMem {x : List α} (h : sep ∉ x) : cut sep x = ([], x) := by
  induction x with
  | nil => rfl
  | cons a x ih =>
    rw [List.mem_cons, not_or] at h
    simp [cut, Ne.symm h.1, ih h.2]

theorem cut_line_append {l : List α} (h : sep ∉ l) (x : List α) :
    cut sep (l ++ sep :: x) = (l :: (cut sep x).1, (cut sep x).2) := by
  induction l with
  | nil => simp [cut]
  | cons a l ih =>
    rw [List.mem_cons, not_or] at h
    simp [cut, Ne.symm h.1, ih h.2]

/-- Lines and a rest that hold no separator of their own cut back into themselves. -/
theorem cut_join_append {ls : List (List α)} (h : ∀ l ∈ ls, sep ∉ l) (x : List α) :
    cut sep (join sep ls ++ x) = (ls ++ (cut sep x).1, (cut sep x).2) := by
  induction ls with
  | nil => simp
  | cons l ls ih =>
    rw [List.forall_mem_cons] at h
    rw [join_cons, List.append_assoc, List.cons_append, cut_line_append sep h.1, ih h.2]
    rfl

theorem join_cut (x : List α) : join sep (cut sep x).1 ++ (cut sep x).2 = x := by
  induction x with
  | nil => rfl
  | cons a x ih =>
    unfold cut
    split_ifs with ha
    · simp [ha, ih]
    · rcases hx : cut sep x with ⟨_ | ⟨l, ls⟩, r⟩ <;> simpa [hx] using ih

theorem notMem_cut (x : List α) : (∀ l ∈ (cut sep x).1, sep ∉ l) ∧ sep ∉ (cut sep x).2 := by
  induction x with
  | nil => simp [cut]
  | cons a x ih =>
    unfold cut
    split_ifs with ha
    · exact ⟨by simpa using ih.1, ih.2⟩
    · rcases hx : cut sep x with ⟨_ | ⟨l, ls⟩, r⟩
      · simpa [hx, Ne.symm ha] using ih
      · simpa [hx, Ne.symm ha] using ih

/-- Nothing torn: empty, or ended by a separator. -/
def Whole (x : List α) : Prop := (cut sep x).2 = []

theorem whole_nil : Whole sep ([] : List α) := rfl

theorem whole_join {ls : List (List α)} (h : ∀ l ∈ ls, sep ∉ l) : Whole sep (join sep ls) := by
  have hc := cut_join_append sep h []
  rw [List.append_nil] at hc
  rw [Whole, hc]
  rfl

variable {sep}

theorem Whole.eq_join {x : List α} (h : Whole sep x) : x = join sep (cut sep x).1 := by
  have hj := join_cut sep x
  rw [show (cut sep x).2 = [] from h, List.append_nil] at hj
  exact hj.symm

/-- A cut at a line boundary cuts both sides on their own. -/
theorem Whole.cut_append {x : List α} (h : Whole sep x) (y : List α) :
    cut sep (x ++ y) = ((cut sep x).1 ++ (cut sep y).1, (cut sep y).2) := by
  conv_lhs => rw [h.eq_join]
  exact cut_join_append sep (notMem_cut sep x).1 y

theorem Whole.append {x y : List α} (hx : Whole sep x) (hy : Whole sep y) : Whole sep (x ++ y) := by
  rw [Whole, hx.cut_append]
  exact hy

theorem whole_line {l : List α} (h : sep ∉ l) : Whole sep (l ++ [sep]) := by
  have hone : ∀ m ∈ [l], sep ∉ m := by simpa using h
  simpa using whole_join sep hone

theorem Whole.eq_nil_or_concat {x : List α} (h : Whole sep x) : x = [] ∨ ∃ y, x = y ++ [sep] := by
  rw [h.eq_join]
  rcases List.eq_nil_or_concat (cut sep x).1 with hl | ⟨ls, l, hl⟩
  · exact .inl (by rw [hl]; rfl)
  · exact .inr ⟨join sep ls ++ l, by simp [hl]⟩

variable (sep)

theorem whole_iff_getLast? (x : List α) : Whole sep x ↔ x = [] ∨ x.getLast? = some sep := by
  constructor
  · intro h
    rcases h.eq_nil_or_concat with rfl | ⟨y, rfl⟩
    · exact .inl rfl
    · exact .inr (by simp)
  · rintro (rfl | h)
    · exact whole_nil sep
    · by_contra hr
      have hj := join_cut sep x
      rw [← hj, List.getLast?_append_of_ne_nil _ hr] at h
      exact (notMem_cut sep x).2 (List.mem_of_getLast? h)

/-- `Iterator::rposition` of a separator. -/
def rposition (x : List α) : Option ℕ :=
  (x.reverse.findIdx? (· == sep)).map fun i => x.length - 1 - i

theorem rposition_eq (x : List α) : rposition sep x =
    if (cut sep x).1 = [] then none else some ((join sep (cut sep x).1).length - 1) := by
  have hx := join_cut sep x
  have hr := (notMem_cut sep x).2
  generalize (cut sep x).2 = r at hx hr
  have hnone : r.reverse.findIdx? (· == sep) = none := by
    simp only [List.findIdx?_eq_none_iff, List.mem_reverse, beq_eq_false_iff_ne]
    rintro a ha rfl
    exact hr ha
  rcases List.eq_nil_or_concat (cut sep x).1 with hl | ⟨ls, l, hl⟩
  · rw [if_pos hl]
    rw [hl, join_nil, List.nil_append] at hx
    rw [← hx, rposition, hnone]
    rfl
  · rw [List.concat_eq_append] at hl
    rw [if_neg (by simp [hl])]
    rw [hl, join_append, join_cons, join_nil] at hx ⊢
    rw [rposition, ← hx, List.reverse_append, List.findIdx?_append, hnone]
    simp [List.findIdx?_cons]
    omega

/-- The complete part of a text ends after its last separator. -/
theorem length_join_cut (x : List α) :
    (join sep (cut sep x).1).length = (rposition sep x).elim 0 (· + 1) := by
  rw [rposition_eq]
  split_ifs with h
  · simp [h]
  · obtain ⟨l, ls, hl⟩ := List.exists_cons_of_ne_nil h
    simp [hl]
    omega

/-- The complete lines that `keep` keeps, each with its offset. -/
def records (keep : List α → Bool) (base : ℕ) (x : List α) : List (ℕ × List α) :=
  (spans base (cut sep x).1).filter fun s => keep s.2

section Records
variable {sep} {keep : List α → Bool}

theorem records_append {x : List α} (h : Whole sep x) (base : ℕ) (y : List α) :
    records sep keep base (x ++ y) =
      records sep keep base x ++ records sep keep (base + x.length) y := by
  have hx : base + x.length = base + (join sep (cut sep x).1).length := by rw [← h.eq_join]
  rw [records, h.cut_append, spans_append sep, List.filter_append, hx]
  rfl

theorem map_snd_records (base : ℕ) (x : List α) :
    (records sep keep base x).map Prod.snd = (cut sep x).1.filter keep := by
  rw [← map_snd_spans base (cut sep x).1, records, List.filter_map]
  rfl

/-- A record stands in the text at its offset, between line ends. -/
theorem mem_records {base : ℕ} {x : List α} {s : ℕ × List α} (h : s ∈ records sep keep base x) :
    ∃ a b, x = a ++ s.2 ++ sep :: b ∧ s.1 = base + a.length ∧ sep ∉ s.2 ∧ keep s.2 := by
  obtain ⟨hs, hk⟩ := List.mem_filter.mp h
  obtain ⟨ms, ns, hl, hoff⟩ := mem_spans sep hs
  refine ⟨join sep ms, join sep ns ++ (cut sep x).2, ?_, hoff, ?_, hk⟩
  · conv_lhs => rw [← join_cut sep x, hl]
    simp
  · exact (notMem_cut sep x).1 _ (by rw [hl]; simp)

theorem pairwise_records (base : ℕ) (x : List α) :
    (records sep keep base x).Pairwise fun s t => s.1 + s.2.length < t.1 :=
  (pairwise_spans base _).filter _

/-- A record's line ends inside the text. -/
theorem end_le_of_mem_records {base : ℕ} {x : List α} {s : ℕ × List α}
    (h : s ∈ records sep keep base x) : s.1 + s.2.length + 1 ≤ base + x.length := by
  obtain ⟨a, b, rfl, hs, -, -⟩ := mem_records h
  simp only [List.length_append, List.length_cons]
  omega

theorem length_records_le (base : ℕ) (x : List α) :
    (records sep keep base x).length ≤ x.length := by
  have hjoin : ∀ ls : List (List α), ls.length ≤ (join sep ls).length := by
    intro ls
    induction ls with
    | nil => exact le_rfl
    | cons l ls ih => simp only [join_cons, List.length_append, List.length_cons]; omega
  have hspans : (spans base (cut sep x).1).length = (cut sep x).1.length := by
    conv_rhs => rw [← map_snd_spans base (cut sep x).1, List.length_map]
  have hx := congrArg List.length (join_cut sep x)
  rw [List.length_append] at hx
  calc (records sep keep base x).length
      ≤ (spans base (cut sep x).1).length := List.length_filter_le _ _
    _ ≤ (join sep (cut sep x).1).length := hspans ▸ hjoin _
    _ ≤ x.length := by omega

@[simp] theorem records_nil (base : ℕ) : records sep keep base [] = [] := rfl

theorem records_of_notMem {x : List α} (h : sep ∉ x) (base : ℕ) : records sep keep base x = [] := by
  rw [records, cut_of_notMem sep h]
  rfl

theorem records_line_append {l : List α} (h : sep ∉ l) (base : ℕ) (x : List α) :
    records sep keep base (l ++ sep :: x) =
      (if keep l then [(base, l)] else []) ++ records sep keep (base + l.length + 1) x := by
  rw [records, cut_line_append sep h]
  cases hk : keep l <;> simp [records, spans, hk]

/-- Before each record, and after the last one, the text splits at a line boundary, with the
earlier records on the left and the later ones on the right. -/
theorem exists_split (base : ℕ) (x : List α) {i : ℕ} (hi : i ≤ (records sep keep base x).length) :
    ∃ a b, x = a ++ b ∧ Whole sep a ∧
      base + a.length = offset base (records sep keep base x) i ∧
      records sep keep base a = (records sep keep base x).take i ∧
      records sep keep (base + a.length) b = (records sep keep base x).drop i := by
  induction hl : (cut sep x).1 generalizing x base i with
  | nil =>
    have hr : records sep keep base x = [] := by rw [records, hl]; rfl
    obtain rfl : i = 0 := by simpa [hr] using hi
    exact ⟨[], x, rfl, whole_nil sep, by simp [hr, offset], by simp, by simp⟩
  | cons l ls ih =>
    obtain ⟨x', rfl, hno, hx'⟩ : ∃ x', x = l ++ sep :: x' ∧ sep ∉ l ∧ (cut sep x').1 = ls := by
      have hno := (notMem_cut sep x).1
      rw [hl, List.forall_mem_cons] at hno
      refine ⟨join sep ls ++ (cut sep x).2, ?_, hno.1, ?_⟩
      · conv_lhs => rw [← join_cut sep x, hl]
        simp
      · rw [cut_join_append sep hno.2, cut_of_notMem sep (notMem_cut sep x).2]
        simp
    have hline : Whole sep (l ++ [sep]) := whole_line hno
    -- a split of what follows the line is a split of the whole text
    have extend : ∀ a b : List α, x' = a ++ b → Whole sep a → l ++ sep :: x' = l ++ sep :: a ++ b ∧
        Whole sep (l ++ sep :: a) ∧
        base + (l ++ sep :: a).length = base + l.length + 1 + a.length := by
      rintro a b rfl ha
      refine ⟨by simp, ?_, by simp; omega⟩
      simpa using hline.append ha
    have hrec : ∀ x, records sep keep base (l ++ sep :: x) = _ := records_line_append hno base
    by_cases hk : keep l
    · simp only [if_pos hk, List.singleton_append] at hrec
      rcases i with _ | i
      · exact ⟨[], _, rfl, whole_nil sep, by simp [hrec, offset], by simp, by simp⟩
      · obtain ⟨a, b, hab, ha, hoff, htake, hdrop⟩ :=
          ih (base + l.length + 1) x' (i := i) (by simpa [hrec] using hi) hx'
        obtain ⟨hsplit, hwhole, hlen⟩ := extend a b hab ha
        refine ⟨l ++ sep :: a, b, hsplit, hwhole, ?_, ?_, ?_⟩
        · rw [hrec, offset_cons_succ, ← hoff, hlen]
        · rw [hrec, hrec, List.take_succ_cons, htake]
        · rw [hlen, hrec, List.drop_succ_cons, hdrop]
    · simp only [if_neg hk, List.nil_append] at hrec
      by_cases hnil : records sep keep (base + l.length + 1) x' = []
      · obtain rfl : i = 0 := by simpa [hrec, hnil] using hi
        exact ⟨[], _, rfl, whole_nil sep, by simp [hrec, hnil, offset], by simp, by simp⟩
      · obtain ⟨a, b, hab, ha, hoff, htake, hdrop⟩ :=
          ih (base + l.length + 1) x' (i := i) (by simpa [hrec] using hi) hx'
        obtain ⟨hsplit, hwhole, hlen⟩ := extend a b hab ha
        refine ⟨l ++ sep :: a, b, hsplit, hwhole, ?_, ?_, ?_⟩
        · rw [hrec, offset_base hnil base (base + l.length + 1), ← hoff, hlen]
        · rw [hrec, hrec, htake]
        · rw [hlen, hrec, hdrop]

end Records

end Ralph.Lines
