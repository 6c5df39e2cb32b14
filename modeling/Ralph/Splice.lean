import Mathlib.Tactic

namespace Ralph.Splice

variable {α β : Type*}

/-- `Vec::splice` of the elements from index `i` up to `j`. -/
def splice (xs : List α) (i j : ℕ) (ys : List α) : List α := xs.take i ++ ys ++ xs.drop j

/-- `Iterator::rposition`. -/
def rposition (p : α → Bool) (xs : List α) : Option ℕ :=
  (xs.reverse.findIdx? p).map fun i => xs.length - 1 - i

theorem getElem?_of_findIdx? {p : α → Bool} {xs : List α} {i : ℕ} (h : xs.findIdx? p = some i) :
    ∃ x, xs[i]? = some x ∧ p x := by
  obtain ⟨hi, hp, -⟩ := List.findIdx?_eq_some_iff_getElem.mp h
  exact ⟨xs[i], List.getElem?_eq_getElem hi, hp⟩

theorem findIdx?_congr {p q : α → Bool} {xs : List α} (h : ∀ x ∈ xs, p x = q x) :
    xs.findIdx? p = xs.findIdx? q := by
  induction xs with
  | nil => rfl
  | cons x xs ih =>
    rw [List.forall_mem_cons] at h
    rw [List.findIdx?_cons, List.findIdx?_cons, h.1, ih h.2]

theorem getElem?_of_rposition {p : α → Bool} {xs : List α} {i : ℕ} (h : rposition p xs = some i) :
    ∃ x, xs[i]? = some x ∧ p x := by
  obtain ⟨j, hj, rfl⟩ := Option.map_eq_some_iff.mp h
  obtain ⟨x, hx, hp⟩ := getElem?_of_findIdx? hj
  have hlt : j < xs.length := by simpa using (List.getElem?_eq_some_iff.mp hx).1
  rw [List.getElem?_reverse hlt] at hx
  exact ⟨x, hx, hp⟩

theorem rposition_eq_none {p : α → Bool} {xs : List α} (h : rposition p xs = none) :
    ∀ x ∈ xs, p x = false := by
  intro x hx
  have hnone := List.findIdx?_eq_none_iff.mp (Option.map_eq_none_iff.mp h)
  exact hnone x (List.mem_reverse.mpr hx)

theorem mem_of_mem_splice {xs ys : List α} {i j : ℕ} {x : α} (h : x ∈ splice xs i j ys) :
    x ∈ xs ∨ x ∈ ys := by
  rw [splice, List.mem_append, List.mem_append] at h
  obtain (h | h) | h := h
  · exact .inl (List.mem_of_mem_take h)
  · exact .inr h
  · exact .inl (List.mem_of_mem_drop h)

section
variable {f : Option α → α → Option α} (key : α → ℕ)

theorem foldl_some_max
    (hsome : ∀ b x, f (some b) x = if key b ≤ key x then some x else some b) (b : α) (xs : List α) :
    ∃ m ∈ b :: xs, xs.foldl f (some b) = some m ∧ ∀ x ∈ b :: xs, key x ≤ key m := by
  induction xs generalizing b with
  | nil => exact ⟨b, List.mem_cons_self, rfl, by simp⟩
  | cons x xs ih =>
    rw [List.foldl_cons, hsome]
    split_ifs with hle
    · obtain ⟨m, hm, hfold, hmax⟩ := ih x
      rw [List.forall_mem_cons] at hmax
      refine ⟨m, List.mem_cons_of_mem _ hm, hfold, ?_⟩
      simp only [List.forall_mem_cons]
      exact ⟨hle.trans hmax.1, hmax⟩
    · obtain ⟨m, hm, hfold, hmax⟩ := ih b
      rw [List.forall_mem_cons] at hmax
      refine ⟨m, ?_, hfold, ?_⟩
      · exact List.cons_subset_cons b (List.subset_cons_self x xs) hm
      · simp only [List.forall_mem_cons]
        exact ⟨hmax.1, (not_le.mp hle).le.trans hmax.1, hmax.2⟩

/-- `Iterator::max_by_key`, as a fold. -/
theorem foldl_max (hnone : ∀ x, f none x = some x)
    (hsome : ∀ b x, f (some b) x = if key b ≤ key x then some x else some b) (xs : List α) :
    (xs.foldl f none = none ∧ xs = []) ∨
      ∃ m ∈ xs, xs.foldl f none = some m ∧ ∀ x ∈ xs, key x ≤ key m := by
  cases xs with
  | nil => exact .inl ⟨rfl, rfl⟩
  | cons x xs =>
    rw [List.foldl_cons, hnone]
    exact .inr (foldl_some_max key hsome x xs)

end

theorem take_append_drop_one {xs : List α} {i : ℕ} {x : α} (h : xs[i]? = some x) :
    xs.take i ++ [x] ++ xs.drop (i + 1) = xs := by
  obtain ⟨hi, rfl⟩ := List.getElem?_eq_some_iff.mp h
  rw [List.append_assoc, List.singleton_append, List.getElem_cons_drop, List.take_append_drop]

theorem take_append_drop_two {xs : List α} {i : ℕ} {x y : α} (h : xs[i]? = some x)
    (h' : xs[i + 1]? = some y) : xs.take i ++ [x, y] ++ xs.drop (i + 2) = xs := by
  obtain ⟨hi, rfl⟩ := List.getElem?_eq_some_iff.mp h
  obtain ⟨hi', rfl⟩ := List.getElem?_eq_some_iff.mp h'
  rw [List.append_assoc, List.cons_append, List.singleton_append, List.getElem_cons_drop,
    List.getElem_cons_drop, List.take_append_drop]

theorem length_splice {xs : List α} {i : ℕ} (hi : i < xs.length) (ys : List α) :
    (splice xs i (i + 1) ys).length + 1 = xs.length + ys.length := by
  simp only [splice, List.length_append, List.length_take, List.length_drop]
  omega

theorem length_splice_two {xs : List α} {i : ℕ} (hi : i + 1 < xs.length) (ys : List α) :
    (splice xs i (i + 2) ys).length + 2 = xs.length + ys.length := by
  simp only [splice, List.length_append, List.length_take, List.length_drop]
  omega

/-- What a splice of one element changes of a sum. -/
theorem sum_splice_one {f : α → ℕ} {xs : List α} {i : ℕ} {x : α} (h : xs[i]? = some x)
    (ys : List α) :
    ((splice xs i (i + 1) ys).map f).sum + f x = (xs.map f).sum + (ys.map f).sum := by
  conv_rhs => rw [← take_append_drop_one h]
  simp only [splice, List.map_append, List.sum_append, List.map_cons, List.map_nil, List.sum_cons,
    List.sum_nil]
  omega

theorem sum_splice_two {f : α → ℕ} {xs : List α} {i : ℕ} {x y : α} (h : xs[i]? = some x)
    (h' : xs[i + 1]? = some y) (ys : List α) :
    ((splice xs i (i + 2) ys).map f).sum + f x + f y = (xs.map f).sum + (ys.map f).sum := by
  conv_rhs => rw [← take_append_drop_two h h']
  simp only [splice, List.map_append, List.sum_append, List.map_cons, List.map_nil, List.sum_cons,
    List.sum_nil]
  omega

end Ralph.Splice
