import Mathlib.Tactic

namespace Ralph.Raster

variable {α : Type*} {n : ℕ}

/-- The cell with this number, in a grid of cells of `n` items each, row after row in one list. -/
def cell (n i : ℕ) (data : List α) : List α := (data.drop (i * n)).take n

def put (n i : ℕ) (item data : List α) : List α :=
  data.take (i * n) ++ item ++ data.drop (i * n + n)

theorem getElem?_cell (i k : ℕ) (data : List α) :
    (cell n i data)[k]? = if k < n then data[i * n + k]? else none := by
  rw [cell, List.getElem?_take]
  split_ifs with h
  · rw [List.getElem?_drop]
  · rfl

theorem length_cell {i : ℕ} {data : List α} (h : (i + 1) * n ≤ data.length) :
    (cell n i data).length = n := by
  rw [Nat.succ_mul] at h
  rw [cell, List.length_take, List.length_drop]
  omega

theorem length_put {i : ℕ} {item data : List α} (hitem : item.length = n)
    (h : (i + 1) * n ≤ data.length) : (put n i item data).length = data.length := by
  rw [Nat.succ_mul] at h
  simp only [put, List.length_append, List.length_take, List.length_drop]
  omega

theorem getElem?_put {i : ℕ} {item data : List α} (hitem : item.length = n)
    (h : (i + 1) * n ≤ data.length) (k : ℕ) : (put n i item data)[k]? =
      if i * n ≤ k ∧ k < (i + 1) * n then item[k - i * n]? else data[k]? := by
  rw [Nat.succ_mul] at h ⊢
  have htake : (data.take (i * n)).length = i * n := by
    rw [List.length_take]
    omega
  rw [put, List.append_assoc, List.getElem?_append, htake]
  split_ifs with hlt hin hin
  · omega
  · rw [List.getElem?_take, if_pos hlt]
  · rw [List.getElem?_append_left (by omega)]
  · rw [List.getElem?_append_right (by omega), List.getElem?_drop]
    congr 1
    omega

/-- A cell that is put is read back, and no other cell changes. -/
theorem cell_put {i j : ℕ} {item data : List α} (hitem : item.length = n)
    (h : (j + 1) * n ≤ data.length) :
    cell n i (put n j item data) = if i = j then item else cell n i data := by
  apply List.ext_getElem?
  intro k
  rw [getElem?_cell]
  by_cases hk : k < n
  · rw [if_pos hk, getElem?_put hitem h]
    rcases eq_or_ne i j with rfl | hne
    · rw [if_pos rfl, if_pos ⟨by omega, by rw [Nat.succ_mul]; omega⟩, Nat.add_sub_cancel_left]
    · have hout : ¬ (j * n ≤ i * n + k ∧ i * n + k < (j + 1) * n) := by
        rintro ⟨hlow, hhigh⟩
        rcases Nat.lt_or_gt_of_ne hne with hlt | hgt
        · have hrow : (i + 1) * n ≤ j * n := Nat.mul_le_mul_right n hlt
          rw [Nat.succ_mul] at hrow
          omega
        · have hrow : (j + 1) * n ≤ i * n := Nat.mul_le_mul_right n hgt
          omega
      rw [if_neg hout, if_neg hne, getElem?_cell, if_pos hk]
  · rw [if_neg hk]
    split_ifs with hij
    · exact (List.getElem?_eq_none (by omega)).symm
    · rw [getElem?_cell, if_neg hk]

/-- The number of a cell in its row, and of its row. -/
theorem number_inj {w x x' y y' : ℕ} (hx : x < w) (hx' : x' < w) :
    y * w + x = y' * w + x' ↔ x = x' ∧ y = y' := by
  constructor
  · intro h
    have hrow := congrArg (· / w) h
    have hcol := congrArg (· % w) h
    simp only [Nat.mul_comm _ w, Nat.mul_add_div (by omega : 0 < w), Nat.mul_add_mod,
      Nat.div_eq_of_lt hx, Nat.div_eq_of_lt hx', Nat.mod_eq_of_lt hx, Nat.mod_eq_of_lt hx',
      Nat.add_zero] at hrow hcol
    exact ⟨hcol, hrow⟩
  · rintro ⟨rfl, rfl⟩
    rfl

theorem number_lt {w h x y : ℕ} (hx : x < w) (hy : y < h) : y * w + x < w * h := by
  calc y * w + x < y * w + w := by omega
    _ = (y + 1) * w := (Nat.succ_mul y w).symm
    _ ≤ h * w := Nat.mul_le_mul_right w hy
    _ = w * h := Nat.mul_comm h w

/-- The cells of a part of the grid, row after row. -/
def cells (xs ys : List ℕ) : List (ℕ × ℕ) := ys.flatMap fun y => xs.map fun x => (x, y)

theorem mem_cells {xs ys : List ℕ} {x y : ℕ} : (x, y) ∈ cells xs ys ↔ x ∈ xs ∧ y ∈ ys := by
  simp [cells, and_comm]

theorem length_cells (xs ys : List ℕ) : (cells xs ys).length = ys.length * xs.length := by
  induction ys with
  | nil => simp [cells]
  | cons y ys ih =>
    rw [cells, List.flatMap_cons, List.length_append, List.length_map, List.length_cons,
      Nat.succ_mul, Nat.add_comm, ← ih]
    rfl

theorem getElem?_cells (xs ys : List ℕ) {x y : ℕ} (hx : x < xs.length) :
    (cells xs ys)[y * xs.length + x]? = ys[y]?.map fun row => (xs[x], row) := by
  induction ys generalizing y with
  | nil => simp [cells]
  | cons row ys ih =>
    have hsplit : cells xs (row :: ys) = (xs.map fun x => (x, row)) ++ cells xs ys := by
      rw [cells, List.flatMap_cons]
      rfl
    rw [hsplit]
    cases y with
    | zero =>
      rw [Nat.zero_mul, Nat.zero_add, List.getElem?_append_left (by simpa using hx)]
      simp [hx]
    | succ y =>
      rw [Nat.succ_mul, List.getElem?_append_right (by rw [List.length_map]; omega),
        List.length_map, List.getElem?_cons_succ, ← ih]
      congr 1
      omega

def paint {ι : Type*} (n : ℕ) (number : ι → ℕ) (item : ι → List α) (todo : List ι) (data : List α) :
    List α := todo.foldl (fun data j => put n (number j) (item j) data) data

section Paint

variable {ι : Type*} {number : ι → ℕ} {item : ι → List α} {todo : List ι} {data : List α}

theorem length_paint (hitem : ∀ j ∈ todo, (item j).length = n)
    (hnumber : ∀ j ∈ todo, (number j + 1) * n ≤ data.length) :
    (paint n number item todo data).length = data.length := by
  induction todo generalizing data with
  | nil => rfl
  | cons j todo ih =>
    rw [List.forall_mem_cons] at hitem hnumber
    have hlength := length_put hitem.1 hnumber.1
    exact (ih hitem.2 fun k hk => by rw [hlength]; exact hnumber.2 k hk).trans hlength

theorem cell_paint_of_notMem (hitem : ∀ j ∈ todo, (item j).length = n)
    (hnumber : ∀ j ∈ todo, (number j + 1) * n ≤ data.length) {i : ℕ}
    (hi : ∀ j ∈ todo, number j ≠ i) : cell n i (paint n number item todo data) = cell n i data := by
  induction todo generalizing data with
  | nil => rfl
  | cons j todo ih =>
    rw [List.forall_mem_cons] at hitem hnumber hi
    have hlength := length_put hitem.1 hnumber.1
    refine (ih hitem.2 (fun k hk => by rw [hlength]; exact hnumber.2 k hk) hi.2).trans ?_
    rw [cell_put hitem.1 hnumber.1, if_neg hi.1.symm]

/-- Where the numbers are different, each cell is read back. -/
theorem cell_paint_of_mem (hitem : ∀ j ∈ todo, (item j).length = n)
    (hnumber : ∀ j ∈ todo, (number j + 1) * n ≤ data.length)
    (hinj : ∀ j ∈ todo, ∀ k ∈ todo, number j = number k → j = k) {j : ι} (hj : j ∈ todo) :
    cell n (number j) (paint n number item todo data) = item j := by
  induction todo generalizing data with
  | nil => cases hj
  | cons head todo ih =>
    have hrest : ∀ k ∈ todo, ∀ l ∈ todo, number k = number l → k = l :=
      fun k hk l hl => hinj k (List.mem_cons_of_mem _ hk) l (List.mem_cons_of_mem _ hl)
    have hlength := length_put (hitem head List.mem_cons_self) (hnumber head List.mem_cons_self)
    have hitem' : ∀ k ∈ todo, (item k).length = n := fun k hk => hitem k (List.mem_cons_of_mem _ hk)
    have hnumber' : ∀ k ∈ todo, (number k + 1) * n ≤ (put n (number head) (item head) data).length := by
      intro k hk
      rw [hlength]
      exact hnumber k (List.mem_cons_of_mem _ hk)
    by_cases hmem : j ∈ todo
    · exact ih hitem' hnumber' hrest hmem
    · obtain rfl := (List.mem_cons.1 hj).resolve_right hmem
      refine (cell_paint_of_notMem hitem' hnumber' fun k hk heq => hmem ?_).trans ?_
      · rw [← hinj k (List.mem_cons_of_mem _ hk) j hj heq]
        exact hk
      · rw [cell_put (hitem j hj) (hnumber j hj), if_pos rfl]

end Paint

/-- Cells one after another. -/
theorem cell_flatten {parts : List (List α)} (hparts : ∀ part ∈ parts, part.length = n) {i : ℕ}
    {part : List α} (hpart : parts[i]? = some part) : cell n i parts.flatten = part := by
  induction parts generalizing i with
  | nil => simp at hpart
  | cons head parts ih =>
    rw [List.forall_mem_cons] at hparts
    rw [List.flatten_cons]
    cases i with
    | zero =>
      rw [List.getElem?_cons_zero, Option.some_inj] at hpart
      rw [cell, Nat.zero_mul, List.drop_zero, ← hparts.1, List.take_left, hpart]
    | succ i =>
      rw [List.getElem?_cons_succ] at hpart
      rw [← ih hparts.2 hpart, cell, cell, Nat.succ_mul, Nat.add_comm, ← List.drop_drop, ← hparts.1,
        List.drop_left]

theorem length_flatten {parts : List (List α)} (hparts : ∀ part ∈ parts, part.length = n) :
    parts.flatten.length = parts.length * n := by
  rw [List.length_flatten, List.map_congr_left hparts, List.map_const', List.sum_replicate,
    smul_eq_mul]

end Ralph.Raster
