import Mathlib.Data.List.Basic

namespace Ralph.CommonPrefix

variable {α : Type*} [DecidableEq α]

/-- The length of the longest common prefix, as `zip` and `take_while` count it. -/
def shared (a b : List α) : ℕ := ((a.zip b).takeWhile fun p => decide (p.1 = p.2)).length

/-- The position of the first difference, or the length of the shorter list. -/
def firstDifference (a b : List α) : ℕ :=
  ((a.zip b).findIdx? fun p => decide (p.1 ≠ p.2)).getD (min a.length b.length)

theorem shared_cons (x y : α) (a b : List α) :
    shared (x :: a) (y :: b) = if x = y then shared a b + 1 else 0 := by
  rw [shared, List.zip_cons_cons, List.takeWhile_cons]
  by_cases h : x = y
  · rw [if_pos h, if_pos (decide_eq_true h), List.length_cons, shared]
  · rw [if_neg h, if_neg (by rw [decide_eq_true_eq]; exact h), List.length_nil]

theorem le_shared_iff {a b : List α} {n : ℕ} :
    n ≤ shared a b ↔ n ≤ a.length ∧ n ≤ b.length ∧ a.take n = b.take n := by
  induction a generalizing b n with
  | nil =>
    rw [shared, List.zip_nil_left, List.takeWhile_nil, List.length_nil, Nat.le_zero]
    constructor
    · intro hn
      rw [hn]
      exact ⟨Nat.le_refl 0, Nat.zero_le _, rfl⟩
    · exact fun h => Nat.le_zero.mp h.1
  | cons x a ih =>
    cases b with
    | nil =>
      rw [shared, List.zip_nil_right, List.takeWhile_nil, List.length_nil, Nat.le_zero]
      constructor
      · intro hn
        rw [hn]
        exact ⟨Nat.zero_le _, Nat.le_refl 0, rfl⟩
      · exact fun h => Nat.le_zero.mp h.2.1
    | cons y b =>
      rw [shared_cons]
      cases n with
      | zero => exact iff_of_true (Nat.zero_le _) ⟨Nat.zero_le _, Nat.zero_le _, rfl⟩
      | succ n =>
        rw [List.length_cons, List.length_cons, List.take_succ_cons, List.take_succ_cons, List.cons.injEq]
        split_ifs with h
        · rw [Nat.succ_le_succ_iff, Nat.succ_le_succ_iff, Nat.succ_le_succ_iff, ih]
          exact ⟨fun hn => ⟨hn.1, hn.2.1, h, hn.2.2⟩, fun hn => ⟨hn.1, hn.2.1, hn.2.2.2⟩⟩
        · exact iff_of_false (Nat.not_succ_le_zero n) fun hn => h hn.2.2.1

theorem shared_spec (a b : List α) :
    shared a b ≤ a.length ∧ shared a b ≤ b.length ∧ a.take (shared a b) = b.take (shared a b) :=
  le_shared_iff.mp (Nat.le_refl _)

/-- Where both lists go on, they differ. -/
theorem ne_of_shared {a b : List α} {x y : α} (ha : a[shared a b]? = some x) (hb : b[shared a b]? = some y) : x ≠ y := by
  intro hxy
  obtain ⟨hla, hax⟩ := List.getElem?_eq_some_iff.mp ha
  obtain ⟨hlb, hby⟩ := List.getElem?_eq_some_iff.mp hb
  have hnext : shared a b + 1 ≤ shared a b := by
    refine le_shared_iff.mpr ⟨hla, hlb, ?_⟩
    rw [List.take_add_one, List.take_add_one, ha, hb, hxy, (shared_spec a b).2.2]
  exact absurd hnext (Nat.not_succ_le_self _)

theorem firstDifference_eq (a b : List α) : firstDifference a b = shared a b := by
  induction a generalizing b with
  | nil => rw [firstDifference, shared, List.zip_nil_left, List.length_nil, Nat.zero_min]; rfl
  | cons x a ih =>
    cases b with
    | nil => rw [firstDifference, shared, List.zip_nil_right, List.length_nil, Nat.min_zero]; rfl
    | cons y b =>
      rw [shared_cons, firstDifference, List.zip_cons_cons, List.findIdx?_cons]
      by_cases h : x = y
      · rw [if_pos h, ← ih, firstDifference, if_neg (by rw [decide_eq_true_eq]; exact not_not_intro h)]
        cases (a.zip b).findIdx? fun p => decide (p.1 ≠ p.2) with
        | none => rw [Option.map_none, Option.getD_none, Option.getD_none, List.length_cons, List.length_cons,
            Nat.succ_min_succ]
        | some i => rw [Option.map_some, Option.getD_some, Option.getD_some]
      · rw [if_neg h, if_pos (decide_eq_true h), Option.getD_some]

end Ralph.CommonPrefix
