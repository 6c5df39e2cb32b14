import Mathlib.Algebra.BigOperators.Group.List.Basic

namespace Ralph.ListSums

variable {α β M : Type*} [AddCommMonoid M]

/-- The sum over what a partial function makes of a list. -/
theorem sum_map_filterMap (q : α → Option β) (g : β → M) (xs : List α) :
    ((xs.filterMap q).map g).sum = (xs.map fun x => (q x).elim 0 g).sum := by
  induction xs with
  | nil => rfl
  | cons x xs ih =>
    rw [List.filterMap_cons, List.map_cons, List.sum_cons, ← ih]
    cases q x with
    | none => rw [Option.elim_none, zero_add]
    | some y => rw [List.map_cons, List.sum_cons, Option.elim_some]

theorem sum_map_flatMap (q : α → List β) (g : β → M) (xs : List α) :
    ((xs.flatMap q).map g).sum = (xs.map fun x => ((q x).map g).sum).sum := by
  induction xs with
  | nil => rfl
  | cons x xs ih =>
    rw [List.flatMap_cons, List.map_append, List.sum_append, ih, List.map_cons, List.sum_cons]

/-- A sum by cases is the sum over each case. -/
theorem sum_map_ite (p : α → Bool) (f g : α → M) (xs : List α) :
    (xs.map fun x => if p x then f x else g x).sum =
      ((xs.filter p).map f).sum + ((xs.filter fun x => !p x).map g).sum := by
  induction xs with
  | nil => exact (add_zero 0).symm
  | cons x xs ih =>
    rw [List.map_cons, List.sum_cons, ih, List.filter_cons, List.filter_cons]
    cases p x
    · simp only [Bool.false_eq_true, if_false, Bool.not_false, if_true, List.map_cons, List.sum_cons]
      exact add_left_comm _ _ _
    · simp only [if_true, Bool.not_true, Bool.false_eq_true, if_false, List.map_cons, List.sum_cons]
      exact (add_assoc _ _ _).symm

end Ralph.ListSums
