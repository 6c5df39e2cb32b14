import Mathlib.Algebra.BigOperators.Group.List.Basic
import Mathlib.Algebra.Order.Monoid.Defs

namespace Ralph.Meter

variable {M : Type*} [AddCommMonoid M] [PartialOrder M] [IsOrderedCancelAddMonoid M]

/-- The last reading of a meter. Each step is a reading and the amount that is booked for it. -/
def final : M → List (M × M) → M
  | last, [] => last
  | _, (reading, _) :: steps => final reading steps

/-- What is booked is enough for each reading. -/
def Covers : M → List (M × M) → Prop
  | _, [] => True
  | last, (reading, amount) :: steps => reading ≤ last + amount ∧ Covers reading steps

/-- What is booked is what each reading adds. -/
def Exact : M → List (M × M) → Prop
  | _, [] => True
  | last, (reading, amount) :: steps => last + amount = reading ∧ Exact reading steps

def booked (steps : List (M × M)) : M := (steps.map Prod.snd).sum

variable {last : M} {steps : List (M × M)}

theorem final_le (h : Covers last steps) : final last steps ≤ last + booked steps := by
  induction steps generalizing last with
  | nil => simp [final, booked]
  | cons step steps ih =>
    calc final step.1 steps ≤ step.1 + booked steps := ih h.2
      _ ≤ last + step.2 + booked steps := add_le_add_left h.1 _
      _ = last + booked (step :: steps) := by simp [booked, add_assoc]

/-- The bookings add up to the last reading only if each of them was exact. -/
theorem booked_eq_iff (h : Covers last steps) :
    last + booked steps = final last steps ↔ Exact last steps := by
  induction steps generalizing last with
  | nil => simp [final, booked, Exact]
  | cons step steps ih =>
    have hrest := final_le h.2
    have hsplit : last + booked (step :: steps) = last + step.2 + booked steps := by
      simp [booked, add_assoc]
    rw [hsplit]
    constructor
    · intro heq
      have hstep : last + step.2 = step.1 := by
        refine le_antisymm ?_ h.1
        have hle : last + step.2 + booked steps ≤ step.1 + booked steps := heq.trans_le hrest
        exact le_of_add_le_add_right hle
      exact ⟨hstep, (ih h.2).1 ((congrArg (· + booked steps) hstep).symm.trans heq)⟩
    · rintro ⟨hstep, hexact⟩
      rw [hstep]
      exact (ih h.2).2 hexact

end Ralph.Meter
