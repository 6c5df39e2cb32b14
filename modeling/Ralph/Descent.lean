import Mathlib.Logic.Relation
import Ralph.Loop

namespace Ralph

/-- A fixed way down, followed until a state is good enough or the way ends. -/
structure Descent (σ : Type*) where
  step : σ → Option σ
  measure : σ → ℕ
  decreases : ∀ s s', step s = some s' → measure s' < measure s

namespace Descent

variable {σ : Type*} (d : Descent σ)

def body (enough : σ → Bool) : Loop.Body σ σ where
  step := fun s =>
    if enough s then .inr s
    else
      match d.step s with
      | some s' => .inl s'
      | none => .inr s
  measure := d.measure
  decreases := by
    intro s s' h
    split_ifs at h
    split at h
    · next t ht => exact Sum.inl.inj h ▸ d.decreases s t ht
    · exact nomatch h

/-- The first state on the way that is good enough, or the last one. -/
def settle (enough : σ → Bool) (s : σ) : σ := (d.body enough).run s

def Down (a b : σ) : Prop := d.step a = some b

variable {d} {enough : σ → Bool}

theorem settle_of_enough {s : σ} (h : enough s = true) : d.settle enough s = s :=
  Loop.Body.run_of_done _ (by simp [body, h])

theorem settle_of_last {s : σ} (h : d.step s = none) : d.settle enough s = s := by
  cases hs : enough s with
  | true => exact settle_of_enough hs
  | false => exact Loop.Body.run_of_done _ (by simp [body, hs, h])

theorem settle_of_step {s s' : σ} (hs : enough s = false) (h : d.step s = some s') :
    d.settle enough s = d.settle enough s' :=
  Loop.Body.run_of_again _ (by simp [body, hs, h])

/-- Induction along the way down to where it stops. -/
theorem settle_induction {motive : σ → σ → Prop} (stop : ∀ s, enough s = true ∨ d.step s = none → motive s s)
    (down : ∀ s s' r, enough s = false → d.step s = some s' → motive s' r → motive s r) (s : σ) :
    motive s (d.settle enough s) := by
  induction hn : d.measure s using Nat.strong_induction_on generalizing s with
  | _ n ih =>
    cases hs : enough s with
    | true =>
      rw [settle_of_enough hs]
      exact stop s (.inl hs)
    | false =>
      cases h : d.step s with
      | none =>
        rw [settle_of_last h]
        exact stop s (.inr h)
      | some s' =>
        rw [settle_of_step hs h]
        exact down s s' _ hs h (ih _ (hn ▸ d.decreases s s' h) s' rfl)

theorem settle_stops (enough : σ → Bool) (s : σ) : enough (d.settle enough s) = true ∨ d.step (d.settle enough s) = none := by
  apply settle_induction (d := d) (motive := fun _ r => enough r = true ∨ d.step r = none)
  · exact fun _ h => h
  · exact fun _ _ _ _ _ h => h

theorem settle_invariant {I : σ → Prop} (keep : ∀ s s', I s → d.step s = some s' → I s') {s : σ} (hs : I s) :
    I (d.settle enough s) := by
  revert hs
  apply settle_induction (d := d) (motive := fun s r => I s → I r)
  · exact fun _ _ h => h
  · exact fun s s' _ _ h ih hs => ih (keep s s' hs h)

theorem settle_down (enough : σ → Bool) (s : σ) : Relation.ReflTransGen d.Down s (d.settle enough s) := by
  apply settle_induction (d := d) (motive := Relation.ReflTransGen d.Down)
  · exact fun _ _ => .refl
  · exact fun _ _ _ _ h ih => .head h ih

/-- Who asks for more stops no earlier, further down on the same way. -/
theorem settle_of_stricter {lax : σ → Bool} (h : ∀ s, enough s = true → lax s = true) (s : σ) :
    Relation.ReflTransGen d.Down (d.settle lax s) (d.settle enough s) := by
  induction hn : d.measure s using Nat.strong_induction_on generalizing s with
  | _ n ih =>
    cases hlax : lax s with
    | true =>
      rw [settle_of_enough hlax]
      exact settle_down enough s
    | false =>
      have hs : enough s = false := by
        by_contra hne
        rw [h s (by simpa using hne)] at hlax
        cases hlax
      cases hstep : d.step s with
      | none => rw [settle_of_last hstep, settle_of_last hstep]
      | some s' =>
        rw [settle_of_step hlax hstep, settle_of_step hs hstep]
        exact ih _ (hn ▸ d.decreases s s' hstep) s' rfl

/-- Where the lax one stops is where the strict one stops, if that is enough for it. -/
theorem settle_eq_of_enough {lax : σ → Bool} (h : ∀ s, enough s = true → lax s = true) {s : σ}
    (hs : enough (d.settle lax s) = true) : d.settle enough s = d.settle lax s := by
  revert hs
  apply settle_induction (d := d) (motive := fun s r => enough r = true → d.settle enough s = r)
  · intro s _ hs
    exact settle_of_enough hs
  · intro s s' r hlax hstep ih hr
    have hs : enough s = false := by
      by_contra hne
      rw [h s (by simpa using hne)] at hlax
      cases hlax
    rw [settle_of_step hs hstep, ih hr]

end Descent

end Ralph
