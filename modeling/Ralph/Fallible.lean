import Mathlib.Tactic

namespace Ralph.Fallible

variable {ε : Type*} {α β : Type}

@[simp] theorem ok_bind (a : α) (f : α → Except ε β) : (Except.ok a >>= f) = f a := rfl

@[simp] theorem error_bind (e : ε) (f : α → Except ε β) : (Except.error e >>= f) = .error e := rfl

@[simp] theorem pure_eq_ok (a : α) : (pure a : Except ε α) = .ok a := rfl

/-- A sequence succeeds exactly through a success of its first part. -/
theorem bind_eq_ok {x : Except ε α} {f : α → Except ε β} {b : β} :
    (x >>= f) = .ok b ↔ ∃ a, x = .ok a ∧ f a = .ok b := by
  cases x <;> simp

/-- `Option::ok_or_else`. -/
def okOr (o : Option α) (e : ε) : Except ε α :=
  match o with
  | some a => .ok a
  | none => .error e

theorem okOr_eq_ok {o : Option α} {e : ε} {a : α} : okOr o e = .ok a ↔ o = some a := by
  cases o <;> simp [okOr]

theorem mapError_eq_ok {ε' : Type*} {x : Except ε α} {f : ε → ε'} {a : α} :
    x.mapError f = .ok a ↔ x = .ok a := by
  cases x <;> simp [Except.mapError]

theorem map_injective {f : α → β} (hf : Function.Injective f) :
    Function.Injective (Except.map f : Except ε α → Except ε β) := by
  intro x y h
  cases x with
  | error e =>
    cases y with
    | error e' => rw [Except.error.inj h]
    | ok b => cases h
  | ok a =>
    cases y with
    | error e => cases h
    | ok b => rw [hf (Except.ok.inj h)]

/-- What is made of the first of two results does not depend on the second one. -/
theorem map_fst_congr {γ δ : Type} {x : Except ε (α × β)} {y : Except ε (α × γ)}
    (h : x.map Prod.fst = y.map Prod.fst) (f : α → δ) :
    (x.map fun (a, _) => f a) = y.map fun (a, _) => f a := by
  have hx : (x.map fun (a, _) => f a) = (x.map Prod.fst).map f := by cases x <;> rfl
  have hy : (y.map fun (a, _) => f a) = (y.map Prod.fst).map f := by cases y <;> rfl
  rw [hx, hy, h]

theorem mapM_eq_ok {f : α → Except ε β} {g : α → β} {xs : List α}
    (h : ∀ x ∈ xs, f x = .ok (g x)) : xs.mapM f = .ok (xs.map g) := by
  induction xs with
  | nil => rfl
  | cons x xs ih =>
    rw [List.forall_mem_cons] at h
    simp [List.mapM_cons, h.1, ih h.2]

theorem mapM_congr {f g : α → Except ε β} {xs : List α} (h : ∀ x ∈ xs, f x = g x) :
    xs.mapM f = xs.mapM g := by
  induction xs with
  | nil => rfl
  | cons x xs ih =>
    rw [List.forall_mem_cons] at h
    rw [List.mapM_cons, List.mapM_cons, h.1, ih h.2]

/-- What succeeds with `f` succeeds with every `g` that agrees with the successes of `f`. -/
theorem mapM_mono {f g : α → Except ε β} {xs : List α} {ys : List β}
    (h : ∀ x ∈ xs, ∀ y, f x = .ok y → g x = .ok y) (hf : xs.mapM f = .ok ys) :
    xs.mapM g = .ok ys := by
  induction xs generalizing ys with
  | nil => exact hf
  | cons x xs ih =>
    rw [List.forall_mem_cons] at h
    rw [List.mapM_cons, bind_eq_ok] at hf ⊢
    obtain ⟨y, hy, hf⟩ := hf
    rw [bind_eq_ok] at hf
    obtain ⟨ys', hys, hf⟩ := hf
    refine ⟨y, h.1 y hy, ?_⟩
    rw [ih h.2 hys]
    exact hf

end Ralph.Fallible
