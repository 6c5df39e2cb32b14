import Mathlib.Tactic

namespace Ralph.Loop

variable {σ ρ : Type*}

/-- The body of a `loop`/`while`: from a state, another round or the loop's answer.
The measure is what makes the loop end. -/
structure Body (σ ρ : Type*) where
  step : σ → σ ⊕ ρ
  measure : σ → ℕ
  decreases : ∀ s s', step s = .inl s' → measure s' < measure s

namespace Body

/-- The rounds of the loop, structurally on a bound that the measure stays under. -/
def rounds (b : Body σ ρ) : (n : ℕ) → (s : σ) → b.measure s < n → ρ
  | 0, _, h => absurd h (Nat.not_lt_zero _)
  | n + 1, s, h =>
    match hs : b.step s with
    | .inl s' => b.rounds n s' (by have := b.decreases s s' hs; omega)
    | .inr r => r

def run (b : Body σ ρ) (s : σ) : ρ := b.rounds (b.measure s + 1) s (Nat.lt_succ_self _)

theorem rounds_of_again (b : Body σ ρ) {n : ℕ} {s s' : σ} (h : b.measure s < n + 1)
    (hs : b.step s = .inl s') (h' : b.measure s' < n) :
    b.rounds (n + 1) s h = b.rounds n s' h' := by
  rw [rounds]
  split
  · next t ht =>
    obtain rfl : t = s' := Sum.inl.inj (ht.symm.trans hs)
    rfl
  · next r hr => simp [hr] at hs

theorem rounds_of_done (b : Body σ ρ) {n : ℕ} {s : σ} {r : ρ} (h : b.measure s < n + 1)
    (hs : b.step s = .inr r) : b.rounds (n + 1) s h = r := by
  rw [rounds]
  split
  · next t ht => simp [ht] at hs
  · next t ht => exact Sum.inr.inj (ht.symm.trans hs)

/-- Any bound above the measure gives the same answer. -/
theorem rounds_bound (b : Body σ ρ) (n : ℕ) (s : σ) (h : b.measure s < n) :
    b.rounds n s h = b.run s := by
  suffices ∀ m s (h : b.measure s < n) (h' : b.measure s < m),
      b.rounds n s h = b.rounds m s h' from this _ s h _
  clear h s
  induction n with
  | zero => intro m s h; omega
  | succ n ih =>
    intro m s h h'
    obtain ⟨m, rfl⟩ : ∃ k, m = k + 1 := ⟨m - 1, by omega⟩
    cases hs : b.step s with
    | inl s' =>
      have hd := b.decreases s s' hs
      rw [b.rounds_of_again h hs (by omega), b.rounds_of_again h' hs (by omega)]
      exact ih m s' _ _
    | inr r => rw [b.rounds_of_done h hs, b.rounds_of_done h' hs]

theorem run_of_again (b : Body σ ρ) {s s' : σ} (hs : b.step s = .inl s') : b.run s = b.run s' := by
  have hd := b.decreases s s' hs
  rw [run, b.rounds_of_again _ hs hd, rounds_bound]

theorem run_of_done (b : Body σ ρ) {s : σ} {r : ρ} (hs : b.step s = .inr r) : b.run s = r :=
  b.rounds_of_done _ hs

/-- Induction along the rounds of one run. -/
theorem run_induction (b : Body σ ρ) (motive : σ → ρ → Prop)
    (done : ∀ s r, b.step s = .inr r → motive s r)
    (again : ∀ s s' r, b.step s = .inl s' → motive s' r → motive s r) (s : σ) :
    motive s (b.run s) := by
  induction hn : b.measure s using Nat.strong_induction_on generalizing s with
  | _ n ih =>
    cases hs : b.step s with
    | inl s' =>
      rw [b.run_of_again hs]
      exact again s s' _ hs (ih _ (hn ▸ b.decreases s s' hs) s' rfl)
    | inr r =>
      rw [b.run_of_done hs]
      exact done s r hs

/-- From `s` the rounds come to an end, with the answer `r`. -/
inductive Ends (b : Body σ ρ) : σ → ρ → Prop
  | done {s : σ} {r : ρ} (h : b.step s = .inr r) : Ends b s r
  | again {s s' : σ} {r : ρ} (h : b.step s = .inl s') (rest : Ends b s' r) : Ends b s r

theorem ends_run (b : Body σ ρ) (s : σ) : b.Ends s (b.run s) := by
  apply b.run_induction b.Ends
  · exact fun _ _ h => .done h
  · exact fun _ _ _ h rest => .again h rest

/-- The loop rule: an invariant that every round keeps gives the exit its postcondition. -/
theorem run_of_invariant (b : Body σ ρ) {I : σ → Prop} {Q : ρ → Prop}
    (keep : ∀ s s', I s → b.step s = .inl s' → I s')
    (finish : ∀ s r, I s → b.step s = .inr r → Q r) {s : σ} (hs : I s) : Q (b.run s) := by
  revert hs
  refine b.run_induction (fun s r => I s → Q r) ?_ ?_ s
  · exact fun s r hr hi => finish s r hi hr
  · exact fun s s' r hr ih hi => ih (keep s s' hi hr)

/-- Two loops with one invariant end alike when they take the same step wherever it holds. -/
theorem run_eq_of_invariant (b b' : Body σ ρ) {I : σ → Prop}
    (keep : ∀ s s', I s → b.step s = .inl s' → I s') (same : ∀ s, I s → b.step s = b'.step s)
    {s : σ} (hs : I s) : b.run s = b'.run s := by
  revert hs
  refine b.run_induction (fun s r => I s → r = b'.run s) ?_ ?_ s
  · intro s r hr hi
    exact (b'.run_of_done ((same s hi).symm.trans hr)).symm
  · intro s s' r hs ih hi
    rw [b'.run_of_again ((same s hi).symm.trans hs)]
    exact ih (keep s s' hi hs)

end Body

end Ralph.Loop
