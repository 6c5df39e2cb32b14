import Mathlib.Logic.Function.Basic
import Mathlib.Logic.Relation

namespace Ralph.Interleaving

variable {ι σ α : Type*} [DecidableEq ι]

/-- The state that all parties share, and what each of them keeps for itself. -/
structure World (ι σ α : Type*) where
  shared : σ
  party : ι → α

/-- One party moves, or something outside changes the shared state. -/
inductive Step (move : σ → α → σ → α → Prop) (outside : σ → σ → Prop) :
    World ι σ α → World ι σ α → Prop
  | move {w : World ι σ α} (i : ι) {s : σ} {a : α} (h : move w.shared (w.party i) s a) :
      Step move outside w ⟨s, Function.update w.party i a⟩
  | outside {w : World ι σ α} {s : σ} (h : outside w.shared s) : Step move outside w ⟨s, w.party⟩

/-- Any number of steps, by the parties in any order. -/
abbrev Run (move : σ → α → σ → α → Prop) (outside : σ → σ → Prop) :
    World ι σ α → World ι σ α → Prop := Relation.ReflTransGen (Step move outside)

/-- An invariant of the shared state, one of each party beside it, and what every step guarantees
to the parties that do not take it. -/
structure RelyGuarantee (move : σ → α → σ → α → Prop) (outside : σ → σ → Prop)
    (shared : σ → Prop) (own : σ → α → Prop) (rely : σ → σ → Prop) : Prop where
  refl : ∀ s, rely s s
  trans : ∀ {s s' s''}, rely s s' → rely s' s'' → rely s s''
  stable : ∀ {s s' a}, rely s s' → own s a → own s' a
  move : ∀ {s a s' a'}, shared s → own s a → move s a s' a' → shared s' ∧ own s' a' ∧ rely s s'
  outside : ∀ {s s'}, shared s → outside s s' → shared s' ∧ rely s s'

variable {move : σ → α → σ → α → Prop} {outside : σ → σ → Prop} {shared : σ → Prop}
  {own : σ → α → Prop} {rely : σ → σ → Prop} {w w' : World ι σ α}

theorem RelyGuarantee.step (rg : RelyGuarantee move outside shared own rely)
    (hshared : shared w.shared) (hown : ∀ i, own w.shared (w.party i))
    (h : Step move outside w w') :
    shared w'.shared ∧ (∀ i, own w'.shared (w'.party i)) ∧ rely w.shared w'.shared := by
  cases h with
  | move i h =>
    obtain ⟨hs, ha, hr⟩ := rg.move hshared (hown i) h
    refine ⟨hs, fun j => ?_, hr⟩
    rcases eq_or_ne j i with rfl | hji
    · simpa using ha
    · simpa [hji] using rg.stable hr (hown j)
  | outside h =>
    obtain ⟨hs, hr⟩ := rg.outside hshared h
    exact ⟨hs, fun j => rg.stable hr (hown j), hr⟩

theorem RelyGuarantee.run (rg : RelyGuarantee move outside shared own rely)
    (hshared : shared w.shared) (hown : ∀ i, own w.shared (w.party i)) (h : Run move outside w w') :
    shared w'.shared ∧ (∀ i, own w'.shared (w'.party i)) ∧ rely w.shared w'.shared := by
  induction h with
  | refl => exact ⟨hshared, hown, rg.refl _⟩
  | tail _ hstep ih =>
    obtain ⟨hs, ho, hr⟩ := rg.step ih.1 ih.2.1 hstep
    exact ⟨hs, ho, rg.trans ih.2.2 hr⟩

/-- The same, where the parties rely on different things: a step guarantees to each other party
what that party relies on. -/
structure Protocol (move : σ → α → σ → α → Prop) (outside : σ → σ → Prop)
    (shared : σ → Prop) (own : ι → σ → α → Prop) (rely : ι → σ → σ → Prop) : Prop where
  stable : ∀ {i s s' a}, rely i s s' → shared s' → own i s a → own i s' a
  move : ∀ {i s a s' a'}, shared s → own i s a → move s a s' a' →
    shared s' ∧ own i s' a' ∧ ∀ j, j ≠ i → rely j s s'
  outside : ∀ {s s'}, shared s → outside s s' → shared s' ∧ ∀ j, rely j s s'

theorem Protocol.step {own : ι → σ → α → Prop} {rely : ι → σ → σ → Prop}
    (pr : Protocol move outside shared own rely) (hshared : shared w.shared)
    (hown : ∀ i, own i w.shared (w.party i)) (h : Step move outside w w') :
    shared w'.shared ∧ ∀ i, own i w'.shared (w'.party i) := by
  cases h with
  | move i h =>
    obtain ⟨hs, ha, hr⟩ := pr.move hshared (hown i) h
    refine ⟨hs, fun j => ?_⟩
    rcases eq_or_ne j i with rfl | hji
    · simpa using ha
    · simpa [hji] using pr.stable (hr j hji) hs (hown j)
  | outside h =>
    obtain ⟨hs, hr⟩ := pr.outside hshared h
    exact ⟨hs, fun j => pr.stable (hr j) hs (hown j)⟩

theorem Protocol.run {own : ι → σ → α → Prop} {rely : ι → σ → σ → Prop}
    (pr : Protocol move outside shared own rely) (hshared : shared w.shared)
    (hown : ∀ i, own i w.shared (w.party i)) (h : Run move outside w w') :
    shared w'.shared ∧ ∀ i, own i w'.shared (w'.party i) := by
  induction h with
  | refl => exact ⟨hshared, hown⟩
  | tail _ hstep ih => exact pr.step ih.1 ih.2 hstep

end Ralph.Interleaving
