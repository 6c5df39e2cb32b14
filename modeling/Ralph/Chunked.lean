import Mathlib.Tactic

namespace Ralph.Chunked

variable {σ α β : Type*}

/-- A decoder that takes its input in chunks: state and chunk in, state and outputs out. -/
abbrev Push (σ α β : Type*) := σ → List α → σ × List β

/-- The chunks one after another, with all outputs in order. -/
def feed (push : Push σ α β) : σ → List (List α) → σ × List β
  | s, [] => (s, [])
  | s, c :: cs =>
    let first := push s c
    let rest := feed push first.1 cs
    (rest.1, first.2 ++ rest.2)

/-- Two pushes do what one push of the joined chunks does. -/
def Additive (push : Push σ α β) : Prop :=
  ∀ s a b, push s (a ++ b) =
    ((push (push s a).1 b).1, (push s a).2 ++ (push (push s a).1 b).2)

theorem feed_cons_eq_push {push : Push σ α β} (h : Additive push) (s : σ) (c : List α)
    (cs : List (List α)) : feed push s (c :: cs) = push s (c :: cs).flatten := by
  induction cs generalizing s c with
  | nil => simp [feed]
  | cons d ds ih =>
    have hd := ih (push s c).1 d
    rw [feed, hd, ← h]
    simp [List.flatten_cons]

/-- An additive decoder cannot tell how its input was cut. -/
theorem feed_eq_push_flatten {push : Push σ α β} (h : Additive push) (s : σ)
    (hnil : push s [] = (s, [])) (cs : List (List α)) : feed push s cs = push s cs.flatten := by
  cases cs with
  | nil => simp [feed, hnil]
  | cons c cs => exact feed_cons_eq_push h s c cs

/-- The items at the front of a buffer: `next` finds one item and what is left after it. -/
structure Scanner (α γ : Type*) where
  next : List α → Option (γ × List α)
  shrinks : ∀ x g r, next x = some (g, r) → r.length < x.length
  /-- An item that was found stays the same whatever arrives later. -/
  stable : ∀ x y g r, next x = some (g, r) → next (x ++ y) = some (g, r ++ y)

namespace Scanner

variable {γ : Type*}

/-- Every item that is complete, and the rest of the buffer. -/
def drain (s : Scanner α γ) (x : List α) : List γ × List α :=
  match _h : s.next x with
  | none => ([], x)
  | some (g, r) => (g :: (drain s r).1, (drain s r).2)
termination_by x.length
decreasing_by all_goals exact s.shrinks x g r _h

theorem drain_of_none (s : Scanner α γ) {x : List α} (h : s.next x = none) :
    s.drain x = ([], x) := by
  rw [drain]
  split
  · rfl
  · next hs => simp [h] at hs

theorem drain_of_some (s : Scanner α γ) {x r : List α} {g : γ} (h : s.next x = some (g, r)) :
    s.drain x = (g :: (s.drain r).1, (s.drain r).2) := by
  rw [drain]
  split
  · next hs => simp [h] at hs
  · next g' r' hs =>
    obtain ⟨rfl, rfl⟩ : g = g' ∧ r = r' := by simpa [h] using hs
    rfl

/-- Draining what came so far and later the rest of it with new input gives every item once. -/
theorem drain_append (s : Scanner α γ) (x y : List α) :
    s.drain (x ++ y) = ((s.drain x).1 ++ (s.drain ((s.drain x).2 ++ y)).1,
      (s.drain ((s.drain x).2 ++ y)).2) := by
  induction hn : x.length using Nat.strong_induction_on generalizing x with
  | _ n ih =>
    cases hx : s.next x with
    | none => simp [s.drain_of_none hx]
    | some p =>
      obtain ⟨g, r⟩ := p
      have hr := ih r.length (hn ▸ s.shrinks x g r hx) r rfl
      rw [s.drain_of_some (s.stable x y g r hx), s.drain_of_some hx, hr]
      rfl

end Scanner

end Ralph.Chunked
