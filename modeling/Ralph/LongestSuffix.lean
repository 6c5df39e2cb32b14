import Mathlib.Tactic

namespace Ralph.LongestSuffix

variable {α : Type*} {fits : List α → Prop}

/-- `ys` is the longest end of `xs` that fits: every end that fits is an end of it. -/
structure IsLongest (fits : List α → Prop) (xs ys : List α) : Prop where
  suffix : ys <:+ xs
  fit : fits ys
  longest : ∀ zs, zs <:+ xs → fits zs → zs <:+ ys

theorem IsLongest.unique {xs ys ys' : List α} (h : IsLongest fits xs ys)
    (h' : IsLongest fits xs ys') : ys = ys' := by
  have hle := h'.longest ys h.suffix h.fit
  have hge := h.longest ys' h'.suffix h'.fit
  exact hle.eq_of_length_le hge.length_le

theorem isLongest_self {xs : List α} (h : fits xs) : IsLongest fits xs xs :=
  ⟨List.suffix_refl xs, h, fun _ hzs _ => hzs⟩

/-- When the whole does not fit, its first element is in no end that does. -/
theorem isLongest_cons {x : α} {xs ys : List α} (hx : ¬ fits (x :: xs))
    (h : IsLongest fits xs ys) : IsLongest fits (x :: xs) ys := by
  refine ⟨h.suffix.trans (List.suffix_cons x xs), h.fit, fun zs hzs hfit => ?_⟩
  apply h.longest zs _ hfit
  rcases List.suffix_cons_iff.1 hzs with heq | hsuffix
  · exact absurd (heq ▸ hfit) hx
  · exact hsuffix

/-- One more element behind: what was dropped before stays dropped, so the ends of the kept
part are enough to look at. -/
theorem IsLongest.snoc {x : α} {xs ys zs : List α}
    (hfits : ∀ l, fits (l ++ [x]) → fits l) (h : IsLongest fits xs ys)
    (h' : IsLongest fits (ys ++ [x]) zs) : IsLongest fits (xs ++ [x]) zs := by
  have hys : ys ++ [x] <:+ xs ++ [x] := by
    obtain ⟨l, hl⟩ := h.suffix
    exact ⟨l, by rw [← List.append_assoc, hl]⟩
  refine ⟨h'.suffix.trans hys, h'.fit, fun ws hws hfit => ?_⟩
  apply h'.longest ws _ hfit
  obtain ⟨l, hl⟩ := hws
  rcases List.eq_nil_or_concat ws with hnil | ⟨ws', w, hw⟩
  · rw [hnil]
    exact List.nil_suffix
  · -- a nonempty end of the longer list ends in `x`, and what is in front of it fits too
    rw [List.concat_eq_append] at hw
    rw [hw, ← List.append_assoc] at hl
    obtain ⟨hfront, hlast⟩ := List.append_inj' hl rfl
    rw [List.cons.injEq] at hlast
    rw [hw, hlast.1] at hfit
    obtain ⟨k, hk⟩ := h.longest ws' ⟨l, hfront⟩ (hfits ws' hfit)
    refine ⟨k, ?_⟩
    rw [hw, hlast.1, ← List.append_assoc, hk]

end Ralph.LongestSuffix
