import Mathlib.Data.String.Basic
import Ralph.Loop

namespace Ralph.CharBoundary
open String

/-- `str::is_char_boundary`, on the characters of the text. -/
def isCharBoundary : List Char → ℕ → Bool
  | _, 0 => true
  | [], _ + 1 => false
  | c :: cs, i + 1 => decide (c.utf8Size ≤ i + 1) && isCharBoundary cs (i + 1 - c.utf8Size)

/-- `&text[..i]`, where `none` is the panic of a cut inside a character. -/
def sliceTo : List Char → ℕ → Option (List Char)
  | _, 0 => some []
  | [], _ + 1 => none
  | c :: cs, i + 1 =>
    if c.utf8Size ≤ i + 1 then (sliceTo cs (i + 1 - c.utf8Size)).map (c :: ·) else none

/-- `&text[i..]`, with the same panic. -/
def sliceFrom : List Char → ℕ → Option (List Char)
  | cs, 0 => some cs
  | [], _ + 1 => none
  | c :: cs, i + 1 => if c.utf8Size ≤ i + 1 then sliceFrom cs (i + 1 - c.utf8Size) else none

/-- The two sides of a position inside the text are what the slices give. -/
theorem slices_append (l r : List Char) :
    isCharBoundary (l ++ r) (utf8Len l) = true ∧ sliceTo (l ++ r) (utf8Len l) = some l ∧
      sliceFrom (l ++ r) (utf8Len l) = some r := by
  induction l with
  | nil =>
    rw [utf8Len_nil, List.nil_append]
    unfold isCharBoundary sliceTo sliceFrom
    exact ⟨rfl, rfl, rfl⟩
  | cons c l ih =>
    have hpos := Char.utf8Size_pos c
    have hfits : c.utf8Size ≤ utf8Len l + c.utf8Size := by omega
    obtain ⟨i, hi⟩ : ∃ i, utf8Len l + c.utf8Size = i + 1 :=
      ⟨utf8Len l + c.utf8Size - 1, by omega⟩
    have hrest : i + 1 - c.utf8Size = utf8Len l := by omega
    rw [hi] at hfits
    rw [utf8Len_cons, hi, List.cons_append, isCharBoundary, sliceTo, sliceFrom, if_pos hfits,
      if_pos hfits, hrest, ih.1, ih.2.1, ih.2.2, decide_eq_true hfits]
    exact ⟨rfl, rfl, rfl⟩

/-- A boundary is the end of a prefix of the text. -/
theorem isCharBoundary_iff {cs : List Char} {i : ℕ} :
    isCharBoundary cs i = true ↔ ∃ l r, cs = l ++ r ∧ utf8Len l = i := by
  constructor
  · intro h
    induction cs, i using isCharBoundary.induct with
    | case1 cs => exact ⟨[], cs, rfl, utf8Len_nil⟩
    | case2 i => simp [isCharBoundary] at h
    | case3 c cs i ih =>
      rw [isCharBoundary, Bool.and_eq_true, decide_eq_true_eq] at h
      obtain ⟨l, r, hcs, hl⟩ := ih h.2
      have hfits := h.1
      refine ⟨c :: l, r, by rw [hcs, List.cons_append], ?_⟩
      rw [utf8Len_cons]
      omega
  · rintro ⟨l, r, hcs, hl⟩
    rw [hcs, ← hl]
    exact (slices_append l r).1

theorem isCharBoundary_end (cs : List Char) : isCharBoundary cs (utf8Len cs) = true := by
  rw [isCharBoundary_iff]
  exact ⟨cs, [], (List.append_nil cs).symm, rfl⟩

theorem isCharBoundary_zero (cs : List Char) : isCharBoundary cs 0 = true := by
  rw [isCharBoundary_iff]
  exact ⟨[], cs, rfl, utf8Len_nil⟩

/-- A position that is no boundary lies in front of the end. -/
theorem lt_of_not_boundary {cs : List Char} {i : ℕ} (hi : i ≤ utf8Len cs)
    (h : ¬ isCharBoundary cs i = true) : i < utf8Len cs := by
  apply lt_of_le_of_ne hi
  intro heq
  exact h (heq ▸ isCharBoundary_end cs)

/-- `while !text.is_char_boundary(at) { at += 1 }`. -/
def nextBody (cs : List Char) : Loop.Body {i : ℕ // i ≤ utf8Len cs} ℕ where
  step i :=
    if h : isCharBoundary cs i.1 = true then .inr i.1
    else .inl ⟨i.1 + 1, lt_of_not_boundary i.2 h⟩
  measure i := utf8Len cs - i.1
  decreases i i' hs := by
    split_ifs at hs with h
    have hlt := lt_of_not_boundary i.2 h
    have hnext := congrArg Subtype.val (Sum.inl.inj hs)
    dsimp only at hnext
    omega

def nextBoundary (cs : List Char) (i : {i : ℕ // i ≤ utf8Len cs}) : ℕ := (nextBody cs).run i

theorem nextBoundary_spec (cs : List Char) (i : {i : ℕ // i ≤ utf8Len cs}) :
    isCharBoundary cs (nextBoundary cs i) = true ∧ i.1 ≤ nextBoundary cs i ∧
      ∀ j, i.1 ≤ j → isCharBoundary cs j = true → nextBoundary cs i ≤ j := by
  refine (nextBody cs).run_induction (fun i k => isCharBoundary cs k = true ∧ i.1 ≤ k ∧
    ∀ j, i.1 ≤ j → isCharBoundary cs j = true → k ≤ j) ?_ ?_ i
  · intro i k hs
    dsimp only [nextBody] at hs
    split_ifs at hs with h
    have hk := Sum.inr.inj hs
    rw [← hk]
    exact ⟨h, le_refl _, fun j hj _ => hj⟩
  · intro i i' k hs ih
    dsimp only [nextBody] at hs
    split_ifs at hs with h
    have hi' := congrArg Subtype.val (Sum.inl.inj hs)
    dsimp only at hi'
    refine ⟨ih.1, by omega, fun j hj hb => ih.2.2 j ?_ hb⟩
    -- the position the loop leaves behind is no boundary, so `j` is past it
    have hne : i.1 ≠ j := fun heq => h (heq ▸ hb)
    omega

/-- `(0..=n).rev().find(|i| text.is_char_boundary(*i)).unwrap_or(0)`. -/
def boundaryUpTo (cs : List Char) (n : ℕ) : ℕ :=
  ((List.range (n + 1)).reverse.find? (isCharBoundary cs)).getD 0

theorem boundaryUpTo_spec (cs : List Char) (n : ℕ) :
    isCharBoundary cs (boundaryUpTo cs n) = true ∧ boundaryUpTo cs n ≤ n ∧
      ∀ j, j ≤ n → isCharBoundary cs j = true → j ≤ boundaryUpTo cs n := by
  induction n with
  | zero =>
    have hzero : boundaryUpTo cs 0 = 0 := by simp [boundaryUpTo, isCharBoundary_zero]
    rw [hzero]
    exact ⟨isCharBoundary_zero cs, le_refl 0, fun j hj _ => hj⟩
  | succ n ih =>
    by_cases h : isCharBoundary cs (n + 1) = true
    · have hhere : boundaryUpTo cs (n + 1) = n + 1 := by
        rw [boundaryUpTo, List.range_succ, List.reverse_append, List.reverse_singleton,
          List.singleton_append, List.find?_cons_of_pos h, Option.getD_some]
      rw [hhere]
      exact ⟨h, le_refl _, fun j hj _ => hj⟩
    · have hback : boundaryUpTo cs (n + 1) = boundaryUpTo cs n := by
        rw [boundaryUpTo, List.range_succ, List.reverse_append, List.reverse_singleton,
          List.singleton_append, List.find?_cons_of_neg h, boundaryUpTo]
      rw [hback]
      refine ⟨ih.1, by omega, fun j hj hb => ih.2.2 j ?_ hb⟩
      have hne : j ≠ n + 1 := fun heq => h (heq ▸ hb)
      omega

end Ralph.CharBoundary
