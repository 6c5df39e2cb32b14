import Ralph.ChatMemory.ViewTiles

namespace Ralph.ChatMemory
open Node Splice Tiling

section
variable {A : Type} [AlphaNumber A] (t : ℕ) (alpha : A)

/-- Whether the loop of `cover_at` splits the `m`-th block of `2 ^ k` entries, two or more. -/
def Splits (k m : ℕ) : Prop :=
  t < (m + 1) * 2 ^ k ∨ AlphaNumber.exceeds (2 ^ k) alpha (t - (m + 1) * 2 ^ k + 1) = true

instance (k m : ℕ) : Decidable (Splits t alpha k m) := inferInstanceAs (Decidable (_ ∨ _))

/-- What the loop makes of one block. -/
def pieces : (k m : ℕ) → List Node
  | 0, m => if t ≤ m then [] else [block 0 m]
  | k + 1, m =>
    if t ≤ m * 2 ^ (k + 1) then []
    else if Splits t alpha (k + 1) m then pieces k (2 * m) ++ pieces k (2 * m + 1)
    else [block (k + 1) m]

theorem pieces_of_le {k m : ℕ} (h : t ≤ m * 2 ^ k) : pieces t alpha k m = [] := by
  cases k with
  | zero => exact if_pos (by omega)
  | succ k => exact if_pos h

theorem pieces_of_splits {k m : ℕ} (h : ¬t ≤ m * 2 ^ (k + 1)) (hsplits : Splits t alpha (k + 1) m) :
    pieces t alpha (k + 1) m = pieces t alpha k (2 * m) ++ pieces t alpha k (2 * m + 1) :=
  (if_neg h).trans (if_pos hsplits)

theorem pieces_of_not_splits {k m : ℕ} (h : ¬t ≤ m * 2 ^ (k + 1))
    (hsplits : ¬Splits t alpha (k + 1) m) : pieces t alpha (k + 1) m = [block (k + 1) m] :=
  (if_neg h).trans (if_neg hsplits)

theorem isBlock_of_mem_pieces {k m : ℕ} {node : Node} (h : node ∈ pieces t alpha k m) :
    node.IsBlock := by
  fun_induction pieces t alpha k m with
  | case1 | case3 => cases h
  | case2 m => exact ⟨0, m, List.mem_singleton.mp h⟩
  | case4 k m _ _ ihl ihr => exact (List.mem_append.mp h).elim ihl ihr
  | case5 k m => exact ⟨k + 1, m, List.mem_singleton.mp h⟩

/-- One round of the loop does to the block on top what `pieces` does. -/
theorem coverBody_step (k m : ℕ) (stack : List (ℕ × ℕ)) (out : List (ℕ × ℕ)) :
    let next := (coverBody t alpha).step ((block k m).ends :: stack, out)
    (next = .inl (stack, out) ∧ pieces t alpha k m = []) ∨
    (next = .inl (stack, out ++ [(block k m).ends]) ∧ pieces t alpha k m = [block k m]) ∨
    ∃ j, next = .inl ((block j (2 * m)).ends :: (block j (2 * m + 1)).ends :: stack, out) ∧
      pieces t alpha k m = pieces t alpha j (2 * m) ++ pieces t alpha j (2 * m + 1) := by
  have hsize : (m + 1) * 2 ^ k - m * 2 ^ k = 2 ^ k := size_block k m
  by_cases ht : t ≤ m * 2 ^ k
  · exact .inl ⟨if_pos ht, pieces_of_le t alpha ht⟩
  refine .inr ?_
  cases k with
  | zero =>
    refine .inl ⟨?_, if_neg (by omega)⟩
    refine (if_neg ht).trans (if_neg ?_)
    simp only [block]
    omega
  | succ k =>
    have htwo : 2 ^ (k + 1) > 1 := Nat.one_lt_two_pow (Nat.succ_ne_zero k)
    by_cases hsplits : Splits t alpha (k + 1) m
    · refine .inr ⟨k, (if_neg ht).trans ((if_pos ?_).trans ?_), pieces_of_splits t alpha ht hsplits⟩
      · simp only [block, hsize]
        exact ⟨htwo, hsplits⟩
      · have hhalves := halves_block k m
        simp only [halves, block, Prod.mk.injEq, Node.mk.injEq] at hhalves
        simp only [ends, block]
        rw [hhalves.1.2, ← hhalves.1.1, ← hhalves.2.2]
    · refine .inl ⟨(if_neg ht).trans (if_neg ?_), pieces_of_not_splits t alpha ht hsplits⟩
      simp only [block, hsize]
      exact fun h => hsplits h.2

/-- What a state of the loop still makes of its stack of blocks. -/
def Leads (s : List (ℕ × ℕ) × List (ℕ × ℕ)) (r : List (ℕ × ℕ)) : Prop :=
  ∃ stack : List (ℕ × ℕ), s.1 = stack.map (fun b => (block b.1 b.2).ends) ∧
    s.2 ++ (stack.flatMap fun b => pieces t alpha b.1 b.2).map ends = r

theorem run_coverBody {s : List (ℕ × ℕ) × List (ℕ × ℕ)} {r : List (ℕ × ℕ)}
    (hs : Leads t alpha s r) : (coverBody t alpha).run s = r := by
  refine (coverBody t alpha).run_of_invariant (I := fun s => Leads t alpha s r)
    (Q := fun r' => r' = r) ?_ ?_ hs
  · rintro ⟨_, out⟩ s' ⟨stack, rfl, hr⟩ hstep
    cases stack with
    | nil => cases hstep
    | cons b stack =>
      simp only [List.flatMap_cons, List.map_append] at hr
      have hcases := coverBody_step t alpha b.1 b.2 (stack.map fun b => (block b.1 b.2).ends) out
      obtain ⟨hnext, hpieces⟩ | ⟨hnext, hpieces⟩ | ⟨j, hnext, hpieces⟩ := hcases
      · obtain rfl := Sum.inl.inj (hnext.symm.trans hstep)
        rw [hpieces] at hr
        exact ⟨stack, rfl, hr⟩
      · obtain rfl := Sum.inl.inj (hnext.symm.trans hstep)
        rw [hpieces] at hr
        refine ⟨stack, rfl, ?_⟩
        rw [List.append_assoc]
        exact hr
      · obtain rfl := Sum.inl.inj (hnext.symm.trans hstep)
        rw [hpieces, List.map_append, List.append_assoc] at hr
        refine ⟨(j, 2 * b.2) :: (j, 2 * b.2 + 1) :: stack, rfl, ?_⟩
        simpa only [List.flatMap_cons, List.map_append] using hr
  · rintro ⟨_, out⟩ r' ⟨stack, rfl, hr⟩ hstep
    cases stack with
    | nil =>
      obtain rfl := Sum.inr.inj hstep
      simpa using hr
    | cons b stack =>
      have hcases := coverBody_step t alpha b.1 b.2 (stack.map fun b => (block b.1 b.2).ends) out
      obtain ⟨hnext, -⟩ | ⟨hnext, -⟩ | ⟨j, hnext, -⟩ := hcases <;> cases hnext.symm.trans hstep

theorem coverAt_eq : coverAt t alpha = (pieces t alpha (Nat.clog 2 t) 0).map ends := by
  rw [coverAt_eq_run]
  apply run_coverBody
  refine ⟨[(Nat.clog 2 t, 0)], ?_, by simp⟩
  simp [block, ends, nextPowerOfTwo]

end

section
variable {t : ℕ} {alpha beta : ℚ}

theorem Splits.anti (h : alpha ≤ beta) {k m : ℕ} (hsplits : Splits t beta k m) :
    Splits t alpha k m := by
  apply Or.imp_right _ hsplits
  intro hexceeds
  simp only [AlphaNumber.exceeds, decide_eq_true_eq] at hexceeds ⊢
  exact lt_of_le_of_lt (mul_le_mul_of_nonneg_right h (Nat.cast_nonneg _)) hexceeds

theorem pieces_ne_nil (t : ℕ) (alpha : ℚ) {k m : ℕ} (h : ¬t ≤ m * 2 ^ k) :
    pieces t alpha k m ≠ [] := by
  fun_induction pieces t alpha k m with
  | case1 m ht => omega
  | case3 k m ht => exact absurd ht h
  | case2 | case5 => exact List.cons_ne_nil _ _
  | case4 k m _ _ ihl _ =>
    -- the left half begins where the block does
    have hleft : ¬t ≤ 2 * m * 2 ^ k := by
      rwa [show 2 * m * 2 ^ k = m * 2 ^ (k + 1) by ring]
    exact List.append_ne_nil_of_left_ne_nil (ihl hleft) _

/-- The larger `alpha` is, the fewer blocks there are. -/
theorem length_pieces_anti (h : alpha ≤ beta) (k m : ℕ) :
    (pieces t beta k m).length ≤ (pieces t alpha k m).length := by
  fun_induction pieces t beta k m with
  | case1 | case3 => exact Nat.zero_le _
  | case2 m ht => exact List.length_pos_iff.mpr (pieces_ne_nil t alpha (by omega))
  | case4 k m ht hsplits ihl ihr =>
    rw [pieces_of_splits t alpha ht (hsplits.anti h), List.length_append, List.length_append]
    omega
  | case5 k m ht => exact List.length_pos_iff.mpr (pieces_ne_nil t alpha ht)

theorem length_coverAt_anti (t : ℕ) (h : alpha ≤ beta) :
    (coverAt t beta).length ≤ (coverAt t alpha).length := by
  rw [coverAt_eq, coverAt_eq, List.length_map, List.length_map]
  exact length_pieces_anti h _ _

end

/-- The upper end of the interval is still the first one, or its cover fits. -/
def Fits (t budget : ℕ) (range : ℚ × ℚ) : Prop :=
  range.1 ≤ 1 ∧ range.2 ≤ 1 ∧ (range.2 = 1 ∨ (coverAt t range.2).length ≤ budget)

theorem fits_halve {t budget : ℕ} {range : ℚ × ℚ} (h : Fits t budget range) :
    Fits t budget (halve t budget range) := by
  obtain ⟨hlo, hhi, hfits⟩ := h
  have hmid : AlphaNumber.mid range.1 range.2 ≤ 1 := by
    show (range.1 + range.2) / 2 ≤ 1
    linarith
  by_cases hlong : (coverAt t (AlphaNumber.mid range.1 range.2)).length > budget
  · rw [halve, if_pos hlong]
    exact ⟨hmid, hhi, hfits⟩
  · rw [halve, if_neg hlong]
    exact ⟨hlo, hmid, .inr (not_lt.mp hlong)⟩

theorem fits_bisect (t budget : ℕ) : Fits t budget (bisect ℚ t budget) := by
  apply List.foldlRecOn
  · exact ⟨zero_le_one, le_rfl, .inl rfl⟩
  · exact fun range h _ _ => fits_halve h

/-- What the bisection finds is as good as any `alpha` up to one. -/
theorem length_coverAt_bisect (t budget : ℕ) :
    max budget (coverAt t (bisect ℚ t budget).2).length =
      max budget (coverAt t (1 : ℚ)).length := by
  obtain ⟨-, hle, hone | hfits⟩ := fits_bisect t budget
  · rw [hone]
  · have hanti := length_coverAt_anti t hle
    omega

theorem isBlock_coverAt {A : Type} [AlphaNumber A] (t : ℕ) (alpha : A) :
    ∀ p ∈ coverAt t alpha, IsBlock ⟨p.1, p.2⟩ := by
  intro p hp
  rw [coverAt_eq] at hp
  obtain ⟨node, hnode, rfl⟩ := List.mem_map.mp hp
  exact isBlock_of_mem_pieces t alpha hnode

theorem isBlock_fill {budget : ℕ} {out : List (ℕ × ℕ)}
    (hout : ∀ p ∈ out, IsBlock ⟨p.1, p.2⟩) :
    ∀ p ∈ (fillBody budget).run out, IsBlock ⟨p.1, p.2⟩ := by
  refine (fillBody budget).run_of_invariant (I := fun out => ∀ p ∈ out, IsBlock ⟨p.1, p.2⟩)
    (Q := fun r => ∀ p ∈ r, IsBlock ⟨p.1, p.2⟩) ?_ ?_ hout
  · intro out out' hblocks h
    obtain ⟨-, hend⟩ | ⟨-, -, hend⟩ | ⟨-, i, p, hget, hsize, hnext⟩ := fillBody_step budget out
    · cases hend.symm.trans h
    · cases hend.symm.trans h
    · obtain rfl := Sum.inl.inj (hnext.symm.trans h)
      have hhalves := (hblocks p (List.mem_of_getElem? hget)).halves hsize
      intro q hq
      obtain hq | hq := mem_of_mem_splice hq
      · exact hblocks q hq
      · simp only [List.mem_cons, List.not_mem_nil, or_false] at hq
        obtain rfl | rfl := hq
        · exact hhalves.1
        · exact hhalves.2
  · intro out r hblocks h
    obtain ⟨-, hend⟩ | ⟨-, -, hend⟩ | ⟨-, i, p, hget, hsize, hnext⟩ := fillBody_step budget out
    · exact Sum.inr.inj (hend.symm.trans h) ▸ hblocks
    · exact Sum.inr.inj (hend.symm.trans h) ▸ hblocks
    · cases hnext.symm.trans h

theorem isBlock_coverWith (A : Type) [AlphaNumber A] (t budget : ℕ) :
    ∀ node ∈ coverWith A t budget, node.IsBlock := by
  intro node hnode
  unfold coverWith at hnode
  split_ifs at hnode
  · cases hnode
  · obtain ⟨i, -, rfl⟩ := List.mem_map.mp hnode
    exact ⟨0, i, (block_zero i).symm⟩
  · obtain ⟨p, hp, rfl⟩ := List.mem_map.mp hnode
    exact isBlock_fill (isBlock_coverAt t _) p hp

/-- The fill loop spends the whole budget when there are that many entries. -/
theorem length_fill {t budget : ℕ} (hbudget : budget < t) {out : List (ℕ × ℕ)}
    (hout : Tiles 0 t out) :
    ((fillBody budget).run out).length = max budget out.length := by
  refine (fillBody budget).run_of_invariant
    (I := fun out' => Tiles 0 t out' ∧ max budget out'.length = max budget out.length)
    (Q := fun r => r.length = max budget out.length) ?_ ?_ ⟨hout, rfl⟩
  · rintro out₁ out₂ ⟨htiles, hmax⟩ h
    obtain ⟨-, hend⟩ | ⟨-, -, hend⟩ | ⟨hlt, i, p, hget, hsize, hnext⟩ := fillBody_step budget out₁
    · cases hend.symm.trans h
    · cases hend.symm.trans h
    · obtain ⟨next, hnext', hstep | hstep⟩ := fill_step budget htiles
      · obtain rfl := Sum.inl.inj (hstep.symm.trans h)
        refine ⟨hnext', ?_⟩
        obtain rfl := Sum.inl.inj (hnext.symm.trans hstep)
        have hlen := length_splice (List.getElem?_eq_some_iff.mp hget).1
          [(p.1, (p.1 + p.2) / 2), ((p.1 + p.2) / 2, p.2)]
        simp only [List.length_cons, List.length_nil] at hlen
        omega
      · cases hnext.symm.trans hstep
  · rintro out₁ r ⟨htiles, hmax⟩ h
    obtain ⟨hle, hend⟩ | ⟨hlt, hsmall, hend⟩ | ⟨-, i, p, -, -, hnext⟩ := fillBody_step budget out₁
    · obtain rfl := Sum.inr.inj (hend.symm.trans h)
      omega
    · -- every block is one entry, so there are `t` of them, more than the budget
      have hlen := htiles.le_length hsmall
      omega
    · cases hnext.symm.trans h

/-- The cover of a log is made of blocks from its first entry to its last one, without a gap. It
has a block for each entry, or else as many blocks as the budget allows; when even the coarsest
cover is over the budget it is that one. All the loops on the way end. -/
theorem cover_exact (t budget : ℕ) :
    (∀ node ∈ coverWith ℚ t budget, node.IsBlock) ∧
    Tiles 0 t ((coverWith ℚ t budget).map ends) ∧
    (coverWith ℚ t budget).length =
      (if t ≤ budget then t else max budget (coverAt t (1 : ℚ)).length) ∧
    (∀ alpha : ℚ, ∃ out, (coverBody t alpha).Ends ([(0, nextPowerOfTwo t)], []) out) ∧
    ∃ out, (fillBody budget).Ends (coverAt t (bisect ℚ t budget).2) out := by
  refine ⟨isBlock_coverWith ℚ t budget, tiles_coverWith ℚ t budget, ?_,
    fun alpha => ⟨_, Loop.Body.ends_run _ _⟩, ⟨_, Loop.Body.ends_run _ _⟩⟩
  unfold coverWith
  split_ifs with hzero hle hle
  · rw [hzero, List.length_nil]
  · omega
  · rw [List.length_map, List.length_range]
  · rw [List.length_map, length_fill (by omega) (tiles_coverAt t _), length_coverAt_bisect]

end Ralph.ChatMemory
