import Mathlib.Data.String.Basic
import Mathlib.Tactic

namespace Ralph.TextSize
open String

/-- The bytes of a number in decimal. -/
def digits (n : ℕ) : ℕ := (toString n).utf8ByteSize

theorem utf8Len_of_ascii {cs : List Char} (h : ∀ c ∈ cs, c.isDigit) : utf8Len cs = cs.length := by
  induction cs with
  | nil => rfl
  | cons c cs ih =>
    rw [List.forall_mem_cons] at h
    have hsize : c.utf8Size = 1 := by
      have hlt : c.val.toNat ≤ 57 := by
        have hc := h.1
        simp only [Char.isDigit, Bool.and_eq_true, decide_eq_true_eq] at hc
        exact UInt32.le_iff_toNat_le.mp hc.2
      rw [Char.utf8Size_eq_one_iff, UInt32.le_iff_toNat_le]
      exact hlt.trans (by decide)
    rw [utf8Len_cons, ih h.2, hsize, List.length_cons]

theorem digits_eq (n : ℕ) : digits n = n.repr.length := by
  have hchars : utf8Len n.repr.toList = n.repr.toList.length := by
    apply utf8Len_of_ascii
    intro c hc
    rw [Nat.toList_repr] at hc
    exact Nat.isDigit_of_mem_toDigits (by decide) (by decide) hc
  rw [← utf8ByteSize_ofList, String.ofList_toList, String.length_toList] at hchars
  exact hchars

theorem digits_le_iff {n k : ℕ} (h : 0 < k) : digits n ≤ k ↔ n < 10 ^ k := by
  rw [digits_eq, Nat.length_repr_le_iff h]

theorem digits_pos (n : ℕ) : 0 < digits n := by
  rw [digits_eq]
  exact Nat.length_repr_pos

theorem digits_mono {n m : ℕ} (h : n ≤ m) : digits n ≤ digits m := by
  rw [digits_le_iff (digits_pos m)]
  exact h.trans_lt ((digits_le_iff (digits_pos m)).mp le_rfl)

/-- A number takes one digit more than the one before it exactly at the powers of ten. -/
theorem digits_succ (n : ℕ) :
    digits (n + 1) = digits n ∨ digits (n + 1) = digits n + 1 ∧ n + 1 = 10 ^ digits n := by
  have hlt := (digits_le_iff (digits_pos n)).mp (le_refl (digits n))
  have hmono : digits n ≤ digits (n + 1) := digits_mono (Nat.le_succ n)
  by_cases hfits : n + 1 < 10 ^ digits n
  · have hle := (digits_le_iff (digits_pos n)).mpr hfits
    exact Or.inl (by omega)
  · have hpower : n + 1 = 10 ^ digits n := by omega
    have hle : digits (n + 1) ≤ digits n + 1 := by
      rw [digits_le_iff (Nat.succ_pos _), hpower]
      exact Nat.pow_lt_pow_succ (by decide)
    have hne : ¬ digits (n + 1) ≤ digits n := by
      rw [digits_le_iff (digits_pos n)]
      exact hfits
    exact Or.inr ⟨by omega, hpower⟩

/-- At a power of ten above one the digits grow. -/
theorem digits_pow (k : ℕ) : digits (10 ^ (k + 1)) = digits (10 ^ (k + 1) - 1) + 1 := by
  have hpos : 0 < 10 ^ (k + 1) := by positivity
  have hsmall : digits (10 ^ (k + 1) - 1) ≤ k + 1 := by
    rw [digits_le_iff (Nat.succ_pos k)]
    omega
  have hlarge : ¬ digits (10 ^ (k + 1)) ≤ k + 1 := by
    rw [digits_le_iff (Nat.succ_pos k)]
    omega
  have hstep := digits_succ (10 ^ (k + 1) - 1)
  rw [Nat.sub_add_cancel hpos] at hstep
  omega

end Ralph.TextSize
