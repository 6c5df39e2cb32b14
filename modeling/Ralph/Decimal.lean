import Mathlib.Data.String.Basic
import Mathlib.Tactic

namespace Ralph.Decimal

def zeros (k : ℕ) : String := String.ofList (List.replicate k '0')

/-- A number behind `k` zeros. -/
def padded (k n : ℕ) : String := zeros k ++ toString n

@[simp] theorem padded_zero (n : ℕ) : padded 0 n = toString n := by simp [padded, zeros]

theorem toList_padded (k n : ℕ) :
    (padded k n).toList = List.replicate k '0' ++ Nat.toDigits 10 n := by
  rw [padded, zeros, String.toList_append, String.toList_ofList, Nat.toString_eq_ofList_toDigits,
    String.toList_ofList]

theorem padded_ne_nil (k n : ℕ) : (padded k n).toList ≠ [] := by
  rw [toList_padded]
  exact List.append_ne_nil_of_right_ne_nil _ Nat.toDigits_ne_nil

theorem isDigit_of_mem_padded {k n : ℕ} {c : Char} (h : c ∈ (padded k n).toList) :
    c.isDigit = true := by
  rw [toList_padded, List.mem_append] at h
  rcases h with hzero | hdigit
  · rw [List.eq_of_mem_replicate hzero]
    decide
  · exact Nat.isDigit_of_mem_toDigits (by omega) le_rfl hdigit

theorem notMem_padded {c : Char} (hc : c.isDigit = false) (k n : ℕ) : c ∉ (padded k n).toList := by
  intro h
  rw [isDigit_of_mem_padded h] at hc
  cases hc

theorem ofDigitChars_padded (k n : ℕ) : Nat.ofDigitChars 10 (padded k n).toList 0 = n := by
  rw [toList_padded, Nat.ofDigitChars_append, Nat.ofDigitChars_replicate_zero, Nat.mul_zero,
    Nat.ofDigitChars_ten_toDigits]

/-- A digit is the digit of a number below ten. -/
theorem exists_digitChar {c : Char} (h : c.isDigit = true) :
    ∃ d < 10, c = Nat.digitChar d ∧ c.toNat - '0'.toNat = d := by
  obtain ⟨hlow, hhigh⟩ := Char.isDigit_iff_toNat.1 h
  have hzero : '0'.toNat = 48 := by decide
  have hnine : '9'.toNat = 57 := by decide
  rw [hzero] at hlow
  rw [hnine] at hhigh
  refine ⟨c.toNat - 48, by omega, ?_, by rw [hzero]⟩
  rw [← Char.toNat_inj]
  generalize c.toNat = code at *
  interval_cases code <;> rfl

/-- One more digit behind a number that is not zero. -/
theorem toDigits_snoc {n d : ℕ} (hn : 0 < n) (hd : d < 10) :
    Nat.toDigits 10 (10 * n + d) = Nat.toDigits 10 n ++ [Nat.digitChar d] := by
  rw [← Nat.toDigits_append_toDigits (by omega) hn hd, Nat.toDigits_of_lt_base hd]

/-- Digits are the number they stand for behind some zeros. -/
theorem exists_padded {digits : List Char} (hne : digits ≠ [])
    (hdigits : ∀ c ∈ digits, c.isDigit = true) :
    ∃ k, digits = (padded k (Nat.ofDigitChars 10 digits 0)).toList := by
  induction digits using List.reverseRecOn with
  | nil => exact absurd rfl hne
  | append_singleton init c ih =>
    rw [List.forall_mem_append, List.forall_mem_singleton] at hdigits
    obtain ⟨d, hd, rfl, hvalue⟩ := exists_digitChar hdigits.2
    have hsnoc : Nat.ofDigitChars 10 (init ++ [d.digitChar]) 0 = 10 * Nat.ofDigitChars 10 init 0 + d := by
      rw [Nat.ofDigitChars_append, Nat.ofDigitChars_cons, Nat.ofDigitChars_nil, hvalue]
    rw [hsnoc]
    by_cases hinit : init = []
    · subst hinit
      refine ⟨0, ?_⟩
      rw [toList_padded, Nat.ofDigitChars_nil, Nat.mul_zero, Nat.zero_add, Nat.toDigits_of_lt_base hd]
      rfl
    obtain ⟨k, hk⟩ := ih hinit hdigits.1
    generalize Nat.ofDigitChars 10 init 0 = n at hk
    rcases Nat.eq_zero_or_pos n with rfl | hn
    · -- The digits so far are zeros only, so all of them lead the new digit.
      refine ⟨k + 1, ?_⟩
      rw [hk, toList_padded, toList_padded, Nat.toDigits_zero, Nat.mul_zero, Nat.zero_add,
        Nat.toDigits_of_lt_base hd, List.replicate_succ']
    · refine ⟨k, ?_⟩
      rw [toList_padded, toDigits_snoc hn hd, ← List.append_assoc, ← toList_padded, ← hk]

end Ralph.Decimal
