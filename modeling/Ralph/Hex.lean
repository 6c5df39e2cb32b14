import Mathlib.Tactic

namespace Ralph.Hex

/-- `char::to_digit(16)`. -/
def digit? (c : Char) : Option ℕ :=
  if '0' ≤ c ∧ c ≤ '9' then some (c.toNat - 48)
  else if 'a' ≤ c ∧ c ≤ 'f' then some (c.toNat - 87)
  else if 'A' ≤ c ∧ c ≤ 'F' then some (c.toNat - 55)
  else none

def value (digits : List ℕ) : ℕ := digits.foldl (fun n d => 16 * n + d) 0

/-- `u64::from_str_radix(_, 16)`: a plus sign may be in front of the digits. -/
def parseU64 (cs : List Char) : Option UInt64 :=
  let digits := if cs.head? = some '+' then cs.tail else cs
  match digits.mapM digit? with
  | none => none
  | some ds => if digits ≠ [] ∧ value ds < 2 ^ 64 then some (UInt64.ofNat (value ds)) else none

/-- `{:016x}`. -/
def padded (n : UInt64) : List Char := (Nat.toDigits 16 n.toNat).leftpad 16 '0'

theorem digit?_digitChar {d : ℕ} (h : d < 16) : digit? d.digitChar = some d := by
  interval_cases d <;> decide

theorem value_append (xs ys : List ℕ) :
    value (xs ++ ys) = ys.foldl (fun n d => 16 * n + d) (value xs) := List.foldl_append

/-- The digits of a number are read back as that number. -/
theorem mapM_toDigits (n : ℕ) :
    ∃ ds, (Nat.toDigits 16 n).mapM digit? = some ds ∧ value ds = n := by
  induction n using Nat.strong_induction_on with
  | _ n ih =>
    rw [Nat.toDigits_eq_if (by decide)]
    split_ifs with hlt
    · exact ⟨[n], by simp [digit?_digitChar hlt], by simp [value]⟩
    · obtain ⟨ds, hds, hvalue⟩ := ih (n / 16) (by omega)
      refine ⟨ds ++ [n % 16], ?_, ?_⟩
      · simp [List.mapM_append, hds, digit?_digitChar (Nat.mod_lt n (by decide))]
      · rw [value_append, hvalue]
        show 16 * (n / 16) + n % 16 = n
        omega

theorem mapM_replicate (k : ℕ) : (List.replicate k '0').mapM digit? = some (List.replicate k 0) := by
  induction k with
  | zero => rfl
  | succ k ih =>
    have hzero : digit? '0' = some 0 := by decide
    simp [List.replicate_succ, List.mapM_cons, hzero, ih]

theorem value_replicate_append (k : ℕ) (ds : List ℕ) :
    value (List.replicate k 0 ++ ds) = value ds := by
  induction k with
  | zero => rfl
  | succ k ih => exact ih

theorem digit_of_mem_toDigits {n : ℕ} {c : Char} (h : c ∈ Nat.toDigits 16 n) :
    ∃ d < 16, c = d.digitChar := by
  induction n using Nat.strong_induction_on with
  | _ n ih =>
    rw [Nat.toDigits_eq_if (by decide)] at h
    split_ifs at h with hlt
    · exact ⟨n, hlt, List.mem_singleton.mp h⟩
    · obtain h | h := List.mem_append.mp h
      · exact ih (n / 16) (by omega) h
      · exact ⟨n % 16, Nat.mod_lt n (by decide), List.mem_singleton.mp h⟩

/-- What a padded number is written with. -/
theorem digit_of_mem_padded {n : UInt64} {c : Char} (h : c ∈ padded n) :
    ∃ d < 16, c = d.digitChar := by
  rw [padded, List.leftpad, List.mem_append] at h
  obtain h | h := h
  · exact ⟨0, by decide, List.eq_of_mem_replicate h⟩
  · exact digit_of_mem_toDigits h

/-- A padded number is read back. -/
theorem parseU64_padded (n : UInt64) : parseU64 (padded n) = some n := by
  obtain ⟨ds, hds, hvalue⟩ := mapM_toDigits n.toNat
  have hdigits : (padded n).mapM digit? =
      some (List.replicate (16 - (Nat.toDigits 16 n.toNat).length) 0 ++ ds) := by
    simp [padded, List.leftpad, List.mapM_append, mapM_replicate, hds]
  have hplus : (padded n).head? ≠ some '+' := by
    intro h
    obtain ⟨d, hd, hc⟩ := digit_of_mem_padded (List.mem_of_head? h)
    interval_cases d <;> exact absurd hc (by decide)
  have hne : padded n ≠ [] := by
    rw [padded, List.leftpad]
    exact List.append_ne_nil_of_right_ne_nil _ Nat.toDigits_ne_nil
  rw [parseU64, if_neg hplus, hdigits]
  simp only [value_replicate_append, hvalue]
  rw [if_pos ⟨hne, n.toNat_lt⟩, UInt64.ofNat_toNat]

end Ralph.Hex
