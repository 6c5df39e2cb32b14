import Ralph.Utf8Decoder

namespace Ralph.Utf8Lossy

/-- `str::as_bytes`. -/
def asBytes (s : String) : Bytes := s.toList.flatMap String.utf8EncodeChar

theorem toNat_byte {k : ℕ} (h : k < 256) : (UInt8.ofNat k).toNat = k := UInt8.toNat_ofNat_of_lt' h

theorem isTail_byte {k : ℕ} (h : k < 64) : isTail (UInt8.ofNat (k + 0x80)) = true := by
  revert k
  decide

theorem tailBits_byte {k : ℕ} (h : k < 64) : tailBits (UInt8.ofNat (k + 0x80)) = k := by
  revert k
  decide

theorem leadBits_two {k : ℕ} (h : k < 32) : (UInt8.ofNat (k + 0xC0) &&& 0x1F).toNat = k := by
  revert k
  decide

theorem leadBits_three {k : ℕ} (h : k < 16) : (UInt8.ofNat (k + 0xE0) &&& 0x0F).toNat = k := by
  revert k
  decide

theorem leadBits_four {k : ℕ} (h : k < 8) : (UInt8.ofNat (k + 0xF0) &&& 0x07).toNat = k := by
  revert k
  decide

theorem byte_le {a k : ℕ} (h : a ≤ k) (hk : k < 256) : UInt8.ofNat a ≤ UInt8.ofNat k := by
  rw [UInt8.le_iff_toNat_le, toNat_byte hk, toNat_byte (h.trans_lt hk)]
  exact h

theorem byte_inj {a k : ℕ} (ha : a < 256) (hk : k < 256) (h : UInt8.ofNat a = UInt8.ofNat k) : a = k := by
  have hnat := congrArg UInt8.toNat h
  rwa [toNat_byte ha, toNat_byte hk] at hnat

theorem secondOfThree_byte {k j : ℕ} (hk : k < 16) (hj : j < 64) (hlong : k = 0 → 32 ≤ j)
    (hsurrogate : k = 13 → j < 32) :
    secondOfThree (UInt8.ofNat (k + 0xE0)) (UInt8.ofNat (j + 0x80)) = true := by
  unfold secondOfThree
  split_ifs with hzero hthirteen
  · have hk0 : k + 0xE0 = 0xE0 := byte_inj (by omega) (by omega) hzero
    have hj0 := hlong (by omega)
    simp only [Bool.and_eq_true, decide_eq_true_eq]
    exact ⟨byte_le (a := 0xA0) (by omega) (by omega), byte_le (k := 0xBF) (by omega) (by omega)⟩
  · have hk13 : k + 0xE0 = 0xED := byte_inj (by omega) (by omega) hthirteen
    have hj13 := hsurrogate (by omega)
    simp only [Bool.and_eq_true, decide_eq_true_eq]
    exact ⟨byte_le (a := 0x80) (by omega) (by omega), byte_le (k := 0x9F) (by omega) (by omega)⟩
  · simp only [Bool.and_eq_true, decide_eq_true_eq]
    exact ⟨byte_le (a := 0x80) (by omega) (by omega), byte_le (k := 0xBF) (by omega) (by omega)⟩

theorem secondOfFour_byte {k j : ℕ} (hk : k < 8) (hj : j < 64) (hlong : k = 0 → 16 ≤ j)
    (hhigh : k = 4 → j < 16) :
    secondOfFour (UInt8.ofNat (k + 0xF0)) (UInt8.ofNat (j + 0x80)) = true := by
  unfold secondOfFour
  split_ifs with hzero hfour
  · have hk0 : k + 0xF0 = 0xF0 := byte_inj (by omega) (by omega) hzero
    have hj0 := hlong (by omega)
    simp only [Bool.and_eq_true, decide_eq_true_eq]
    exact ⟨byte_le (a := 0x90) (by omega) (by omega), byte_le (k := 0xBF) (by omega) (by omega)⟩
  · have hk4 : k + 0xF0 = 0xF4 := byte_inj (by omega) (by omega) hfour
    have hj4 := hhigh (by omega)
    simp only [Bool.and_eq_true, decide_eq_true_eq]
    exact ⟨byte_le (a := 0x80) (by omega) (by omega), byte_le (k := 0x8F) (by omega) (by omega)⟩
  · simp only [Bool.and_eq_true, decide_eq_true_eq]
    exact ⟨byte_le (a := 0x80) (by omega) (by omega), byte_le (k := 0xBF) (by omega) (by omega)⟩

/-- The number of a character: no surrogate, at most U+10FFFF. -/
theorem toNat_range (c : Char) : c.toNat < 0xD800 ∨ 0xDFFF < c.toNat ∧ c.toNat < 0x110000 := c.valid

/-- The lossy reader reads an encoded character back, whatever follows it. -/
theorem firstChar_encode (c : Char) (rest : Bytes) : ∃ lead tail, String.utf8EncodeChar c = lead :: tail ∧
    firstChar lead (tail ++ rest) = (c, tail.length) := by
  have hrange := toNat_range c
  have hchar : Char.ofNat c.toNat = c := Char.ofNat_toNat c
  have hval : c.val.toNat = c.toNat := rfl
  unfold String.utf8EncodeChar
  dsimp only
  rw [hval]
  generalize c.toNat = v at *
  -- one case for each number of bytes
  split_ifs with hone htwo hthree
  · refine ⟨_, [], rfl, ?_⟩
    have hlead : UInt8.ofNat v < 0x80 := by
      rw [UInt8.lt_iff_toNat_lt, toNat_byte (by omega)]
      change v < 0x80
      omega
    rw [firstChar, if_pos hlead, toNat_byte (by omega), hchar]
    rfl
  · refine ⟨_, _, rfl, ?_⟩
    have hhigh : ¬UInt8.ofNat (v / 64 % 32 + 0xC0) < 0x80 :=
      UInt8.not_lt.2 (byte_le (a := 0x80) (by omega) (by omega))
    have hlead : 0xC2 ≤ UInt8.ofNat (v / 64 % 32 + 0xC0) ∧ UInt8.ofNat (v / 64 % 32 + 0xC0) ≤ 0xDF :=
      ⟨byte_le (a := 0xC2) (by omega) (by omega), byte_le (k := 0xDF) (by omega) (by omega)⟩
    have hvalue : v / 64 % 32 * 64 + v % 64 = v := by omega
    rw [firstChar, if_neg hhigh, if_pos hlead]
    simp only [List.cons_append, List.nil_append, List.getD_cons_zero]
    rw [isTail_byte (by omega), if_pos rfl, leadBits_two (by omega), tailBits_byte (by omega), hvalue, hchar]
    rfl
  · refine ⟨_, _, rfl, ?_⟩
    have hhigh : ¬UInt8.ofNat (v / 4096 % 16 + 0xE0) < 0x80 :=
      UInt8.not_lt.2 (byte_le (a := 0x80) (by omega) (by omega))
    have habove : (0xDF : UInt8) < UInt8.ofNat (v / 4096 % 16 + 0xE0) :=
      UInt8.lt_of_lt_of_le (by decide) (byte_le (a := 0xE0) (by omega) (by omega))
    have hnot : ¬(0xC2 ≤ UInt8.ofNat (v / 4096 % 16 + 0xE0) ∧ UInt8.ofNat (v / 4096 % 16 + 0xE0) ≤ 0xDF) :=
      fun h => UInt8.not_le.2 habove h.2
    have hlead : 0xE0 ≤ UInt8.ofNat (v / 4096 % 16 + 0xE0) ∧ UInt8.ofNat (v / 4096 % 16 + 0xE0) ≤ 0xEF :=
      ⟨byte_le (a := 0xE0) (by omega) (by omega), byte_le (k := 0xEF) (by omega) (by omega)⟩
    have hvalue : (v / 4096 % 16 * 64 + v / 64 % 64) * 64 + v % 64 = v := by omega
    have hsecond := secondOfThree_byte (k := v / 4096 % 16) (j := v / 64 % 64) (by omega) (by omega) (by omega)
      (by omega)
    rw [firstChar, if_neg hhigh, if_neg hnot, if_pos hlead]
    simp only [List.cons_append, List.nil_append, List.getD_cons_zero, List.getD_cons_succ]
    rw [hsecond, isTail_byte (by omega), Bool.not_true, if_neg Bool.false_ne_true, if_neg Bool.false_ne_true,
      leadBits_three (by omega), tailBits_byte (by omega), tailBits_byte (by omega), hvalue, hchar]
    rfl
  · refine ⟨_, _, rfl, ?_⟩
    have hhigh : ¬UInt8.ofNat (v / 262144 % 8 + 0xF0) < 0x80 :=
      UInt8.not_lt.2 (byte_le (a := 0x80) (by omega) (by omega))
    have habove : (0xEF : UInt8) < UInt8.ofNat (v / 262144 % 8 + 0xF0) :=
      UInt8.lt_of_lt_of_le (by decide) (byte_le (a := 0xF0) (by omega) (by omega))
    have hnot : ¬(0xC2 ≤ UInt8.ofNat (v / 262144 % 8 + 0xF0) ∧ UInt8.ofNat (v / 262144 % 8 + 0xF0) ≤ 0xDF) :=
      fun h => UInt8.not_le.2 (UInt8.lt_trans (by decide) habove) h.2
    have hnot' : ¬(0xE0 ≤ UInt8.ofNat (v / 262144 % 8 + 0xF0) ∧ UInt8.ofNat (v / 262144 % 8 + 0xF0) ≤ 0xEF) :=
      fun h => UInt8.not_le.2 habove h.2
    have hlead : 0xF0 ≤ UInt8.ofNat (v / 262144 % 8 + 0xF0) ∧ UInt8.ofNat (v / 262144 % 8 + 0xF0) ≤ 0xF4 :=
      ⟨byte_le (a := 0xF0) (by omega) (by omega), byte_le (k := 0xF4) (by omega) (by omega)⟩
    have hvalue : ((v / 262144 % 8 * 64 + v / 4096 % 64) * 64 + v / 64 % 64) * 64 + v % 64 = v := by omega
    have hsecond := secondOfFour_byte (k := v / 262144 % 8) (j := v / 4096 % 64) (by omega) (by omega) (by omega)
      (by omega)
    rw [firstChar, if_neg hhigh, if_neg hnot, if_neg hnot', if_pos hlead]
    simp only [List.cons_append, List.nil_append, List.getD_cons_zero, List.getD_cons_succ]
    rw [hsecond, isTail_byte (by omega), isTail_byte (by omega), Bool.not_true, if_neg Bool.false_ne_true,
      if_neg Bool.false_ne_true, if_neg Bool.false_ne_true, leadBits_four (by omega), tailBits_byte (by omega),
      tailBits_byte (by omega), tailBits_byte (by omega), hvalue, hchar]
    rfl

theorem chars_encode (c : Char) (rest : Bytes) :
    chars 0 (String.utf8EncodeChar c ++ rest) = c :: chars 0 rest := by
  obtain ⟨lead, tail, hbytes, hfirst⟩ := firstChar_encode c rest
  have hle : tail.length ≤ (tail ++ rest).length := by
    rw [List.length_append]
    omega
  rw [hbytes, List.cons_append, chars, hfirst, Utf8Strict.chars_drop hle, List.drop_left]

/-- A text is read back from its bytes. -/
theorem fromUtf8Lossy_asBytes (s : String) : fromUtf8Lossy (asBytes s) = s := by
  have hchars : ∀ cs : List Char, chars 0 (cs.flatMap String.utf8EncodeChar) = cs := by
    intro cs
    induction cs with
    | nil => rfl
    | cons c cs ih => rw [List.flatMap_cons, chars_encode, ih]
  rw [fromUtf8Lossy, asBytes, hchars, String.ofList_toList]

end Ralph.Utf8Lossy
