import Ralph.Chunked
import Ralph.Utf8Strict

namespace Ralph.Utf8Strict
open Utf8Lossy

/-- More bytes change nothing about a sequence that is complete or ruled out. -/
theorem scan_append {lead : UInt8} {rest : Bytes} (h : scan lead rest ≠ .cut) (y : Bytes) :
    scan lead (rest ++ y) = scan lead rest := by
  unfold scan at h ⊢
  split_ifs at h ⊢ with hone htwo hthree hfour
  · rfl
  · obtain _ | ⟨b, rest⟩ := rest
    · exact absurd rfl h
    · rfl
  · obtain _ | ⟨b, _ | ⟨b', rest⟩⟩ := rest
    · exact absurd rfl h
    · dsimp only at h
      split_ifs at h with hsecond
      · exact absurd rfl h
      · cases y <;> simp [hsecond]
    · rfl
  · obtain _ | ⟨b, _ | ⟨b', _ | ⟨b'', rest⟩⟩⟩ := rest
    · exact absurd rfl h
    · dsimp only at h
      split_ifs at h with hsecond
      · exact absurd rfl h
      · obtain _ | ⟨y, _ | ⟨y', ys⟩⟩ := y <;> simp [hsecond]
    · dsimp only at h
      split_ifs at h with hsecond hthird
      · obtain _ | ⟨y, ys⟩ := y <;> simp [hsecond]
      · exact absurd rfl h
      · obtain _ | ⟨y, ys⟩ := y <;> simp [hsecond, hthird]
    · rfl
  · rfl

/-- A character is read off its own bytes. -/
theorem scan_take {lead : UInt8} {rest : Bytes} {c : Char} {more : ℕ} (h : scan lead rest = .char c more) :
    scan lead (rest.take more) = .char c more := by
  unfold scan at h ⊢
  split_ifs at h ⊢ with hone htwo hthree hfour
  · exact h
  · obtain _ | ⟨b, rest⟩ := rest
    · cases h
    · dsimp only at h
      split_ifs at h with htail
      cases h
      simp [htail]
  · obtain _ | ⟨b, _ | ⟨b', rest⟩⟩ := rest
    · cases h
    · dsimp only at h
      split_ifs at h
    · dsimp only at h
      split_ifs at h with hsecond hthird
      cases h
      simp [hsecond, hthird]
  · obtain _ | ⟨b, _ | ⟨b', _ | ⟨b'', rest⟩⟩⟩ := rest
    · cases h
    · dsimp only at h
      split_ifs at h
    · dsimp only at h
      split_ifs at h
    · dsimp only at h
      split_ifs at h with hsecond hthird hlast
      cases h
      simp [hsecond, hthird, hlast]

/-- What the lossy reader makes of the same bytes. -/
def Scan.read (length : ℕ) : Scan → Char × ℕ
  | .char c more => (c, more)
  | .bad more => (replacement, more)
  | .cut => (replacement, length)

theorem secondOfThree_ascii (lead : UInt8) {b : UInt8} (h : b < 0x80) : secondOfThree lead b = false := by
  have hlow : ¬ (0xA0 : UInt8) ≤ b := UInt8.not_le.mpr (UInt8.lt_trans h (by decide))
  have hlow' : ¬ (0x80 : UInt8) ≤ b := UInt8.not_le.mpr h
  unfold secondOfThree
  split_ifs
  all_goals simp [hlow, hlow']

theorem secondOfFour_ascii (lead : UInt8) {b : UInt8} (h : b < 0x80) : secondOfFour lead b = false := by
  have hlow : ¬ (0x90 : UInt8) ≤ b := UInt8.not_le.mpr (UInt8.lt_trans h (by decide))
  have hlow' : ¬ (0x80 : UInt8) ≤ b := UInt8.not_le.mpr h
  unfold secondOfFour
  split_ifs
  all_goals simp [hlow, hlow']

theorem isTail_ascii {b : UInt8} (h : b < 0x80) : isTail b = false := by
  have hle : b &&& 0xC0 ≤ b := by
    rw [UInt8.le_iff_toNat_le, UInt8.toNat_and]
    exact Nat.and_le_left
  rw [isTail, beq_eq_false_iff_ne]
  exact UInt8.ne_of_lt (UInt8.lt_of_le_of_lt hle h)

theorem firstChar_eq_read (lead : UInt8) (rest : Bytes) :
    firstChar lead rest = (scan lead rest).read rest.length ∧
      ((scan lead rest).read rest.length).2 ≤ rest.length := by
  have hzero : (0 : UInt8) < 0x80 := by decide
  unfold scan firstChar
  split_ifs with hone htwo hthree hfour
  · exact ⟨rfl, Nat.zero_le _⟩
  · obtain _ | ⟨b, rest⟩ := rest
    · exact ⟨rfl, le_rfl⟩
    · simp only [List.getD_cons_zero]
      split_ifs <;> simp [Scan.read]
  · obtain _ | ⟨b, _ | ⟨b', rest⟩⟩ := rest
    · simp [Scan.read, secondOfThree_ascii lead hzero]
    · simp only [List.getD_cons_zero, List.getD_cons_succ, List.getD_nil, isTail_ascii hzero]
      split_ifs <;> simp_all [Scan.read]
    · simp only [List.getD_cons_zero, List.getD_cons_succ]
      split_ifs <;> simp [Scan.read]
  · obtain _ | ⟨b, _ | ⟨b', _ | ⟨b'', rest⟩⟩⟩ := rest
    · simp [Scan.read, secondOfFour_ascii lead hzero]
    · simp only [List.getD_cons_zero, List.getD_cons_succ, List.getD_nil, isTail_ascii hzero]
      split_ifs <;> simp_all [Scan.read]
    · simp only [List.getD_cons_zero, List.getD_cons_succ, List.getD_nil, isTail_ascii hzero]
      split_ifs <;> simp_all [Scan.read]
    · simp only [List.getD_cons_zero, List.getD_cons_succ]
      split_ifs <;> simp [Scan.read]
  · exact ⟨rfl, Nat.zero_le _⟩

/-- An ASCII byte rules out a sequence that was cut in front of it. -/
theorem scan_cut_append {lead : UInt8} {rest : Bytes} (h : scan lead rest = .cut) {b : UInt8}
    (hb : b < 0x80) (y : Bytes) : scan lead (rest ++ b :: y) = .bad rest.length := by
  unfold scan at h ⊢
  split_ifs at h ⊢ with hone htwo hthree hfour
  · obtain _ | ⟨a, rest⟩ := rest
    · simp [isTail_ascii hb]
    · dsimp only at h
      split_ifs at h
  · obtain _ | ⟨a, _ | ⟨a', rest⟩⟩ := rest
    · obtain _ | ⟨y, ys⟩ := y <;> simp [secondOfThree_ascii lead hb]
    · dsimp only at h
      split_ifs at h with hsecond
      simp [hsecond, isTail_ascii hb]
    · dsimp only at h
      split_ifs at h
  · obtain _ | ⟨a, _ | ⟨a', _ | ⟨a'', rest⟩⟩⟩ := rest
    · obtain _ | ⟨y, _ | ⟨y', ys⟩⟩ := y <;> simp [secondOfFour_ascii lead hb]
    · dsimp only at h
      split_ifs at h with hsecond
      obtain _ | ⟨y, ys⟩ := y <;> simp [hsecond, isTail_ascii hb]
    · dsimp only at h
      split_ifs at h with hsecond hthird
      simp [hsecond, hthird, isTail_ascii hb]
    · dsimp only at h
      split_ifs at h

/-- The first character of a buffer, and the bytes behind it; `none` if more bytes may change it. -/
def nextChar : Bytes → Option (Char × Bytes)
  | [] => none
  | lead :: rest =>
    match scan lead rest with
    | .char c more => some (c, rest.drop more)
    | .bad more => some (replacement, rest.drop more)
    | .cut => none

theorem nextChar_of_ne_cut {lead : UInt8} {rest : Bytes} (h : scan lead rest ≠ .cut) :
    nextChar (lead :: rest) =
      some ((firstChar lead rest).1, rest.drop (firstChar lead rest).2) := by
  rw [(firstChar_eq_read lead rest).1, nextChar]
  cases hscan : scan lead rest with
  | char c more => rfl
  | bad more => rfl
  | cut => exact absurd hscan h

theorem nextChar_of_cut {lead : UInt8} {rest : Bytes} (h : scan lead rest = .cut) :
    nextChar (lead :: rest) = none := by
  rw [nextChar, h]

theorem nextChar_shrinks (x : Bytes) (c : Char) (r : Bytes) (h : nextChar x = some (c, r)) :
    r.length < x.length := by
  cases x with
  | nil => cases h
  | cons lead rest =>
    by_cases hcut : scan lead rest = .cut
    · rw [nextChar_of_cut hcut] at h
      cases h
    · rw [nextChar_of_ne_cut hcut, Option.some.injEq, Prod.mk.injEq] at h
      rw [← h.2, List.length_drop, List.length_cons]
      omega

theorem nextChar_stable (x y : Bytes) (c : Char) (r : Bytes) (h : nextChar x = some (c, r)) :
    nextChar (x ++ y) = some (c, r ++ y) := by
  cases x with
  | nil => cases h
  | cons lead rest =>
    by_cases hcut : scan lead rest = .cut
    · rw [nextChar_of_cut hcut] at h
      cases h
    · obtain ⟨hfirst, hle⟩ := firstChar_eq_read lead rest
      have hread : firstChar lead (rest ++ y) = firstChar lead rest := by
        rw [(firstChar_eq_read lead (rest ++ y)).1, hfirst, scan_append hcut]
        cases hscan : scan lead rest with
        | char c more => rfl
        | bad more => rfl
        | cut => exact absurd hscan hcut
      rw [← hfirst] at hle
      rw [nextChar_of_ne_cut hcut, Option.some.injEq, Prod.mk.injEq] at h
      rw [List.cons_append, nextChar_of_ne_cut (by rwa [scan_append hcut]), hread,
        List.drop_append_of_le_length hle, h.1, h.2]

/-- The characters at the front of a buffer that no later byte changes. -/
def scanner : Chunked.Scanner UInt8 Char := ⟨nextChar, nextChar_shrinks, nextChar_stable⟩

/-- The characters of the buffer, and the cut sequence at its end. -/
def decode (bytes : Bytes) : List Char × Bytes := scanner.drain bytes

theorem decode_append (x y : Bytes) :
    decode (x ++ y) = ((decode x).1 ++ (decode ((decode x).2 ++ y)).1, (decode ((decode x).2 ++ y)).2) :=
  scanner.drain_append x y

theorem decode_nil : decode [] = ([], []) := scanner.drain_of_none rfl

theorem decode_of_ne_cut {lead : UInt8} {rest : Bytes} (h : scan lead rest ≠ .cut) :
    decode (lead :: rest) = ((firstChar lead rest).1 :: (decode (rest.drop (firstChar lead rest).2)).1,
      (decode (rest.drop (firstChar lead rest).2)).2) :=
  scanner.drain_of_some (nextChar_of_ne_cut h)

theorem decode_of_cut {lead : UInt8} {rest : Bytes} (h : scan lead rest = .cut) :
    decode (lead :: rest) = ([], lead :: rest) := scanner.drain_of_none (nextChar_of_cut h)

/-- Nothing or a sequence that goes past the end. -/
def IsCut (bytes : Bytes) : Prop := bytes = [] ∨ ∃ lead rest, bytes = lead :: rest ∧ scan lead rest = .cut

theorem decode_rest (bytes : Bytes) : IsCut (decode bytes).2 := by
  -- on the length: a character takes up to four bytes
  induction hn : bytes.length using Nat.strong_induction_on generalizing bytes with
  | _ n ih =>
    cases bytes with
    | nil => exact .inl (by rw [decode_nil])
    | cons lead rest =>
      by_cases hcut : scan lead rest = .cut
      · exact .inr ⟨lead, rest, by rw [decode_of_cut hcut], hcut⟩
      · rw [decode_of_ne_cut hcut]
        refine ih _ ?_ _ rfl
        rw [← hn, List.length_cons, List.length_drop]
        omega

theorem decode_of_isCut {bytes : Bytes} (h : IsCut bytes) : decode bytes = ([], bytes) := by
  obtain rfl | ⟨lead, rest, rfl, hcut⟩ := h
  · exact decode_nil
  · exact decode_of_cut hcut

theorem chars_drop {skip : ℕ} {bytes : Bytes} (h : skip ≤ bytes.length) :
    chars skip bytes = chars 0 (bytes.drop skip) := by
  induction bytes generalizing skip with
  | nil => cases skip <;> rfl
  | cons lead rest ih =>
    cases skip with
    | zero => rfl
    | succ skip =>
      rw [chars, ih (by simpa using h), List.drop_succ_cons]

/-- The lossy text: the characters, and one replacement for a sequence that was cut. -/
theorem chars_eq_decode (bytes : Bytes) :
    chars 0 bytes = (decode bytes).1 ++ if (decode bytes).2 = [] then [] else [replacement] := by
  induction hn : bytes.length using Nat.strong_induction_on generalizing bytes with
  | _ n ih =>
    cases bytes with
    | nil => rw [decode_nil]; rfl
    | cons lead rest =>
      obtain ⟨hfirst, hle⟩ := firstChar_eq_read lead rest
      rw [← hfirst] at hle
      rw [chars, chars_drop hle]
      by_cases hcut : scan lead rest = .cut
      · rw [decode_of_cut hcut, hfirst, hcut]
        simp [Scan.read, chars]
      · rw [decode_of_ne_cut hcut, List.cons_append]
        congr 1
        refine ih _ ?_ _ rfl
        rw [← hn, List.length_cons, List.length_drop]
        omega

/-- What is no valid number reads as NUL. -/
theorem toNat_ofNat (n : ℕ) : (Char.ofNat n).toNat = n ∨ (Char.ofNat n).toNat = 0 := by
  by_cases hvalid : n.isValidChar
  · refine .inl ?_
    rw [Char.ofNat, dif_pos hvalid]
    rfl
  · refine .inr ?_
    rw [Char.ofNat, dif_neg hvalid]
    rfl

theorem tailBits_of_le {b : UInt8} (low : UInt8) (h : low ≤ b) (hb : b ≤ 0xBF) (hlow : 0x80 ≤ low) :
    low.toNat - 0x80 ≤ tailBits b := by
  have hb' : b.toNat ≤ 0xBF := UInt8.le_iff_toNat_le.mp hb
  have hlow' : 0x80 ≤ low.toNat := UInt8.le_iff_toNat_le.mp hlow
  have hle : low.toNat ≤ b.toNat := UInt8.le_iff_toNat_le.mp h
  have hbits : tailBits b = b.toNat % 64 := by
    rw [tailBits, UInt8.toNat_and]
    exact Nat.and_two_pow_sub_one_eq_mod b.toNat 6
  omega

/-- No longer sequence stands for an ASCII character. -/
theorem firstChar_large {lead : UInt8} (h : ¬lead < 0x80) (rest : Bytes) :
    ∃ n, 0x80 ≤ n ∧ (firstChar lead rest).1 = Char.ofNat n := by
  have hreplacement : ∃ n, 0x80 ≤ n ∧ replacement = Char.ofNat n := ⟨0xFFFD, by decide, rfl⟩
  unfold firstChar
  rw [if_neg h]
  dsimp only
  split_ifs with htwo htail hthree hsecond hthird hfour hsecond hthird hlast
  any_goals exact hreplacement
  · -- two bytes from 0xC2 on
    have hbits : (lead &&& 0x1F).toNat = lead.toNat % 32 := by
      rw [UInt8.toNat_and]
      exact Nat.and_two_pow_sub_one_eq_mod lead.toNat 5
    have hlow : 0xC2 ≤ lead.toNat := UInt8.le_iff_toNat_le.mp htwo.1
    have hhigh : lead.toNat ≤ 0xDF := UInt8.le_iff_toNat_le.mp htwo.2
    exact ⟨_, by omega, rfl⟩
  · -- after 0xE0 the second byte is from 0xA0 on
    have hbits : (lead &&& 0x0F).toNat = lead.toNat % 16 := by
      rw [UInt8.toNat_and]
      exact Nat.and_two_pow_sub_one_eq_mod lead.toNat 4
    have hlow : 0xE0 ≤ lead.toNat := UInt8.le_iff_toNat_le.mp hthree.1
    have hhigh : lead.toNat ≤ 0xEF := UInt8.le_iff_toNat_le.mp hthree.2
    refine ⟨_, ?_, rfl⟩
    by_cases hfirst : lead = 0xE0
    · have hrange : secondOfThree lead (rest.getD 0 0) = true := by simpa using hsecond
      rw [secondOfThree, if_pos hfirst, Bool.and_eq_true, decide_eq_true_iff, decide_eq_true_iff] at hrange
      have htail := tailBits_of_le 0xA0 hrange.1 hrange.2 (by decide)
      have hvalue : (0xA0 : UInt8).toNat = 0xA0 := rfl
      omega
    · have hne : lead.toNat ≠ 0xE0 := fun h => hfirst (UInt8.toNat_inj.mp h)
      omega
  · -- after 0xF0 the second byte is from 0x90 on
    have hbits : (lead &&& 0x07).toNat = lead.toNat % 8 := by
      rw [UInt8.toNat_and]
      exact Nat.and_two_pow_sub_one_eq_mod lead.toNat 3
    have hlow : 0xF0 ≤ lead.toNat := UInt8.le_iff_toNat_le.mp hfour.1
    have hhigh : lead.toNat ≤ 0xF4 := UInt8.le_iff_toNat_le.mp hfour.2
    refine ⟨_, ?_, rfl⟩
    by_cases hfirst : lead = 0xF0
    · have hrange : secondOfFour lead (rest.getD 0 0) = true := by simpa using hsecond
      rw [secondOfFour, if_pos hfirst, Bool.and_eq_true, decide_eq_true_iff, decide_eq_true_iff] at hrange
      have htail := tailBits_of_le 0x90 hrange.1 hrange.2 (by decide)
      have hvalue : (0x90 : UInt8).toNat = 0x90 := rfl
      omega
    · have hne : lead.toNat ≠ 0xF0 := fun h => hfirst (UInt8.toNat_inj.mp h)
      omega

/-- An ASCII character of the text is a byte of its own. -/
theorem mem_chars {skip : ℕ} {bytes : Bytes} {c : Char} (h : c ∈ chars skip bytes) (hc : c.toNat < 0x80)
    (hne : c.toNat ≠ 0) : ∃ b ∈ bytes, c.toNat = b.toNat := by
  induction bytes generalizing skip with
  | nil =>
    cases skip <;> cases h
  | cons lead rest ih =>
    cases skip with
    | succ skip =>
      obtain ⟨b, hb, heq⟩ := ih h
      exact ⟨b, List.mem_cons_of_mem _ hb, heq⟩
    | zero =>
      rw [chars, List.mem_cons] at h
      obtain rfl | h := h
      · by_cases hlead : lead < 0x80
        · refine ⟨lead, List.mem_cons_self, ?_⟩
          have hone : (firstChar lead rest).1 = Char.ofNat lead.toNat := by rw [firstChar, if_pos hlead]
          rw [hone] at hne ⊢
          obtain heq | hzero := toNat_ofNat lead.toNat
          · exact heq
          · exact absurd hzero hne
        · obtain ⟨n, hn, hlarge⟩ := firstChar_large hlead rest
          rw [hlarge] at hc hne
          obtain heq | hzero := toNat_ofNat n
          · omega
          · exact absurd hzero hne
      · obtain ⟨b, hb, heq⟩ := ih h
        exact ⟨b, List.mem_cons_of_mem _ hb, heq⟩

/-- Where the strict reader stops: at a sequence that is ruled out, or at one that was cut. -/
def StopsAt (rest : Bytes) : Option ℕ → Prop
  | some len => nextChar rest = some (replacement, rest.drop len)
  | none => ∃ lead more, rest = lead :: more ∧ scan lead more = .cut

theorem readFrom_skip (bytes : Bytes) (skip i : ℕ) (h : skip ≤ bytes.length) :
    readFrom skip i bytes = readFrom 0 (i + skip) (bytes.drop skip) := by
  induction bytes generalizing skip i with
  | nil => cases skip <;> rfl
  | cons lead rest ih =>
    cases skip with
    | zero => rfl
    | succ skip =>
      rw [readFrom, ih skip (i + 1) (by simpa using h), List.drop_succ_cons]
      congr 1
      omega

/-- The strict reader reads the same characters up to where it stops. -/
theorem readFrom_spec (i : ℕ) (bytes : Bytes) :
    (∃ cs, readFrom 0 i bytes = .ok cs ∧ decode bytes = (cs, [])) ∨
    ∃ e valid rest cs, readFrom 0 i bytes = .error e ∧ bytes = valid ++ rest ∧
      e.validUpTo = i + valid.length ∧ decode valid = (cs, []) ∧ StopsAt rest e.errorLen := by
  -- on the length, since one character takes up to four bytes
  induction hn : bytes.length using Nat.strong_induction_on generalizing i bytes with
  | _ n ih =>
    cases bytes with
    | nil => exact .inl ⟨[], rfl, decode_nil⟩
    | cons lead rest =>
      obtain ⟨hfirst, hle⟩ := firstChar_eq_read lead rest
      rw [← hfirst] at hle
      cases hscan : scan lead rest with
      | char c more =>
        have hmore : more ≤ rest.length := by
          rw [hfirst, hscan] at hle
          exact hle
        have hread : readFrom 0 i (lead :: rest) =
            (readFrom 0 (i + 1 + more) (rest.drop more)).map (c :: ·) := by
          rw [readFrom, hscan, ← readFrom_skip rest more (i + 1) hmore]
        have hdecode : ∀ tail : Bytes, decode (lead :: (rest.take more ++ tail)) =
            (c :: (decode tail).1, (decode tail).2) := by
          intro tail
          have hchar : scan lead (rest.take more ++ tail) = .char c more := by
            rw [scan_append (by rw [scan_take hscan]; exact Scan.noConfusion), scan_take hscan]
          have hlen : (rest.take more).length = more := List.length_take_of_le hmore
          have hnext : nextChar (lead :: (rest.take more ++ tail)) = some (c, tail) := by
            rw [nextChar, hchar]
            show some (c, (rest.take more ++ tail).drop more) = _
            rw [List.drop_append_of_le_length hlen.ge, List.drop_take_self, List.nil_append]
          exact scanner.drain_of_some hnext
        have hparts := hdecode (rest.drop more)
        rw [List.take_append_drop] at hparts
        have hshort : (rest.drop more).length < n := by
          rw [← hn, List.length_cons, List.length_drop]
          omega
        rw [hread, hparts]
        obtain ⟨cs, hok, hrest⟩ | ⟨e, valid, stuck, cs, herror, hbytes, hupto, hvalid, hstop⟩ :=
          ih _ hshort (i + 1 + more) _ rfl
        · refine .inl ⟨c :: cs, ?_, ?_⟩
          · rw [hok]
            rfl
          · rw [hrest]
        · refine .inr ⟨e, lead :: (rest.take more ++ valid), stuck, c :: cs, ?_, ?_, ?_, ?_, hstop⟩
          · rw [herror]
            rfl
          · rw [List.cons_append, List.append_assoc, ← hbytes, List.take_append_drop]
          · rw [hupto, List.length_cons, List.length_append, List.length_take_of_le hmore]
            omega
          · rw [hdecode, hvalid]
      -- an error stands at the byte where no character starts
      | bad more =>
        refine .inr ⟨⟨i, some (more + 1)⟩, [], lead :: rest, [], ?_, rfl, rfl, decode_nil, ?_⟩
        · rw [readFrom, hscan]
        · show nextChar (lead :: rest) = _
          rw [nextChar, hscan, List.drop_succ_cons]
      | cut =>
        refine .inr ⟨⟨i, none⟩, [], lead :: rest, [], ?_, rfl, rfl, decode_nil, ?_⟩
        · rw [readFrom, hscan]
        · exact ⟨lead, rest, rfl, hscan⟩

/-- An ASCII byte always stands for itself, whatever is cut in front of it. -/
theorem chars_ascii_append (x : Bytes) {b : UInt8} (hb : b < 0x80) (y : Bytes) :
    chars 0 (x ++ b :: y) = chars 0 x ++ Char.ofNat b.toNat :: chars 0 y := by
  have hone : firstChar b y = (Char.ofNat b.toNat, 0) := by
    rw [firstChar, if_pos hb]
  have hwhole : scan b y ≠ .cut := by
    unfold scan
    rw [if_pos hb]
    exact Scan.noConfusion
  rw [chars_eq_decode x, chars_eq_decode (x ++ b :: y), decode_append, chars_eq_decode y]
  obtain hnil | ⟨lead, rest, hrest, hcut⟩ := decode_rest x
  · rw [hnil, List.nil_append, decode_of_ne_cut hwhole, hone]
    simp
  · have hbad := scan_cut_append hcut hb y
    have hnot : scan lead (rest ++ b :: y) ≠ .cut := by
      rw [hbad]
      exact Scan.noConfusion
    have hread : firstChar lead (rest ++ b :: y) = (replacement, rest.length) := by
      rw [(firstChar_eq_read lead _).1, hbad]
      rfl
    rw [hrest, List.cons_append, decode_of_ne_cut hnot, hread]
    simp only [List.drop_left]
    rw [decode_of_ne_cut hwhole, hone]
    simp

/-- The bytes of one character of a lossy text. -/
structure Sequence where
  bytes : Bytes
  char : Char
  deriving DecidableEq, Repr

/-- The bytes are those of the character, or they are none and read as the replacement. -/
def Sequence.Read (s : Sequence) : Prop :=
  fromUtf8 s.bytes = .ok [s.char] ∨ (∃ e, fromUtf8 s.bytes = .error e) ∧ s.char = replacement

/-- The bytes that each character of the lossy text is read from. -/
def sequencesFrom : (skip : ℕ) → Bytes → List Sequence
  | _, [] => []
  | skip + 1, _ :: rest => sequencesFrom skip rest
  | 0, lead :: rest =>
    ⟨lead :: rest.take (firstChar lead rest).2, (firstChar lead rest).1⟩ ::
      sequencesFrom (firstChar lead rest).2 rest

def sequencesOf (bytes : Bytes) : List Sequence := sequencesFrom 0 bytes

theorem map_sequencesFrom (skip : ℕ) (bytes : Bytes) :
    (sequencesFrom skip bytes).map Sequence.char = chars skip bytes := by
  induction bytes generalizing skip with
  | nil => cases skip <;> rfl
  | cons lead rest ih =>
    cases skip with
    | zero => rw [sequencesFrom, chars, List.map_cons, ih]
    | succ skip => rw [sequencesFrom, chars, ih]

theorem flatMap_sequencesFrom (skip : ℕ) (bytes : Bytes) :
    (sequencesFrom skip bytes).flatMap Sequence.bytes = bytes.drop skip := by
  induction bytes generalizing skip with
  | nil => cases skip <;> rfl
  | cons lead rest ih =>
    cases skip with
    | zero =>
      rw [sequencesFrom, List.flatMap_cons, ih, List.cons_append, List.take_append_drop]
      rfl
    | succ skip => rw [sequencesFrom, ih, List.drop_succ_cons]

theorem readFrom_all {skip : ℕ} {bytes : Bytes} (h : bytes.length ≤ skip) (i : ℕ) :
    readFrom skip i bytes = .ok [] := by
  induction bytes generalizing skip i with
  | nil => cases skip <;> rfl
  | cons lead rest ih =>
    cases skip with
    | zero => cases h
    | succ skip =>
      rw [readFrom]
      exact ih (Nat.le_of_succ_le_succ h) (i + 1)

theorem read_of_mem_sequencesFrom {skip : ℕ} {bytes : Bytes} {s : Sequence}
    (h : s ∈ sequencesFrom skip bytes) : s.Read := by
  induction bytes generalizing skip with
  | nil => cases skip <;> cases h
  | cons lead rest ih =>
    cases skip with
    | succ skip => exact ih h
    | zero =>
      rw [sequencesFrom, List.mem_cons] at h
      obtain rfl | h := h
      · rw [(firstChar_eq_read lead rest).1]
        cases hscan : scan lead rest with
        | char c more =>
          refine .inl ?_
          show readFrom 0 0 (lead :: rest.take more) = .ok [c]
          rw [readFrom, scan_take hscan]
          show Except.map (c :: ·) (readFrom more 1 (rest.take more)) = _
          rw [readFrom_all (List.length_take_le _ _)]
          rfl
        | bad more =>
          refine .inr ⟨?_, rfl⟩
          show ∃ e, readFrom 0 0 (lead :: rest.take more) = .error e
          rw [readFrom]
          cases hshort : scan lead (rest.take more) with
          | char c k =>
            -- it would be a character in the whole text too
            have hwhole := scan_append (by rw [hshort]; exact Scan.noConfusion) (rest.drop more)
            rw [List.take_append_drop, hscan, hshort] at hwhole
            cases hwhole
          | bad k => exact ⟨_, rfl⟩
          | cut => exact ⟨_, rfl⟩
        | cut =>
          refine .inr ⟨?_, rfl⟩
          show ∃ e, readFrom 0 0 (lead :: rest.take rest.length) = .error e
          rw [List.take_length, readFrom, hscan]
          exact ⟨_, rfl⟩
      · exact ih h

theorem read_sequencesOf (bytes : Bytes) :
    (sequencesOf bytes).flatMap Sequence.bytes = bytes ∧
      (sequencesOf bytes).map Sequence.char = chars 0 bytes ∧ ∀ s ∈ sequencesOf bytes, s.Read :=
  ⟨flatMap_sequencesFrom 0 bytes, map_sequencesFrom 0 bytes, fun _ h => read_of_mem_sequencesFrom h⟩

end Ralph.Utf8Strict
