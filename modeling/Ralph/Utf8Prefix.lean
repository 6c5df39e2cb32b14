import Ralph.Utf8Decoder

namespace Ralph.Utf8Strict
open Utf8Lossy

/-- Bytes that are the characters of a text. -/
inductive Reads : Bytes → List Char → Prop
  | nil : Reads [] []
  | char {lead : UInt8} {rest : Bytes} {c : Char} {more : ℕ} {cs : List Char} (hscan : scan lead rest = .char c more)
      (hmore : more ≤ rest.length) (later : Reads (rest.drop more) cs) : Reads (lead :: rest) (c :: cs)

/-- Bytes that stop inside a character. -/
def Stuck (rest : Bytes) : Prop := ∃ lead more, rest = lead :: more ∧ scan lead more = .cut

theorem scan_char_le {lead : UInt8} {rest : Bytes} {c : Char} {more : ℕ} (h : scan lead rest = .char c more) :
    more ≤ rest.length := by
  obtain ⟨hfirst, hle⟩ := firstChar_eq_read lead rest
  rw [h] at hle
  exact hle

theorem scan_char_append {lead : UInt8} {rest : Bytes} {c : Char} {more : ℕ} (h : scan lead rest = .char c more)
    (y : Bytes) : scan lead (rest ++ y) = .char c more := by
  rw [scan_append (by rw [h]; exact Scan.noConfusion), h]

theorem readFrom_char {lead : UInt8} {rest : Bytes} {c : Char} {more : ℕ} (h : scan lead rest = .char c more) (i : ℕ) :
    readFrom 0 i (lead :: rest) = (readFrom 0 (i + 1 + more) (rest.drop more)).map (c :: ·) := by
  rw [readFrom, h, ← readFrom_skip rest more (i + 1) (scan_char_le h)]

theorem readFrom_append {bytes : Bytes} {cs : List Char} (h : Reads bytes cs) (i : ℕ) (rest : Bytes) :
    readFrom 0 i (bytes ++ rest) = (readFrom 0 (i + bytes.length) rest).map (cs ++ ·) := by
  induction h generalizing i with
  | nil =>
    rw [List.nil_append, List.length_nil, Nat.add_zero]
    cases readFrom 0 i rest <;> rfl
  | @char lead tail c more cs hscan hmore later ih =>
    have hlen : i + 1 + more + (tail.drop more).length = i + (lead :: tail).length := by
      rw [List.length_drop, List.length_cons]
      omega
    rw [List.cons_append, readFrom_char (scan_char_append hscan rest), List.drop_append_of_le_length hmore, ih, hlen]
    cases readFrom 0 (i + (lead :: tail).length) rest <;> rfl

theorem fromUtf8_of_reads {bytes : Bytes} {cs : List Char} (h : Reads bytes cs) : fromUtf8 bytes = .ok cs := by
  have hread := readFrom_append h 0 []
  rw [List.append_nil] at hread
  rw [fromUtf8, hread, readFrom, Except.map, List.append_nil]

theorem reads_of_readFrom {bytes : Bytes} {i : ℕ} {cs : List Char} (h : readFrom 0 i bytes = .ok cs) : Reads bytes cs := by
  induction hn : bytes.length using Nat.strong_induction_on generalizing i bytes cs with
  | _ n ih =>
    cases bytes with
    | nil =>
      rw [readFrom, Except.ok.injEq] at h
      rw [← h]
      exact .nil
    | cons lead rest =>
      cases hscan : scan lead rest with
      | bad more =>
        rw [readFrom, hscan] at h
        cases h
      | cut =>
        rw [readFrom, hscan] at h
        cases h
      | char c more =>
        rw [readFrom_char hscan] at h
        cases hlater : readFrom 0 (i + 1 + more) (rest.drop more) with
        | error e =>
          rw [hlater] at h
          cases h
        | ok cs' =>
          rw [hlater, Except.map, Except.ok.injEq] at h
          rw [← h]
          refine .char hscan (scan_char_le hscan) (ih _ ?_ hlater rfl)
          rw [← hn, List.length_cons, List.length_drop]
          omega

theorem Reads.append {a b : Bytes} {cs ds : List Char} (ha : Reads a cs) (hb : Reads b ds) : Reads (a ++ b) (cs ++ ds) := by
  apply @reads_of_readFrom _ 0
  have hread := readFrom_append ha 0 b
  have hrest := readFrom_append hb (0 + a.length) []
  rw [List.append_nil] at hrest
  rw [hread, hrest, readFrom, Except.map, Except.map, List.append_nil]

theorem Reads.ne_nil {bytes : Bytes} {cs : List Char} (h : Reads bytes cs) (hbytes : bytes ≠ []) : cs ≠ [] := by
  cases h with
  | nil => exact absurd rfl hbytes
  | char => exact List.cons_ne_nil _ _

/-- A prefix of a text is a text and at most one character that was cut. -/
theorem Reads.prefix {p q : Bytes} {cs : List Char} (h : Reads (p ++ q) cs) :
    ∃ valid rest ds es, p = valid ++ rest ∧ Reads valid ds ∧ cs = ds ++ es ∧ (rest = [] ∨ Stuck rest) ∧
      (q ≠ [] → es ≠ []) := by
  induction hn : p.length using Nat.strong_induction_on generalizing p cs with
  | _ n ih =>
    cases p with
    | nil => exact ⟨[], [], [], cs, rfl, .nil, rfl, .inl rfl, fun hq => h.ne_nil hq⟩
    | cons lead p =>
      by_cases hcut : scan lead p = .cut
      · exact ⟨[], lead :: p, [], cs, rfl, .nil, rfl, .inr ⟨lead, p, rfl, hcut⟩, fun _ => h.ne_nil (List.cons_ne_nil _ _)⟩
      · have hsame := scan_append hcut q
        cases h with
        | @char _ _ c more cs hscan hmore later =>
          replace hscan : scan lead p = .char c more := hsame.symm.trans hscan
          have hle := scan_char_le hscan
          replace later : Reads (p.drop more ++ q) cs := by
            rw [← List.drop_append_of_le_length hle]
            exact later
          have hshort : (p.drop more).length < n := by
            rw [← hn, List.length_cons, List.length_drop]
            omega
          obtain ⟨valid, rest, ds, es, hp, hvalid, hcs, hrest, hes⟩ := ih _ hshort later rfl
          refine ⟨lead :: (p.take more ++ valid), rest, c :: ds, es, ?_, ?_, ?_, hrest, hes⟩
          · rw [List.cons_append, List.append_assoc, ← hp, List.take_append_drop]
          · have hlen : (p.take more).length = more := List.length_take_of_le hle
            refine .char (scan_char_append (scan_take hscan) valid) ?_ ?_
            · rw [List.length_append, hlen]
              omega
            · rw [List.drop_append_of_le_length hlen.ge, List.drop_take_self, List.nil_append]
              exact hvalid
          · rw [hcs, List.cons_append]

/-- Where the strict reader stops in a text that was cut inside a character. -/
theorem fromUtf8_stuck {valid rest : Bytes} {cs : List Char} (hvalid : Reads valid cs) (hrest : Stuck rest) :
    fromUtf8 (valid ++ rest) = .error ⟨valid.length, none⟩ := by
  obtain ⟨lead, more, rfl, hcut⟩ := hrest
  rw [fromUtf8, readFrom_append hvalid, readFrom, hcut, Nat.zero_add]
  rfl

theorem reads_ascii {b : UInt8} (h : b < 0x80) : Reads [b] [Char.ofNat b.toNat] := by
  refine @Reads.char b [] _ 0 [] ?_ (Nat.zero_le _) .nil
  unfold scan
  rw [if_pos h]

end Ralph.Utf8Strict
