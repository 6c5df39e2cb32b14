import Ralph.Utf8Lossy

namespace Ralph.Utf8Strict
open Utf8Lossy

/-- `Utf8Error`: where the first bad sequence starts, and its length unless the text ends in it. -/
structure Utf8Error where
  validUpTo : ℕ
  errorLen : Option ℕ
  deriving DecidableEq, Repr

/-- What stands at a lead byte: a character with the bytes it takes after the lead, a sequence
that is ruled out after so many more bytes, or the start of one that goes past the end. -/
inductive Scan
  | char (c : Char) (more : ℕ)
  | bad (more : ℕ)
  | cut
  deriving DecidableEq, Repr

def scan (lead : UInt8) (rest : Bytes) : Scan :=
  if lead < 0x80 then .char (Char.ofNat lead.toNat) 0
  else if 0xC2 ≤ lead ∧ lead ≤ 0xDF then
    match rest with
    | [] => .cut
    | b :: _ =>
      if isTail b then .char (Char.ofNat ((lead &&& 0x1F).toNat * 64 + tailBits b)) 1 else .bad 0
  else if 0xE0 ≤ lead ∧ lead ≤ 0xEF then
    match rest with
    | [] => .cut
    | [b] => if secondOfThree lead b then .cut else .bad 0
    | b :: b' :: _ =>
      if !secondOfThree lead b then .bad 0
      else if !isTail b' then .bad 1
      else .char (Char.ofNat (((lead &&& 0x0F).toNat * 64 + tailBits b) * 64 + tailBits b')) 2
  else if 0xF0 ≤ lead ∧ lead ≤ 0xF4 then
    match rest with
    | [] => .cut
    | [b] => if secondOfFour lead b then .cut else .bad 0
    | [b, b'] => if !secondOfFour lead b then .bad 0 else if isTail b' then .cut else .bad 1
    | b :: b' :: b'' :: _ =>
      if !secondOfFour lead b then .bad 0
      else if !isTail b' then .bad 1
      else if !isTail b'' then .bad 2
      else .char (Char.ofNat ((((lead &&& 0x07).toNat * 64 + tailBits b) * 64
        + tailBits b') * 64 + tailBits b'')) 3
  -- no character starts with this byte
  else .bad 0

/-- The characters from byte `i` on, whose first `skip` bytes belong to the character before. -/
def readFrom : (skip i : ℕ) → Bytes → Except Utf8Error (List Char)
  | _, _, [] => .ok []
  | skip + 1, i, _ :: rest => readFrom skip (i + 1) rest
  | 0, i, lead :: rest =>
    match scan lead rest with
    | .char c more => (readFrom more (i + 1) rest).map (c :: ·)
    | .bad more => .error ⟨i, some (more + 1)⟩
    | .cut => .error ⟨i, none⟩

/-- `std::str::from_utf8`. -/
def fromUtf8 (bytes : Bytes) : Except Utf8Error (List Char) := readFrom 0 0 bytes

theorem readFrom_error {skip i : ℕ} {bytes : Bytes} {e : Utf8Error}
    (h : readFrom skip i bytes = .error e) :
    e.validUpTo < i + bytes.length ∧ e.errorLen ≠ some 0 := by
  induction bytes generalizing skip i with
  | nil => simp [readFrom] at h
  | cons lead rest ih =>
    rw [List.length_cons]
    cases skip with
    | succ skip =>
      rw [readFrom] at h
      have hlater := ih h
      exact ⟨by omega, hlater.2⟩
    | zero =>
      rw [readFrom] at h
      cases hscan : scan lead rest with
      | char c more =>
        rw [hscan] at h
        dsimp only at h
        cases hread : readFrom more (i + 1) rest with
        | ok cs => simp [hread, Except.map] at h
        | error e' =>
          rw [hread, Except.map, Except.error.injEq] at h
          have hlater := ih (h ▸ hread)
          exact ⟨by omega, hlater.2⟩
      | bad more =>
        rw [hscan, Except.error.injEq] at h
        rw [← h]
        exact ⟨by dsimp only; omega, by simp⟩
      | cut =>
        rw [hscan, Except.error.injEq] at h
        rw [← h]
        exact ⟨by dsimp only; omega, by simp⟩

/-- What is left behind a bad sequence is shorter. -/
theorem length_drop_lt {bytes : Bytes} {e : Utf8Error} {len : ℕ}
    (h : fromUtf8 bytes = .error e) (hlen : e.errorLen = some len) :
    ((bytes.drop e.validUpTo).drop len).length < bytes.length := by
  obtain ⟨hlt, hne⟩ := readFrom_error h
  have hpos : len ≠ 0 := fun hzero => hne (hzero ▸ hlen)
  rw [List.length_drop, List.length_drop]
  omega

end Ralph.Utf8Strict
