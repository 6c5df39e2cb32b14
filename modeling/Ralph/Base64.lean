import Mathlib.Data.List.Nodup
import Mathlib.Tactic

namespace Ralph.Base64

/-- The standard alphabet. -/
def alphabet : List Char :=
  "ABCDEFGHIJKLMNOPQRSTUVWXYZabcdefghijklmnopqrstuvwxyz0123456789+/".toList

def pad : Char := '='

/-- What writes bytes as a text, and what reads such a text. -/
structure Engine where
  encode : List UInt8 → String
  decode : String → Option (List UInt8)

/-- What is relied on of an engine: bytes are read back, and the text is of the standard alphabet. -/
structure Engine.Lawful (b : Engine) : Prop where
  decode_encode : ∀ bytes, b.decode (b.encode bytes) = some bytes
  encode_nil : b.encode [] = ""
  mem_alphabet : ∀ bytes, ∀ c ∈ (b.encode bytes).toList, c ∈ pad :: alphabet

theorem Engine.Lawful.encode_injective {b : Engine} (h : b.Lawful) : Function.Injective b.encode := by
  intro bytes bytes' heq
  have hread := h.decode_encode bytes
  rw [heq, h.decode_encode] at hread
  exact (Option.some.inj hread).symm

def digit (n : ℕ) : Char := alphabet.getD n pad

/-- Three bytes are four digits; the last group is padded. -/
def encodeChars : List UInt8 → List Char
  | [] => []
  | [a] => [digit (a.toNat / 4), digit (a.toNat % 4 * 16), pad, pad]
  | [a, b] =>
    [digit (a.toNat / 4), digit (a.toNat % 4 * 16 + b.toNat / 16), digit (b.toNat % 16 * 4), pad]
  | a :: b :: c :: rest =>
    digit (a.toNat / 4) :: digit (a.toNat % 4 * 16 + b.toNat / 16) ::
      digit (b.toNat % 16 * 4 + c.toNat / 64) :: digit (c.toNat % 64) :: encodeChars rest

def value (c : Char) : ℕ := alphabet.idxOf c

def firstByte (a b : Char) : UInt8 := UInt8.ofNat (value a * 4 + value b / 16)

def secondByte (b c : Char) : UInt8 := UInt8.ofNat (value b % 16 * 16 + value c / 4)

def thirdByte (c d : Char) : UInt8 := UInt8.ofNat (value c % 4 * 64 + value d)

def decodeChars : List Char → Option (List UInt8)
  | [] => some []
  | a :: b :: c :: d :: rest =>
    if c = pad then some [firstByte a b]
    else if d = pad then some [firstByte a b, secondByte b c]
    else (decodeChars rest).map fun bytes =>
      firstByte a b :: secondByte b c :: thirdByte c d :: bytes
  | _ => none

/-- The engine of the standard alphabet with padding. -/
def standard : Engine where
  encode bytes := String.ofList (encodeChars bytes)
  decode text := decodeChars text.toList

theorem nodup_alphabet : alphabet.Nodup := by
  have hcodes : (alphabet.map Char.toNat).Nodup := by decide
  exact hcodes.of_map

theorem length_alphabet : alphabet.length = 64 := by decide

theorem digit_eq {n : ℕ} (h : n < alphabet.length) : digit n = alphabet[n] := by
  rw [digit, List.getD_eq_getElem?_getD, List.getElem?_eq_getElem h, Option.getD_some]

theorem digit_mem (n : ℕ) : digit n ∈ pad :: alphabet := by
  by_cases h : n < alphabet.length
  · exact List.mem_cons_of_mem _ (digit_eq h ▸ List.getElem_mem h)
  · rw [digit, List.getD_eq_getElem?_getD, List.getElem?_eq_none (by omega), Option.getD_none]
    exact List.mem_cons_self

theorem value_digit {n : ℕ} (h : n < 64) : value (digit n) = n := by
  rw [value, digit_eq (length_alphabet ▸ h)]
  exact nodup_alphabet.idxOf_getElem n _

theorem digit_ne_pad {n : ℕ} (h : n < 64) : digit n ≠ pad := by
  have hpad : pad ∉ alphabet := by decide
  rw [digit_eq (length_alphabet ▸ h)]
  exact fun heq => hpad (heq ▸ List.getElem_mem _)

section Group

variable (a b c : UInt8)

theorem firstByte_digits {n : ℕ} (h : n < 16) :
    firstByte (digit (a.toNat / 4)) (digit (a.toNat % 4 * 16 + n)) = a := by
  have ha := a.toNat_lt
  rw [firstByte, value_digit (by omega), value_digit (by omega)]
  rw [show a.toNat / 4 * 4 + (a.toNat % 4 * 16 + n) / 16 = a.toNat by omega, UInt8.ofNat_toNat]

theorem secondByte_digits (m : ℕ) {n : ℕ} (hm : m < 4) (h : n < 4) :
    secondByte (digit (m * 16 + b.toNat / 16)) (digit (b.toNat % 16 * 4 + n)) = b := by
  have hb := b.toNat_lt
  rw [secondByte, value_digit (by omega), value_digit (by omega)]
  rw [show (m * 16 + b.toNat / 16) % 16 * 16 + (b.toNat % 16 * 4 + n) / 4 = b.toNat by omega,
    UInt8.ofNat_toNat]

theorem thirdByte_digits {m : ℕ} (hm : m < 16) :
    thirdByte (digit (m * 4 + c.toNat / 64)) (digit (c.toNat % 64)) = c := by
  have hc := c.toNat_lt
  rw [thirdByte, value_digit (by omega), value_digit (by omega)]
  rw [show (m * 4 + c.toNat / 64) % 4 * 64 + c.toNat % 64 = c.toNat by omega, UInt8.ofNat_toNat]

end Group

theorem decodeChars_encodeChars (bytes : List UInt8) :
    decodeChars (encodeChars bytes) = some bytes := by
  -- on the groups of three bytes
  induction bytes using encodeChars.induct with
  | case1 => rfl
  | case2 a =>
    have hfirst := firstByte_digits a (n := 0) (by omega)
    rw [Nat.add_zero] at hfirst
    rw [encodeChars, decodeChars, if_pos rfl, hfirst]
  | case3 a b =>
    have hb := b.toNat_lt
    have hsecond := secondByte_digits b (a.toNat % 4) (n := 0) (by omega) (by omega)
    rw [Nat.add_zero] at hsecond
    rw [encodeChars, decodeChars, if_neg (digit_ne_pad (by omega)), if_pos rfl,
      firstByte_digits a (by omega), hsecond]
  | case4 a b c rest ih =>
    have hb := b.toNat_lt
    have hc := c.toNat_lt
    rw [encodeChars, decodeChars, if_neg (digit_ne_pad (by omega)),
      if_neg (digit_ne_pad (by omega)), ih, firstByte_digits a (by omega),
      secondByte_digits b _ (by omega) (by omega), thirdByte_digits c (by omega)]
    rfl

theorem mem_encodeChars {bytes : List UInt8} {c : Char} (h : c ∈ encodeChars bytes) :
    c ∈ pad :: alphabet := by
  have hpad : pad ∈ pad :: alphabet := List.mem_cons_self
  induction bytes using encodeChars.induct with
  | case1 => cases h
  | case2 a =>
    simp only [encodeChars, List.mem_cons, List.not_mem_nil, or_false] at h
    rcases h with rfl | rfl | rfl | rfl <;> first | exact digit_mem _ | exact hpad
  | case3 a b =>
    simp only [encodeChars, List.mem_cons, List.not_mem_nil, or_false] at h
    rcases h with rfl | rfl | rfl | rfl <;> first | exact digit_mem _ | exact hpad
  | case4 a b c rest ih =>
    simp only [encodeChars, List.mem_cons] at h
    rcases h with rfl | rfl | rfl | rfl | h <;> first | exact digit_mem _ | exact ih h

theorem length_encodeChars (bytes : List UInt8) :
    (encodeChars bytes).length = 4 * ((bytes.length + 2) / 3) := by
  induction bytes using encodeChars.induct with
  | case1 => rfl
  | case2 a => simp [encodeChars]
  | case3 a b => simp [encodeChars]
  | case4 a b c rest ih =>
    simp only [encodeChars, List.length_cons, ih]
    omega

theorem standard_lawful : standard.Lawful where
  decode_encode bytes := by
    change decodeChars (String.ofList (encodeChars bytes)).toList = some bytes
    rw [String.toList_ofList, decodeChars_encodeChars]
  encode_nil := rfl
  mem_alphabet bytes c hc := by
    change c ∈ (String.ofList (encodeChars bytes)).toList at hc
    rw [String.toList_ofList] at hc
    exact mem_encodeChars hc

example : standard.encode [0, 1, 2] = "AAEC" := by decide

end Ralph.Base64
