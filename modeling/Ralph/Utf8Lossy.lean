import Mathlib.Tactic

namespace Ralph

abbrev Bytes := List UInt8

namespace Utf8Lossy

/-- `0b10xxxxxx`. -/
def isTail (b : UInt8) : Bool := b &&& 0xC0 == 0x80

def tailBits (b : UInt8) : ℕ := (b &&& 0x3F).toNat

/-- The second bytes that may follow a three-byte lead: no overlong form, no surrogate. -/
def secondOfThree (lead b : UInt8) : Bool :=
  if lead = 0xE0 then 0xA0 ≤ b && b ≤ 0xBF
  else if lead = 0xED then 0x80 ≤ b && b ≤ 0x9F
  else 0x80 ≤ b && b ≤ 0xBF

/-- The second bytes that may follow a four-byte lead: no overlong form, nothing past U+10FFFF. -/
def secondOfFour (lead b : UInt8) : Bool :=
  if lead = 0xF0 then 0x90 ≤ b && b ≤ 0xBF
  else if lead = 0xF4 then 0x80 ≤ b && b ≤ 0x8F
  else 0x80 ≤ b && b ≤ 0xBF

def replacement : Char := '\uFFFD'

/-- The first character and how many bytes after the lead it takes. An ill-formed sequence
is cut at the first byte that rules it out and reads as one U+FFFD. -/
def firstChar (lead : UInt8) (rest : Bytes) : Char × ℕ :=
  let get := fun i => rest.getD i 0
  if lead < 0x80 then (Char.ofNat lead.toNat, 0)
  else if 0xC2 ≤ lead ∧ lead ≤ 0xDF then
    if isTail (get 0) then
      (Char.ofNat ((lead &&& 0x1F).toNat * 64 + tailBits (get 0)), 1)
    else (replacement, 0)
  else if 0xE0 ≤ lead ∧ lead ≤ 0xEF then
    if !secondOfThree lead (get 0) then (replacement, 0)
    else if !isTail (get 1) then (replacement, 1)
    else (Char.ofNat (((lead &&& 0x0F).toNat * 64 + tailBits (get 0)) * 64 + tailBits (get 1)), 2)
  else if 0xF0 ≤ lead ∧ lead ≤ 0xF4 then
    if !secondOfFour lead (get 0) then (replacement, 0)
    else if !isTail (get 1) then (replacement, 1)
    else if !isTail (get 2) then (replacement, 2)
    else (Char.ofNat ((((lead &&& 0x07).toNat * 64 + tailBits (get 0)) * 64
      + tailBits (get 1)) * 64 + tailBits (get 2)), 3)
  else (replacement, 0)

/-- The characters from a buffer whose first `skip` bytes belong to the character before. -/
def chars : (skip : ℕ) → Bytes → List Char
  | _, [] => []
  | skip + 1, _ :: rest => chars skip rest
  | 0, lead :: rest => (firstChar lead rest).1 :: chars (firstChar lead rest).2 rest

end Utf8Lossy

/-- `String::from_utf8_lossy`. -/
def fromUtf8Lossy (bytes : Bytes) : String := String.ofList (Utf8Lossy.chars 0 bytes)

end Ralph
