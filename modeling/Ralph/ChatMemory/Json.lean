import Ralph.ChatMemory.Basic

namespace Ralph.ChatMemory

def newline : UInt8 := 0x0A

/-- `u8::is_ascii_whitespace`. -/
def isAsciiWhitespace (b : UInt8) : Bool :=
  b == 0x20 || b == 0x09 || b == 0x0A || b == 0x0C || b == 0x0D

def blank (line : Bytes) : Bool := line.all isAsciiWhitespace

/-- The whitespace of the JSON grammar: unlike `isAsciiWhitespace`, no form feed. -/
def isJsonWhitespace (b : UInt8) : Bool := b == 0x20 || b == 0x09 || b == 0x0A || b == 0x0D

/-- The `serde_json` calls of the store: `from_slice` on the bytes of one line, with the
text of the error, and `to_string` with the bytes of the text. -/
structure Json where
  entry : Bytes → Except String NewEntry
  record : Bytes → Except String Record
  entryText : NewEntry → Except String Bytes
  recordText : Record → Except String Bytes

/-- A decoded `usize` fits its type. -/
def Json.Fits (J : Json) : Prop := ∀ b r, J.record b = .ok r → r.lo ≤ usizeMax ∧ r.hi ≤ usizeMax

/-- What the store relies on. A struct is written as one compact object on one line and
reads back as itself, a record also after leading whitespace; a record's object after
anything else is not one JSON value. -/
structure Json.Lawful (J : Json) : Prop where
  entry_text : ∀ e, ∃ b, J.entryText e = .ok b ∧ newline ∉ b ∧ b.head? = some 0x7B ∧ J.entry b = .ok e
  record_text : ∀ r : Record, r.lo ≤ usizeMax → r.hi ≤ usizeMax →
    ∃ b, J.recordText r = .ok b ∧ newline ∉ b ∧ b.head? = some 0x7B ∧
      ∀ w : Bytes, w.all isJsonWhitespace → J.record (w ++ b) = .ok r
  record_glued : ∀ (r : Record) (b t : Bytes), J.recordText r = .ok b →
    ¬ t.all isJsonWhitespace → ∀ r', J.record (t ++ b) ≠ .ok r'

end Ralph.ChatMemory
