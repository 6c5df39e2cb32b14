import Ralph.Lines
import Ralph.Text
import Ralph.Utf8Decoder

namespace Ralph.LossyLines
open Utf8Lossy

def newline : UInt8 := 0x0A

/-- The text of whole lines, and of what follows them. -/
theorem fromUtf8Lossy_line_append (x y : Bytes) :
    ∃ line, fromUtf8Lossy (x ++ newline :: y) = line ++ "\n" ++ fromUtf8Lossy y ∧
      fromUtf8Lossy (x ++ [newline]) = line ++ "\n" := by
  have hnewline : newline < 0x80 := by decide
  refine ⟨fromUtf8Lossy x, ?_, ?_⟩
  · rw [fromUtf8Lossy, Utf8Strict.chars_ascii_append x hnewline y, ← String.toList_inj]
    simp [fromUtf8Lossy, newline]
  · rw [fromUtf8Lossy, Utf8Strict.chars_ascii_append x hnewline [], ← String.toList_inj]
    simp [fromUtf8Lossy, newline, chars]

theorem lines_newline (a : String) : Text.lines (a ++ "\n") =
    (Text.parts a).map (Text.chomp ∘ String.ofList) := by
  have hempty : Text.parts "" = [[]] := rfl
  have hnl := Text.parts_newline a ""
  rw [String.append_empty, hempty] at hnl
  rw [Text.lines_eq, hnl, Text.ended, List.dropLast_concat, List.getLast?_concat]
  simp

theorem lines_newline_append (a b : String) :
    Text.lines (a ++ "\n" ++ b) = Text.lines (a ++ "\n") ++ Text.lines b := by
  rw [lines_newline, Text.lines_eq, Text.lines_eq, Text.parts_newline]
  obtain ⟨p, ps, hps⟩ := List.exists_cons_of_ne_nil (Text.parts_ne_nil b)
  rw [hps]
  induction Text.parts a with
  | nil => rfl
  | cons q qs ih =>
    rw [List.map_cons, List.cons_append, List.cons_append, ← ih]
    cases qs with
    | nil => exact Text.ended_cons_cons q p ps
    | cons r qs => exact Text.ended_cons_cons q r (qs ++ p :: ps)

/-- Bytes that end at a line end are read on their own. -/
theorem lines_fromUtf8Lossy_append {x : Bytes} (h : Lines.Whole newline x) (y : Bytes) :
    Text.lines (fromUtf8Lossy (x ++ y)) =
      Text.lines (fromUtf8Lossy x) ++ Text.lines (fromUtf8Lossy y) := by
  rcases h.eq_nil_or_concat with hnil | ⟨z, hz⟩
  · rw [hnil, List.nil_append]
    exact (congrArg (· ++ Text.lines (fromUtf8Lossy y)) Text.lines_empty).symm
  · obtain ⟨line, happend, hline⟩ := fromUtf8Lossy_line_append z y
    rw [hz, hline, List.append_assoc, List.singleton_append, happend, lines_newline_append]

end Ralph.LossyLines
