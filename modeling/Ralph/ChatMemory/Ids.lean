import Ralph.ChatMemory.Range
import Ralph.Chat.Words
import Ralph.Decimal
import Ralph.Text

namespace Ralph.ChatMemory
open Fallible Decimal

/-- The closure `number` of the parsers: digits only, with no sign. -/
def number (bad p : String) : Except String ℕ :=
  if p = "" ∨ ¬ p.toList.all Char.isDigit then .error bad else okOr (Chat.parseUsize p) bad

theorem number_eq_ok {bad p : String} {n : ℕ} :
    number bad p = .ok n ↔ n ≤ usizeMax ∧ ∃ k, p = padded k n := by
  have hmax : n ≤ usizeMax ↔ n < 2 ^ 64 := by
    unfold usizeMax
    omega
  rw [number]
  split_ifs with hbad
  · refine iff_of_false (by simp) ?_
    rintro ⟨-, k, rfl⟩
    rcases hbad with hempty | hsign
    · exact padded_ne_nil k n (by rw [hempty]; rfl)
    · exact hsign (List.all_eq_true.2 fun c => isDigit_of_mem_padded)
  · rw [not_or, not_not, List.all_eq_true] at hbad
    obtain ⟨hempty, hdigits⟩ := hbad
    have hne : p.toList ≠ [] := by simpa using hempty
    rw [okOr_eq_ok, ← String.ofList_toList (s := p), Chat.parseUsize_digits hdigits,
      String.ofList_toList, hmax]
    constructor
    · rintro ⟨-, rfl, hfits⟩
      obtain ⟨k, hk⟩ := exists_padded hne hdigits
      exact ⟨hfits, k, String.toList_inj.1 hk⟩
    · rintro ⟨hfits, k, rfl⟩
      exact ⟨hne, (ofDigitChars_padded k n).symm, hfits⟩

/-- `checked_add(1)` on `usize`. -/
def checkedSucc (n : ℕ) : Option ℕ := if n < usizeMax then some (n + 1) else none

theorem checkedSucc_eq_some {n m : ℕ} : checkedSucc n = some m ↔ m = n + 1 ∧ m ≤ usizeMax := by
  unfold checkedSucc
  split_ifs with h
  · rw [Option.some.injEq, eq_comm]
    constructor
    · rintro rfl
      exact ⟨rfl, h⟩
    · exact And.left
  · refine iff_of_false (by simp) ?_
    rintro ⟨rfl, hfits⟩
    exact h hfits

def Node.badText (s : String) : String :=
  s!"'{s}' is not a node id. Use an index like 5 or a range like 4-7."

def Node.parse (s : String) : Except String Node := do
  let bad := Node.badText s
  let node ← match Text.splitOnce s '-' with
    | none => do
      let lo ← number bad s
      let hi ← okOr (checkedSucc lo) bad
      pure (Node.new lo hi)
    | some (a, b) => do
      let lo ← number bad a
      let last ← number bad b
      let hi ← okOr (checkedSucc last) bad
      pure (Node.new lo hi)
  node.mapError fun _ => s!"{s} is not a node. Copy an id printed by the view, like 16-31."

/-- The text is the entry of a leaf, or the first and the last entry of a block, with leading zeros or
without. -/
def Node.NamedBy (n : Node) (s : String) : Prop :=
  (∃ i, s = padded i n.lo ∧ n.hi = n.lo + 1) ∨
    ∃ i j last, s = s!"{padded i n.lo}-{padded j last}" ∧ n.hi = last + 1

/-- The texts that are parsed are the names of the blocks. -/
theorem Node.parse_eq_ok_iff {s : String} {n : Node} :
    Node.parse s = .ok n ↔ n.IsBlock ∧ n.hi ≤ usizeMax ∧ n.NamedBy s := by
  unfold Node.parse
  cases hsplit : Text.splitOnce s '-' with
  | none =>
    have hdash : '-' ∉ s.toList := Text.splitOnce_eq_none_iff.1 hsplit
    simp only [bind_eq_ok, pure_eq_ok, Except.ok.injEq, number_eq_ok, okOr_eq_ok, checkedSucc_eq_some,
      mapError_eq_ok, exists_eq_left', new_eq_ok_iff]
    constructor
    · rintro ⟨lo, ⟨-, i, rfl⟩, hi, ⟨rfl, hfits⟩, rfl, hblock⟩
      exact ⟨hblock, hfits, .inl ⟨i, rfl, rfl⟩⟩
    · rintro ⟨hblock, hfits, ⟨i, hs, hhi⟩ | ⟨i, j, last, hs, -⟩⟩
      · exact ⟨n.lo, ⟨by omega, i, hs⟩, n.hi, ⟨hhi, hfits⟩, rfl, hblock⟩
      · exact absurd (by simp [hs]) hdash
  | some parts =>
    obtain ⟨a, b⟩ := parts
    obtain ⟨hs, hdash⟩ := Text.splitOnce_eq_some_iff.1 hsplit
    simp only [bind_eq_ok, pure_eq_ok, Except.ok.injEq, number_eq_ok, okOr_eq_ok, checkedSucc_eq_some,
      mapError_eq_ok, exists_eq_left', new_eq_ok_iff]
    constructor
    · rintro ⟨lo, ⟨-, i, rfl⟩, last, ⟨-, j, rfl⟩, hi, ⟨rfl, hfits⟩, rfl, hblock⟩
      refine ⟨hblock, hfits, .inr ⟨i, j, last, ?_, rfl⟩⟩
      rw [← String.toList_inj, hs]
      simp
    · rintro ⟨hblock, hfits, ⟨i, hname, -⟩ | ⟨i, j, last, hname, hhi⟩⟩
      · refine absurd ?_ (notMem_padded (c := '-') (by decide) i n.lo)
        rw [← hname, hs]
        simp
      · rw [hname] at hs
        obtain ⟨hlo, hlast⟩ : (padded i n.lo).toList = a.toList ∧ (padded j last).toList = b.toList := by
          apply Text.append_cons_inj (notMem_padded (by decide) i n.lo) hdash
          simpa using hs
        rw [String.toList_inj] at hlo hlast
        have hfirst : n.lo ≤ usizeMax := hblock.lo_lt_hi.le.trans hfits
        have hend : last ≤ usizeMax := by omega
        exact ⟨n.lo, ⟨hfirst, i, hlo.symm⟩, last, ⟨hend, j, hlast.symm⟩, n.hi, ⟨hhi, hfits⟩, rfl, hblock⟩

theorem Node.IsBlock.namedBy_id {n : Node} (h : n.IsBlock) : n.NamedBy n.id := by
  have hlt := h.lo_lt_hi
  rw [Node.id, Node.size]
  split_ifs with hsize
  · exact .inl ⟨0, (padded_zero n.lo).symm, by omega⟩
  · refine .inr ⟨0, 0, n.hi - 1, ?_, by omega⟩
    rw [padded_zero, padded_zero]
    rfl

theorem Node.parse_id {n : Node} (h : n.IsBlock) (hfits : n.hi ≤ usizeMax) : Node.parse n.id = .ok n :=
  Node.parse_eq_ok_iff.2 ⟨h, hfits, h.namedBy_id⟩

/-- `Mode::from_marker`. -/
def Mode.fromMarker : Char → Option Mode
  | 'r' => some .raw
  | 's' => some .summary
  | _ => none

theorem Mode.fromMarker_eq_some {marker : Char} {mode : Mode} :
    Mode.fromMarker marker = some mode ↔ marker = mode.marker := by
  unfold Mode.fromMarker
  split
  · cases mode <;> simp [Mode.marker]
  · cases mode <;> simp [Mode.marker]
  · next hraw hsummary =>
    refine iff_of_false (by simp) ?_
    cases mode with
    | raw => exact hraw
    | summary => exact hsummary

theorem Mode.isDigit_marker (mode : Mode) : mode.marker.isDigit = false := by
  cases mode <;> rfl

namespace Cursor

def badText (s : String) : String :=
  s!"'{s}' is not a cursor. Copy the `next cursor:` value from the last page."

/-- The last character of the end, when it is not a digit, is the marker. -/
def splitMarker (stop : String) : String × Option Char :=
  match stop.toList.getLast?.filter fun c => !c.isDigit with
  | none => (stop, none)
  | some c => (Text.pop stop, some c)

def parse (s : String) : Except String Cursor := do
  let bad := badText s
  let (position, stop) ← okOr (Text.splitOnce s '@') bad
  let (next, offset) ← okOr (Text.splitOnce position '.') bad
  let (stop, marker) := splitMarker stop
  let next ← number bad next
  let offset ← number bad offset
  let stop ← number bad stop
  let marker ← okOr marker
    s!"cursor '{s}' has no mode marker: it is from an older format. Restart the read without a cursor, then copy the `next cursor:` value from each page."
  let mode ← okOr (Mode.fromMarker marker)
    s!"cursor '{s}' has an unknown mode marker '{marker}'. Use r or s, or copy the `next cursor:` value from the last page."
  pure ⟨next, offset, stop, mode⟩

theorem splitMarker_eq_some {stop digits : String} {marker : Char} :
    splitMarker stop = (digits, some marker) ↔
      stop.toList = digits.toList ++ [marker] ∧ marker.isDigit = false := by
  unfold splitMarker
  obtain hnil | ⟨init, last, hlast⟩ := List.eq_nil_or_concat stop.toList
  · simp [hnil]
  rw [List.concat_eq_append] at hlast
  have hpop : Text.pop stop = String.ofList init := by rw [Text.pop, hlast, List.dropLast_concat]
  rw [hlast, List.getLast?_concat, hpop, ← List.concat_eq_append, ← List.concat_eq_append,
    List.concat_inj]
  cases hdigit : last.isDigit with
  | true =>
    have hfilter : (some last).filter (fun c => !c.isDigit) = none := by simp [hdigit]
    rw [hfilter]
    refine iff_of_false (by simp) ?_
    rintro ⟨⟨-, rfl⟩, hmarker⟩
    rw [hdigit] at hmarker
    cases hmarker
  | false =>
    have hfilter : (some last).filter (fun c => !c.isDigit) = some last := by simp [hdigit]
    rw [hfilter, Prod.mk.injEq, Option.some.injEq, ← String.toList_inj, String.toList_ofList]
    exact ⟨fun h => ⟨h, h.2 ▸ hdigit⟩, And.left⟩

/-- The text of a cursor with leading zeros at its three numbers. -/
def spelling (c : Cursor) (i j k : ℕ) : String :=
  s!"{padded i c.next}.{padded j c.offset}@{padded k c.stop}{c.mode.marker}"

theorem toList_spelling (c : Cursor) (i j k : ℕ) : (c.spelling i j k).toList =
    (padded i c.next).toList ++ '.' :: (padded j c.offset).toList ++
      '@' :: ((padded k c.stop).toList ++ [c.mode.marker]) := by
  simp [spelling, Text.toList_toString_char]

theorem encode_eq_spelling (c : Cursor) : c.encode = c.spelling 0 0 0 := by
  rw [spelling, padded_zero, padded_zero, padded_zero]
  rfl

/-- The three numbers are of the type `usize`. -/
def Fits (c : Cursor) : Prop := c.next ≤ usizeMax ∧ c.offset ≤ usizeMax ∧ c.stop ≤ usizeMax

/-- The texts that are parsed are the spellings of the cursors. -/
theorem parse_eq_ok_iff {s : String} {c : Cursor} :
    parse s = .ok c ↔ c.Fits ∧ ∃ i j k, s = c.spelling i j k := by
  constructor
  · intro h
    unfold parse at h
    simp only [bind_eq_ok, okOr_eq_ok, number_eq_ok, Mode.fromMarker_eq_some, pure_eq_ok,
      Except.ok.injEq] at h
    obtain ⟨⟨position, stop⟩, hat, ⟨next, offset⟩, hdot, h⟩ := h
    obtain ⟨n, ⟨hn, i, hi⟩, o, ⟨ho, j, hj⟩, e, ⟨he, k, hk⟩, marker, hmarker, mode, rfl, rfl⟩ := h
    obtain rfl : next = padded i n := hi
    obtain rfl : offset = padded j o := hj
    refine ⟨⟨hn, ho, he⟩, i, j, k, ?_⟩
    obtain ⟨hs, -⟩ := Text.splitOnce_eq_some_iff.1 hat
    obtain ⟨hposition, -⟩ := Text.splitOnce_eq_some_iff.1 hdot
    have hstop : stop.toList = (padded k e).toList ++ [mode.marker] :=
      (splitMarker_eq_some.1 (Prod.ext hk hmarker)).1
    rw [← String.toList_inj, hs, hposition, hstop, toList_spelling]
  · rintro ⟨⟨hn, ho, he⟩, i, j, k, rfl⟩
    let position := s!"{padded i c.next}.{padded j c.offset}"
    let stop := s!"{padded k c.stop}{c.mode.marker}"
    have hat : Text.splitOnce (c.spelling i j k) '@' = some (position, stop) := by
      apply Text.splitOnce_append
      · simp [toList_spelling, position, stop, Text.toList_toString_char]
      · simp [position, notMem_padded]
    have hdot : Text.splitOnce position '.' = some (padded i c.next, padded j c.offset) :=
      Text.splitOnce_append (by simp [position]) (notMem_padded (by decide) i c.next)
    have hmarker : splitMarker stop = (padded k c.stop, some c.mode.marker) :=
      splitMarker_eq_some.2 ⟨by simp [stop, Text.toList_toString_char], c.mode.isDigit_marker⟩
    unfold parse
    simp only [bind_eq_ok, okOr_eq_ok, number_eq_ok, Mode.fromMarker_eq_some, pure_eq_ok,
      Except.ok.injEq]
    exact ⟨(position, stop), hat, (padded i c.next, padded j c.offset), hdot, c.next, ⟨hn, i, rfl⟩,
      c.offset, ⟨ho, j, rfl⟩, c.stop, ⟨he, k, congrArg Prod.fst hmarker⟩, c.mode.marker,
      congrArg Prod.snd hmarker, c.mode, rfl, rfl⟩

theorem parse_encode {c : Cursor} (h : c.Fits) : parse c.encode = .ok c :=
  parse_eq_ok_iff.2 ⟨h, 0, 0, 0, c.encode_eq_spelling⟩

end Cursor

/-- Node ids and read cursors are read back, and what is read names a block, or is the text of its
cursor with leading zeros. -/
theorem ids_and_cursors_read_back :
    (∀ n : Node, n.IsBlock → n.hi ≤ usizeMax → Node.parse n.id = .ok n) ∧
    (∀ s n, Node.parse s = .ok n → n.IsBlock ∧ n.hi ≤ usizeMax ∧ n.NamedBy s) ∧
    (∀ c : Cursor, c.Fits → Cursor.parse c.encode = .ok c) ∧
    ∀ s c, Cursor.parse s = .ok c →
      c.Fits ∧ c.encode = c.spelling 0 0 0 ∧ ∃ i j k, s = c.spelling i j k := by
  refine ⟨fun n => Node.parse_id, fun s n => Node.parse_eq_ok_iff.1, fun c => Cursor.parse_encode, ?_⟩
  intro s c h
  obtain ⟨hfits, hspelling⟩ := Cursor.parse_eq_ok_iff.1 h
  exact ⟨hfits, c.encode_eq_spelling, hspelling⟩

/-- The last block of sixteen entries that has an id, and a cursor with every number at its bound. -/
theorem ids_and_cursors_read_back_edge :
    Node.parse (Node.block 4 (2 ^ 60 - 2)).id = .ok (Node.block 4 (2 ^ 60 - 2)) ∧
    (⟨4, 8⟩ : Node).NamedBy "04-007" ∧
    Cursor.parse (⟨usizeMax, usizeMax, usizeMax, .summary⟩ : Cursor).encode =
      .ok ⟨usizeMax, usizeMax, usizeMax, .summary⟩ ∧
    ∃ i j k, "01.00@005r" = (⟨1, 0, 5, .raw⟩ : Cursor).spelling i j k := by
  obtain ⟨hid, hname, hencode, hspelling⟩ := ids_and_cursors_read_back
  refine ⟨hid _ ⟨4, _, rfl⟩ (by decide), (hname "04-007" ⟨4, 8⟩ (by decide)).2.2,
    hencode _ ⟨le_rfl, le_rfl, le_rfl⟩, (hspelling "01.00@005r" ⟨1, 0, 5, .raw⟩ (by decide)).2.2⟩

end Ralph.ChatMemory
