import Ralph.Chunked
import Ralph.Loop
import Ralph.Text
import Ralph.Utf8Lossy

namespace Ralph.Wire.Sse
open Chunked

structure SseEvent where
  event : Option String
  data : String
  deriving DecidableEq, Repr

structure SseDecoder where
  buffer : Bytes := []
  bomChecked : Bool := false
  event : Option String := none
  data : String := ""
  deriving DecidableEq, Repr

def bom : Bytes := [0xEF, 0xBB, 0xBF]
def lf : UInt8 := 0x0A
def cr : UInt8 := 0x0D

def isLineEnd (b : UInt8) : Bool := b == lf || b == cr

/-- The end of the line that begins at `start` and the start of the next one. A CR at the
end of the buffer may be half of a CRLF, so it ends no line yet. -/
def nextLine (buffer : Bytes) (start : ℕ) : Option (ℕ × ℕ) :=
  match (buffer.drop start).findIdx? isLineEnd with
  | none => none
  | some offset =>
    let lineEnd := start + offset
    if buffer[lineEnd]? = some lf then some (lineEnd, lineEnd + 1)
    else
      match buffer[lineEnd + 1]? with
      | some b => if b = lf then some (lineEnd, lineEnd + 2) else some (lineEnd, lineEnd + 1)
      | none => none

/-- One line of the stream: a blank line dispatches, a comment is skipped, a field is kept. -/
def line (d : SseDecoder) (text : String) : SseDecoder × Option SseEvent :=
  if text = "" then
    if d.data = "" then ({ d with event := none }, none)
    else ({ d with event := none, data := "" }, some ⟨d.event, Text.pop d.data⟩)
  else if text.toList.head? = some ':' then (d, none)
  else
    let (field, value) := (Text.splitOnce text ':').getD (text, "")
    let value := (Text.stripPrefix value ' ').getD value
    if field = "event" then ({ d with event := some value }, none)
    else if field = "data" then ({ d with data := d.data ++ value ++ "\n" }, none)
    else (d, none)

theorem nextLine_bounds {buffer : Bytes} {start e n : ℕ} (h : nextLine buffer start = some (e, n)) :
    start ≤ e ∧ e < n ∧ n ≤ buffer.length := by
  unfold nextLine at h
  split at h
  · simp at h
  · next offset ho =>
    have hlt : offset < (buffer.drop start).length := (List.findIdx?_eq_some_iff_findIdx_eq.mp ho).1
    rw [List.length_drop] at hlt
    dsimp only at h
    split at h
    · simp only [Option.some.injEq, Prod.mk.injEq] at h
      omega
    · split at h
      · next b hb =>
        have hl := (List.getElem?_eq_some_iff.mp hb).1
        split at h <;> simp only [Option.some.injEq, Prod.mk.injEq] at h <;> omega
      · simp at h

/-- The lines of one push: where the next line starts, the decoder and the events so far. -/
def lineLoop (buffer : Bytes) :
    Loop.Body (ℕ × SseDecoder × List SseEvent) (ℕ × SseDecoder × List SseEvent) where
  step := fun (start, d, events) =>
    match nextLine buffer start with
    | none => .inr (start, d, events)
    | some (e, n) =>
      let (d', event) := line d (fromUtf8Lossy ((buffer.take e).drop start))
      .inl (n, d', events ++ event.toList)
  measure := fun (start, _, _) => buffer.length - start
  decreases := by
    rintro ⟨start, d, events⟩ s' h
    dsimp only at h
    split at h
    · simp at h
    · next e n hn =>
      have hb := nextLine_bounds hn
      obtain rfl := Sum.inl.inj h
      dsimp only
      omega

/-- Too short to tell whether the stream begins with a BOM. -/
def Undecided (buffer : Bytes) : Prop := buffer.length < bom.length ∧ buffer <+: bom

instance (buffer : Bytes) : Decidable (Undecided buffer) := inferInstanceAs (Decidable (_ ∧ _))

def stripBom (buffer : Bytes) : Bytes := if bom <+: buffer then buffer.drop bom.length else buffer

def push (d : SseDecoder) (chunk : Bytes) : SseDecoder × List SseEvent :=
  let buffer := d.buffer ++ chunk
  if d.bomChecked = false ∧ Undecided buffer then ({ d with buffer }, [])
  else
    let buffer := if d.bomChecked then buffer else stripBom buffer
    let (start, d', events) := (lineLoop buffer).run (0, { d with buffer, bomChecked := true }, [])
    ({ d' with buffer := buffer.drop start }, events)

/-- Looking for a line from `start` is looking at what comes after it. -/
theorem nextLine_drop (buffer : Bytes) (start : ℕ) :
    nextLine buffer start =
      (nextLine (buffer.drop start) 0).map fun (e, n) => (start + e, start + n) := by
  unfold nextLine
  rw [List.drop_zero]
  cases (buffer.drop start).findIdx? isLineEnd with
  | none => rfl
  | some offset =>
    simp only [List.getElem?_drop, Nat.zero_add, ← Nat.add_assoc]
    split_ifs
    · rfl
    · cases buffer[start + offset + 1]? with
      | none => rfl
      | some b => dsimp only; split_ifs <;> rfl

theorem nextLine_append {x y : Bytes} {e n : ℕ} (h : nextLine x 0 = some (e, n)) :
    nextLine (x ++ y) 0 = some (e, n) := by
  unfold nextLine at h ⊢
  rw [List.drop_zero] at h ⊢
  rw [List.findIdx?_append]
  cases hx : x.findIdx? isLineEnd with
  | none => simp only [hx, reduceCtorEq] at h
  | some offset =>
    have hlt : offset < x.length := (List.findIdx?_eq_some_iff_findIdx_eq.mp hx).1
    simp only [hx, Nat.zero_add, Option.some_or, List.getElem?_append_left hlt] at h ⊢
    split_ifs at h ⊢ with hlf
    · exact h
    · cases hb : x[offset + 1]? with
      | none => simp [hb] at h
      | some b =>
        have hl := (List.getElem?_eq_some_iff.mp hb).1
        rw [List.getElem?_append_left hl]
        exact h

/-- The first line's bytes and what follows its end. -/
def firstLine (x : Bytes) : Option (Bytes × Bytes) :=
  (nextLine x 0).map fun (e, n) => (x.take e, x.drop n)

theorem firstLine_of_nextLine {x : Bytes} {e n : ℕ} (h : nextLine x 0 = some (e, n)) :
    firstLine x = some (x.take e, x.drop n) := by
  rw [firstLine, h, Option.map_some]

theorem nextLine_of_firstLine {x g r : Bytes} (h : firstLine x = some (g, r)) :
    ∃ e n, nextLine x 0 = some (e, n) ∧ g = x.take e ∧ r = x.drop n := by
  obtain ⟨⟨e, n⟩, hn, hr⟩ := Option.map_eq_some_iff.mp h
  obtain ⟨rfl, rfl⟩ := Prod.mk.inj hr
  exact ⟨e, n, hn, rfl, rfl⟩

/-- The lines of a buffer as a scanner. -/
def lineScanner : Scanner UInt8 Bytes where
  next := firstLine
  shrinks := by
    intro x g r h
    obtain ⟨e, n, hn, rfl, rfl⟩ := nextLine_of_firstLine h
    have hb := nextLine_bounds hn
    rw [List.length_drop]
    omega
  stable := by
    intro x y g r h
    obtain ⟨e, n, hn, rfl, rfl⟩ := nextLine_of_firstLine h
    have hb := nextLine_bounds hn
    rw [firstLine_of_nextLine (nextLine_append hn), List.take_append_of_le_length (by omega),
      List.drop_append_of_le_length hb.2.2]

/-- Complete lines, one after another. -/
def lines (d : SseDecoder) : List Bytes → SseDecoder × List SseEvent
  | [] => (d, [])
  | l :: ls =>
    let (d', event) := line d (fromUtf8Lossy l)
    ((lines d' ls).1, event.toList ++ (lines d' ls).2)

theorem lines_append (d : SseDecoder) (xs ys : List Bytes) :
    lines d (xs ++ ys) =
      ((lines (lines d xs).1 ys).1, (lines d xs).2 ++ (lines (lines d xs).1 ys).2) := by
  induction xs generalizing d with
  | nil => rfl
  | cons x xs ih => simp [lines, ih]

/-- A line touches neither the buffer nor the BOM flag. -/
theorem line_frame (d : SseDecoder) (buffer : Bytes) (text : String) :
    line { d with buffer } text = ({ (line d text).1 with buffer }, (line d text).2) ∧
      (line d text).1.bomChecked = d.bomChecked := by
  unfold line
  dsimp only
  split_ifs <;> exact ⟨rfl, rfl⟩

theorem lines_frame (d : SseDecoder) (buffer : Bytes) (ls : List Bytes) :
    lines { d with buffer } ls = ({ (lines d ls).1 with buffer }, (lines d ls).2) ∧
      (lines d ls).1.bomChecked = d.bomChecked := by
  induction ls generalizing d with
  | nil => exact ⟨rfl, rfl⟩
  | cons l ls ih =>
    have hl := line_frame d buffer (fromUtf8Lossy l)
    have hr := ih (line d (fromUtf8Lossy l)).1
    simp only [lines, hl.1]
    exact ⟨by rw [hr.1], hr.2.trans hl.2⟩

/-- The loop of a push drains the buffer from `start` on and hands each line to the decoder. -/
theorem lineLoop_run (buffer : Bytes) (start : ℕ) (d : SseDecoder) (events : List SseEvent) :
    let drained := lineScanner.drain (buffer.drop start)
    let result := (lineLoop buffer).run (start, d, events)
    buffer.drop result.1 = drained.2 ∧ result.2.1 = (lines d drained.1).1 ∧
      result.2.2 = events ++ (lines d drained.1).2 := by
  refine (lineLoop buffer).run_induction (fun s result =>
    let drained := lineScanner.drain (buffer.drop s.1)
    buffer.drop result.1 = drained.2 ∧ result.2.1 = (lines s.2.1 drained.1).1 ∧
      result.2.2 = s.2.2 ++ (lines s.2.1 drained.1).2) ?_ ?_ (start, d, events)
  · rintro ⟨start, d, events⟩ r h
    simp only [lineLoop] at h
    split at h
    · next hn =>
      obtain rfl := Sum.inr.inj h
      rw [nextLine_drop, Option.map_eq_none_iff] at hn
      have hnext : lineScanner.next (buffer.drop start) = none := by
        simp only [lineScanner, firstLine, hn, Option.map_none]
      simp only [lineScanner.drain_of_none hnext, lines, List.append_nil, and_self]
    · simp at h
  · rintro ⟨start, d, events⟩ s' r h ih
    simp only [lineLoop] at h
    split at h
    · simp at h
    · next e n hn =>
      obtain rfl := Sum.inl.inj h
      rw [nextLine_drop, Option.map_eq_some_iff] at hn
      obtain ⟨⟨e', n'⟩, hn', he⟩ := hn
      obtain ⟨rfl, rfl⟩ := Prod.mk.inj he
      have hnext : lineScanner.next (buffer.drop start) =
          some ((buffer.drop start).take e', buffer.drop (start + n')) := by
        rw [← List.drop_drop]
        exact firstLine_of_nextLine hn'
      have hslice : (buffer.take (start + e')).drop start = (buffer.drop start).take e' := by
        rw [List.drop_take, Nat.add_sub_cancel_left]
      simp only [hslice] at ih
      simp only [lineScanner.drain_of_some hnext, lines]
      exact ⟨ih.1, ih.2.1, by rw [ih.2.2, List.append_assoc]⟩

theorem Undecided.of_append {x y : Bytes} (h : Undecided (x ++ y)) : Undecided x := by
  refine ⟨?_, (List.prefix_append x y).trans h.2⟩
  have := h.1
  rw [List.length_append] at this
  omega

/-- Once the question is settled, later bytes do not change the answer. -/
theorem stripBom_append {x : Bytes} (y : Bytes) (h : ¬ Undecided x) :
    stripBom (x ++ y) = stripBom x ++ y := by
  unfold stripBom
  by_cases hx : bom <+: x
  · rw [if_pos hx, if_pos (hx.trans (List.prefix_append x y)),
      List.drop_append_of_le_length hx.length_le]
  · have hxy : ¬ bom <+: x ++ y := by
      intro hb
      rcases Nat.lt_or_ge x.length bom.length with hl | hl
      · exact h ⟨hl, List.prefix_of_prefix_length_le (List.prefix_append x y) hb hl.le⟩
      · exact hx (List.prefix_of_prefix_length_le hb (List.prefix_append x y) hl)
    rw [if_neg hx, if_neg hxy]

theorem push_undecided {d : SseDecoder} {chunk : Bytes} (hb : d.bomChecked = false)
    (h : Undecided (d.buffer ++ chunk)) :
    push d chunk = ({ d with buffer := d.buffer ++ chunk }, []) := by
  rw [push, if_pos ⟨hb, h⟩]

/-- What a push does with a buffer whose BOM question is settled. -/
def decode (d : SseDecoder) (buffer : Bytes) : SseDecoder × List SseEvent :=
  let drained := lineScanner.drain buffer
  let result := lines { d with bomChecked := true } drained.1
  ({ result.1 with buffer := drained.2 }, result.2)

theorem decode_eq_lineLoop (d : SseDecoder) (buffer : Bytes) :
    decode d buffer =
      (let r := (lineLoop buffer).run (0, { d with buffer, bomChecked := true }, [])
       ({ r.2.1 with buffer := buffer.drop r.1 }, r.2.2)) := by
  obtain ⟨hstart, hd, hevents⟩ := lineLoop_run buffer 0 { d with buffer, bomChecked := true } []
  rw [List.drop_zero] at hstart hd hevents
  have hframe := (lines_frame { d with bomChecked := true } buffer (lineScanner.drain buffer).1).1
  dsimp only at hframe ⊢
  rw [hstart, hd, hevents, List.nil_append, hframe]
  rfl

theorem push_checked {d : SseDecoder} (chunk : Bytes) (hb : d.bomChecked = true) :
    push d chunk = decode d (d.buffer ++ chunk) := by
  rw [push, if_neg (by simp [hb]), if_pos hb, decode_eq_lineLoop]

theorem push_decided {d : SseDecoder} {chunk : Bytes} (hb : d.bomChecked = false)
    (h : ¬ Undecided (d.buffer ++ chunk)) :
    push d chunk = decode d (stripBom (d.buffer ++ chunk)) := by
  rw [push, if_neg (fun hc => h hc.2), if_neg (by simp [hb]), decode_eq_lineLoop]

/-- Decoding a buffer and later its rest with more input is decoding it all at once. -/
theorem decode_append (d : SseDecoder) (x y : Bytes) :
    decode d (x ++ y) =
      ((push (decode d x).1 y).1, (decode d x).2 ++ (push (decode d x).1 y).2) := by
  have hchecked : (decode d x).1.bomChecked = true :=
    (lines_frame { d with bomChecked := true } [] _).2
  have hself : { (decode d x).1 with bomChecked := true } = (decode d x).1 := by
    rw [← hchecked]
  rw [push_checked y hchecked, decode, decode, hself]
  simp only [decode]
  rw [lineScanner.drain_append]
  dsimp only
  generalize lineScanner.drain ((lineScanner.drain x).2 ++ y) = later
  rw [lines_append, (lines_frame _ (lineScanner.drain x).2 later.1).1]

theorem push_additive : Additive push := by
  intro d a b
  cases hb : d.bomChecked with
  | true =>
    rw [push_checked _ hb, push_checked _ hb, ← List.append_assoc, decode_append]
  | false =>
    by_cases ha : Undecided (d.buffer ++ a)
    · -- nothing was decided by `a`, so the second push sees the whole buffer
      rw [push_undecided hb ha]
      simp only [push, ← List.append_assoc, List.nil_append]
    · have hab : ¬ Undecided (d.buffer ++ (a ++ b)) := by
        rw [← List.append_assoc]
        exact fun h => ha h.of_append
      rw [push_decided hb ha, push_decided hb hab, ← List.append_assoc, stripBom_append b ha,
        decode_append]

/-- However a byte string is cut, the decoder sends the same events and ends in the same state. -/
theorem sse_chunk_boundaries (chunks : List Bytes) :
    feed push {} chunks = push {} chunks.flatten :=
  feed_eq_push_flatten push_additive {} (by decide) chunks

end Ralph.Wire.Sse
