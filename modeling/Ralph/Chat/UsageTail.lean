import Ralph.LossyLines

namespace Ralph.Chat
open LossyLines

/-- The fields that the tail looks at, and the others as they were read. -/
structure UsageLine (Fields : Type*) where
  kind : String
  run : Option String
  fields : Fields

/-- Device and inode. -/
abbrev FileId := Option (ℕ × ℕ)

structure FileStamp where
  id : FileId
  len : ℕ
  deriving DecidableEq, Repr

/-- `FileStamp::default`: there is no file. -/
def FileStamp.missing : FileStamp := ⟨none, 0⟩

structure UsageTail (Fields : Type*) where
  file : FileId
  offset : ℕ
  rows : List (UsageLine Fields)

structure TailRead where
  start : ℕ
  reset : Bool
  deriving DecidableEq, Repr

variable {Fields : Type*}

def UsageTail.startingAt (stamp : FileStamp) : UsageTail Fields := ⟨stamp.id, stamp.len, []⟩

/-- `parse` is `serde_json` on one line. -/
def sessionRows (parse : String → Option (UsageLine Fields)) (usageJsonl run : String) :
    List (UsageLine Fields) :=
  (((Text.lines usageJsonl).filterMap parse).filter fun usage =>
    usage.kind == "turn" || usage.kind == "ping").filter fun usage => usage.run == some run

def tailRead (tail : UsageTail Fields) (stamp : FileStamp) : TailRead :=
  let reset := tail.file != stamp.id || decide (stamp.len < tail.offset)
  ⟨if reset then 0 else tail.offset, reset⟩

/-- The end of the last whole line. -/
def consumed (chunk : Bytes) : ℕ := ((Lines.rposition newline chunk).map (· + 1)).getD 0

def absorbUsage (parse : String → Option (UsageLine Fields)) (run : String) (tail : UsageTail Fields)
    (stamp : FileStamp) (read : TailRead) (chunk : Bytes) : UsageTail Fields :=
  let rows := if read.reset then [] else tail.rows
  { file := stamp.id
    offset := read.start + consumed chunk
    rows := rows ++ sessionRows parse (fromUtf8Lossy (chunk.take (consumed chunk))) run }

/-- A file that was opened: what it held when it was stamped, and when it was read to its end. -/
structure Opened where
  id : FileId
  stamped : Bytes
  content : Bytes

def Opened.stamp (o : Opened) : FileStamp := ⟨o.id, o.stamped.length⟩

def readUsageSince (parse : String → Option (UsageLine Fields)) (run : String)
    (tail : UsageTail Fields) : Option Opened → UsageTail Fields
  | none =>
    absorbUsage parse run tail FileStamp.missing (tailRead tail FileStamp.missing) []
  | some o =>
    let read := tailRead tail o.stamp
    absorbUsage parse run tail o.stamp read (o.content.drop read.start)

/-- The file `id` only grows, from one look at it to the next. -/
def Grows (id : FileId) : Bytes → List Opened → Prop
  | _, [] => True
  | held, o :: os => o.id = id ∧ held <+: o.stamped ∧ o.stamped <+: o.content ∧ Grows id o.content os

/-- The lines that have ended, each with its end. -/
def wholeLines (bytes : Bytes) : Bytes := Lines.join newline (Lines.cut newline bytes).1

/-- One parse of some bytes that lie at an offset of the file. -/
def parsedAt (parse : String → Option (UsageLine Fields)) (run : String) (id : FileId) (start : ℕ)
    (bytes : Bytes) : UsageTail Fields :=
  ⟨id, start + (wholeLines bytes).length, sessionRows parse (fromUtf8Lossy (wholeLines bytes)) run⟩

theorem consumed_eq (chunk : Bytes) :
    consumed chunk = (Lines.join newline (Lines.cut newline chunk).1).length := by
  rw [Lines.length_join_cut, consumed]
  cases Lines.rposition newline chunk <;> rfl

/-- The whole lines of a chunk. -/
theorem take_consumed (chunk : Bytes) :
    chunk.take (consumed chunk) = Lines.join newline (Lines.cut newline chunk).1 := by
  calc chunk.take (consumed chunk)
      = (Lines.join newline (Lines.cut newline chunk).1 ++ (Lines.cut newline chunk).2).take
          (Lines.join newline (Lines.cut newline chunk).1).length := by
        rw [Lines.join_cut, consumed_eq]
    _ = Lines.join newline (Lines.cut newline chunk).1 := List.take_left

theorem whole_take_consumed (chunk : Bytes) : Lines.Whole newline (chunk.take (consumed chunk)) := by
  rw [take_consumed]
  exact Lines.whole_join newline (Lines.notMem_cut newline chunk).1

/-- What is consumed of a longer chunk goes on where the first part was cut. -/
theorem consumed_append (x y : Bytes) (hx : Lines.Whole newline x) :
    consumed (x ++ y) = x.length + consumed y := by
  rw [consumed_eq, consumed_eq, hx.cut_append, Lines.join_append, List.length_append,
    ← hx.eq_join]

theorem sessionRows_append (parse : String → Option (UsageLine Fields)) (run : String) {x : Bytes}
    (hx : Lines.Whole newline x) (y : Bytes) :
    sessionRows parse (fromUtf8Lossy (x ++ y)) run =
      sessionRows parse (fromUtf8Lossy x) run ++ sessionRows parse (fromUtf8Lossy y) run := by
  rw [sessionRows, lines_fromUtf8Lossy_append hx, List.filterMap_append, List.filter_append,
    List.filter_append]
  rfl

theorem tailRead_of_grown {tail : UsageTail Fields} {stamp : FileStamp} (hid : tail.file = stamp.id)
    (hlen : tail.offset ≤ stamp.len) : tailRead tail stamp = ⟨tail.offset, false⟩ := by
  rw [tailRead, hid]
  simp [Nat.not_lt.2 hlen]

section Growing
variable (parse : String → Option (UsageLine Fields)) (run : String)

/-- One read from the offset of `tail`, up to the last whole line of what the file then holds. -/
def single (tail : UsageTail Fields) (o : Opened) : UsageTail Fields :=
  absorbUsage parse run tail o.stamp ⟨tail.offset, false⟩ (o.content.drop tail.offset)

theorem single_eq (tail : UsageTail Fields) (o : Opened) :
    single parse run tail o =
      ⟨o.id, tail.offset + consumed (o.content.drop tail.offset),
        tail.rows ++ sessionRows parse (fromUtf8Lossy ((o.content.drop tail.offset).take
          (consumed (o.content.drop tail.offset)))) run⟩ := rfl

theorem offset_single_le (tail : UsageTail Fields) (o : Opened)
    (hlen : tail.offset ≤ o.content.length) : (single parse run tail o).offset ≤ o.content.length := by
  have hcut := Lines.join_cut newline (o.content.drop tail.offset)
  have htotal := congrArg List.length hcut
  rw [List.length_append, List.length_drop, ← consumed_eq] at htotal
  show tail.offset + consumed (o.content.drop tail.offset) ≤ o.content.length
  omega

theorem readUsageSince_eq_single {tail : UsageTail Fields} {o : Opened} (hid : tail.file = o.id)
    (hlen : tail.offset ≤ o.stamped.length) :
    readUsageSince parse run tail (some o) = single parse run tail o := by
  have hkept : tailRead tail o.stamp = ⟨tail.offset, false⟩ := tailRead_of_grown hid hlen
  rw [readUsageSince, hkept]
  rfl

/-- A read after a single read is the single read of the longer file. -/
theorem single_single {tail : UsageTail Fields} {o o' : Opened} (hid : o'.id = o.id)
    (hlen : tail.offset ≤ o.content.length) (hgrown : o.content <+: o'.stamped)
    (hread : o'.stamped <+: o'.content) :
    readUsageSince parse run (single parse run tail o) (some o') = single parse run tail o' := by
  have hoffset := offset_single_le parse run tail o hlen
  have hread' : readUsageSince parse run (single parse run tail o) (some o') =
      single parse run (single parse run tail o) o' :=
    readUsageSince_eq_single parse run hid.symm (hoffset.trans hgrown.length_le)
  obtain ⟨more, hmore⟩ := hgrown.trans hread
  set x := o.content.drop tail.offset with hx
  -- the lines that were consumed, then the rest of the chunk with what was written since
  have hsplit : o'.content.drop tail.offset =
      x.take (consumed x) ++ o'.content.drop (tail.offset + consumed x) := by
    have hdrop : o'.content.drop tail.offset = x ++ more := by
      rw [← hmore, List.drop_append_of_le_length hlen]
    have hfits : consumed x ≤ x.length := by
      rw [consumed_eq]
      have htotal := congrArg List.length (Lines.join_cut newline x)
      rw [List.length_append] at htotal
      omega
    rw [← List.drop_drop, hdrop, List.drop_append_of_le_length hfits, ← List.append_assoc,
      List.take_append_drop]
  have hwhole := whole_take_consumed x
  have hlength : (x.take (consumed x)).length = consumed x := by
    rw [take_consumed, ← consumed_eq]
  have hstart : (single parse run tail o).offset = tail.offset + consumed x := rfl
  have hrows : (single parse run tail o).rows =
      tail.rows ++ sessionRows parse (fromUtf8Lossy (x.take (consumed x))) run := rfl
  rw [hread', single_eq parse run (single parse run tail o), single_eq parse run tail o', hstart, hrows,
    hsplit, consumed_append _ _ hwhole, List.take_length_add_append,
    sessionRows_append parse run hwhole, hlength, Nat.add_assoc, List.append_assoc]

theorem reads_after_single {id : FileId} {tail : UsageTail Fields} (os : List Opened)
    {first last : Opened} (hid : first.id = id) (hlen : tail.offset ≤ first.content.length)
    (hgrows : Grows id first.content (os ++ [last])) :
    (os ++ [last]).foldl (fun tail o => readUsageSince parse run tail (some o))
      (single parse run tail first) = single parse run tail last := by
  induction os generalizing first with
  | nil =>
    obtain ⟨hid', hgrown, hread, -⟩ := hgrows
    exact single_single parse run (hid'.trans hid.symm) hlen hgrown hread
  | cons o os ih =>
    obtain ⟨hid', hgrown, hread, hrest⟩ := hgrows
    rw [List.cons_append, List.foldl_cons,
      single_single parse run (hid'.trans hid.symm) hlen hgrown hread]
    exact ih hid' (hlen.trans (hgrown.trans hread).length_le) hrest

/-- A file that only grows is read as if once, however the reads are placed. -/
theorem reads_eq_single {id : FileId} {held : Bytes} {tail : UsageTail Fields} (os : List Opened)
    {last : Opened} (hid : tail.file = id) (hlen : tail.offset ≤ held.length)
    (hgrows : Grows id held (os ++ [last])) :
    (os ++ [last]).foldl (fun tail o => readUsageSince parse run tail (some o)) tail =
      single parse run tail last := by
  cases os with
  | nil =>
    obtain ⟨hid', hgrown, -⟩ := hgrows
    exact readUsageSince_eq_single parse run (hid.trans hid'.symm) (hlen.trans hgrown.length_le)
  | cons o os =>
    obtain ⟨hid', hgrown, hread, hrest⟩ := hgrows
    rw [List.cons_append, List.foldl_cons,
      readUsageSince_eq_single parse run (hid.trans hid'.symm) (hlen.trans hgrown.length_le)]
    exact reads_after_single parse run os hid' (hlen.trans (hgrown.trans hread).length_le) hrest

end Growing

theorem absorbUsage_eq_parsedAt (parse : String → Option (UsageLine Fields)) (run : String)
    (tail : UsageTail Fields) (stamp : FileStamp) (read : TailRead) (chunk : Bytes)
    (hrows : read.reset ∨ tail.rows = []) :
    absorbUsage parse run tail stamp read chunk = parsedAt parse run stamp.id read.start chunk := by
  have hnone : (if read.reset then [] else tail.rows) = [] := by
    rcases hrows with hreset | hrows
    · exact if_pos hreset
    · rw [hrows, ite_self]
  rw [absorbUsage, parsedAt, wholeLines, take_consumed, ← consumed_eq, hnone, List.nil_append]

/-- What the reads of a growing file gather is the rows of the whole lines behind the starting
offset and where they end, and a replaced or shortened file is read again from its start. -/
theorem usageTail_exact (parse : String → Option (UsageLine Fields)) (run : String) :
    (∀ id held os last, Grows id held (os ++ [last]) →
      (os ++ [last]).foldl (fun tail o => readUsageSince parse run tail (some o))
          (UsageTail.startingAt ⟨id, held.length⟩) =
        parsedAt parse run last.id held.length (last.content.drop held.length)) ∧
    ∀ (tail : UsageTail Fields) (stamp : FileStamp) (chunk : Bytes),
      tail.file ≠ stamp.id ∨ stamp.len < tail.offset →
        (tailRead tail stamp).start = 0 ∧
        absorbUsage parse run tail stamp (tailRead tail stamp) chunk =
          parsedAt parse run stamp.id 0 chunk := by
  refine ⟨fun id held os last hgrows => ?_, fun tail stamp chunk hother => ?_⟩
  · rw [reads_eq_single parse run os rfl (Nat.le_refl _) hgrows, single,
      absorbUsage_eq_parsedAt _ _ _ _ _ _ (.inr rfl)]
    rfl
  · have hreset : tailRead tail stamp = ⟨0, true⟩ := by
      rw [tailRead]
      rcases hother with hid | hlen
      · simp [hid]
      · simp [hlen]
    rw [hreset]
    exact ⟨rfl, absorbUsage_eq_parsedAt _ _ _ _ _ _ (.inl rfl)⟩

/-- Two reads, the first in the middle of a line. -/
theorem usageTail_torn :
    let parse := fun line => some (⟨"turn", some "r", line⟩ : UsageLine String)
    let start : UsageTail String := UsageTail.startingAt ⟨some (1, 2), 0⟩
    let whole : Bytes := [0x61, 0x0A, 0x62, 0x63, 0x0A]
    [⟨some (1, 2), [0x61], whole.take 3⟩, ⟨some (1, 2), whole.take 4, whole⟩].foldl
        (fun tail o => readUsageSince parse "r" tail (some o)) start =
      ⟨some (1, 2), 5, [⟨"turn", some "r", "a"⟩, ⟨"turn", some "r", "bc"⟩]⟩ := by
  intro parse start whole
  have hreads := (usageTail_exact parse "r").1 (some (1, 2)) [] [⟨some (1, 2), [0x61], whole.take 3⟩]
    ⟨some (1, 2), whole.take 4, whole⟩ ⟨rfl, by decide, by decide, rfl, by decide, by decide, trivial⟩
  have hwhole : wholeLines whole = whole := by decide
  have htext : fromUtf8Lossy whole = "a\nbc\n" := by decide
  have hlines : Text.lines "a\nbc\n" = ["a", "bc"] := by
    rw [Text.lines_eq]
    decide
  refine hreads.trans ?_
  change parsedAt parse "r" (some (1, 2)) 0 whole = _
  rw [parsedAt, hwhole, htext, sessionRows, hlines]
  rfl

end Ralph.Chat
