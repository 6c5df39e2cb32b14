import Ralph.Chat.CellOutput
import Ralph.Decimal
import Ralph.LossyLines
import Ralph.Utf8Prefix

namespace Ralph.Wire
open Utf8Strict (Reads Stuck fromUtf8 Utf8Error)
open LossyLines (newline)
open Chat (splitInclusive)

/-- An error of `serde_json`; `eof` is its category. -/
structure JsonError where
  eof : Bool
  message : String

/-- The JSON text of a record, and what is read from a text. -/
structure RecordJson (Record : Type) where
  toVec : Record → Bytes
  fromStr : List Char → Except JsonError Record

/-- `ReadError::Call`. -/
structure ReadError where
  label : String
  line : ℕ
  message : String
  deriving DecidableEq

structure Calls (Record : Type) where
  records : List Record := []
  tornTail : Bool := false
  deriving DecidableEq

/-- The `Display` of a `Utf8Error`. -/
def utf8ErrorText (error : Utf8Error) : String :=
  match error.errorLen with
  | some len => s!"invalid utf-8 sequence of {len} bytes from index {error.validUpTo}"
  | none => s!"incomplete utf-8 byte sequence from index {error.validUpTo}"

def decode (label : String) (bytes : Bytes) : Except ReadError (List Char × Bool) :=
  match fromUtf8 bytes with
  | .ok text => .ok (text, false)
  | .error error =>
    let valid := bytes.take error.validUpTo
    match error.errorLen with
    | none => .ok (match fromUtf8 valid with | .ok text => text | .error _ => [], true)
    | some _ => .error ⟨label, valid.count newline + 1, utf8ErrorText error⟩

section Read

variable {Record : Type} (json : RecordJson Record)

/-- The loop of `parse_calls` from line `index` on. -/
def parseLines (label : String) : ℕ → List (List Char) → Calls Record → Except ReadError (Calls Record)
  | _, [], calls => .ok calls
  | index, raw :: raws, calls =>
    let terminated := raw.getLast? = some '\n'
    let line := if terminated then raw.dropLast else raw
    match json.fromStr line with
    | .ok record => parseLines label (index + 1) raws { calls with records := calls.records ++ [record] }
    | .error error =>
      if ¬ terminated ∧ error.eof then parseLines label (index + 1) raws { calls with tornTail := true }
      else .error ⟨label, index + 1, error.message⟩

def parseCalls (label : String) (bytes : Option Bytes) : Except ReadError (Calls Record) :=
  (decode label (bytes.getD [])).bind fun decoded =>
    parseLines json label 0 (splitInclusive decoded.1) { tornTail := decoded.2 }

/-- `append` of `write_loop`. -/
def append (file : Bytes) (record : Record) : Bytes := file ++ (json.toVec record ++ [newline])

def recording (records : List Record) : Bytes := records.foldl (append json) []

/-- What is relied on of the JSON of a record: its text holds no newline, is read back, and stops too early
wherever it is cut. -/
structure RecordJson.Lawful (text : Record → List Char) : Prop where
  encoded : ∀ record, fromUtf8 (json.toVec record) = .ok (text record)
  object : ∀ record, text record ≠ []
  newline : ∀ record, '\n' ∉ text record
  whole : ∀ record, json.fromStr (text record) = .ok record
  cut : ∀ record cut, cut <+: text record → cut ≠ [] → cut ≠ text record →
    ∃ error, json.fromStr cut = .error error ∧ error.eof = true

/-- The records whose text is whole in the first `n` bytes. -/
def wholeCalls : List Record → ℕ → List Record
  | [], _ => []
  | record :: records, n =>
    if (json.toVec record).length ≤ n then record :: wholeCalls records (n - ((json.toVec record).length + 1)) else []

/-- Whether the first `n` bytes stop inside a record. -/
def stopsInside : List Record → ℕ → Bool
  | [], _ => false
  | record :: records, n =>
    if (json.toVec record).length ≤ n then stopsInside records (n - ((json.toVec record).length + 1))
    else decide (0 < n)

end Read

/-- Bytes that are a text and at most one character that was cut. -/
def Decoded (bytes : Bytes) (text : List Char) (cut : Bool) : Prop :=
  ∃ valid rest, bytes = valid ++ rest ∧ Reads valid text ∧ (rest = [] ∧ cut = false ∨ Stuck rest ∧ cut = true)

theorem Decoded.decode {bytes : Bytes} {text : List Char} {cut : Bool} (h : Decoded bytes text cut) (label : String) :
    Wire.decode label bytes = .ok (text, cut) := by
  obtain ⟨valid, rest, rfl, hvalid, ⟨rfl, rfl⟩ | ⟨hstuck, rfl⟩⟩ := h
  · rw [List.append_nil, Wire.decode, Utf8Strict.fromUtf8_of_reads hvalid]
  · rw [Wire.decode, Utf8Strict.fromUtf8_stuck hvalid hstuck]
    simp only [List.take_left, Utf8Strict.fromUtf8_of_reads hvalid]

theorem Decoded.append {front bytes : Bytes} {chars text : List Char} {cut : Bool} (hfront : Reads front chars)
    (h : Decoded bytes text cut) : Decoded (front ++ bytes) (chars ++ text) cut := by
  obtain ⟨valid, rest, hbytes, hvalid, hrest⟩ := h
  exact ⟨front ++ valid, rest, by rw [hbytes, List.append_assoc], hfront.append hvalid, hrest⟩

theorem reads_newline : Reads [newline] ['\n'] := Utf8Strict.reads_ascii (by decide)

theorem splitInclusive_rest {tail : List Char} (h : '\n' ∉ tail) :
    splitInclusive tail = if tail = [] then [] else [tail] := by
  induction tail with
  | nil => rfl
  | cons c tail ih =>
    rw [List.mem_cons, not_or] at h
    rw [splitInclusive, if_neg (Ne.symm h.1), ih h.2, if_neg (List.cons_ne_nil c tail)]
    cases tail with
    | nil => rfl
    | cons d tail => rfl

theorem splitInclusive_line {line : List Char} (h : '\n' ∉ line) (rest : List Char) :
    splitInclusive (line ++ '\n' :: rest) = (line ++ ['\n']) :: splitInclusive rest := by
  induction line with
  | nil => rw [List.nil_append, splitInclusive, if_pos rfl, List.nil_append]
  | cons c line ih =>
    rw [List.mem_cons, not_or] at h
    rw [List.cons_append, splitInclusive, if_neg (Ne.symm h.1), ih h.2]
    rfl

section Cut

variable {Record : Type} {json : RecordJson Record} {text : Record → List Char}

theorem RecordJson.Lawful.reads (hjson : json.Lawful text) (record : Record) : Reads (json.toVec record) (text record) :=
  Utf8Strict.reads_of_readFrom (hjson.encoded record)

theorem RecordJson.Lawful.length_pos (hjson : json.Lawful text) (record : Record) : 0 < (json.toVec record).length := by
  rw [List.length_pos_iff]
  intro hnil
  have hencoded := hjson.encoded record
  rw [hnil, Utf8Strict.fromUtf8, Utf8Strict.readFrom, Except.ok.injEq] at hencoded
  exact hjson.object record hencoded.symm

theorem recording_cons (json : RecordJson Record) (record : Record) (records : List Record) :
    recording json (record :: records) = json.toVec record ++ newline :: recording json records := by
  have hfold : ∀ (records : List Record) (file : Bytes), records.foldl (append json) file =
      file ++ records.foldl (append json) [] := by
    intro records
    induction records with
    | nil => exact fun file => (List.append_nil file).symm
    | cons other records ih =>
      intro file
      rw [List.foldl_cons, List.foldl_cons, ih, ih (append json [] other), append, append, List.append_assoc,
        List.nil_append]
  rw [recording, List.foldl_cons, hfold, append, List.nil_append, List.append_assoc, List.singleton_append]
  rfl

/-- The text in front of a cut: lines of whole records, and behind them a whole record, a part of one, or nothing. -/
inductive CutText (text : Record → List Char) : List Record → Bool → List Char → Bool → Prop
  | between : CutText text [] false [] false
  | unended (record : Record) : CutText text [record] false (text record) false
  | inside {tail : List Char} {cut : Bool} (record : Record) (hpre : tail <+: text record) (hne : tail ≠ text record)
      (hsome : tail ≠ [] ∨ cut = true) : CutText text [] true tail cut
  | line (record : Record) {records : List Record} {torn : Bool} {rest : List Char} {cut : Bool}
      (later : CutText text records torn rest cut) :
      CutText text (record :: records) torn (text record ++ '\n' :: rest) cut

/-- What a cut of a recording decodes to. -/
theorem exists_cutText (hjson : json.Lawful text) (records : List Record) (n : ℕ) :
    ∃ chars cut, Decoded ((recording json records).take n) chars cut ∧
      CutText text (wholeCalls json records n) (stopsInside json records n) chars cut := by
  induction records generalizing n with
  | nil =>
    refine ⟨[], false, ⟨[], [], ?_, .nil, .inl ⟨rfl, rfl⟩⟩, .between⟩
    rw [recording, List.foldl_nil, List.take_nil, List.nil_append]
  | cons record records ih =>
    have hreads := hjson.reads record
    rw [recording_cons, wholeCalls, stopsInside]
    -- the cut is inside the first record, right behind it, or further on
    rcases Nat.lt_trichotomy n (json.toVec record).length with hlt | heq | hgt
    · rw [if_neg (by omega), if_neg (by omega), List.take_append_of_le_length hlt.le]
      rcases Nat.eq_zero_or_pos n with hzero | hpos
      · rw [hzero, List.take_zero]
        exact ⟨[], false, ⟨[], [], rfl, .nil, .inl ⟨rfl, rfl⟩⟩, .between⟩
      · rw [decide_eq_true hpos]
        rw [← List.take_append_drop n (json.toVec record)] at hreads
        obtain ⟨valid, rest, ds, es, hp, hvalid, htext, hrest, hes⟩ := hreads.prefix
        have hmore : es ≠ [] := by
          apply hes
          rw [ne_eq, ← List.length_eq_zero_iff, List.length_drop]
          omega
        have hne : ds ≠ text record := by
          intro heq
          rw [htext] at heq
          exact hmore (List.self_eq_append_right.mp heq)
        have hpre : ds <+: text record := by
          rw [htext]
          exact List.prefix_append _ _
        rcases hrest with hnil | hstuck
        · refine ⟨ds, false, ⟨valid, rest, hp, hvalid, .inl ⟨hnil, rfl⟩⟩, .inside record hpre hne (.inl ?_)⟩
          apply hvalid.ne_nil
          rw [hnil, List.append_nil] at hp
          rw [← hp, ne_eq, ← List.length_eq_zero_iff, List.length_take]
          omega
        · exact ⟨ds, true, ⟨valid, rest, hp, hvalid, .inr ⟨hstuck, rfl⟩⟩, .inside record hpre hne (.inr rfl)⟩
    · have hnone : n - ((json.toVec record).length + 1) = 0 := by omega
      have hwhole : wholeCalls json records 0 = [] ∧ stopsInside json records 0 = false := by
        cases records with
        | nil => exact ⟨rfl, rfl⟩
        | cons other records =>
          have hpos := hjson.length_pos other
          rw [wholeCalls, stopsInside, if_neg (by omega), if_neg (by omega)]
          exact ⟨rfl, rfl⟩
      rw [if_pos heq.ge, if_pos heq.ge, hnone, hwhole.1, hwhole.2, List.take_append_of_le_length heq.le, heq,
        List.take_length]
      exact ⟨text record, false, ⟨_, [], (List.append_nil _).symm, hreads, .inl ⟨rfl, rfl⟩⟩, .unended record⟩
    · rw [if_pos hgt.le, if_pos hgt.le]
      obtain ⟨chars, cut, hdecoded, hcut⟩ := ih (n - ((json.toVec record).length + 1))
      refine ⟨text record ++ '\n' :: chars, cut, ?_, .line record hcut⟩
      have htake : (json.toVec record ++ newline :: recording json records).take n =
          json.toVec record ++ ([newline] ++ (recording json records).take (n - ((json.toVec record).length + 1))) := by
        obtain ⟨k, hk⟩ : ∃ k, n = (json.toVec record).length + (k + 1) := ⟨n - (json.toVec record).length - 1, by omega⟩
        have hsub : n - ((json.toVec record).length + 1) = k := by omega
        rw [hsub, hk, List.take_length_add_append, List.take_succ_cons, List.singleton_append]
      rw [htake]
      exact (hdecoded.append reads_newline).append hreads

/-- The lines in front of a cut are read. -/
theorem CutText.parse (hjson : json.Lawful text) {records : List Record} {torn : Bool} {chars : List Char} {cut : Bool}
    (h : CutText text records torn chars cut) (label : String) (index : ℕ) (before : List Record) :
    parseLines json label index (splitInclusive chars) ⟨before, cut⟩ = .ok ⟨before ++ records, torn⟩ := by
  induction h generalizing index before with
  | between =>
    rw [splitInclusive, parseLines, List.append_nil]
  | unended record =>
    have hlast : ¬ (text record).getLast? = some '\n' := fun hlast =>
      hjson.newline record (List.mem_of_getLast? hlast)
    rw [splitInclusive_rest (hjson.newline record), if_neg (hjson.object record), parseLines]
    simp only [if_neg hlast, hjson.whole record, parseLines]
  | @inside tail cut record hpre hne hsome =>
    have hnewline : '\n' ∉ tail := fun hmem => hjson.newline record (hpre.subset hmem)
    rw [splitInclusive_rest hnewline, List.append_nil]
    by_cases hnil : tail = []
    · rw [if_pos hnil, parseLines, hsome.resolve_left (not_not_intro hnil)]
    · obtain ⟨error, herror, heof⟩ := hjson.cut record tail hpre hnil hne
      have hlast : ¬ tail.getLast? = some '\n' := fun hlast => hnewline (List.mem_of_getLast? hlast)
      rw [if_neg hnil, parseLines]
      simp only [if_neg hlast, herror]
      rw [if_pos ⟨hlast, heof⟩, parseLines]
  | @line record records torn rest cut later ih =>
    have hlast : (text record ++ ['\n']).getLast? = some '\n' := List.getLast?_concat
    rw [splitInclusive_line (hjson.newline record), parseLines]
    simp only [hlast, if_true, List.dropLast_concat, hjson.whole record]
    rw [ih, List.append_assoc, List.singleton_append]

end Cut

/-- A recording that was cut reads back as its whole records. -/
theorem parse_calls_cut {Record : Type} {json : RecordJson Record} {text : Record → List Char}
    (hjson : json.Lawful text) (label : String) (records : List Record) (n : ℕ) :
    parseCalls json label (some ((recording json records).take n)) =
      .ok ⟨wholeCalls json records n, stopsInside json records n⟩ := by
  obtain ⟨chars, cut, hdecoded, hcut⟩ := exists_cutText hjson records n
  rw [parseCalls, Option.getD_some, hdecoded.decode, Except.bind, hcut.parse hjson, List.nil_append]

section Demo

/-- A call by its number, and whether its body was cut. -/
structure ShortCall where
  seq : ℕ
  truncated : Bool
  deriving DecidableEq

def shortHead : List Char := "\x7b\"seq\":".toList

def shortTail (truncated : Bool) : List Char :=
  if truncated then ",\"truncated\":true\x7d".toList else ",\"truncated\":false\x7d".toList

def ShortCall.text (call : ShortCall) : List Char :=
  shortHead ++ (Nat.toDigits 10 call.seq ++ shortTail call.truncated)

def readShortCall (text : List Char) : Except JsonError ShortCall :=
  let digits := (text.drop 7).takeWhile Char.isDigit
  let rest := (text.drop 7).dropWhile Char.isDigit
  if text.take 7 = shortHead ∧ rest = shortTail true then .ok ⟨Nat.ofDigitChars 10 digits 0, true⟩
  else if text.take 7 = shortHead ∧ rest = shortTail false then
    .ok ⟨Nat.ofDigitChars 10 digits 0, false⟩
  else .error ⟨text.getLast? ≠ some '\x7d', "EOF while parsing an object"⟩

def shortCalls : RecordJson ShortCall where
  toVec call := call.text.map fun c => UInt8.ofNat c.toNat
  fromStr := readShortCall

theorem reads_of_ascii {text : List Char} (h : ∀ c ∈ text, c.toNat < 128) :
    Reads (text.map fun c => UInt8.ofNat c.toNat) text := by
  induction text with
  | nil => exact .nil
  | cons c cs ih =>
    rw [List.forall_mem_cons] at h
    have hbyte : (UInt8.ofNat c.toNat).toNat = c.toNat := UInt8.toNat_ofNat_of_lt' (h.1.trans (by decide))
    have hsmall : UInt8.ofNat c.toNat < 0x80 := by
      rw [UInt8.lt_iff_toNat_lt, hbyte]
      exact h.1
    have hfirst := Utf8Strict.reads_ascii hsmall
    rw [hbyte, Char.ofNat_toNat] at hfirst
    exact hfirst.append (ih h.2)

theorem mem_text {call : ShortCall} {c : Char} (h : c ∈ call.text) :
    c.toNat < 128 ∧ c ≠ '\n' := by
  have hall : ((shortHead ++ shortTail true ++ shortTail false).all fun c => c.toNat < 128 && c != '\n') = true := by
    decide +kernel
  have hends : ∀ c ∈ shortHead ++ shortTail true ++ shortTail false, c.toNat < 128 ∧ c ≠ '\n' := by
    intro c hc
    simpa using List.all_eq_true.mp hall c hc
  rw [ShortCall.text, List.mem_append, List.mem_append] at h
  rcases h with hhead | hdigit | htail
  · exact hends c (by simp [hhead])
  · obtain ⟨d, hd, rfl, -⟩ :=
      Decimal.exists_digitChar (Nat.isDigit_of_mem_toDigits (by decide) (by decide) hdigit)
    clear hdigit
    revert d
    decide
  · refine hends c ?_
    cases htruncated : call.truncated <;> rw [htruncated] at htail <;> simp [htail]

theorem readShortCall_text (call : ShortCall) : readShortCall call.text = .ok call := by
  obtain ⟨seq, truncated⟩ := call
  have hdigits : ∀ c ∈ Nat.toDigits 10 seq, c.isDigit = true := fun c =>
    Nat.isDigit_of_mem_toDigits (by decide) (by decide)
  have htake : (ShortCall.text ⟨seq, truncated⟩).take 7 = shortHead := rfl
  have hdrop : (ShortCall.text ⟨seq, truncated⟩).drop 7 = Nat.toDigits 10 seq ++ shortTail truncated :=
    rfl
  rw [readShortCall, htake, hdrop, List.takeWhile_append_of_pos hdigits,
    List.dropWhile_append_of_pos hdigits]
  cases truncated with
  | true =>
    have htail : (shortTail true).takeWhile Char.isDigit = [] ∧
        (shortTail true).dropWhile Char.isDigit = shortTail true := by decide
    rw [htail.1, htail.2, if_pos ⟨rfl, rfl⟩, List.append_nil, Nat.ofDigitChars_ten_toDigits]
  | false =>
    have htail : (shortTail false).takeWhile Char.isDigit = [] ∧
        (shortTail false).dropWhile Char.isDigit = shortTail false := by decide
    have hother : shortTail false ≠ shortTail true := by decide
    rw [htail.1, htail.2, if_neg (fun h => hother h.2), if_pos ⟨rfl, rfl⟩, List.append_nil,
      Nat.ofDigitChars_ten_toDigits]

/-- The brace stands at the end only. -/
theorem brace_notMem_cut {call : ShortCall} {cut : List Char} (hcut : cut <+: call.text)
    (hwhole : cut ≠ call.text) : '\x7d' ∉ cut := by
  have hinit : call.text = shortHead ++ (Nat.toDigits 10 call.seq ++ (shortTail call.truncated).dropLast) ++
      ['\x7d'] := by
    rw [List.append_assoc, List.append_assoc, ShortCall.text]
    cases call.truncated <;> rfl
  rw [hinit] at hcut hwhole
  have hfront := (List.prefix_concat_iff.1 hcut).resolve_left hwhole
  intro hmem
  have hbrace := hfront.subset hmem
  rw [List.mem_append, List.mem_append] at hbrace
  rcases hbrace with hhead | hdigit | htail
  · exact absurd hhead (by decide)
  · exact absurd (Nat.isDigit_of_mem_toDigits (by decide) (by decide) hdigit) (by decide)
  · revert htail
    cases call.truncated <;> decide

theorem readShortCall_cut {call : ShortCall} {cut : List Char} (hcut : cut <+: call.text)
    (hwhole : cut ≠ call.text) :
    readShortCall cut = .error ⟨true, "EOF while parsing an object"⟩ := by
  have hbrace := brace_notMem_cut hcut hwhole
  have hrest (truncated : Bool) : (cut.drop 7).dropWhile Char.isDigit ≠ shortTail truncated := by
    intro hrest
    have hmem : '\x7d' ∈ (cut.drop 7).dropWhile Char.isDigit := by
      rw [hrest]
      cases truncated <;> decide
    exact hbrace (List.mem_of_mem_drop ((List.dropWhile_sublist _).subset hmem))
  have hlast : cut.getLast? ≠ some '\x7d' := fun hlast => hbrace (List.mem_of_getLast? hlast)
  rw [readShortCall, if_neg fun h => hrest true h.2, if_neg fun h => hrest false h.2, decide_eq_true hlast]

theorem shortCalls_lawful : shortCalls.Lawful ShortCall.text where
  encoded call := Utf8Strict.fromUtf8_of_reads (reads_of_ascii fun _ hc => (mem_text hc).1)
  object call := by
    rw [ShortCall.text]
    exact List.append_ne_nil_of_left_ne_nil (by decide) _
  newline call := fun hmem => (mem_text hmem).2 rfl
  whole := readShortCall_text
  cut call cut hcut _ hwhole := ⟨_, readShortCall_cut hcut hwhole, rfl⟩

/-- Three calls, cut inside the third. -/
theorem parse_calls_cut_brace :
    parseCalls shortCalls "calls.jsonl"
        (some ((recording shortCalls [⟨1, false⟩, ⟨12, true⟩, ⟨13, false⟩]).take 70)) =
      .ok ⟨[⟨1, false⟩, ⟨12, true⟩], true⟩ := by
  refine (parse_calls_cut shortCalls_lawful "calls.jsonl" [⟨1, false⟩, ⟨12, true⟩, ⟨13, false⟩] 70).trans ?_
  decide

end Demo

end Ralph.Wire
