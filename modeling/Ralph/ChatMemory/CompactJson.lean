import Mathlib.Data.List.TakeWhile
import Ralph.ChatMemory.Json
import Ralph.Fallible

namespace Ralph.ChatMemory.CompactJson
open Fallible

def ascii (s : String) : Bytes := s.toList.map fun c => UInt8.ofNat c.toNat

def hexDigit (n : ℕ) : UInt8 := UInt8.ofNat (if n < 10 then 48 + n else 87 + n)

def hexValue (b : UInt8) : ℕ := if b.toNat < 58 then b.toNat - 48 else b.toNat - 87

/-- How `serde_json` writes one byte of a string. -/
def escape (b : UInt8) : Bytes :=
  if b = 0x22 then [0x5C, 0x22]
  else if b = 0x5C then [0x5C, 0x5C]
  else if b = 0x08 then [0x5C, 0x62]
  else if b = 0x09 then [0x5C, 0x74]
  else if b = 0x0A then [0x5C, 0x6E]
  else if b = 0x0C then [0x5C, 0x66]
  else if b = 0x0D then [0x5C, 0x72]
  else if b < 0x20 then [0x5C, 0x75, 0x30, 0x30, hexDigit (b.toNat / 16), hexDigit (b.toNat % 16)]
  else [b]

/-- The byte that a short escape stands for. -/
def unescapeByte (b : UInt8) : UInt8 :=
  if b = 0x62 then 0x08
  else if b = 0x74 then 0x09
  else if b = 0x6E then 0x0A
  else if b = 0x66 then 0x0C
  else if b = 0x72 then 0x0D
  else b

/-- The bytes of a string up to its closing quote, and what follows the quote. -/
def unescape : Bytes → Option (Bytes × Bytes)
  | [] => none
  | 0x22 :: rest => some ([], rest)
  | 0x5C :: 0x75 :: 0x30 :: 0x30 :: hi :: lo :: rest =>
    (unescape rest).map fun p => (UInt8.ofNat (16 * hexValue hi + hexValue lo) :: p.1, p.2)
  | 0x5C :: b :: rest => (unescape rest).map fun p => (unescapeByte b :: p.1, p.2)
  | b :: rest => (unescape rest).map fun p => (b :: p.1, p.2)

def utf8 (s : String) : Bytes := s.toByteArray.data.toList

/-- A string's escaped bytes with the closing quote. -/
def quoted (s : String) : Bytes := (utf8 s).flatMap escape ++ [0x22]

def digits (n : ℕ) : Bytes := (Nat.toDigits 10 n).map fun c => UInt8.ofNat c.toNat

def isDigit (b : UInt8) : Bool := 48 ≤ b.toNat && b.toNat ≤ 57

def number (x : Bytes) : ℕ × Bytes :=
  (Nat.ofDigitChars 10 ((x.takeWhile isDigit).map fun b => Char.ofNat b.toNat) 0, x.dropWhile isDigit)

def recordHead (r : Record) : Bytes :=
  ascii "\"lo\":" ++ digits r.lo ++ ascii ",\"hi\":" ++ digits r.hi ++ ascii ",\"text\":\""

def recordBytes (r : Record) : Bytes := 0x7B :: recordHead r ++ quoted r.text ++ [0x7D]

def entryBytes (e : NewEntry) : Bytes :=
  0x7B :: ascii "\"role\":\"" ++ quoted e.role.asStr ++ ascii ",\"at\":\"" ++ quoted e.at_ ++
    ascii ",\"text\":\"" ++ quoted e.text ++ [0x7D]

/-- A string from its opening quote on. -/
def text (x : Bytes) : Option (String × Bytes) := do
  let (bytes, x) ← unescape x
  let s ← String.fromUTF8? ⟨bytes.toArray⟩
  pure (s, x)

/-- One string member: the bytes up to its opening quote, and what follows its closing one. -/
def member (key x : Bytes) : Option (String × Bytes) := do
  let x ← x.dropPrefix? key
  text x

def parseRecord (x : Bytes) : Option Record := do
  let x ← x.dropPrefix? (0x7B :: ascii "\"lo\":")
  let (lo, x) := number x
  let x ← x.dropPrefix? (ascii ",\"hi\":")
  let (hi, x) := number x
  let x ← x.dropPrefix? (ascii ",\"text\":\"")
  let (s, _) ← text x
  pure ⟨lo, hi, s⟩

def parseEntry (x : Bytes) : Option NewEntry := do
  let x ← x.dropPrefix? (0x7B :: ascii "\"role\":\"")
  let (roleText, x) ← text x
  let role ← [Role.user, .assistant, .worker].find? fun role => role.asStr = roleText
  let x ← x.dropPrefix? (ascii ",\"at\":\"")
  let (at_, x) ← text x
  let x ← x.dropPrefix? (ascii ",\"text\":\"")
  let (s, _) ← text x
  pure ⟨role, at_, s⟩

def invalid : String := "expected value at line 1 column 1"

/-- The compact format of `serde_json::to_string`, and a reader of exactly that format. -/
def compactJson : Json where
  entry x :=
    match parseEntry x with
    | some e => if entryBytes e = x then .ok e else .error invalid
    | none => .error invalid
  record x :=
    let x := x.dropWhile isJsonWhitespace
    match parseRecord x with
    | some r =>
      if recordBytes r = x ∧ r.lo ≤ usizeMax ∧ r.hi ≤ usizeMax then .ok r else .error invalid
    | none => .error invalid
  entryText e := .ok (entryBytes e)
  recordText r := .ok (recordBytes r)

theorem hexValue_hexDigit : ∀ n : Fin 16, hexValue (hexDigit n) = n := by decide

theorem unescape_cons {b : UInt8} (rest : Bytes) (hquote : b ≠ 0x22) (hslash : b ≠ 0x5C) :
    unescape (b :: rest) = (unescape rest).map fun p => (b :: p.1, p.2) := by
  rw [unescape]
  · exact hquote
  · rintro - - - rfl
    exact absurd rfl hslash
  · rintro - - rfl
    exact absurd rfl hslash

theorem unescape_escape (b : UInt8) (rest : Bytes) :
    unescape (escape b ++ rest) = (unescape rest).map fun p => (b :: p.1, p.2) := by
  unfold escape
  split_ifs with h1 h2 h3 h4 h5 h6 h7 h8
  any_goals subst b; rfl
  · have hb : b.toNat < 32 := h8
    have hi := hexValue_hexDigit ⟨b.toNat / 16, by omega⟩
    have lo := hexValue_hexDigit ⟨b.toNat % 16, by omega⟩
    simp only at hi lo
    simp only [List.cons_append, List.nil_append, unescape, hi, lo, Nat.div_add_mod]
    simp
  · exact unescape_cons rest h1 h2

theorem unescape_quoted (s : String) (rest : Bytes) :
    unescape (quoted s ++ rest) = some (utf8 s, rest) := by
  rw [quoted]
  generalize utf8 s = bytes
  induction bytes with
  | nil => rfl
  | cons b bytes ih =>
    rw [List.flatMap_cons, List.append_assoc, List.append_assoc, unescape_escape,
      ← List.append_assoc, ih]
    rfl

theorem text_quoted (s : String) (rest : Bytes) : text (quoted s ++ rest) = some (s, rest) := by
  rw [text, unescape_quoted]
  simp [utf8, String.fromUTF8?, s.isValidUTF8, String.fromUTF8]

theorem digit_toNat {n : ℕ} {c : Char} (h : c ∈ Nat.toDigits 10 n) :
    48 ≤ c.toNat ∧ c.toNat ≤ 57 := by
  have hc := Nat.isDigit_of_mem_toDigits (by omega) le_rfl h
  simp only [Char.isDigit, Bool.and_eq_true, decide_eq_true_eq] at hc
  exact ⟨UInt32.le_iff_toNat_le.mp hc.1, UInt32.le_iff_toNat_le.mp hc.2⟩

theorem isDigit_of_mem_digits {n : ℕ} {b : UInt8} (h : b ∈ digits n) : isDigit b := by
  obtain ⟨c, hc, rfl⟩ := List.mem_map.mp h
  have hd := digit_toNat hc
  have hb : (UInt8.ofNat c.toNat).toNat = c.toNat := by rw [UInt8.toNat_ofNat']; omega
  simp [isDigit, hb, hd]

theorem number_digits (n : ℕ) {c : UInt8} (rest : Bytes) (hc : isDigit c = false) :
    number (digits n ++ c :: rest) = (n, c :: rest) := by
  have hall : ∀ b ∈ digits n, isDigit b = true := fun b hb => isDigit_of_mem_digits hb
  have hchars : (digits n).map (fun b => Char.ofNat b.toNat) = Nat.toDigits 10 n := by
    rw [digits, List.map_map]
    conv_rhs => rw [← List.map_id (Nat.toDigits 10 n)]
    refine List.map_congr_left fun c hc => ?_
    have hd := digit_toNat hc
    have hb : (UInt8.ofNat c.toNat).toNat = c.toNat := by rw [UInt8.toNat_ofNat']; omega
    simp only [Function.comp_apply, hb, Char.ofNat_toNat, id]
  rw [number, List.takeWhile_append_of_pos hall, List.dropWhile_append_of_pos hall,
    List.takeWhile_cons_of_neg (by simp [hc]), List.dropWhile_cons_of_neg (by simp [hc]),
    List.append_nil, hchars, Nat.ofDigitChars_ten_toDigits]

@[simp] theorem dropPrefix_append (lit x : Bytes) : (lit ++ x).dropPrefix? lit = some x := by
  rw [List.dropPrefix?_eq_some_iff]
  exact ⟨lit, rfl, by simp⟩

theorem member_quoted (key rest : Bytes) (s : String) :
    member key (key ++ (quoted s ++ rest)) = some (s, rest) := by
  rw [member, dropPrefix_append]
  exact text_quoted s rest

theorem parseRecord_recordBytes (r : Record) : parseRecord (recordBytes r) = some r := by
  have hbytes : recordBytes r = (0x7B :: ascii "\"lo\":") ++ (digits r.lo ++
      (ascii ",\"hi\":" ++ (digits r.hi ++ (ascii ",\"text\":\"" ++ (quoted r.text ++ [0x7D]))))) := by
    simp [recordBytes, recordHead]
  have hlo : ∀ x, number (digits r.lo ++ (ascii ",\"hi\":" ++ x)) = (r.lo, ascii ",\"hi\":" ++ x) :=
    fun x => number_digits r.lo _ rfl
  have hhi : ∀ x, number (digits r.hi ++ (ascii ",\"text\":\"" ++ x)) =
      (r.hi, ascii ",\"text\":\"" ++ x) := fun x => number_digits r.hi _ rfl
  rw [hbytes, parseRecord]
  simp only [dropPrefix_append, Option.bind_eq_bind, Option.bind_some, hlo, hhi, text_quoted]
  rfl

theorem parseEntry_entryBytes (e : NewEntry) : parseEntry (entryBytes e) = some e := by
  have hbytes : entryBytes e = (0x7B :: ascii "\"role\":\"") ++ (quoted e.role.asStr ++
      (ascii ",\"at\":\"" ++ (quoted e.at_ ++ (ascii ",\"text\":\"" ++ (quoted e.text ++ [0x7D]))))) := by
    simp [entryBytes]
  have hrole : ∀ role : Role,
      [Role.user, .assistant, .worker].find? (fun r => r.asStr = role.asStr) = some role := by
    intro role
    cases role <;> decide
  rw [hbytes, parseEntry]
  simp only [dropPrefix_append, Option.bind_eq_bind, Option.bind_some, text_quoted, hrole]
  rfl

/-- Control bytes are written as escapes. -/
theorem le_of_mem_escape {b c : UInt8} (h : c ∈ escape b) : 0x20 ≤ c := by
  have hhex : ∀ n : Fin 16, 0x20 ≤ hexDigit n := by decide
  have short : ∀ x c : UInt8, 0x20 ≤ x → c ∈ [0x5C, x] → 0x20 ≤ c := by
    intro x c hx hc
    rcases List.mem_cons.mp hc with rfl | hc
    · decide
    · exact List.mem_singleton.mp hc ▸ hx
  unfold escape at h
  split_ifs at h with h1 h2 h3 h4 h5 h6 h7 h8
  iterate 7 exact short _ c (by decide) h
  · have hb : b.toNat < 32 := h8
    have hi := hhex ⟨b.toNat / 16, by omega⟩
    have lo := hhex ⟨b.toNat % 16, by omega⟩
    simp only [List.mem_cons, List.not_mem_nil, or_false] at h
    rcases h with rfl | rfl | rfl | rfl | rfl | rfl
    iterate 4 decide
    · exact hi
    · exact lo
  · exact List.mem_singleton.mp h ▸ UInt8.not_lt.mp h8

theorem le_of_isDigit {b : UInt8} (h : isDigit b) : 0x20 ≤ b := by
  simp only [isDigit, Bool.and_eq_true, decide_eq_true_eq] at h
  exact UInt8.le_iff_toNat_le.mpr (le_trans (by decide) h.1)

theorem all_digits {p : UInt8 → Bool} (hp : ∀ b, isDigit b → p b) (n : ℕ) : (digits n).all p :=
  List.all_eq_true.mpr fun b hb => hp b (isDigit_of_mem_digits hb)

/-- Bytes that a test accepts between the numbers of a record, and as digits. -/
theorem all_recordHead {p : UInt8 → Bool} (hp : ∀ b, isDigit b → p b)
    (hnames : (ascii "\"lo\":" ++ ascii ",\"hi\":" ++ ascii ",\"text\":\"").all p = true)
    (r : Record) : (recordHead r).all p := by
  simp only [List.all_append, Bool.and_eq_true] at hnames
  simp only [recordHead, List.all_append, hnames, all_digits hp, Bool.and_self]

/-- No control byte, so no newline. -/
def printable (b : UInt8) : Bool := 0x20 ≤ b

theorem printable_quoted (s : String) : (quoted s).all printable := by
  rw [quoted, List.all_append, Bool.and_eq_true]
  refine ⟨List.all_eq_true.mpr fun b hb => ?_, rfl⟩
  obtain ⟨c, -, hc⟩ := List.mem_flatMap.mp hb
  exact decide_eq_true (le_of_mem_escape hc)

theorem newline_notMem {x : Bytes} (h : x.all printable) : newline ∉ x := fun hmem =>
  absurd (List.all_eq_true.mp h newline hmem) (by decide)

theorem newline_notMem_recordBytes (r : Record) : newline ∉ recordBytes r := by
  have hhead := all_recordHead (p := printable) (fun b hb => decide_eq_true (le_of_isDigit hb)) rfl r
  refine newline_notMem ?_
  simp only [recordBytes, List.cons_append, List.all_cons, List.all_append, hhead, printable_quoted]
  rfl

theorem newline_notMem_entryBytes (e : NewEntry) : newline ∉ entryBytes e := by
  refine newline_notMem ?_
  simp only [entryBytes, List.cons_append, List.all_cons, List.all_append, printable_quoted]
  rfl

/-- No quote follows a brace in an escaped string. -/
theorem isChain_escape (bytes : Bytes) :
    (bytes.flatMap escape).IsChain (fun x y => ¬(x = 0x7B ∧ y = 0x22)) ∧
      (bytes.flatMap escape).head? ≠ some 0x22 := by
  have hone : ∀ b : UInt8, (escape b).IsChain (fun x y => ¬(x = 0x7B ∧ y = 0x22)) ∧
      (escape b).head? ≠ some 0x22 ∧ escape b ≠ [] := by
    intro b
    unfold escape
    split_ifs with h1 h2 h3 h4 h5 h6 h7 h8
    iterate 7 decide
    · have hb : b.toNat < 32 := h8
      have hhex : ∀ n : Fin 16, hexDigit n ≠ 0x22 ∧ hexDigit n ≠ 0x7B := by decide
      have hi := hhex ⟨b.toNat / 16, by omega⟩
      have lo := hhex ⟨b.toNat % 16, by omega⟩
      simp_all
    · simpa using h1
  induction bytes with
  | nil => simp
  | cons b bytes ih =>
    obtain ⟨hchain, hhead, hne⟩ := hone b
    rw [List.flatMap_cons]
    refine ⟨?_, ?_⟩
    · refine List.isChain_append.mpr ⟨hchain, ih.1, ?_⟩
      rintro x - y hy ⟨-, rfl⟩
      exact ih.2 hy
    · rw [List.head?_append_of_ne_nil _ hne]
      exact hhead

theorem brace_notMem_recordHead (r : Record) : (0x7B : UInt8) ∉ recordHead r := by
  have hdigit : ∀ b, isDigit b → (b != 0x7B) = true := by
    intro b hb
    rw [bne_iff_ne]
    rintro rfl
    exact absurd hb (by decide)
  intro hmem
  exact absurd (List.all_eq_true.mp (all_recordHead hdigit rfl r) _ hmem) (by decide)

/-- No object starts inside a quoted string or across its end. -/
theorem escape_ne_object {bytes a b : Bytes} :
    bytes.flatMap escape ++ [0x22, 0x7D] ≠ a ++ 0x7B :: 0x22 :: 0x6C :: b := by
  obtain ⟨hchain, -⟩ := isChain_escape bytes
  intro h
  rcases List.append_eq_append_iff.mp h with ⟨v, -, hv⟩ | ⟨v, hbody, hv⟩
  · have hlen := congrArg List.length hv
    simp only [List.length_append, List.length_cons, List.length_nil] at hlen
    omega
  · rw [hbody] at hchain
    match v with
    | [] => simp at hv
    | [x] => simp at hv
    | x :: y :: v =>
      simp only [List.cons_append, List.cons.injEq] at hv
      have hpair := (List.isChain_append.mp hchain).2.1
      rw [List.isChain_cons_cons, ← hv.1, ← hv.2.1] at hpair
      exact hpair.1 ⟨rfl, rfl⟩

/-- A record's object is not the end of another record's object. -/
theorem recordBytes_glued {r r' : Record} {t : Bytes} (h : t ++ recordBytes r = recordBytes r') :
    t = [] := by
  obtain ⟨b, hb⟩ : ∃ b, recordBytes r = 0x7B :: 0x22 :: 0x6C :: b := ⟨_, rfl⟩
  have hbytes : recordBytes r' = 0x7B :: (recordHead r' ++
      ((utf8 r'.text).flatMap escape ++ [0x22, 0x7D])) := by
    simp only [recordBytes, quoted, List.cons_append, List.append_assoc, List.nil_append]
  cases t with
  | nil => rfl
  | cons c t =>
    rw [hbytes, List.cons_append, List.cons.injEq, hb] at h
    rcases List.append_eq_append_iff.mp h.2 with ⟨a, ha, hrest⟩ | ⟨a, -, hrest⟩
    · cases a with
      | nil => exact absurd hrest.symm (escape_ne_object (a := []))
      | cons x a =>
        rw [List.cons_append, List.cons.injEq] at hrest
        refine absurd ?_ (brace_notMem_recordHead r')
        rw [ha, ← hrest.1]
        exact List.mem_append_right t List.mem_cons_self
    · exact absurd hrest escape_ne_object

theorem compactJson_fits : compactJson.Fits := by
  intro b r h
  simp only [compactJson] at h
  split at h
  · split_ifs at h with hr
    obtain rfl := Except.ok.inj h
    exact hr.2
  · cases h

theorem recordBytes_of_ok {x : Bytes} {r : Record} (h : compactJson.record x = .ok r) :
    x.dropWhile isJsonWhitespace = recordBytes r := by
  simp only [compactJson] at h
  split at h
  · split_ifs at h with hr
    obtain rfl := Except.ok.inj h
    exact hr.1.symm
  · cases h

theorem compactJson_lawful : compactJson.Lawful where
  entry_text e := by
    refine ⟨entryBytes e, rfl, newline_notMem_entryBytes e, rfl, ?_⟩
    simp [compactJson, parseEntry_entryBytes]
  record_text r hlo hhi := by
    refine ⟨recordBytes r, rfl, newline_notMem_recordBytes r, rfl, fun w hw => ?_⟩
    have hdrop : (w ++ recordBytes r).dropWhile isJsonWhitespace = recordBytes r := by
      rw [List.dropWhile_append_of_pos (by simpa using hw)]
      rfl
    simp [compactJson, hdrop, parseRecord_recordBytes, hlo, hhi]
  record_glued r b t hb ht r' hr' := by
    obtain rfl := Except.ok.inj hb
    have hbytes := recordBytes_of_ok hr'
    rw [List.dropWhile_append] at hbytes
    split_ifs at hbytes with hw
    · exact ht (by simpa [List.dropWhile_eq_nil_iff] using hw)
    · have hnil := recordBytes_glued hbytes
      simp [hnil] at hw

end Ralph.ChatMemory.CompactJson
