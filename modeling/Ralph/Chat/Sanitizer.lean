import Mathlib.Data.String.Basic
import Ralph.Loop
import Ralph.Utf8Strict

namespace Ralph.Chat
open String

def esc : Char := '\x1b'
def sgrParamsMax : ℕ := 64
def sgrReset : List Char := [esc, '[', '0', 'm']

/-- `char::is_control`: the Unicode category `Cc`. -/
def isControl (c : Char) : Bool := c.toNat ≤ 0x1F || (0x7F ≤ c.toNat && c.toNat ≤ 0x9F)

def between (low high c : Char) : Bool := decide (low ≤ c) && decide (c ≤ high)

theorem push_short {params : List Char} {c : Char}
    (h : between ' ' '?' c = true ∧ utf8Len params < sgrParamsMax) :
    utf8Len (params ++ [c]) ≤ sgrParamsMax := by
  obtain ⟨hrange, hshort⟩ := h
  rw [between, Bool.and_eq_true, decide_eq_true_eq, decide_eq_true_eq] at hrange
  have hsize : c.utf8Size = 1 := by
    rw [Char.utf8Size_eq_one_iff, UInt32.le_iff_toNat_le]
    have hhigh : c.val.toNat ≤ 63 := UInt32.le_iff_toNat_le.1 hrange.2
    exact hhigh.trans (by decide)
  rw [utf8Len_append, utf8Len_cons, utf8Len_nil, hsize]
  omega

theorem nil_short : utf8Len [] ≤ sgrParamsMax := Nat.zero_le _

/-- Where the text stands in an escape sequence. -/
inductive Escape
  | none
  | start
  | intermediate
  | csi (params : List Char) (short : utf8Len params ≤ sgrParamsMax)
  | csiDropped
  | string
  | stringEsc
  deriving DecidableEq, Repr

structure Sanitizer where
  keepSgr : Bool
  pending : Bytes
  escape : Escape
  afterCr : Bool
  styled : Bool
  deriving DecidableEq, Repr

namespace Sanitizer

def new (keepSgr : Bool) : Sanitizer := ⟨keepSgr, [], .none, false, false⟩

/-- A method that changes the sanitizer and writes to `out`. -/
abbrev Written := Sanitizer × List Char

/-- `Sanitizer::text`. -/
def text (s : Sanitizer) (c : Char) (afterCr : Bool) : Written :=
  if c = esc then ({ s with escape := .start }, [])
  else if c = '\n' ∧ afterCr = true then (s, [])
  else if c = '\r' then ({ s with afterCr := true }, ['\n'])
  else if c = '\n' ∨ c = '\t' then (s, [c])
  else if isControl c then (s, [])
  else (s, [c])

def plain (c : Char) : Bool := c.isDigit || c == ';' || c == ':'

def sgr (s : Sanitizer) (params : List Char) : Written :=
  if s.keepSgr = true ∧ params.all plain = true then
    ({ s with styled := true }, esc :: '[' :: params ++ ['m'])
  else (s, [])

/-- The arm of `Escape::Start`, to which a broken string comes back. -/
def start (s : Sanitizer) (c : Char) : Written :=
  if c = '[' then ({ s with escape := .csi [] nil_short }, [])
  else if c = ']' ∨ c = 'P' ∨ c = 'X' ∨ c = '^' ∨ c = '_' then ({ s with escape := .string }, [])
  else if between ' ' '/' c then ({ s with escape := .intermediate }, [])
  else if between '0' '~' c then (s, [])
  else s.text c false

def step (s : Sanitizer) (c : Char) : Written :=
  let taken : Sanitizer := { s with afterCr := false, escape := .none }
  match s.escape with
  | .none => taken.text c s.afterCr
  | .start => taken.start c
  | .intermediate =>
    if between ' ' '/' c then ({ taken with escape := .intermediate }, [])
    else if between '0' '~' c then (taken, [])
    else taken.text c false
  | .csi params _ =>
    if h : between ' ' '?' c = true ∧ utf8Len params < sgrParamsMax then
      ({ taken with escape := .csi (params ++ [c]) (push_short h) }, [])
    -- too many parameters: the sequence is read to its end and left out
    else if between ' ' '?' c then ({ taken with escape := .csiDropped }, [])
    else if c = 'm' then taken.sgr params
    else if between '@' '~' c then (taken, [])
    else taken.text c false
  | .csiDropped =>
    if between ' ' '?' c then ({ taken with escape := .csiDropped }, [])
    else if between '@' '~' c then (taken, [])
    else taken.text c false
  | .string =>
    if c = '\x07' ∨ c = '\u009c' then (taken, [])
    else if c = esc then ({ taken with escape := .stringEsc }, [])
    else ({ taken with escape := .string }, [])
  | .stringEsc => if c = '\\' then (taken, []) else taken.start c

/-- `text.chars().for_each(|c| self.step(c, &mut out))`. -/
def steps (s : Sanitizer) : List Char → Written
  | [] => (s, [])
  | c :: cs =>
    let next := (s.step c).1.steps cs
    (next.1, (s.step c).2 ++ next.2)

/-- The `loop` of `feed` over what is left of the input. -/
def feedBody : Loop.Body (Bytes × Written) Written where
  step r :=
    match Utf8Strict.fromUtf8 r.1 with
    | .ok cs => .inr ((r.2.1.steps cs).1, r.2.2 ++ (r.2.1.steps cs).2)
    | .error e =>
      let valid := r.2.1.steps (fromUtf8Lossy (r.1.take e.validUpTo)).toList
      match e.errorLen with
      | some len =>
        let bad := valid.1.step Utf8Lossy.replacement
        .inl ((r.1.drop e.validUpTo).drop len, bad.1, r.2.2 ++ valid.2 ++ bad.2)
      -- the last character may go on in the next chunk
      | none => .inr ({ valid.1 with pending := r.1.drop e.validUpTo }, r.2.2 ++ valid.2)
  measure r := r.1.length
  decreases r r' hs := by
    split at hs
    · exact absurd hs (by simp)
    · next e h =>
      dsimp only at hs
      split at hs
      · next len hlen =>
        rw [← Sum.inl.inj hs]
        exact Utf8Strict.length_drop_lt h hlen
      · exact absurd hs (by simp)

def feed (s : Sanitizer) (bytes : Bytes) : Written :=
  feedBody.run (s.pending ++ bytes, { s with pending := [] }, [])

def finish (s : Sanitizer) : Written :=
  let taken : Sanitizer := { s with pending := [] }
  let last := if s.pending = [] then (taken, []) else taken.step Utf8Lossy.replacement
  ({ last.1 with escape := .none, afterCr := false, styled := false },
    last.2 ++ if last.1.styled then sgrReset else [])

/-- All that is written for the chunks of one cell. -/
def shown (s : Sanitizer) : List Bytes → List Char
  | [] => s.finish.2
  | chunk :: chunks => (s.feed chunk).2 ++ (s.feed chunk).1.shown chunks

/-- What may reach the screen: a character, or a complete styling sequence. -/
inductive Piece
  | char (c : Char)
  | sgr (params : List Char)
  deriving DecidableEq, Repr

def Piece.text : Piece → List Char
  | .char c => [c]
  | .sgr params => esc :: '[' :: params ++ ['m']

def Safe (keepSgr : Bool) : Piece → Prop
  | .char c => isControl c = false ∨ c = '\n' ∨ c = '\t'
  | .sgr params => keepSgr = true ∧ (∀ c ∈ params, plain c = true) ∧ utf8Len params ≤ sgrParamsMax

/-- Only safe pieces are written, and the sanitizer knows whether one of them is a style. -/
structure Emits (s : Sanitizer) (w : Written) : Prop where
  keepSgr : w.1.keepSgr = s.keepSgr
  pieces : ∃ pieces : List Piece, w.2 = pieces.flatMap Piece.text ∧
    (∀ piece ∈ pieces, Safe s.keepSgr piece) ∧
    (w.1.styled = true ↔ s.styled = true ∨ ∃ params, .sgr params ∈ pieces)

theorem emits_nothing {s s' : Sanitizer} (hkeep : s'.keepSgr = s.keepSgr)
    (hstyled : s'.styled = s.styled) : Emits s (s', []) :=
  ⟨hkeep, [], rfl, by simp, by simp [hstyled]⟩

theorem emits_char {s s' : Sanitizer} {c : Char} (hkeep : s'.keepSgr = s.keepSgr)
    (hstyled : s'.styled = s.styled) (hc : isControl c = false ∨ c = '\n' ∨ c = '\t') :
    Emits s (s', [c]) := by
  refine ⟨hkeep, [.char c], rfl, ?_, by simp [hstyled]⟩
  rw [List.forall_mem_singleton]
  exact hc

/-- The rest of the state does not matter to what may be written. -/
theorem Emits.of_same {s s' : Sanitizer} {w : Written} (h : Emits s' w)
    (hkeep : s'.keepSgr = s.keepSgr) (hstyled : s'.styled = s.styled) : Emits s w := by
  obtain ⟨hw, hpieces⟩ := h
  rw [hkeep] at hw hpieces
  rw [hstyled] at hpieces
  exact ⟨hw, hpieces⟩

theorem Emits.trans {s : Sanitizer} {w w' : Written} (h : Emits s w) (h' : Emits w.1 w') :
    Emits s (w'.1, w.2 ++ w'.2) := by
  obtain ⟨pieces, htext, hsafe, hstyled⟩ := h.pieces
  obtain ⟨pieces', htext', hsafe', hstyled'⟩ := h'.pieces
  rw [h.keepSgr] at hsafe'
  refine ⟨h'.keepSgr.trans h.keepSgr, pieces ++ pieces', ?_, ?_, ?_⟩
  · show w.2 ++ w'.2 = _
    rw [htext, htext', List.flatMap_append]
  · rw [List.forall_mem_append]
    exact ⟨hsafe, hsafe'⟩
  · show w'.1.styled = true ↔ _
    rw [hstyled', hstyled, or_assoc]
    simp only [List.mem_append, exists_or]

theorem text_emits (s : Sanitizer) (c : Char) (afterCr : Bool) : Emits s (s.text c afterCr) := by
  unfold text
  split_ifs with hesc hnewline hreturn hblank hcontrol
  · exact emits_nothing rfl rfl
  · exact emits_nothing rfl rfl
  · exact emits_char rfl rfl (.inr (.inl rfl))
  · exact emits_char rfl rfl (.inr hblank)
  · exact emits_nothing rfl rfl
  · apply emits_char rfl rfl
    exact .inl (Bool.eq_false_of_not_eq_true hcontrol)

theorem sgr_emits (s : Sanitizer) {params : List Char} (hshort : utf8Len params ≤ sgrParamsMax) :
    Emits s (s.sgr params) := by
  unfold sgr
  split_ifs with hkept
  · refine ⟨rfl, [.sgr params], ?_, ?_, by simp⟩
    · simp [Piece.text]
    · rw [List.forall_mem_singleton]
      exact ⟨hkept.1, List.all_eq_true.1 hkept.2, hshort⟩
  · exact emits_nothing rfl rfl

theorem start_emits (s : Sanitizer) (c : Char) : Emits s (s.start c) := by
  unfold start
  split_ifs
  · exact emits_nothing rfl rfl
  · exact emits_nothing rfl rfl
  · exact emits_nothing rfl rfl
  · exact emits_nothing rfl rfl
  · exact text_emits s c false

/-- Whatever the state and the character are. -/
theorem step_emits (s : Sanitizer) (c : Char) : Emits s (s.step c) := by
  have htaken : ∀ {w : Written}, Emits { s with afterCr := false, escape := .none } w →
      Emits s w := fun h => h.of_same rfl rfl
  rw [step]
  -- only text and a whole colour sequence are written
  cases hescape : s.escape with
  | none => exact htaken (text_emits _ c s.afterCr)
  | start => exact htaken (start_emits _ c)
  | intermediate =>
    dsimp only
    split_ifs
    · exact emits_nothing rfl rfl
    · exact emits_nothing rfl rfl
    · exact htaken (text_emits _ c false)
  | csi params short =>
    dsimp only
    split_ifs
    · exact emits_nothing rfl rfl
    · exact emits_nothing rfl rfl
    · exact htaken (sgr_emits _ short)
    · exact emits_nothing rfl rfl
    · exact htaken (text_emits _ c false)
  | csiDropped =>
    dsimp only
    split_ifs
    · exact emits_nothing rfl rfl
    · exact emits_nothing rfl rfl
    · exact htaken (text_emits _ c false)
  | string =>
    dsimp only
    split_ifs
    · exact emits_nothing rfl rfl
    · exact emits_nothing rfl rfl
    · exact emits_nothing rfl rfl
  | stringEsc =>
    dsimp only
    split_ifs
    · exact emits_nothing rfl rfl
    · exact htaken (start_emits _ c)

theorem steps_emits (s : Sanitizer) (cs : List Char) : Emits s (s.steps cs) := by
  induction cs generalizing s with
  | nil => exact emits_nothing rfl rfl
  | cons c cs ih =>
    rw [steps]
    exact (step_emits s c).trans (ih (s.step c).1)

/-- A chunk, whatever bytes it holds and wherever it cuts a character. -/
theorem feed_emits (s : Sanitizer) (bytes : Bytes) : Emits s (s.feed bytes) := by
  rw [feed]
  apply feedBody.run_of_invariant (I := fun r => Emits s r.2) (Q := fun w => Emits s w)
  · intro r r' hi hs
    dsimp only [feedBody] at hs
    split at hs
    · exact absurd hs (by simp)
    · split at hs
      · rw [← Sum.inl.inj hs]
        exact (hi.trans (steps_emits _ _)).trans (step_emits _ _)
      · exact absurd hs (by simp)
  · intro r w hi hs
    dsimp only [feedBody] at hs
    split at hs
    · rw [← Sum.inr.inj hs]
      exact hi.trans (steps_emits _ _)
    · next e _ =>
      split at hs
      · exact absurd hs (by simp)
      · rw [← Sum.inr.inj hs]
        -- only `pending` is put back
        have hwritten := hi.trans
          (steps_emits r.2.1 (fromUtf8Lossy (r.1.take e.validUpTo)).toList)
        exact ⟨hwritten.keepSgr, hwritten.pieces⟩
  · exact emits_nothing rfl rfl

theorem finish_eq (s : Sanitizer) :
    ∃ w, Emits s w ∧ s.finish.2 = w.2 ++ if w.1.styled then sgrReset else [] := by
  by_cases hpending : s.pending = []
  · refine ⟨({ s with pending := [] }, []), emits_nothing rfl rfl, ?_⟩
    rw [finish, if_pos hpending]
  · refine ⟨_, (step_emits { s with pending := [] } Utf8Lossy.replacement).of_same rfl rfl, ?_⟩
    rw [finish, if_neg hpending]

theorem shown_eq (s : Sanitizer) (chunks : List Bytes) :
    ∃ w, Emits s w ∧ s.shown chunks = w.2 ++ if w.1.styled then sgrReset else [] := by
  induction chunks generalizing s with
  | nil => exact finish_eq s
  | cons chunk chunks ih =>
    obtain ⟨w, hw, htext⟩ := ih (s.feed chunk).1
    refine ⟨_, (feed_emits s chunk).trans hw, ?_⟩
    rw [shown, htext, List.append_assoc]

/-- However the bytes are cut into chunks, the screen sees text, newlines, tabs and whole styling
sequences, and a style is reset at the end. -/
theorem shown_safe (keepSgr : Bool) (chunks : List Bytes) :
    ∃ pieces : List Piece, (Sanitizer.new keepSgr).shown chunks = pieces.flatMap Piece.text ∧
      (∀ piece ∈ pieces, Safe keepSgr piece) ∧
      ((∀ params, .sgr params ∉ pieces) ∨
        ∃ before params, pieces = before ++ [.sgr ['0']] ∧ .sgr params ∈ before) := by
  obtain ⟨w, hw, htext⟩ := shown_eq (Sanitizer.new keepSgr) chunks
  obtain ⟨pieces, hpieces, hsafe, hstyled⟩ := hw.pieces
  have hnew : (Sanitizer.new keepSgr).styled = false := rfl
  rw [hnew, Bool.false_eq_true, false_or] at hstyled
  by_cases hs : w.1.styled = true
  · obtain ⟨params, hmem⟩ := hstyled.1 hs
    have hkept : keepSgr = true := (hsafe _ hmem).1
    refine ⟨pieces ++ [.sgr ['0']], ?_, ?_, .inr ⟨pieces, params, rfl, hmem⟩⟩
    · rw [htext, if_pos hs, hpieces, List.flatMap_append]
      rfl
    · rw [List.forall_mem_append, List.forall_mem_singleton]
      refine ⟨hsafe, hkept, ?_, by decide⟩
      rw [List.forall_mem_singleton]
      rfl
  · refine ⟨pieces, ?_, hsafe, .inl fun params hmem => hs (hstyled.2 ⟨params, hmem⟩)⟩
    rw [htext, if_neg hs, hpieces, List.append_nil]

/-- A character cut in two, and a bell that is dropped. -/
example : (Sanitizer.new true).shown [[0x1b, 0x5b, 0x33], [0x31, 0x6d, 0xc3], [0xa9, 0x07]] =
    "\x1b[31mé\x1b[0m".toList := by decide

end Sanitizer

end Ralph.Chat
