import Mathlib.Data.List.DropRight
import Ralph.Chat.Sanitizer
import Ralph.Utf8Decoder

namespace Ralph.Chat.Typing
open Utf8Strict

def queueKey : Char := '\x11'
def bell : Char := '\x07'

structure Scan where
  text : List Char
  queueKey : Bool
  cut : Bool
  deriving DecidableEq, Repr

/-- `skip_string`: whether the string has ended, and the characters behind it. -/
def skipString : List Char → Bool × List Char
  | [] => (false, [])
  | c :: cs =>
    if c = bell then (true, cs)
    else if c = esc then
      match cs with
      | [] => (false, [])
      | _ :: rest => (true, rest)
    else skipString cs

/-- The last character of a CSI sequence. -/
def isFinal (c : Char) : Bool := between '\x40' '\x7e' c

/-- The characters that begin a string. -/
def stringIntros : List Char := [']', 'P', '_', 'X', '^']

def skipEscape : List Char → Bool × List Char
  | [] => (false, [])
  | c :: cs =>
    if c = '[' then
      match cs.dropWhile fun c => !isFinal c with
      | [] => (false, [])
      | _ :: rest => (true, rest)
    else if c = 'O' then
      match cs with
      | [] => (false, [])
      | _ :: rest => (true, rest)
    else if c ∈ stringIntros then skipString cs
    else (true, cs)

theorem length_skipString (cs : List Char) : (skipString cs).2.length ≤ cs.length := by
  induction cs with
  | nil => exact le_rfl
  | cons c cs ih =>
    unfold skipString
    split_ifs
    · exact Nat.le_succ _
    · cases cs with
      | nil => exact Nat.zero_le _
      | cons d cs => exact (Nat.le_succ _).trans (Nat.le_succ _)
    · exact ih.trans (Nat.le_succ _)

theorem length_skipEscape (cs : List Char) : (skipEscape cs).2.length ≤ cs.length := by
  cases cs with
  | nil => exact le_rfl
  | cons c cs =>
    unfold skipEscape
    rw [List.length_cons]
    dsimp only
    split_ifs
    · have hle : (cs.dropWhile fun c => !isFinal c).length ≤ cs.length :=
        (List.dropWhile_sublist _).length_le
      cases hrest : cs.dropWhile fun c => !isFinal c with
      | nil => exact Nat.zero_le _
      | cons d rest =>
        rw [hrest, List.length_cons] at hle
        dsimp only
        omega
    · cases cs with
      | nil => exact Nat.zero_le _
      | cons d cs =>
        dsimp only
        rw [List.length_cons]
        omega
    · exact (length_skipString cs).trans (Nat.le_succ _)
    · exact Nat.le_succ _

/-- The `while let` of `scan`. -/
def scanBody : Loop.Body (List Char × Scan) Scan where
  step r :=
    match r.1 with
    | [] => .inr r.2
    | c :: cs =>
      if c = esc then .inl ((skipEscape cs).2, { r.2 with cut := !(skipEscape cs).1 })
      else if c = queueKey then .inl (cs, { r.2 with queueKey := true })
      else if c = '\t' ∨ c = '\n' then .inl (cs, { r.2 with text := r.2.text ++ [c] })
      else if isControl c = true ∨ c = Utf8Lossy.replacement then .inl (cs, r.2)
      else .inl (cs, { r.2 with text := r.2.text ++ [c] })
  measure r := r.1.length
  decreases r r' hs := by
    obtain ⟨cs, s⟩ := r
    cases cs with
    | nil => exact absurd hs (by simp)
    | cons c cs =>
      have hskip := length_skipEscape cs
      dsimp only at hs
      split_ifs at hs
      all_goals rw [← Sum.inl.inj hs, List.length_cons]; dsimp only; omega

def scan (bytes : Bytes) : Scan := scanBody.run ((fromUtf8Lossy bytes).toList, ⟨[], false, false⟩)

/-- The `loop` of `ends_mid_char`. -/
def endsBody : Loop.Body Bytes Bool where
  step rest :=
    match fromUtf8 rest with
    | .ok _ => .inr false
    | .error e =>
      match e.errorLen with
      | none => .inr true
      | some len => .inl (rest.drop (e.validUpTo + len))
  measure rest := rest.length
  decreases rest rest' hs := by
    split at hs
    · exact absurd hs (by simp)
    · next e herror =>
      split at hs
      · exact absurd hs (by simp)
      · next len hlen =>
        rw [← Sum.inl.inj hs, ← List.drop_drop]
        exact length_drop_lt herror hlen

def endsMidChar (bytes : Bytes) : Bool := endsBody.run bytes

inductive Typed
  | opened (text : String)
  | ignore
  deriving DecidableEq, Repr

def typed (bytes : Bytes) : Typed :=
  let seed := (scan bytes).text.rdropWhile (· == '\n')
  if (scan bytes).queueKey || seed ≠ [] then .opened (String.ofList seed) else .ignore

def incomplete (bytes : Bytes) : Bool := endsMidChar bytes || (scan bytes).cut

/-- An escape sequence as terminals send them. -/
inductive EscapeSequence : List Char → Prop
  | csi {params : List Char} {final : Char} (params_ok : ∀ c ∈ params, isFinal c = false)
      (final_ok : isFinal final = true) : EscapeSequence (esc :: '[' :: (params ++ [final]))
  | single (c : Char) : EscapeSequence [esc, 'O', c]
  | bell {intro : Char} {body : List Char} (intro_ok : intro ∈ stringIntros)
      (body_ok : ∀ c ∈ body, c ≠ bell ∧ c ≠ esc) : EscapeSequence (esc :: intro :: (body ++ [bell]))
  | terminated {intro : Char} {body : List Char} (intro_ok : intro ∈ stringIntros)
      (body_ok : ∀ c ∈ body, c ≠ Typing.bell ∧ c ≠ esc) (c : Char) :
      EscapeSequence (esc :: intro :: (body ++ [esc, c]))
  | two {c : Char} (csi : c ≠ '[') (single : c ≠ 'O') (string : c ∉ stringIntros) :
      EscapeSequence [esc, c]

/-- A string goes up to its terminator, and only so far. -/
theorem skipString_spec (cs : List Char) :
    (∃ body tail rest, cs = body ++ tail ++ rest ∧ (∀ c ∈ body, c ≠ bell ∧ c ≠ esc) ∧
      (tail = [bell] ∨ ∃ c, tail = [esc, c]) ∧ ∀ y, skipString (cs ++ y) = (true, rest ++ y)) ∨
    (skipString cs = (false, []) ∧ ∃ body tail, cs = body ++ tail ∧ (∀ c ∈ body, c ≠ bell ∧ c ≠ esc) ∧
      (tail = [] ∨ tail = [esc])) := by
  induction cs with
  | nil => exact .inr ⟨rfl, [], [], rfl, by simp, .inl rfl⟩
  | cons c cs ih =>
    by_cases hbell : c = bell
    · refine .inl ⟨[], [bell], cs, by rw [hbell]; rfl, by simp, .inl rfl, fun y => ?_⟩
      unfold skipString
      simp [hbell]
    · by_cases hesc : c = esc
      · cases cs with
        | nil =>
          refine .inr ⟨?_, [], [esc], by rw [hesc]; rfl, by simp, .inr rfl⟩
          unfold skipString
          simp [hesc, show esc ≠ bell by decide]
        | cons d cs =>
          refine .inl ⟨[], [esc, d], cs, by rw [hesc]; rfl, by simp, .inr ⟨d, rfl⟩, fun y => ?_⟩
          unfold skipString
          simp [hesc, show esc ≠ bell by decide]
      · have hskip : ∀ y, skipString (c :: cs ++ y) = skipString (cs ++ y) := by
          intro y
          rw [List.cons_append]
          conv_lhs => unfold skipString
          rw [if_neg hbell, if_neg hesc]
        obtain ⟨body, tail, rest, rfl, hbody, htail, hall⟩ | ⟨hcut, body, tail, rfl, hbody, htail⟩ := ih
        · refine .inl ⟨c :: body, tail, rest, rfl, ?_, htail, fun y => ?_⟩
          · rw [List.forall_mem_cons]
            exact ⟨⟨hbell, hesc⟩, hbody⟩
          · rw [hskip, hall]
        · refine .inr ⟨?_, c :: body, tail, rfl, ?_, htail⟩
          · have hnil := hskip []
            rw [List.append_nil, List.append_nil, hcut] at hnil
            exact hnil
          · rw [List.forall_mem_cons]
            exact ⟨⟨hbell, hesc⟩, hbody⟩

/-- An escape sequence goes up to its end, or more characters are needed. -/
theorem skipEscape_spec (cs : List Char) :
    (∃ body rest, cs = body ++ rest ∧ EscapeSequence (esc :: body) ∧
      ∀ y, skipEscape (cs ++ y) = (true, rest ++ y)) ∨
    (skipEscape cs = (false, []) ∧ ∃ more, EscapeSequence (esc :: cs ++ more)) := by
  cases cs with
  | nil => exact .inr ⟨rfl, ['O', 'A'], .single 'A'⟩
  | cons c cs =>
    by_cases hcsi : c = '['
    -- a control sequence goes up to its final byte
    · subst hcsi
      have hparts := List.takeWhile_append_dropWhile (p := fun c => !isFinal c) (l := cs)
      have hparams : ∀ c ∈ cs.takeWhile (fun c => !isFinal c), isFinal c = false := by
        intro c hc
        simpa using List.mem_takeWhile_imp hc
      cases hdrop : cs.dropWhile fun c => !isFinal c with
      | nil =>
        rw [hdrop, List.append_nil] at hparts
        refine .inr ⟨?_, ['m'], ?_⟩
        · unfold skipEscape
          simp [hdrop]
        · rw [hparts] at hparams
          exact .csi hparams (by decide)
      | cons d rest =>
        rw [hdrop] at hparts
        have hfinal : isFinal d = true := by
          have hhead := List.head?_dropWhile_not (fun c => !isFinal c) cs
          simpa [hdrop] using hhead
        refine .inl ⟨'[' :: (cs.takeWhile (fun c => !isFinal c) ++ [d]), rest, ?_, .csi hparams hfinal, ?_⟩
        · rw [List.cons_append, List.append_assoc, List.singleton_append, hparts]
        · intro y
          unfold skipEscape
          simp [List.dropWhile_append, hdrop]
    · by_cases hsingle : c = 'O'
      -- one more character of any kind
      · subst hsingle
        cases cs with
        | nil =>
          refine .inr ⟨?_, ['A'], .single 'A'⟩
          unfold skipEscape
          simp
        | cons d rest =>
          refine .inl ⟨['O', d], rest, rfl, .single d, fun y => ?_⟩
          unfold skipEscape
          simp
      -- a string, or an escape of two characters
      · by_cases hstring : c ∈ stringIntros
        · have hskip : ∀ y, skipEscape (c :: cs ++ y) = skipString (cs ++ y) := by
            intro y
            rw [List.cons_append]
            unfold skipEscape
            dsimp only
            rw [if_neg hcsi, if_neg hsingle, if_pos hstring]
          -- a string goes up to a bell or a terminator
          obtain ⟨body, tail, rest, rfl, hbody, htail, hall⟩ | ⟨hcut, body, tail, rfl, hbody, htail⟩ :=
            skipString_spec cs
          · refine .inl ⟨c :: (body ++ tail), rest, by simp, ?_, fun y => by rw [hskip, hall]⟩
            obtain rfl | ⟨d, rfl⟩ := htail
            · exact .bell hstring hbody
            · exact .terminated hstring hbody d
          · refine .inr ⟨?_, ?_⟩
            · have hnil := hskip []
              rw [List.append_nil, List.append_nil, hcut] at hnil
              exact hnil
            · obtain rfl | rfl := htail
              · refine ⟨[bell], ?_⟩
                rw [List.append_nil]
                exact .bell hstring hbody
              · refine ⟨['x'], ?_⟩
                have hwhole := EscapeSequence.terminated hstring hbody 'x'
                simpa using hwhole
        · refine .inl ⟨[c], cs, rfl, .two hcsi hsingle hstring, fun y => ?_⟩
          rw [List.cons_append]
          unfold skipEscape
          dsimp only
          rw [if_neg hcsi, if_neg hsingle, if_neg hstring]

inductive Piece
  | char (c : Char)
  | escape (body : List Char)
  deriving DecidableEq, Repr

namespace Piece

def chars : Piece → List Char
  | .char c => [c]
  | .escape body => esc :: body

/-- The text that a character stands for. -/
def shownChar (c : Char) : List Char :=
  if c = queueKey then []
  else if c = '\t' ∨ c = '\n' then [c]
  else if isControl c = true ∨ c = Utf8Lossy.replacement then []
  else [c]

def text : Piece → List Char
  | .char c => shownChar c
  | .escape _ => []

def Whole : Piece → Prop
  | .char c => c ≠ esc
  | .escape body => EscapeSequence (esc :: body)

end Piece

/-- The first piece, unless it is an escape sequence that is cut. -/
def nextPiece : List Char → Option (Piece × List Char)
  | [] => none
  | c :: cs =>
    if c = esc then
      if (skipEscape cs).1 then
        some (.escape (cs.take (cs.length - (skipEscape cs).2.length)), (skipEscape cs).2)
      else none
    else some (.char c, cs)

theorem nextPiece_char {c : Char} (h : c ≠ esc) (cs : List Char) :
    nextPiece (c :: cs) = some (.char c, cs) := by
  rw [nextPiece, if_neg h]

/-- An escape sequence at the front, whole or cut. -/
theorem nextPiece_esc (cs : List Char) :
    (∃ body rest, cs = body ++ rest ∧ EscapeSequence (esc :: body) ∧ skipEscape cs = (true, rest) ∧
      ∀ y, nextPiece (esc :: cs ++ y) = some (.escape body, rest ++ y)) ∨
    (skipEscape cs = (false, []) ∧ nextPiece (esc :: cs) = none ∧
      ∃ more, EscapeSequence (esc :: cs ++ more)) := by
  obtain ⟨body, rest, rfl, hwhole, hall⟩ | ⟨hcut, hmore⟩ := skipEscape_spec cs
  · refine .inl ⟨body, rest, rfl, hwhole, ?_, fun y => ?_⟩
    · have hnil := hall []
      rwa [List.append_nil, List.append_nil] at hnil
    · rw [List.cons_append, nextPiece, if_pos rfl, hall, if_pos rfl]
      simp only [List.length_append, Option.some.injEq, Prod.mk.injEq, Piece.escape.injEq, and_true]
      rw [List.append_assoc, List.take_left' (by omega)]
  · refine .inr ⟨hcut, ?_, hmore⟩
    rw [nextPiece, if_pos rfl, hcut, if_neg Bool.false_ne_true]

theorem nextPiece_shrinks (x : List Char) (p : Piece) (r : List Char)
    (h : nextPiece x = some (p, r)) : r.length < x.length := by
  cases x with
  | nil => cases h
  | cons c cs =>
    rw [List.length_cons]
    by_cases hesc : c = esc
    · rw [hesc, nextPiece, if_pos rfl] at h
      split_ifs at h
      rw [Option.some.injEq, Prod.mk.injEq] at h
      have hle := length_skipEscape cs
      rw [h.2] at hle
      omega
    · rw [nextPiece_char hesc, Option.some.injEq, Prod.mk.injEq] at h
      rw [h.2]
      omega

theorem nextPiece_stable (x y : List Char) (p : Piece) (r : List Char)
    (h : nextPiece x = some (p, r)) : nextPiece (x ++ y) = some (p, r ++ y) := by
  cases x with
  | nil => cases h
  | cons c cs =>
    by_cases hesc : c = esc
    · subst hesc
      obtain ⟨body, rest, -, -, -, hall⟩ | ⟨-, hnone, -⟩ := nextPiece_esc cs
      · have hnil := hall []
        rw [List.append_nil, List.append_nil, h, Option.some.injEq, Prod.mk.injEq] at hnil
        rw [hall, hnil.1, hnil.2]
      · cases hnone.symm.trans h
    · rw [nextPiece_char hesc, Option.some.injEq, Prod.mk.injEq] at h
      rw [List.cons_append, nextPiece_char hesc, h.1, h.2]

def pieceScanner : Chunked.Scanner (Char) Piece := ⟨nextPiece, nextPiece_shrinks, nextPiece_stable⟩

/-- The pieces of a text, and the escape sequence that is cut at its end. -/
def pieces (cs : List Char) : List Piece × List Char := pieceScanner.drain cs

theorem pieces_nil : pieces [] = ([], []) := pieceScanner.drain_of_none rfl

theorem pieces_append (cs ds : List Char) :
    pieces (cs ++ ds) =
      ((pieces cs).1 ++ (pieces ((pieces cs).2 ++ ds)).1, (pieces ((pieces cs).2 ++ ds)).2) :=
  pieceScanner.drain_append cs ds

theorem pieces_of_some {cs rest : List Char} {p : Piece} (h : nextPiece cs = some (p, rest)) :
    pieces cs = (p :: (pieces rest).1, (pieces rest).2) := pieceScanner.drain_of_some h

/-- What the loop has found behind the characters. -/
def Scan.after (s : Scan) (cs : List Char) : Scan :=
  ⟨s.text ++ (pieces cs).1.flatMap Piece.text,
    s.queueKey || decide (.char Typing.queueKey ∈ (pieces cs).1), decide ((pieces cs).2 ≠ [])⟩

theorem after_nil {s : Scan} (h : s.cut = false) : s.after [] = s := by
  obtain ⟨text, key, cut⟩ := s
  obtain rfl : cut = false := h
  rw [Scan.after, pieces_nil]
  simp

theorem after_char {c : Char} (h : c ≠ esc) (s : Scan) (cs : List Char) :
    s.after (c :: cs) =
      Scan.after ⟨s.text ++ Piece.shownChar c, s.queueKey || decide (c = Typing.queueKey), s.cut⟩ cs := by
  have hkey : decide (Piece.char Typing.queueKey ∈ Piece.char c :: (pieces cs).1) =
      (decide (c = Typing.queueKey) || decide (Piece.char Typing.queueKey ∈ (pieces cs).1)) := by
    rw [← Bool.decide_or]
    congr 1
    rw [List.mem_cons, Piece.char.injEq, @eq_comm Char c]
  rw [Scan.after, pieces_of_some (nextPiece_char h cs), Scan.after, hkey, List.flatMap_cons,
    Bool.or_assoc, List.append_assoc]
  rfl

theorem scanBody_run {cs : List Char} {s : Scan} (h : s.cut = false) :
    scanBody.run (cs, s) = s.after cs := by
  -- on the length: an escape sequence is skipped as a whole
  induction hn : cs.length using Nat.strong_induction_on generalizing cs s with
  | _ n ih =>
    cases cs with
    | nil =>
      rw [after_nil h]
      exact scanBody.run_of_done rfl
    | cons c cs =>
      by_cases hesc : c = esc
      · subst hesc
        have hstep : scanBody.step (esc :: cs, s) =
            .inl ((skipEscape cs).2, { s with cut := !(skipEscape cs).1 }) := by
          simp only [scanBody, if_pos]
        rw [scanBody.run_of_again hstep]
        obtain ⟨body, rest, rfl, -, hskip, hall⟩ | ⟨hcut, hnone, -⟩ := nextPiece_esc cs
        · rw [hskip]
          have hnext := hall []
          rw [List.append_nil, List.append_nil] at hnext
          have hshort : rest.length < n := by
            rw [← hn, List.length_cons, List.length_append]
            omega
          rw [ih rest.length hshort rfl rfl, Scan.after, Scan.after, pieces_of_some hnext]
          simp [Piece.text]
        · have hpieces : pieces (esc :: cs) = ([], esc :: cs) := pieceScanner.drain_of_none hnone
          rw [hcut, scanBody.run_of_done rfl, Scan.after, hpieces]
          simp
      · have hstep : scanBody.step (c :: cs, s) = .inl (cs, ⟨s.text ++ Piece.shownChar c,
            s.queueKey || decide (c = Typing.queueKey), s.cut⟩) := by
          simp only [scanBody, if_neg hesc, Piece.shownChar]
          split_ifs with hkey hblank hcontrol
          · simp [hkey]
          · simp [hkey]
          · simp [hkey]
          · simp [hkey]
        rw [scanBody.run_of_again hstep, after_char hesc]
        refine ih cs.length ?_ h rfl
        rw [← hn, List.length_cons]
        omega

theorem scan_eq (bytes : Bytes) :
    scan bytes = Scan.after ⟨[], false, false⟩ (Utf8Lossy.chars 0 bytes) := by
  rw [scan, fromUtf8Lossy, String.toList_ofList]
  exact scanBody_run rfl

theorem endsMidChar_eq (bytes : Bytes) : endsMidChar bytes = decide ((decode bytes).2 ≠ []) := by
  -- on the length: a round goes up to the first error and past it
  induction hn : bytes.length using Nat.strong_induction_on generalizing bytes with
  | _ n ih =>
    obtain ⟨cs, hok, hdecode⟩ | ⟨e, valid, rest, cs, herror, rfl, hupto, hvalid, hstop⟩ :=
      readFrom_spec 0 bytes
    · have hstep : endsBody.step bytes = .inr false := by
        simp only [endsBody, fromUtf8, hok]
      rw [endsMidChar, endsBody.run_of_done hstep, hdecode]
      rfl
    · rw [Nat.zero_add] at hupto
      have hparts := decode_append valid rest
      rw [hvalid, List.nil_append] at hparts
      rw [hparts]
      cases hlen : e.errorLen with
      | none =>
        rw [hlen] at hstop
        have hstep : endsBody.step (valid ++ rest) = .inr true := by
          simp only [endsBody, fromUtf8, herror, hlen]
        rw [endsMidChar, endsBody.run_of_done hstep, decode_of_isCut (.inr hstop)]
        obtain ⟨lead, more, rfl, -⟩ := hstop
        rfl
      | some len =>
        rw [hlen] at hstop
        have hdrop : (valid ++ rest).drop (e.validUpTo + len) = rest.drop len := by
          rw [hupto, ← List.drop_drop, List.drop_left]
        have hstep : endsBody.step (valid ++ rest) = .inl (rest.drop len) := by
          simp only [endsBody, fromUtf8, herror, hlen, hdrop]
        have hrest : decode rest = (Utf8Lossy.replacement :: (decode (rest.drop len)).1,
            (decode (rest.drop len)).2) := scanner.drain_of_some hstop
        rw [endsMidChar, endsBody.run_of_again hstep, hrest]
        refine ih _ ?_ _ rfl
        rw [← hn]
        exact endsBody.decreases _ _ hstep

theorem incomplete_eq (bytes : Bytes) :
    incomplete bytes = (decide ((decode bytes).2 ≠ []) ||
      decide ((pieces (Utf8Lossy.chars 0 bytes)).2 ≠ [])) := by
  rw [incomplete, endsMidChar_eq, scan_eq]
  rfl

theorem incomplete_eq_false_iff {bytes : Bytes} :
    incomplete bytes = false ↔
      (decode bytes).2 = [] ∧ (pieces (Utf8Lossy.chars 0 bytes)).2 = [] := by
  rw [incomplete_eq, Bool.or_eq_false_iff, decide_eq_false_iff_not, decide_eq_false_iff_not, not_not,
    not_not]

/-- Nothing that comes later changes how complete input is read. -/
theorem chars_append {a : Bytes} (h : (decode a).2 = []) (b : Bytes) :
    Utf8Lossy.chars 0 (a ++ b) = Utf8Lossy.chars 0 a ++ Utf8Lossy.chars 0 b := by
  rw [chars_eq_decode, chars_eq_decode a, chars_eq_decode b, decode_append, h, if_pos rfl,
    List.nil_append, List.append_nil, List.append_assoc]

theorem scan_append {a : Bytes} (h : incomplete a = false) (b : Bytes) :
    (scan (a ++ b)).text = (scan a).text ++ (scan b).text ∧
      (scan (a ++ b)).queueKey = ((scan a).queueKey || (scan b).queueKey) ∧
      incomplete (a ++ b) = incomplete b := by
  obtain ⟨hdecode, hpieces⟩ := incomplete_eq_false_iff.mp h
  have hchars := chars_append hdecode b
  have hparts := pieces_append (Utf8Lossy.chars 0 a) (Utf8Lossy.chars 0 b)
  rw [hpieces, List.nil_append] at hparts
  refine ⟨?_, ?_, ?_⟩
  · rw [scan_eq, scan_eq a, scan_eq b]
    simp only [Scan.after, hchars, hparts, List.flatMap_append, List.nil_append]
  · rw [scan_eq, scan_eq a, scan_eq b]
    simp only [Scan.after, hchars, hparts, List.mem_append, Bool.decide_or, Bool.false_or]
  · rw [incomplete_eq, incomplete_eq b, hchars, hparts, decode_append, hdecode, List.nil_append]

/-- The buffers that are read when a piece is joined to the next one while it is incomplete. -/
def joined (held : Bytes) : List Bytes → List Bytes
  | [] => [held]
  | piece :: rest =>
    if incomplete (held ++ piece) then joined (held ++ piece) rest
    else (held ++ piece) :: joined [] rest

theorem joined_spec (held : Bytes) (parts : List Bytes) :
    ((joined held parts).flatMap fun bytes => (scan bytes).text) =
        (scan (held ++ parts.flatten)).text ∧
      ((joined held parts).any fun bytes => (scan bytes).queueKey) =
        (scan (held ++ parts.flatten)).queueKey ∧
      (joined held parts).flatten = held ++ parts.flatten := by
  induction parts generalizing held with
  | nil => simp [joined]
  | cons piece rest ih =>
    rw [joined, List.flatten_cons, ← List.append_assoc]
    split_ifs with hcut
    · exact ih (held ++ piece)
    · obtain ⟨htext, hkey, -⟩ := scan_append (Bool.eq_false_of_not_eq_true hcut) rest.flatten
      obtain ⟨htexts, hkeys, hall⟩ := ih []
      rw [List.nil_append] at htexts hkeys hall
      rw [List.flatMap_cons, htexts, htext, List.any_cons, hkeys, hkey, List.flatten_cons, hall]
      exact ⟨rfl, rfl, rfl⟩

inductive Item
  | char (sequence : Sequence)
  | escape (sequences : List Sequence)

namespace Item

def sequences : Item → List Sequence
  | .char sequence => [sequence]
  | .escape sequences => sequences

def bytes (item : Item) : Bytes := item.sequences.flatMap Sequence.bytes

/-- Only characters outside escape sequences are shown. -/
def text : Item → List Char
  | .char sequence => Piece.shownChar sequence.char
  | .escape _ => []

/-- A character, or an escape sequence that is whole or cut. -/
def Ok : Item → Prop
  | .char sequence => sequence.Read ∧ sequence.char ≠ esc
  | .escape sequences => (∀ sequence ∈ sequences, sequence.Read) ∧
    ∃ more, EscapeSequence (sequences.map Sequence.char ++ more)

end Item

theorem exists_items {sequences : List Sequence} (h : ∀ sequence ∈ sequences, sequence.Read) :
    ∃ items : List Item, items.flatMap Item.sequences = sequences ∧ (∀ item ∈ items, item.Ok) ∧
      (pieces (sequences.map Sequence.char)).1.flatMap Piece.text = items.flatMap Item.text := by
  -- on the number of sequences, since an escape takes several
  induction hn : sequences.length using Nat.strong_induction_on generalizing sequences with
  | _ n ih =>
    cases sequences with
    | nil =>
      refine ⟨[], rfl, by simp, ?_⟩
      rw [List.map_nil, pieces_nil]
      rfl
    | cons first rest =>
      rw [List.forall_mem_cons] at h
      by_cases hesc : first.char = esc
      · obtain ⟨body, tail, hbody, hwhole, -, hall⟩ | ⟨-, hnone, hmore⟩ :=
          nextPiece_esc (rest.map Sequence.char)
        · obtain ⟨xs, ys, rfl, rfl, rfl⟩ := List.map_eq_append_iff.mp hbody
          have hnext := hall []
          rw [List.append_nil, List.append_nil] at hnext
          have hshort : ys.length < n := by
            rw [← hn, List.length_cons, List.length_append]
            omega
          rw [List.forall_mem_append] at h
          obtain ⟨items, hsequences, hok, htext⟩ := ih _ hshort h.2.2 rfl
          refine ⟨.escape (first :: xs) :: items, ?_, ?_, ?_⟩
          · rw [List.flatMap_cons, hsequences]
            rfl
          · rw [List.forall_mem_cons]
            refine ⟨⟨?_, [], ?_⟩, hok⟩
            · rw [List.forall_mem_cons]
              exact ⟨h.1, h.2.1⟩
            · rw [List.append_nil, List.map_cons, hesc]
              exact hwhole
          · rw [List.map_cons, hesc, pieces_of_some hnext, List.flatMap_cons, List.flatMap_cons, htext]
            rfl
        -- an escape that is not at its end takes all that is left
        · have hcut : pieces (esc :: rest.map Sequence.char) = ([], esc :: rest.map Sequence.char) :=
            pieceScanner.drain_of_none hnone
          refine ⟨[.escape (first :: rest)], by simp [Item.sequences], ?_, ?_⟩
          · rw [List.forall_mem_singleton]
            refine ⟨List.forall_mem_cons.mpr h, ?_⟩
            rw [List.map_cons, hesc]
            exact hmore
          · rw [List.map_cons, hesc, hcut]
            rfl
      · have hshort : rest.length < n := by
          rw [← hn, List.length_cons]
          omega
        obtain ⟨items, hsequences, hok, htext⟩ := ih _ hshort h.2 rfl
        refine ⟨.char first :: items, ?_, ?_, ?_⟩
        · rw [List.flatMap_cons, hsequences]
          rfl
        · rw [List.forall_mem_cons]
          exact ⟨⟨h.1, hesc⟩, hok⟩
        · rw [List.map_cons, pieces_of_some (nextPiece_char hesc _), List.flatMap_cons,
            List.flatMap_cons, htext]
          rfl

/-- Typed input is read the same however the terminal delivers it, and nothing of an escape sequence
or of a character that is cut is shown. -/
theorem typed_pieces :
    (∀ a b, incomplete a = false → (scan (a ++ b)).text = (scan a).text ++ (scan b).text ∧
      (scan (a ++ b)).queueKey = ((scan a).queueKey || (scan b).queueKey) ∧
      incomplete (a ++ b) = incomplete b) ∧
    (∀ parts : List Bytes, (joined [] parts).flatten = parts.flatten ∧
      ((joined [] parts).flatMap fun bytes => (scan bytes).text) = (scan parts.flatten).text ∧
      ((joined [] parts).any fun bytes => (scan bytes).queueKey) = (scan parts.flatten).queueKey) ∧
    ∀ bytes, (∃ items : List Item, items.flatMap Item.bytes = bytes ∧ (∀ item ∈ items, item.Ok) ∧
        (scan bytes).text = items.flatMap Item.text) ∧
      ∀ text, typed bytes = .opened text → text.toList <+: (scan bytes).text := by
  refine ⟨fun a b h => scan_append h b, fun parts => ?_, fun bytes => ⟨?_, fun text h => ?_⟩⟩
  · obtain ⟨htexts, hkeys, hall⟩ := joined_spec [] parts
    rw [List.nil_append] at htexts hkeys hall
    exact ⟨hall, htexts, hkeys⟩
  · obtain ⟨hbytes, hchars, hread⟩ := read_sequencesOf bytes
    obtain ⟨items, hsequences, hok, htext⟩ := exists_items hread
    refine ⟨items, ?_, hok, ?_⟩
    · rw [← hsequences, List.flatMap_assoc] at hbytes
      exact hbytes
    · rw [hchars] at htext
      rw [scan_eq, Scan.after, List.nil_append, htext]
  · unfold typed at h
    dsimp only at h
    split_ifs at h
    rw [← Typed.opened.inj h, String.toList_ofList]
    exact List.rdropWhile_prefix _ _

/-- An arrow key and a character, each in two pieces. -/
example : (joined [] [[0x61, 0x1b], [0x5b, 0x41, 0xc3], [0xa9]]).map typed =
    [.opened "aé", .ignore] := by decide

end Ralph.Chat.Typing
