import Ralph.Chat.Sanitizer
import Ralph.Chat.Words
import Ralph.Utf8Decoder

namespace Ralph.Chat
open Utf8Strict

/-- `OUTPUT_START`. -/
def outputStart : Char := '\x1e'

def stripShellPreamble (output : String) : String :=
  match splitOnce (· == outputStart) output with
  | some (_, rest) => rest
  | none => output

structure PreambleGate where
  isOpen : Bool
  deriving DecidableEq, Repr

namespace PreambleGate

def new (stateful : Bool) : PreambleGate := ⟨!stateful⟩

def feed (gate : PreambleGate) (chunk : Bytes) : PreambleGate × Bytes :=
  if gate.isOpen then (gate, chunk)
  else
    match chunk.dropWhile fun byte => Char.ofNat byte.toNat ≠ outputStart with
    | [] => (gate, [])
    | _ :: after => (⟨true⟩, after)

end PreambleGate

/-- One stream of a cell on its way to the screen. -/
structure Echo where
  gate : PreambleGate
  clean : Sanitizer
  deriving DecidableEq, Repr

namespace Echo

def new (keepSgr stateful : Bool) : Echo := ⟨.new stateful, .new keepSgr⟩

/-- `Echo::show`. -/
def shown (e : Echo) (chunk : Bytes) : Echo × List Char :=
  let passed := e.gate.feed chunk
  let clean := e.clean.feed passed.2
  (⟨passed.1, clean.1⟩, clean.2)

def finish (e : Echo) : List Char := e.clean.finish.2

/-- What `read_all` writes to the screen for the chunks of one stream. -/
def written (e : Echo) : List Bytes → List Char
  | [] => e.finish
  | chunk :: chunks => (e.shown chunk).2 ++ (e.shown chunk).1.written chunks

end Echo

/-- The output that goes into the message. -/
def shownOutput (raw : Bytes) (stateful : Bool) : String :=
  let text := fromUtf8Lossy raw
  if stateful then stripShellPreamble text else text

namespace Sanitizer

theorem text_pending (s : Sanitizer) (c : Char) (afterCr : Bool) :
    (s.text c afterCr).1.pending = s.pending := by
  unfold text
  split_ifs <;> rfl

theorem sgr_pending (s : Sanitizer) (params : List Char) : (s.sgr params).1.pending = s.pending := by
  unfold sgr
  split_ifs <;> rfl

theorem start_pending (s : Sanitizer) (c : Char) : (s.start c).1.pending = s.pending := by
  unfold start
  split_ifs
  any_goals rfl
  exact text_pending s c false

theorem step_pending (s : Sanitizer) (c : Char) : (s.step c).1.pending = s.pending := by
  rw [step]
  cases s.escape with
  | none => exact text_pending _ c s.afterCr
  | start => exact start_pending _ c
  | intermediate =>
    dsimp only
    split_ifs
    any_goals rfl
    exact text_pending _ c false
  | csi params short =>
    dsimp only
    split_ifs
    any_goals rfl
    · exact sgr_pending _ params
    · exact text_pending _ c false
  | csiDropped =>
    dsimp only
    split_ifs
    any_goals rfl
    exact text_pending _ c false
  | string =>
    dsimp only
    split_ifs <;> rfl
  | stringEsc =>
    dsimp only
    split_ifs
    · rfl
    · exact start_pending _ c

theorem steps_pending (s : Sanitizer) (cs : List Char) : (s.steps cs).1.pending = s.pending := by
  induction cs generalizing s with
  | nil => rfl
  | cons c cs ih => exact (ih (s.step c).1).trans (step_pending s c)

theorem steps_append (s : Sanitizer) (cs ds : List Char) :
    s.steps (cs ++ ds) =
      (((s.steps cs).1.steps ds).1, (s.steps cs).2 ++ ((s.steps cs).1.steps ds).2) := by
  induction cs generalizing s with
  | nil => rfl
  | cons c cs ih =>
    rw [List.cons_append, steps, ih, steps]
    simp only [List.append_assoc]

/-- The state after the characters of a buffer, with the cut sequence at its end put back. -/
def after (w : Written) (bytes : Bytes) : Written :=
  ({ (w.1.steps (decode bytes).1).1 with pending := (decode bytes).2 },
    w.2 ++ (w.1.steps (decode bytes).1).2)

/-- A round of the loop leaves the same to be done. -/
theorem feedBody_step {r : Bytes × Written} (hpending : r.2.1.pending = []) :
    (∃ r', feedBody.step r = .inl r' ∧ r'.2.1.pending = [] ∧ after r'.2 r'.1 = after r.2 r.1) ∨
      feedBody.step r = .inr (after r.2 r.1) := by
  obtain ⟨bytes, s, out⟩ := r
  simp only at hpending ⊢
  obtain ⟨cs, hok, hdecode⟩ | ⟨e, valid, rest, cs, herror, rfl, hupto, hvalid, hstop⟩ :=
    readFrom_spec 0 bytes
  · refine .inr ?_
    have hkept : (s.steps cs).1.pending = [] := (steps_pending s cs).trans hpending
    simp only [feedBody, fromUtf8, hok, after, hdecode]
    rw [← hkept]
  · rw [Nat.zero_add] at hupto
    have hread : (fromUtf8Lossy ((valid ++ rest).take e.validUpTo)).toList = cs := by
      rw [hupto, List.take_left, fromUtf8Lossy, String.toList_ofList, chars_eq_decode, hvalid]
      exact List.append_nil cs
    have hdrop : (valid ++ rest).drop e.validUpTo = rest := by
      rw [hupto, List.drop_left]
    have hparts := decode_append valid rest
    rw [hvalid, List.nil_append] at hparts
    cases hlen : e.errorLen with
    | some len =>
      rw [hlen] at hstop
      have hrest : decode rest = (Utf8Lossy.replacement :: (decode (rest.drop len)).1,
          (decode (rest.drop len)).2) := scanner.drain_of_some hstop
      refine .inl ⟨(rest.drop len, ((s.steps cs).1.step Utf8Lossy.replacement).1,
        out ++ (s.steps cs).2 ++ ((s.steps cs).1.step Utf8Lossy.replacement).2), ?_, ?_, ?_⟩
      · simp only [feedBody, fromUtf8, herror, hlen, hread, hdrop]
      · exact (step_pending _ _).trans ((steps_pending s cs).trans hpending)
      · simp only [after, hparts, hrest, steps_append, steps, List.append_assoc]
    | none =>
      rw [hlen] at hstop
      refine .inr ?_
      simp only [feedBody, fromUtf8, herror, hlen, hread, hdrop, after, hparts,
        decode_of_isCut (.inr hstop), List.append_nil]

/-- A chunk is the characters that it completes, and the rest waits for the next one. -/
theorem feed_eq (s : Sanitizer) (bytes : Bytes) :
    s.feed bytes = after ({ s with pending := [] }, []) (s.pending ++ bytes) := by
  have hloop : ∀ r : Bytes × Written, r.2.1.pending = [] → feedBody.run r = after r.2 r.1 := by
    intro r
    apply feedBody.run_induction fun r w => r.2.1.pending = [] → w = after r.2 r.1
    · intro r w hdone hpending
      obtain ⟨r', hagain, -, -⟩ | hend := feedBody_step hpending
      · cases hagain.symm.trans hdone
      · exact Sum.inr.inj (hdone.symm.trans hend)
    · intro r r' w hagain ih hpending
      obtain ⟨next, hnext, hkept, hsame⟩ | hend := feedBody_step hpending
      · obtain rfl := Sum.inl.inj (hnext.symm.trans hagain)
        rw [ih hkept, hsame]
      · cases hend.symm.trans hagain
  exact hloop _ rfl

/-- Wherever a chunk is cut in two, the same is written. -/
theorem feed_additive : Chunked.Additive feed := by
  intro s a b
  let w : Written := ({ s with pending := [] }, [])
  have hfirst := feed_eq s a
  have hparts := decode_append (s.pending ++ a) b
  have hkept : (w.1.steps (decode (s.pending ++ a)).1).1.pending = [] := steps_pending _ _
  have hback : ({ (s.feed a).1 with pending := [] } : Sanitizer) =
      (w.1.steps (decode (s.pending ++ a)).1).1 := by
    rw [hfirst]
    show ({ (w.1.steps (decode (s.pending ++ a)).1).1 with pending := [] } : Sanitizer) = _
    rw [← hkept]
  have hpending : (s.feed a).1.pending = (decode (s.pending ++ a)).2 := by
    rw [hfirst]
    rfl
  rw [feed_eq (s.feed a).1 b, feed_eq s (a ++ b), ← List.append_assoc, hpending, hback]
  simp only [after, hparts, steps_append, hfirst, List.nil_append]
  rfl

theorem feed_nil (keepSgr : Bool) : (new keepSgr).feed [] = (new keepSgr, []) := by
  rw [feed_eq]
  show after (new keepSgr, []) [] = _
  rw [after, decode_nil]
  rfl

end Sanitizer

namespace PreambleGate

theorem feed_open {gate : PreambleGate} (h : gate.isOpen = true) (chunk : Bytes) :
    gate.feed chunk = (gate, chunk) := by
  rw [feed, if_pos h]

/-- No byte of a longer character is the marker. -/
theorem isMarker_iff (byte : UInt8) : Char.ofNat byte.toNat = outputStart ↔ byte = 0x1E := by
  constructor
  · intro h
    obtain heq | hzero := toNat_ofNat byte.toNat
    · rw [h] at heq
      have hbyte : (0x1E : UInt8) = byte := UInt8.toNat_inj.mp heq
      exact hbyte.symm
    · rw [h] at hzero
      exact absurd hzero (by decide)
  · rintro rfl
    rfl

theorem feed_marker {gate : PreambleGate} (h : gate.isOpen = false) {before : Bytes}
    (hbefore : 0x1E ∉ before) (after : Bytes) :
    gate.feed (before ++ 0x1E :: after) = (⟨true⟩, after) := by
  have hskip : (before ++ 0x1E :: after).dropWhile (fun byte => Char.ofNat byte.toNat ≠ outputStart) =
      0x1E :: after := by
    rw [List.dropWhile_append_of_pos]
    · rfl
    · intro byte hbyte
      rw [decide_eq_true_iff, ne_eq, isMarker_iff]
      rintro rfl
      exact hbefore hbyte
  rw [feed, if_neg (by rw [h]; exact Bool.false_ne_true)]
  simp only [hskip]

theorem feed_no_marker {gate : PreambleGate} (h : gate.isOpen = false) {chunk : Bytes}
    (hchunk : 0x1E ∉ chunk) : gate.feed chunk = (gate, []) := by
  have hskip : chunk.dropWhile (fun byte => Char.ofNat byte.toNat ≠ outputStart) = [] := by
    rw [List.dropWhile_eq_nil_iff]
    intro byte hbyte
    rw [decide_eq_true_iff, ne_eq, isMarker_iff]
    rintro rfl
    exact hchunk hbyte
  rw [feed, if_neg (by rw [h]; exact Bool.false_ne_true)]
  simp only [hskip]

/-- The gate only looks for the first marker. -/
theorem feed_additive : Chunked.Additive feed := by
  intro gate a b
  cases hgate : gate.isOpen with
  | true =>
    rw [feed_open hgate, feed_open hgate]
    dsimp only
    rw [feed_open hgate]
  | false =>
    have hopened : ∀ chunk, (⟨true⟩ : PreambleGate).feed chunk = (⟨true⟩, chunk) := feed_open rfl
    by_cases ha : 0x1E ∈ a
    · obtain ⟨before, after, rfl, hbefore⟩ := List.eq_append_cons_of_mem ha
      rw [List.append_assoc, List.cons_append, feed_marker hgate hbefore, feed_marker hgate hbefore,
        hopened]
    · rw [feed_no_marker hgate ha]
      by_cases hb : 0x1E ∈ b
      · obtain ⟨before, after, rfl, hbefore⟩ := List.eq_append_cons_of_mem hb
        have hboth : 0x1E ∉ a ++ before := by
          rw [List.mem_append]
          exact fun h => h.elim ha hbefore
        rw [← List.append_assoc, feed_marker hgate hboth, feed_marker hgate hbefore]
        rfl
      · have hboth : 0x1E ∉ a ++ b := by
          rw [List.mem_append]
          exact fun h => h.elim ha hb
        rw [feed_no_marker hgate hboth, feed_no_marker hgate hb]
        rfl

end PreambleGate

namespace Echo

theorem shown_additive : Chunked.Additive shown := by
  intro e a b
  have hgate := PreambleGate.feed_additive e.gate a b
  have hclean := Sanitizer.feed_additive e.clean (e.gate.feed a).2 ((e.gate.feed a).1.feed b).2
  simp only [shown, hgate, hclean]

theorem written_eq (e : Echo) (chunks : List Bytes) :
    e.written chunks = (Chunked.feed shown e chunks).2 ++ (Chunked.feed shown e chunks).1.finish := by
  induction chunks generalizing e with
  | nil => rfl
  | cons chunk chunks ih =>
    rw [written, ih, Chunked.feed, List.append_assoc]

theorem written_flatten (keepSgr stateful : Bool) (chunks : List Bytes) :
    (new keepSgr stateful).written chunks = (new keepSgr stateful).written [chunks.flatten] := by
  have hnil : (new keepSgr stateful).shown [] = (new keepSgr stateful, []) := by
    have hgate : (PreambleGate.new stateful).feed [] = (PreambleGate.new stateful, []) := by
      cases stateful <;> rfl
    simp only [shown, new, hgate, Sanitizer.feed_nil]
  rw [written_eq, written_eq, Chunked.feed_eq_push_flatten shown_additive _ hnil,
    Chunked.feed_eq_push_flatten shown_additive _ hnil, List.flatten_singleton]

/-- What has passed the gate is what the sanitizer shows. -/
theorem written_passed {keepSgr stateful : Bool} {chunk passed : Bytes} {gate : PreambleGate}
    (h : (PreambleGate.new stateful).feed chunk = (gate, passed)) :
    (new keepSgr stateful).written [chunk] = (Sanitizer.new keepSgr).shown [passed] := by
  simp only [written, shown, new, h]
  rfl

end Echo

theorem stripShellPreamble_append {before after : List Char} (h : outputStart ∉ before) :
    stripShellPreamble (String.ofList (before ++ outputStart :: after)) = String.ofList after := by
  have hskip : (before ++ outputStart :: after).dropWhile (fun c => !(c == outputStart)) =
      outputStart :: after := by
    rw [List.dropWhile_append_of_pos]
    · rfl
    · intro c hc
      rw [Bool.not_eq_true', beq_eq_false_iff_ne]
      rintro rfl
      exact h hc
  rw [stripShellPreamble, splitOnce, String.toList_ofList, hskip]

/-- A character of the text is the marker only where the byte is. -/
theorem outputStart_notMem {before : Bytes} (h : 0x1E ∉ before) :
    outputStart ∉ Utf8Lossy.chars 0 before := by
  intro hmem
  obtain ⟨b, hb, heq⟩ := mem_chars hmem (by decide) (by decide)
  obtain rfl : (0x1E : UInt8) = b := UInt8.toNat_inj.mp heq
  exact h hb

/-- The screen shows the same text however the pipe was cut: all that follows the first marker, which
is what the message keeps. -/
theorem written_chunks (keepSgr stateful : Bool) (chunks : List Bytes) :
    (Echo.new keepSgr stateful).written chunks = (Echo.new keepSgr stateful).written [chunks.flatten] ∧
    (stateful = false → (Echo.new keepSgr stateful).written chunks =
        (Sanitizer.new keepSgr).shown [chunks.flatten] ∧
      shownOutput chunks.flatten stateful = fromUtf8Lossy chunks.flatten) ∧
    ∀ before after, stateful = true → chunks.flatten = before ++ 0x1E :: after → 0x1E ∉ before →
      (Echo.new keepSgr stateful).written chunks = (Sanitizer.new keepSgr).shown [after] ∧
      shownOutput chunks.flatten stateful = fromUtf8Lossy after := by
  rw [Echo.written_flatten]
  refine ⟨rfl, ?_, ?_⟩
  · rintro rfl
    exact ⟨Echo.written_passed (PreambleGate.feed_open rfl _), rfl⟩
  · rintro before after rfl hflatten hbefore
    rw [hflatten]
    refine ⟨Echo.written_passed (PreambleGate.feed_marker rfl hbefore after), ?_⟩
    have hmarker : (0x1E : UInt8) < 0x80 := by decide
    show stripShellPreamble (fromUtf8Lossy (before ++ 0x1E :: after)) = _
    rw [fromUtf8Lossy, chars_ascii_append before hmarker after]
    exact stripShellPreamble_append (outputStart_notMem hbefore)

/-- The marker in its own chunk, and a character cut behind it. -/
example : (Echo.new false true).written [[0x78], [0x1E], [0xC3], [0xA9, 0x0D], [0x0A]] =
    "é\n".toList := by decide

end Ralph.Chat
