import Ralph.CharBoundary
import Ralph.LongestSuffix

namespace Ralph.Watch
open String CharBoundary LongestSuffix

/-- The end of a line that fits the byte limit; `none` is a slice that panics. -/
def clipEnd (line : String) (maxBytes : ℕ) : Option String :=
  let start := nextBoundary line.toList ⟨utf8Len line.toList - maxBytes, Nat.sub_le _ _⟩
  (sliceFrom line.toList start).map String.ofList

/-- The newest output lines of a watched command. -/
structure Tail where
  maxLines : ℕ
  maxBytes : ℕ
  lines : List String
  bytes : ℕ
  truncated : Bool
  deriving DecidableEq, Repr

def Tail.new (maxLines maxBytes : ℕ) : Tail := ⟨maxLines, maxBytes, [], 0, false⟩

/-- The `while` of `push_line`; the answer `none` is the underflow of `bytes`. -/
def dropBody : Loop.Body Tail (Option Tail) where
  step t :=
    if t.maxLines < t.lines.length ∨ t.maxBytes < t.bytes then
      match t.lines with
      | [] => .inr (some t)
      | dropped :: rest =>
        if dropped.utf8ByteSize ≤ t.bytes then
          .inl { t with lines := rest, bytes := t.bytes - dropped.utf8ByteSize, truncated := true }
        else .inr none
    else .inr (some t)
  measure t := t.lines.length
  decreases t t' hs := by
    split_ifs at hs
    cases hl : t.lines with
    | nil => simp [hl] at hs
    | cons dropped rest =>
      rw [hl] at hs
      dsimp only at hs
      split_ifs at hs
      rw [← Sum.inl.inj hs]
      exact Nat.lt_succ_self rest.length

def Tail.pushLine (t : Tail) (line : String) : Option Tail := do
  let kept ← clipEnd line t.maxBytes
  dropBody.run
    { t with
      truncated := t.truncated || decide (kept.utf8ByteSize < line.utf8ByteSize)
      bytes := t.bytes + kept.utf8ByteSize
      lines := t.lines ++ [kept] }

def Tail.pushAll (t : Tail) (lines : List String) : Option Tail := lines.foldlM Tail.pushLine t

def total (lines : List String) : ℕ := (lines.map utf8ByteSize).sum

/-- What the tail may hold. -/
def Fits (maxLines maxBytes : ℕ) (lines : List String) : Prop :=
  lines.length ≤ maxLines ∧ total lines ≤ maxBytes

def FitsBytes (maxBytes : ℕ) (cs : List Char) : Prop := utf8Len cs ≤ maxBytes

/-- A line and its own last `maxBytes` bytes, cut at a character boundary. -/
def Clipped (maxBytes : ℕ) (line clip : String) : Prop :=
  IsLongest (FitsBytes maxBytes) line.toList clip.toList

/-- From the first boundary that leaves `maxBytes` bytes, the text is its longest end that fits. -/
theorem sliceFrom_nextBoundary (cs : List Char) (maxBytes : ℕ) :
    ∃ r, CharBoundary.sliceFrom cs
        (nextBoundary cs ⟨utf8Len cs - maxBytes, Nat.sub_le _ _⟩) = some r ∧
      IsLongest (FitsBytes maxBytes) cs r := by
  obtain ⟨hb, hge, hleast⟩ := nextBoundary_spec cs ⟨utf8Len cs - maxBytes, Nat.sub_le _ _⟩
  obtain ⟨l, r, hcs, hl⟩ := isCharBoundary_iff.1 hb
  have hlen : utf8Len cs = utf8Len l + utf8Len r := by rw [hcs, utf8Len_append]
  have hslice : CharBoundary.sliceFrom cs (utf8Len l) = some r :=
    hcs ▸ (slices_append l r).2.2
  refine ⟨r, by rw [← hl, hslice], ⟨l, hcs.symm⟩, ?_, fun zs hzs hfit => ?_⟩
  · show utf8Len r ≤ maxBytes
    dsimp only at hge
    omega
  · obtain ⟨p, hp⟩ := hzs
    have hlen' : utf8Len cs = utf8Len p + utf8Len zs := by rw [← hp, utf8Len_append]
    have hfit' : utf8Len zs ≤ maxBytes := hfit
    have hle := hleast (utf8Len p) (by dsimp only; omega)
      (isCharBoundary_iff.2 ⟨p, zs, hp.symm, rfl⟩)
    rcases List.suffix_or_suffix_of_suffix ⟨p, hp⟩ ⟨l, hcs.symm⟩ with h | ⟨q, hq⟩
    · exact h
    · -- then `r` is an end of `zs` and not the shorter one: they are the same
      have hqlen : utf8Len zs = utf8Len q + utf8Len r := by rw [← hq, utf8Len_append]
      have hnil : q = [] := utf8Len_eq_zero.1 (by omega)
      rw [← hq, hnil, List.nil_append]

theorem clipEnd_spec (line : String) (maxBytes : ℕ) :
    ∃ clip, clipEnd line maxBytes = some clip ∧ Clipped maxBytes line clip := by
  obtain ⟨r, hslice, hlongest⟩ := sliceFrom_nextBoundary line.toList maxBytes
  refine ⟨ofList r, ?_, ?_⟩
  · rw [clipEnd, hslice, Option.map_some]
  · rw [Clipped, String.toList_ofList]
    exact hlongest

/-- A line is its own clip unless bytes of it are cut. -/
theorem Clipped.eq_of_size {maxBytes : ℕ} {line clip : String} (h : Clipped maxBytes line clip)
    (hsize : ¬ clip.utf8ByteSize < line.utf8ByteSize) : clip = line := by
  obtain ⟨p, hp⟩ := h.suffix
  have hlen : utf8Len line.toList = utf8Len p + utf8Len clip.toList := by
    rw [← hp, utf8Len_append]
  rw [utf8Len_toList, utf8Len_toList] at hlen
  have hnil : p = [] := utf8Len_eq_zero.1 (by omega)
  apply String.toList_injective
  rw [← hp, hnil, List.nil_append]

theorem total_cons (line : String) (lines : List String) :
    total (line :: lines) = line.utf8ByteSize + total lines := by
  rw [total, List.map_cons, List.sum_cons, total]

theorem total_append (xs ys : List String) : total (xs ++ ys) = total xs + total ys := by
  rw [total, List.map_append, List.sum_append, total, total]

theorem Fits.of_snoc {maxLines maxBytes : ℕ} {lines : List String} {line : String}
    (h : Fits maxLines maxBytes (lines ++ [line])) : Fits maxLines maxBytes lines := by
  obtain ⟨hlines, hbytes⟩ := h
  rw [total_append] at hbytes
  rw [List.length_append] at hlines
  exact ⟨by omega, by omega⟩

/-- What the `while` makes of a tail whose counter is right. -/
structure Drops (t t' : Tail) : Prop where
  lineLimit : t'.maxLines = t.maxLines
  byteLimit : t'.maxBytes = t.maxBytes
  lines : IsLongest (Fits t.maxLines t.maxBytes) t.lines t'.lines
  bytes : t'.bytes = total t'.lines
  truncated : t'.truncated = true ↔ t.truncated = true ∨ t'.lines ≠ t.lines

theorem dropBody_run (t : Tail) (h : t.bytes = total t.lines) :
    ∃ t', dropBody.run t = some t' ∧ Drops t t' := by
  revert h
  refine dropBody.run_induction
    (fun t r => t.bytes = total t.lines → ∃ t', r = some t' ∧ Drops t t') ?_ ?_ t
  · intro t r hs hbytes
    dsimp only [dropBody] at hs
    split_ifs at hs with hover
    · cases hl : t.lines with
      | nil =>
        -- an empty tail is over no limit
        rw [hbytes, hl] at hover
        exact absurd hover (by simp [total])
      | cons dropped rest =>
        rw [hl] at hs
        dsimp only at hs
        rw [hbytes, hl, total_cons, if_pos (Nat.le_add_right _ _)] at hs
        exact absurd hs (by simp)
    · refine ⟨t, (Sum.inr.inj hs).symm, rfl, rfl, ?_, hbytes, by simp⟩
      apply isLongest_self
      rw [hbytes] at hover
      show t.lines.length ≤ t.maxLines ∧ total t.lines ≤ t.maxBytes
      omega
  · intro t s r hs ih hbytes
    dsimp only [dropBody] at hs
    split_ifs at hs with hover
    cases hl : t.lines with
    | nil => simp [hl] at hs
    | cons dropped rest =>
      rw [hl] at hs
      dsimp only at hs
      have hsum : t.bytes = dropped.utf8ByteSize + total rest := by
        rw [hbytes, hl, total_cons]
      rw [hsum, if_pos (Nat.le_add_right _ _)] at hs
      rw [← Sum.inl.inj hs] at ih
      obtain ⟨t', hr, hd⟩ := ih (by dsimp only; omega)
      refine ⟨t', hr, hd.lineLimit, hd.byteLimit, ?_, hd.bytes, ?_⟩
      · rw [hl]
        apply isLongest_cons _ hd.lines
        intro hfit
        rw [hbytes, hl] at hover
        have hlines : (dropped :: rest).length ≤ t.maxLines := hfit.1
        have htotal : total (dropped :: rest) ≤ t.maxBytes := hfit.2
        omega
      · -- the mark was set when `dropped` went, and no later end of `rest` holds it
        have hshort := hd.lines.suffix.length_le
        dsimp only at hshort
        have hne : t'.lines ≠ dropped :: rest := by
          intro heq
          rw [heq, List.length_cons] at hshort
          omega
        simp [hd.truncated, hl, hne]

/-- What the tail holds after the lines that were pushed. -/
structure Holds (maxLines maxBytes : ℕ) (pushed clips : List String) (t : Tail) : Prop where
  lineLimit : t.maxLines = maxLines
  byteLimit : t.maxBytes = maxBytes
  clipped : List.Forall₂ (Clipped maxBytes) pushed clips
  lines : IsLongest (Fits maxLines maxBytes) clips t.lines
  bytes : t.bytes = total t.lines
  truncated : t.truncated = true ↔ t.lines ≠ pushed

theorem holds_new (maxLines maxBytes : ℕ) : Holds maxLines maxBytes [] [] (.new maxLines maxBytes) := by
  refine ⟨rfl, rfl, .nil, ?_, rfl, by simp [Tail.new]⟩
  apply isLongest_self
  exact ⟨Nat.zero_le _, Nat.zero_le _⟩

theorem Holds.pushLine {maxLines maxBytes : ℕ} {pushed clips : List String} {t : Tail}
    (h : Holds maxLines maxBytes pushed clips t) (line : String) :
    ∃ t' clip, t.pushLine line = some t' ∧
      Holds maxLines maxBytes (pushed ++ [line]) (clips ++ [clip]) t' := by
  obtain ⟨clip, hclip, hclipped⟩ := clipEnd_spec line maxBytes
  obtain ⟨t', hrun, hd⟩ := dropBody_run
    { t with
      truncated := t.truncated || decide (clip.utf8ByteSize < line.utf8ByteSize)
      bytes := t.bytes + clip.utf8ByteSize
      lines := t.lines ++ [clip] } (by
        show t.bytes + clip.utf8ByteSize = total (t.lines ++ [clip])
        rw [total_append, total_cons, h.bytes]
        rfl)
  have hlines := hd.lines
  dsimp only at hlines
  rw [h.lineLimit, h.byteLimit] at hlines
  refine ⟨t', clip, ?_, hd.lineLimit.trans h.lineLimit, hd.byteLimit.trans h.byteLimit,
    List.rel_append h.clipped (.cons hclipped .nil), h.lines.snoc (fun l => Fits.of_snoc) hlines,
    hd.bytes, ?_⟩
  · rw [Tail.pushLine]
    rw [← h.byteLimit] at hclip
    rw [hclip]
    exact hrun
  · have hcount := h.clipped.length_eq
    have hkept := h.lines.suffix.length_le
    rw [hd.truncated]
    dsimp only
    rw [Bool.or_eq_true, h.truncated, decide_eq_true_eq]
    constructor
    -- the tail is marked exactly when it is no longer all the lines
    · intro hcut heq
      have hlen := congrArg List.length heq
      rw [List.length_append, List.length_singleton] at hlen
      have hall : t'.lines = t.lines ++ [clip] := by
        apply hlines.suffix.eq_of_length_le
        rw [List.length_append, List.length_singleton]
        omega
      obtain ⟨hfront, hlast⟩ := List.append_inj' (hall.symm.trans heq) rfl
      rw [List.cons.injEq] at hlast
      rcases hcut with (hcut | hcut) | hcut
      · exact hcut hfront
      · rw [hlast.1] at hcut
        exact absurd hcut (lt_irrefl _)
      · exact hcut hall
    · intro hne
      by_contra hnone
      push Not at hnone
      obtain ⟨⟨hfront, hsize⟩, hall⟩ := hnone
      apply hne
      rw [hall, hfront, hclipped.eq_of_size (by omega)]

/-- After every push the tail is the longest run of the newest lines that both limits let it
hold, no subtraction underflows, and the mark tells whether anything pushed is missing. -/
theorem pushAll_keeps_longest (maxLines maxBytes : ℕ) (pushed : List String) :
    ∃ t clips, (Tail.new maxLines maxBytes).pushAll pushed = some t ∧
      List.Forall₂ (Clipped maxBytes) pushed clips ∧
      IsLongest (Fits maxLines maxBytes) clips t.lines ∧ t.bytes = total t.lines ∧
      (t.truncated = true ↔ t.lines ≠ pushed) := by
  suffices ∃ t clips, (Tail.new maxLines maxBytes).pushAll pushed = some t ∧
      Holds maxLines maxBytes pushed clips t by
    obtain ⟨t, clips, hrun, h⟩ := this
    exact ⟨t, clips, hrun, h.clipped, h.lines, h.bytes, h.truncated⟩
  induction pushed using List.reverseRecOn with
  | nil => exact ⟨_, [], rfl, holds_new maxLines maxBytes⟩
  | append_singleton pushed line ih =>
    obtain ⟨t, clips, hrun, h⟩ := ih
    obtain ⟨t', clip, hpush, h'⟩ := h.pushLine line
    refine ⟨t', clips ++ [clip], ?_, h'⟩
    rw [Tail.pushAll] at hrun
    rw [Tail.pushAll, List.foldlM_append, hrun]
    simpa using hpush

/-- Two lines of four bytes each, one of them clipped between the bytes of its first character. -/
example : ((Tail.new 2 5).pushAll ["ab", "éabcd", "x"]).map (·.lines) = some ["abcd", "x"] := by
  decide

end Ralph.Watch
