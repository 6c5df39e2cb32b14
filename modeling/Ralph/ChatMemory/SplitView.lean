import Ralph.ChatMemory.View

namespace Ralph.ChatMemory
open Node

/-- Bytes over three, rounded up. -/
def estimateTokens (text : String) : ℕ := (text.utf8ByteSize + 2) / 3

/-- The loop of `verbatim_start` over the entries, newest first. -/
def verbatimLoop (budget : ℕ) : List (Entry × ℕ) → (used start : ℕ) → ℕ
  | [], _, start => start
  | (entry, i) :: older, used, start =>
    let used := used + estimateTokens entry.text
    if used > budget then start else verbatimLoop budget older used i

/-- Where the newest entries within the budget start. -/
def verbatimStart (entries : List Entry) (from_ budget : ℕ) : ℕ :=
  verbatimLoop budget (entries.zipIdx.drop from_).reverse 0 entries.length

/-- `start` rounded down to a multiple of `step`; `checked_rem` by zero leaves it. -/
def stableCut (start step : ℕ) : ℕ := start - if step = 0 then 0 else start % step

/-- The lines of a block: its own, or those of its halves. -/
def blockLines (entries : List Entry) (tree : Tree) (node : Node) : List Shown :=
  -- a node of the view is never empty, so only size 1 ends the descent here
  if node.size ≤ 1 then [shownNode entries tree node]
  else
    match nodeLine entries tree node with
    | some line => [.line line]
    | none => blockLines entries tree node.halves.1 ++ blockLines entries tree node.halves.2
termination_by node.size
decreasing_by
  all_goals
    simp only [Node.halves, Node.size] at *
    omega

section
variable {entries : List Entry} {tree : Tree} {node : Node}

theorem blockLines_of_size (h : node.size ≤ 1) :
    blockLines entries tree node = [shownNode entries tree node] := by
  rw [blockLines, if_pos h]

theorem blockLines_of_line (h : ¬node.size ≤ 1) {line : String}
    (hline : nodeLine entries tree node = some line) :
    blockLines entries tree node = [.line line] := by
  rw [blockLines, if_neg h, hline]

theorem blockLines_of_halves (h : ¬node.size ≤ 1) (hline : nodeLine entries tree node = none) :
    blockLines entries tree node =
      blockLines entries tree node.halves.1 ++ blockLines entries tree node.halves.2 := by
  rw [blockLines, if_neg h, hline]

end

def middleBlocks (from_ to_ : ℕ) : List Node :=
  (List.range' from_ ((to_ - from_ + tailStep - 1) / tailStep) tailStep).map
    fun lo => ⟨lo, lo + tailStep⟩

def middleLines (entries : List Entry) (tree : Tree) (from_ to_ : ℕ) : List String :=
  mergeNotices ((middleBlocks from_ to_).flatMap (blockLines entries tree))

def verbatimNode (entries : List Entry) (i : ℕ) : Shown :=
  let entry := entries[i]!
  if entry.corrupt then .unreadable i else .line (entryLine i entry entry.text)

def tailLines (entries : List Entry) (tree : Tree) (from_ budget : ℕ) : List String :=
  let start := verbatimStart entries from_ budget
  let settled := (List.range' from_ (start - from_)).map fun i => shownNode entries tree (leaf i)
  let verbatim := (List.range' start (entries.length - start)).map (verbatimNode entries)
  mergeNotices (settled ++ verbatim)

structure ViewSplit where
  older : List String
  middle : List String
  tail : List String
  deriving DecidableEq, Repr

/-- Up to here the view is in the system prompt. -/
def frozenCut (entries : List Entry) (recentTokens : ℕ) : ℕ :=
  stableCut (verbatimStart entries 0 recentTokens) olderViewStep

def tailCut (entries : List Entry) (recentTokens : ℕ) : ℕ :=
  stableCut (verbatimStart entries 0 recentTokens) tailStep

def splitView (entries : List Entry) (tree : Tree) (budget recentTokens : ℕ) : ViewSplit :=
  let frozen := frozenCut entries recentTokens
  let cut := tailCut entries recentTokens
  { older := view (entries.take frozen) tree budget
    middle := middleLines entries tree frozen cut
    tail := tailLines entries tree cut recentTokens }

theorem stableCut_le (start step : ℕ) : stableCut start step ≤ start := Nat.sub_le _ _

theorem dvd_stableCut (start : ℕ) {step : ℕ} (hstep : 0 < step) : step ∣ stableCut start step := by
  rw [stableCut, if_neg (by omega)]
  exact Nat.dvd_sub_mod start

theorem tailStep_dvd_tailCut (entries : List Entry) (recentTokens : ℕ) :
    tailStep ∣ tailCut entries recentTokens := dvd_stableCut _ (by decide)

/-- The steps of the cuts fit together. -/
theorem tailStep_dvd_frozenCut (entries : List Entry) (recentTokens : ℕ) :
    tailStep ∣ frozenCut entries recentTokens :=
  have hsteps : tailStep ∣ olderViewStep := by decide
  hsteps.trans (dvd_stableCut _ (by decide))

/-- No multiple of the step fits between the cut and the start. -/
theorem le_stableCut {start step m : ℕ} (hstep : 0 < step) (hm : step ∣ m) (hle : m ≤ start) :
    m ≤ stableCut start step := by
  obtain ⟨k, rfl⟩ := hm
  rw [stableCut, if_neg (by omega)]
  have hdiv : k ≤ start / step := (Nat.le_div_iff_mul_le hstep).mpr (by rwa [Nat.mul_comm] at hle)
  have hmul : step * k ≤ step * (start / step) := Nat.mul_le_mul_left _ hdiv
  have hsplit := Nat.div_add_mod start step
  omega

theorem frozenCut_le_tailCut (entries : List Entry) (recentTokens : ℕ) :
    frozenCut entries recentTokens ≤ tailCut entries recentTokens := by
  exact le_stableCut (by decide) (tailStep_dvd_frozenCut entries recentTokens) (stableCut_le _ _)

/-- The tokens of the entries; a corrupt entry counts with its placeholder. -/
def tokens (entries : List Entry) : ℕ := (entries.map fun e => estimateTokens e.text).sum

theorem tokens_drop (entries : List Entry) {i : ℕ} (hi : i < entries.length) :
    tokens (entries.drop i) = estimateTokens entries[i].text + tokens (entries.drop (i + 1)) := by
  rw [List.drop_eq_getElem_cons hi, tokens, List.map_cons, List.sum_cons]
  rfl

theorem tokens_drop_anti (entries : List Entry) {i j : ℕ} (h : i ≤ j) :
    tokens (entries.drop j) ≤ tokens (entries.drop i) := by
  obtain ⟨k, rfl⟩ := Nat.exists_eq_add_of_le h
  rw [← List.drop_drop]
  conv_rhs => rw [← List.take_append_drop k (entries.drop i), tokens, List.map_append,
    List.sum_append]
  exact Nat.le_add_left _ _

/-- The entries that `verbatim_start` has not looked at when it got to `start`, newest first. -/
def unseen (entries : List Entry) (from_ start : ℕ) : List (Entry × ℕ) :=
  ((entries.zipIdx.take start).drop from_).reverse

theorem unseen_succ {entries : List Entry} {from_ i : ℕ} (hfrom : from_ ≤ i)
    (hi : i < entries.length) :
    unseen entries from_ (i + 1) = (entries[i], i) :: unseen entries from_ i := by
  have hget : entries.zipIdx[i]? = some (entries[i], i) := by simp [hi]
  have hlen : from_ ≤ (entries.zipIdx.take i).length := by
    simp only [List.length_take, List.length_zipIdx]
    omega
  rw [unseen, List.take_add_one, hget, Option.toList_some, List.drop_append_of_le_length hlen,
    List.reverse_append]
  rfl

theorem unseen_self (entries : List Entry) (from_ : ℕ) : unseen entries from_ from_ = [] := by
  rw [unseen, List.drop_eq_nil_of_le (by simp), List.reverse_nil]

/-- The loop goes down while the entries fit the budget. -/
theorem verbatimLoop_spec {entries : List Entry} {from_ budget start : ℕ} (hfrom : from_ ≤ start)
    (hstart : start ≤ entries.length) (hfit : tokens (entries.drop start) ≤ budget) {r : ℕ}
    (hr : verbatimLoop budget (unseen entries from_ start) (tokens (entries.drop start)) start = r) :
    from_ ≤ r ∧ r ≤ start ∧ tokens (entries.drop r) ≤ budget ∧
      ∀ j, from_ ≤ j → j < r → budget < tokens (entries.drop j) := by
  induction start with
  | zero =>
    obtain rfl : from_ = 0 := by omega
    rw [unseen_self] at hr
    obtain rfl : 0 = r := hr
    exact ⟨le_rfl, le_rfl, hfit, fun j _ hj => absurd hj (Nat.not_lt_zero j)⟩
  | succ i ih =>
    rcases Nat.eq_or_lt_of_le hfrom with rfl | hlt
    · rw [unseen_self] at hr
      obtain rfl : i + 1 = r := hr
      exact ⟨le_rfl, le_rfl, hfit, fun j hj hj' => absurd hj' (by omega)⟩
    · have hused := tokens_drop entries (i := i) (by omega)
      rw [unseen_succ (by omega) (by omega), verbatimLoop, Nat.add_comm, ← hused] at hr
      split_ifs at hr with hover
      · obtain rfl := hr
        refine ⟨hfrom, le_rfl, hfit, fun j _ hj => ?_⟩
        exact lt_of_lt_of_le hover (tokens_drop_anti entries (by omega))
      · obtain ⟨hge, hle, hrest⟩ := ih (by omega) (by omega) (by omega) hr
        exact ⟨hge, by omega, hrest⟩

theorem verbatimStart_spec (entries : List Entry) {from_ : ℕ} (budget : ℕ)
    (hfrom : from_ ≤ entries.length) :
    from_ ≤ verbatimStart entries from_ budget ∧
      verbatimStart entries from_ budget ≤ entries.length ∧
      tokens (entries.drop (verbatimStart entries from_ budget)) ≤ budget ∧
      ∀ j, from_ ≤ j → j < verbatimStart entries from_ budget → budget < tokens (entries.drop j) := by
  have hend : tokens (entries.drop entries.length) = 0 := by simp [tokens]
  refine verbatimLoop_spec hfrom le_rfl (by rw [hend]; exact Nat.zero_le _) ?_
  rw [hend, unseen, List.take_of_length_le (by simp)]
  rfl

/-- The start is the first index from which the entries fit the budget. -/
theorem verbatimStart_le_iff (entries : List Entry) {from_ budget j : ℕ} (hfrom : from_ ≤ j)
    (hj : j ≤ entries.length) :
    verbatimStart entries from_ budget ≤ j ↔ tokens (entries.drop j) ≤ budget := by
  obtain ⟨-, -, hfit, hover⟩ := verbatimStart_spec entries budget (hfrom.trans hj)
  constructor
  · intro hle
    exact (tokens_drop_anti entries hle).trans hfit
  · intro hle
    by_contra hlt
    have := hover j hfrom (by omega)
    omega

/-- The tail looks from its cut on, and finds the same start. -/
theorem verbatimStart_tailCut (entries : List Entry) (budget : ℕ) :
    verbatimStart entries (tailCut entries budget) budget = verbatimStart entries 0 budget := by
  have hcut : tailCut entries budget ≤ verbatimStart entries 0 budget := stableCut_le _ _
  obtain ⟨-, hlen, hfit, -⟩ := verbatimStart_spec entries budget (Nat.zero_le _)
  obtain ⟨hge, hlen', hfit', -⟩ := verbatimStart_spec entries budget (hcut.trans hlen)
  apply le_antisymm
  · exact (verbatimStart_le_iff entries hcut hlen).mpr hfit
  · exact (verbatimStart_le_iff entries (Nat.zero_le _) hlen').mpr hfit'

end Ralph.ChatMemory
