import Mathlib.Algebra.BigOperators.Group.List.Basic
import Ralph.Worker.UsagePieces
import Ralph.Worker.WorkerCosts

namespace Ralph.Worker
open Wire

namespace Usd

attribute [ext] Usd

instance : Add Usd := ⟨plus⟩

instance : Zero Usd := ⟨zero⟩

theorem zero_plus (a : Usd) : 0 + a = a := by
  obtain ⟨known, missing, estimate, reported⟩ := a
  cases known <;> exact Usd.ext rfl (Bool.false_or _) (Bool.false_or _) (Bool.false_or _)

theorem plus_comm (a b : Usd) : a + b = b + a := by
  obtain ⟨known, missing, estimate, reported⟩ := a
  obtain ⟨known', missing', estimate', reported'⟩ := b
  refine Usd.ext ?_ (Bool.or_comm _ _) (Bool.or_comm _ _) (Bool.or_comm _ _)
  cases known <;> cases known' <;> first | rfl | exact congrArg some (add_comm _ _)

theorem plus_assoc (a b c : Usd) : a + b + c = a + (b + c) := by
  obtain ⟨known, missing, estimate, reported⟩ := a
  obtain ⟨known', missing', estimate', reported'⟩ := b
  obtain ⟨known'', missing'', estimate'', reported''⟩ := c
  refine Usd.ext ?_ (Bool.or_assoc _ _ _) (Bool.or_assoc _ _ _) (Bool.or_assoc _ _ _)
  cases known <;> cases known' <;> cases known'' <;> first | rfl | exact congrArg some (add_assoc _ _ _)

instance : AddCommMonoid Usd where
  add_assoc := plus_assoc
  zero_add := zero_plus
  add_zero a := (plus_comm a 0).trans (zero_plus a)
  add_comm := plus_comm
  nsmul := nsmulRec

theorem missing_sum (us : List Usd) : us.sum.missing = us.any Usd.missing := by
  induction us with
  | nil => rfl
  | cons u us ih =>
    rw [List.sum_cons, List.any_cons, ← ih]
    rfl

end Usd

theorem summed_eq_sum (lines : List UsageLine) (priced : UsageLine → Usd) :
    summed lines priced = (lines.map priced).sum := by
  rw [summed, List.sum_eq_foldl]
  rfl

def firstTokens (tier : CacheTier) (writes : List CacheWrite) : ℕ :=
  ((writes.find? fun write => write.tier = tier).map CacheWrite.tokens).getD 0

def writtenTokens (usage : Usage) : ℕ := (usage.cacheWrites.map CacheWrite.tokens).sum

def untieredTokens (usage : Usage) : ℕ :=
  writtenTokens usage - (firstTokens fiveMin usage.cacheWrites + firstTokens oneHour usage.cacheWrites)

/-- The writes of each of the two tiers stand in one place. -/
def Split (usage : Usage) : Prop :=
  ∀ tier ∈ [fiveMin, oneHour], firstTokens tier usage.cacheWrites = tierTokens tier usage.cacheWrites

instance : DecidablePred Split := fun _ => inferInstanceAs (Decidable (∀ _ ∈ _, _))

theorem tierTokens_cons (tier : CacheTier) (write : CacheWrite) (writes : List CacheWrite) :
    tierTokens tier (write :: writes) = (if write.tier = tier then write.tokens else 0) + tierTokens tier writes := by
  by_cases htier : write.tier = tier <;> simp [tierTokens, htier]

theorem tiers_le_written (usage : Usage) :
    tierTokens fiveMin usage.cacheWrites + tierTokens oneHour usage.cacheWrites ≤ writtenTokens usage := by
  rw [writtenTokens]
  induction usage.cacheWrites with
  | nil => exact le_rfl
  | cons write writes ih =>
    rw [tierTokens_cons, tierTokens_cons, List.map_cons, List.sum_cons]
    have hfirst : (if write.tier = fiveMin then write.tokens else 0) + (if write.tier = oneHour then write.tokens else 0) ≤
        write.tokens := by
      by_cases hfive : write.tier = fiveMin
      · rw [if_pos hfive, if_neg (by rw [hfive]; decide), Nat.add_zero]
      · rw [if_neg hfive]
        split_ifs <;> omega
    omega

/-- What is written at 5m and 1h is at most the total. -/
theorem Split.le_written {usage : Usage} (h : Split usage) :
    firstTokens fiveMin usage.cacheWrites + firstTokens oneHour usage.cacheWrites ≤ writtenTokens usage := by
  rw [h fiveMin List.mem_cons_self, h oneHour (List.mem_cons_of_mem _ List.mem_cons_self)]
  exact tiers_le_written usage

theorem firstTokens_cons (tier : CacheTier) (write : CacheWrite) (writes : List CacheWrite) :
    firstTokens tier (write :: writes) = if write.tier = tier then write.tokens else firstTokens tier writes := by
  rw [firstTokens, firstTokens, List.find?_cons]
  by_cases htier : write.tier = tier <;> simp [htier]

theorem addWrap_of_lt {a b : ℕ} (h : a + b < 2 ^ 64) : addWrap a b = a + b := Nat.mod_eq_of_lt h

theorem addWrite_counts (tier : CacheTier) (writes : List CacheWrite) (write : CacheWrite)
    (h : (writes.map CacheWrite.tokens).sum + write.tokens < 2 ^ 64) :
    ((addWrite writes write).map CacheWrite.tokens).sum = (writes.map CacheWrite.tokens).sum + write.tokens ∧
      firstTokens tier (addWrite writes write) =
        firstTokens tier writes + if write.tier = tier then write.tokens else 0 := by
  induction writes with
  | nil =>
    rw [addWrite, firstTokens_cons]
    exact ⟨by simp, by simp [firstTokens]⟩
  | cons w writes ih =>
    rw [List.map_cons, List.sum_cons] at h ⊢
    rw [addWrite]
    by_cases hsame : w.tier = write.tier
    · rw [if_pos hsame, List.map_cons, List.sum_cons, firstTokens_cons, firstTokens_cons, addWrap_of_lt (by omega), ← hsame]
      refine ⟨by dsimp only; omega, ?_⟩
      split_ifs <;> rfl
    · obtain ⟨hsum, hfirst⟩ := ih (by omega)
      rw [if_neg hsame, List.map_cons, List.sum_cons, firstTokens_cons, firstTokens_cons, hsum, hfirst]
      refine ⟨by omega, ?_⟩
      by_cases htier : w.tier = tier
      · rw [if_pos htier, if_pos htier, if_neg fun h => hsame (htier.trans h.symm), Nat.add_zero]
      · rw [if_neg htier, if_neg htier]

theorem foldl_addWrite_counts (tier : CacheTier) (more writes : List CacheWrite)
    (h : (writes.map CacheWrite.tokens).sum + (more.map CacheWrite.tokens).sum < 2 ^ 64) :
    ((more.foldl addWrite writes).map CacheWrite.tokens).sum =
        (writes.map CacheWrite.tokens).sum + (more.map CacheWrite.tokens).sum ∧
      firstTokens tier (more.foldl addWrite writes) = firstTokens tier writes + tierTokens tier more := by
  induction more generalizing writes with
  | nil => exact ⟨rfl, rfl⟩
  | cons write more ih =>
    rw [List.map_cons, List.sum_cons] at h ⊢
    obtain ⟨hsum, hfirst⟩ := addWrite_counts tier writes write (by omega)
    obtain ⟨hsums, hfirsts⟩ := ih (addWrite writes write) (by omega)
    rw [List.foldl_cons, hsums, hfirsts, hsum, hfirst, tierTokens_cons]
    exact ⟨by omega, by omega⟩

/-- A usage that counts what some calls count together. -/
structure Merges (usage : Usage) (calls : List Usage) : Prop where
  input : usage.inputUncached = (calls.map Usage.inputUncached).sum
  cacheRead : usage.cacheRead = (calls.map Usage.cacheRead).sum
  output : usage.output = (calls.map Usage.output).sum
  written : writtenTokens usage = (calls.map writtenTokens).sum
  tier : ∀ tier ∈ [fiveMin, oneHour],
    firstTokens tier usage.cacheWrites = (calls.map fun call => firstTokens tier call.cacheWrites).sum

/-- No count of the calls overflows when they are added up. -/
def CountsFit (calls : List Usage) : Prop :=
  ∀ count ∈ [Usage.inputUncached, Usage.cacheRead, Usage.output, writtenTokens], (calls.map count).sum < 2 ^ 64

instance : DecidablePred CountsFit := fun _ => inferInstanceAs (Decidable (∀ _ ∈ _, _))

theorem CountsFit.of_append {calls more : List Usage} (h : CountsFit (calls ++ more)) : CountsFit calls := by
  intro count hcount
  have hsum := h count hcount
  rw [List.map_append, List.sum_append] at hsum
  omega

theorem Merges.single (call : Usage) : Merges call [call] := by
  refine ⟨?_, ?_, ?_, ?_, fun tier _ => ?_⟩ <;> rw [List.map_singleton, List.sum_singleton]

theorem Merges.add {total call : Usage} {calls : List Usage} (h : Merges total calls) (hsplit : Split call)
    (hfit : CountsFit (calls ++ [call])) : Merges (addUsage total call) (calls ++ [call]) := by
  have hfits : ∀ count ∈ [Usage.inputUncached, Usage.cacheRead, Usage.output, writtenTokens],
      (calls.map count).sum + count call < 2 ^ 64 := by
    intro count hcount
    have hsum := hfit count hcount
    rw [List.map_append, List.sum_append, List.map_singleton, List.sum_singleton] at hsum
    exact hsum
  simp only [List.forall_mem_cons] at hfits
  obtain ⟨hinput, hread, houtput, hwritten, -⟩ := hfits
  rw [← h.input] at hinput
  rw [← h.cacheRead] at hread
  rw [← h.output] at houtput
  rw [← h.written] at hwritten
  -- no `+=` wraps, since the sums of all calls fit
  have hwrites := fun tier => foldl_addWrite_counts tier call.cacheWrites total.cacheWrites hwritten
  refine ⟨?_, ?_, ?_, ?_, fun tier htier => ?_⟩ <;>
    rw [List.map_append, List.sum_append, List.map_singleton, List.sum_singleton]
  · rw [← h.input]
    exact addWrap_of_lt hinput
  · rw [← h.cacheRead]
    exact addWrap_of_lt hread
  · rw [← h.output]
    exact addWrap_of_lt houtput
  · rw [← h.written]
    exact (hwrites fiveMin).1
  · rw [← h.tier tier htier, hsplit tier htier]
    exact (hwrites tier).2

/-- The row that a recorder has for some calls of one flag. -/
def joined (total : Option Usage) (calls : List Usage) : Option Usage :=
  calls.foldl (fun total call =>
    some (match total with
      | some total => addUsage total call
      | none => call)) total

theorem joined_merges {calls : List Usage} (hne : calls ≠ []) (hsplit : ∀ call ∈ calls, Split call)
    (hfit : CountsFit calls) : ∃ usage, joined none calls = some usage ∧ Merges usage calls := by
  induction calls using List.reverseRecOn with
  | nil => exact absurd rfl hne
  | append_singleton calls call ih =>
    rw [joined, List.foldl_concat, ← joined]
    -- the first call of a row is taken as it is
    by_cases hnil : calls = []
    · subst hnil
      exact ⟨call, rfl, .single call⟩
    · obtain ⟨total, htotal, hmerges⟩ :=
        ih hnil (fun c hc => hsplit c (List.mem_append_left _ hc)) hfit.of_append
      rw [htotal]
      have hlast := hsplit call (List.mem_append_right _ (List.mem_singleton_self _))
      exact ⟨addUsage total call, rfl, hmerges.add hlast hfit⟩

section Amount

variable {price : ModelPrice} {assumed : CacheTier}

def tierUsd (price : ModelPrice) (tier : CacheTier) : ℚ :=
  ((price.cacheWrites.find? fun write => write.tier = tier).map TierPrice.usdPerMtok).getD 0

/-- The amount of the counts of a usage: the input, the cache reads, the writes at 5m, at 1h and without a tier, and
the output. -/
def countsAmount (price : ModelPrice) (assumed : CacheTier) (input cacheRead write5m write1h untiered output : ℕ) : ℚ :=
  (input * price.input + cacheRead * price.cacheRead +
    (write5m * tierUsd price fiveMin + write1h * tierUsd price oneHour + untiered * tierUsd price assumed) +
    output * price.output) / 1000000

theorem countsAmount_add (i r f h u o i' r' f' h' u' o' : ℕ) :
    countsAmount price assumed (i + i') (r + r') (f + f') (h + h') (u + u') (o + o') =
      countsAmount price assumed i r f h u o + countsAmount price assumed i' r' f' h' u' o' := by
  simp only [countsAmount, Nat.cast_add]
  ring

def usageAmount (price : ModelPrice) (assumed : CacheTier) (usage : Usage) : ℚ :=
  countsAmount price assumed usage.inputUncached usage.cacheRead (firstTokens fiveMin usage.cacheWrites)
    (firstTokens oneHour usage.cacheWrites) (untieredTokens usage) usage.output

def usageUsd (price : Option ModelPrice) (assumed : CacheTier) (usage : Usage) : Usd :=
  match price with
  | none => ⟨none, true, true, false⟩
  | some price => ⟨some (usageAmount price assumed usage), 0 < untieredTokens usage && !pricedTier price assumed, true, false⟩

/-- Every tier that tokens were written at has a price. -/
def TiersPriced (price : ModelPrice) (usage : Usage) : Prop :=
  ∀ tier ∈ [fiveMin, oneHour], 0 < firstTokens tier usage.cacheWrites → pricedTier price tier = true

instance (price : ModelPrice) : DecidablePred (TiersPriced price) := fun _ => inferInstanceAs (Decidable (∀ _ ∈ _, _ → _))

theorem tierUsd_of_priced {tier : CacheTier} (h : pricedTier price tier = true) :
    (price.cacheWrites.find? fun write => write.tier = tier).map TierPrice.usdPerMtok = some (tierUsd price tier) := by
  rw [pricedTier, List.any_eq_true] at h
  obtain ⟨write, hmem, htier⟩ := h
  have hsome : (price.cacheWrites.find? fun write => write.tier = tier).isSome := List.find?_isSome.mpr ⟨write, hmem, htier⟩
  obtain ⟨found, hfound⟩ := Option.isSome_iff_exists.mp hsome
  rw [tierUsd, hfound]
  rfl

theorem tierUsd_of_unpriced {tier : CacheTier} (h : pricedTier price tier = false) : tierUsd price tier = 0 := by
  rw [pricedTier, List.any_eq_false] at h
  rw [tierUsd, List.find?_eq_none.mpr fun write hwrite => h write hwrite]
  rfl

theorem addWriteUsd_of_priced {write : CacheWrite} (h : pricedTier price write.tier = true) (sum : ℚ) :
    addWriteUsd price sum write = some (sum + write.tokens * tierUsd price write.tier) := by
  rw [addWriteUsd]
  split_ifs with hzero
  · rw [hzero, Nat.cast_zero, zero_mul, add_zero]
  · obtain ⟨found, hfound, husd⟩ := Option.map_eq_some_iff.mp (tierUsd_of_priced h)
    rw [hfound, ← husd]
    rfl

theorem foldlM_addWriteUsd {writes : List CacheWrite} (h : ∀ write ∈ writes, pricedTier price write.tier = true)
    (sum : ℚ) : writes.foldlM (addWriteUsd price) sum =
      some (sum + (writes.map fun write => write.tokens * tierUsd price write.tier).sum) := by
  induction writes generalizing sum with
  | nil => exact congrArg some (add_zero sum).symm
  | cons write writes ih =>
    rw [List.forall_mem_cons] at h
    rw [List.foldlM_cons, addWriteUsd_of_priced h.1]
    change List.foldlM _ _ writes = _
    rw [ih h.2, List.map_cons, List.sum_cons, add_assoc]

theorem sum_unpriced {calls : List Usage} (hne : calls ≠ []) :
    (calls.map (usageUsd none assumed)).sum = ⟨none, true, true, false⟩ := by
  induction calls with
  | nil => exact absurd rfl hne
  | cons call calls ih =>
    rw [List.map_cons, List.sum_cons]
    by_cases hnil : calls = []
    · rw [hnil, List.map_nil, List.sum_nil, add_zero]
      rfl
    · rw [ih hnil]
      rfl

theorem sum_priced {calls : List Usage} (hne : calls ≠ []) :
    (calls.map (usageUsd (some price) assumed)).sum =
      ⟨some (countsAmount price assumed (calls.map Usage.inputUncached).sum (calls.map Usage.cacheRead).sum
        (calls.map fun call => firstTokens fiveMin call.cacheWrites).sum
        (calls.map fun call => firstTokens oneHour call.cacheWrites).sum (calls.map untieredTokens).sum
        (calls.map Usage.output).sum),
      0 < (calls.map untieredTokens).sum && !pricedTier price assumed, true, false⟩ := by
  induction calls with
  | nil => exact absurd rfl hne
  | cons call calls ih =>
    simp only [List.map_cons, List.sum_cons]
    by_cases hnil : calls = []
    · subst hnil
      simp only [List.map_nil, List.sum_nil, add_zero]
      rfl
    · rw [ih hnil, countsAmount_add]
      refine Usd.ext rfl ?_ rfl rfl
      change (decide (0 < untieredTokens call) && _ || decide (0 < (calls.map untieredTokens).sum) && _) = _
      rw [← Bool.and_or_distrib_right, ← Bool.decide_or]
      exact congrArg (· && _) (decide_eq_decide.mpr Nat.add_pos_iff_pos_or_pos.symm)

theorem Merges.untiered {usage : Usage} {calls : List Usage} (h : Merges usage calls)
    (hsplit : ∀ call ∈ calls, Split call) : untieredTokens usage = (calls.map untieredTokens).sum := by
  have hwritten : (calls.map writtenTokens).sum = (calls.map fun call =>
      untieredTokens call + (firstTokens fiveMin call.cacheWrites + firstTokens oneHour call.cacheWrites)).sum := by
    refine congrArg List.sum (List.map_congr_left fun call hcall => ?_)
    exact (Nat.sub_add_cancel (hsplit call hcall).le_written).symm
  rw [List.sum_map_add, List.sum_map_add] at hwritten
  rw [untieredTokens, h.written, h.tier fiveMin List.mem_cons_self,
    h.tier oneHour (List.mem_cons_of_mem _ List.mem_cons_self), hwritten, Nat.add_sub_cancel]

/-- Amounts add up as the counts do. -/
theorem usageUsd_merges {usage : Usage} {calls : List Usage} (h : Merges usage calls) (hne : calls ≠ [])
    (hsplit : ∀ call ∈ calls, Split call) (price : Option ModelPrice) (assumed : CacheTier) :
    usageUsd price assumed usage = (calls.map (usageUsd price assumed)).sum := by
  cases price with
  | none => exact (sum_unpriced hne).symm
  | some price =>
    rw [sum_priced hne, usageUsd, usageAmount, h.input, h.cacheRead, h.output, h.untiered hsplit,
      h.tier fiveMin List.mem_cons_self, h.tier oneHour (List.mem_cons_of_mem _ List.mem_cons_self)]

end Amount

section Row

variable (table : List PricedEntry) (overrides : SortedMap String PriceOverride) (rates : String → BillingRates)
  {harness model : String} {usage : Usage} {flag : Option Bool}

/-- The row of a usage, with a flag or with none. -/
def usageRow (harness model : String) (usage : Usage) (flag : Option Bool) : UsageLine :=
  { workerUsageRecord harness ⟨model, usage, false⟩ with longPrompt := flag }

theorem untieredWrites_usageRow (hwritten : writtenTokens usage < 2 ^ 64)
    (htiers : firstTokens fiveMin usage.cacheWrites + firstTokens oneHour usage.cacheWrites ≤ writtenTokens usage) :
    untieredWrites (usageRow harness model usage flag) = untieredTokens usage := by
  change writtenTokens usage % 2 ^ 64 - addSaturating (firstTokens fiveMin usage.cacheWrites)
    (firstTokens oneHour usage.cacheWrites) = _
  rw [Nat.mod_eq_of_lt hwritten, addSaturating, min_eq_left (by omega), untieredTokens]

theorem tieredUsage_writes {M : Type*} [AddCommMonoid M] (line : UsageLine) (f : CacheWrite → M)
    (hf : ∀ tier, f ⟨tier, 0⟩ = 0) : ((tieredUsage line).cacheWrites.map f).sum =
      f ⟨fiveMin, line.cacheWrite5m.getD 0⟩ + f ⟨oneHour, line.cacheWrite1h.getD 0⟩ := by
  have hone : ∀ (write : CacheWrite) (writes : List CacheWrite),
      (((write :: writes).filter fun write => 0 < write.tokens).map f).sum =
        f write + ((writes.filter fun write => 0 < write.tokens).map f).sum := by
    intro write writes
    by_cases hpos : 0 < write.tokens
    · rw [List.filter_cons_of_pos (by simpa using hpos), List.map_cons, List.sum_cons]
    · have hzero : write = ⟨write.tier, 0⟩ := by rw [← Nat.eq_zero_of_not_pos hpos]
      rw [List.filter_cons_of_neg (by simpa using hpos), hzero, hf, zero_add]
  rw [tieredUsage, hone, hone, List.filter_nil, List.map_nil, List.sum_nil, add_zero]

theorem promptTokens_usageRow (hwritten : writtenTokens usage < 2 ^ 64)
    (htiers : firstTokens fiveMin usage.cacheWrites + firstTokens oneHour usage.cacheWrites ≤ writtenTokens usage)
    (hprompt : usage.inputUncached + usage.cacheRead + writtenTokens usage < 2 ^ 64) :
    addSaturating (promptTokens (tieredUsage (usageRow harness model usage flag)))
      (untieredWrites (usageRow harness model usage flag)) = promptTokens usage := by
  have htiered : promptTokens (tieredUsage (usageRow harness model usage flag)) = (usage.inputUncached + usage.cacheRead +
      (firstTokens fiveMin usage.cacheWrites + firstTokens oneHour usage.cacheWrites)) % 2 ^ 64 := by
    rw [promptTokens, tieredUsage_writes _ _ fun _ => rfl]
    rfl
  have hwhole : promptTokens usage = usage.inputUncached + usage.cacheRead + writtenTokens usage :=
    Nat.mod_eq_of_lt hprompt
  -- the tiered writes and the rest are the whole prompt again
  rw [htiered, untieredWrites_usageRow hwritten htiers, hwhole, Nat.mod_eq_of_lt (by omega), addSaturating,
    untieredTokens]
  omega

theorem tieredUsage_priced {price : ModelPrice} (h : TiersPriced price usage) :
    ∀ write ∈ (tieredUsage (usageRow harness model usage flag)).cacheWrites, pricedTier price write.tier = true := by
  intro write hwrite
  obtain ⟨hmem, hpos⟩ := List.mem_filter.mp hwrite
  have hpos' := of_decide_eq_true hpos
  obtain rfl | hmem := List.mem_cons.mp hmem
  · exact h fiveMin List.mem_cons_self hpos'
  · obtain rfl := List.mem_singleton.mp hmem
    exact h oneHour (List.mem_cons_of_mem _ List.mem_cons_self) hpos'

/-- The writes without a tier join the assumed one, if that has a price. -/
theorem usd_usageRow {price : ModelPrice} {assumed : CacheTier} (h : TiersPriced price usage)
    (huntiered : untieredWrites (usageRow harness model usage flag) = untieredTokens usage) :
    usd (if pricedTier price assumed && 0 < untieredWrites (usageRow harness model usage flag) then
      { tieredUsage (usageRow harness model usage flag) with
        cacheWrites := (tieredUsage (usageRow harness model usage flag)).cacheWrites ++
          [⟨assumed, untieredWrites (usageRow harness model usage flag)⟩] }
      else tieredUsage (usageRow harness model usage flag)) price = some (usageAmount price assumed usage) := by
  have htiered : ∀ write ∈ (tieredUsage (usageRow harness model usage flag)).cacheWrites,
      pricedTier price write.tier = true := tieredUsage_priced h
  have hsum := tieredUsage_writes (usageRow harness model usage flag)
    (fun write => (write.tokens : ℚ) * tierUsd price write.tier) fun tier => by rw [Nat.cast_zero, zero_mul]
  rw [huntiered]
  split_ifs with hassumed
  · rw [Bool.and_eq_true] at hassumed
    have hall : ∀ write ∈ (tieredUsage (usageRow harness model usage flag)).cacheWrites ++ [⟨assumed, untieredTokens usage⟩],
        pricedTier price write.tier = true := by
      rw [List.forall_mem_append, List.forall_mem_singleton]
      exact ⟨htiered, hassumed.1⟩
    rw [usd, foldlM_addWriteUsd hall, List.map_append, List.sum_append, hsum, List.map_singleton, List.sum_singleton,
      zero_add]
    rfl
  · -- nothing is left over for the tier, or the tier has no price
    have hzero : (untieredTokens usage : ℚ) * tierUsd price assumed = 0 := by
      cases hpriced : pricedTier price assumed with
      | false => rw [tierUsd_of_unpriced hpriced, mul_zero]
      | true =>
        rw [hpriced, Bool.true_and, decide_eq_true_iff] at hassumed
        rw [Nat.eq_zero_of_not_pos hassumed, Nat.cast_zero, zero_mul]
    rw [usd, foldlM_addWriteUsd htiered, hsum, zero_add, usageAmount, countsAmount, hzero, add_zero]
    rfl

/-- A row whose tiers have prices is priced by its counts. -/
theorem computedUsd_usageRow {prompt : ℕ} (hwritten : writtenTokens usage < 2 ^ 64)
    (htiers : firstTokens fiveMin usage.cacheWrites + firstTokens oneHour usage.cacheWrites ≤ writtenTokens usage)
    (hprompt : tierPrompt flag (addSaturating (promptTokens (tieredUsage (usageRow harness model usage flag)))
      (untieredWrites (usageRow harness model usage flag))) = prompt)
    (hpriced : ∀ price ∈ resolvePrice table overrides (rates model) model prompt, TiersPriced price usage) :
    computedUsd table overrides rates (usageRow harness model usage flag) =
      usageUsd (resolvePrice table overrides (rates model) model prompt) (assumedTier (some harness)) usage := by
  have huntiered : untieredWrites (usageRow harness model usage flag) = untieredTokens usage :=
    untieredWrites_usageRow hwritten htiers
  cases hprice : resolvePrice table overrides (rates model) model prompt with
  | none =>
    -- a model without a price has no amount, with any counts
    have hline : pricedLine table overrides rates (usageRow harness model usage flag) = none := by
      change (resolvePrice table overrides (rates model) model (tierPrompt flag _)).bind _ = none
      rw [hprompt, hprice]
      rfl
    rw [computedUsd, hline]
    rfl
  | some price =>
    have hline : pricedLine table overrides rates (usageRow harness model usage flag) =
        some (usageAmount price (assumedTier (some harness)) usage, pricedTier price (assumedTier (some harness))) := by
      change (resolvePrice table overrides (rates model) model (tierPrompt flag _)).bind _ = _
      rw [hprompt, hprice, Option.bind_some]
      exact congrArg (fun amount => amount.bind fun usd => some (usd, pricedTier price (assumedTier (some harness))))
        (usd_usageRow (hpriced price hprice) huntiered)
    rw [computedUsd, hline, huntiered]
    rfl

end Row

section Rows

variable {prices : List PriceEntry} {model : String}

theorem lookup_foldl_recordCall (calls : List Usage) (m : SortedMap RowKey Usage) (long : Bool) :
    ((calls.map (Prod.mk model)).foldl (recordCall prices) m).lookup (toLex (model, long)) =
      joined (m.lookup (toLex (model, long))) (calls.filter fun call => longPromptCall prices model call = long) := by
  induction calls generalizing m with
  | nil => rfl
  | cons call calls ih =>
    rw [List.map_cons, List.foldl_cons, ih, recordCall]
    dsimp only
    rw [SortedMap.lookup_insert]
    by_cases hlong : longPromptCall prices model call = long
    · rw [List.filter_cons_of_pos (by simpa using hlong), hlong, if_pos rfl]
      rfl
    · rw [List.filter_cons_of_neg (by simpa using hlong), if_neg]
      rw [toLex_inj, Prod.mk.injEq]
      exact fun h => hlong h.2.symm

theorem model_of_mem (calls : List Usage) {m : SortedMap RowKey Usage}
    (hm : ∀ e ∈ m.entries, (ofLex e.1).1 = model) :
    ∀ e ∈ ((calls.map (Prod.mk model)).foldl (recordCall prices) m).entries, (ofLex e.1).1 = model := by
  induction calls generalizing m with
  | nil => exact hm
  | cons call calls ih =>
    refine ih fun e he => ?_
    obtain rfl | he := SortedMap.mem_of_mem_insertEntry he
    · rfl
    · exact hm e he

/-- The rows with a flag are the one that the calls with it are joined to. -/
theorem filter_recordCalls (calls : List Usage) (long : Bool) :
    (recordCalls prices (calls.map (Prod.mk model))).filter (fun row => row.longPrompt = long) =
      (joined none (calls.filter fun call => longPromptCall prices model call = long)).toList.map
        fun usage => ⟨model, usage, long⟩ := by
  have hmodel : ∀ row ∈ recordCalls prices (calls.map (Prod.mk model)), row.model = model := by
    intro row hrow
    obtain ⟨e, he, rfl⟩ := List.mem_map.mp hrow
    exact model_of_mem calls (List.forall_mem_nil _) e he
  have hsame : (recordCalls prices (calls.map (Prod.mk model))).filter (fun row => row.longPrompt = long) =
      (recordCalls prices (calls.map (Prod.mk model))).filter fun row => row.model = model ∧ row.longPrompt = long := by
    refine List.filter_congr fun row hrow => ?_
    simp [hmodel row hrow]
  rw [hsame, recordCalls, modelRows, filter_rows, lookup_foldl_recordCall, SortedMap.lookup_empty]

end Rows

/-- The prompt of each call fits, and so do the counts of the calls with one flag. -/
structure Fits (prices : List PriceEntry) (model : String) (calls : List Usage) : Prop where
  prompt : ∀ call ∈ calls, call.inputUncached + call.cacheRead + writtenTokens call < 2 ^ 64
  counts : ∀ long, CountsFit (calls.filter fun call => longPromptCall prices model call = long)

section Total

variable {table : List PricedEntry} {overrides : SortedMap String PriceOverride} {rates : String → BillingRates}
  {harness model : String} {calls : List Usage}

/-- The flag of a call stands for its prompt. -/
theorem resolvePrice_of_flag (hone : OneThreshold table) (call : Usage) (summed : ℕ) :
    resolvePrice table overrides (rates model) model
      (tierPrompt (some (longPromptCall (table.map PricedEntry.toPriceEntry) model call)) summed) =
        resolvePrice table overrides (rates model) model (promptTokens call) := by
  have hprompt : promptTokens call < 2 ^ 64 := Nat.mod_lt _ (Nat.two_pow_pos 64)
  cases hflag : longPromptCall (table.map PricedEntry.toPriceEntry) model call with
  | true => exact resolvePrice_congr (PriceTable.inReach_of_long hone hprompt hflag) overrides (rates model)
  | false => exact resolvePrice_congr (PriceTable.inReach_of_short hflag) overrides (rates model)

theorem Merges.tiers_le {usage : Usage} (h : Merges usage calls) (hsplit : ∀ call ∈ calls, Split call) :
    firstTokens fiveMin usage.cacheWrites + firstTokens oneHour usage.cacheWrites ≤ writtenTokens usage := by
  rw [h.written, h.tier fiveMin List.mem_cons_self, h.tier oneHour (List.mem_cons_of_mem _ List.mem_cons_self),
    ← List.sum_map_add]
  exact List.sum_le_sum fun call hcall => (hsplit call hcall).le_written

theorem Merges.tiersPriced {usage : Usage} {price : ModelPrice} (h : Merges usage calls)
    (hpriced : ∀ call ∈ calls, TiersPriced price call) : TiersPriced price usage := by
  intro tier htier hpos
  by_contra hunpriced
  refine absurd hpos (Nat.not_lt.mpr (Nat.le_of_eq ?_))
  rw [h.tier tier htier]
  refine List.sum_eq_zero fun tokens htokens => ?_
  obtain ⟨call, hcall, rfl⟩ := List.mem_map.mp htokens
  exact Nat.eq_zero_of_not_pos fun hpos => hunpriced (hpriced call hcall tier htier hpos)

/-- The row of a flag has the amounts of the calls with it. -/
theorem sum_flag (hone : OneThreshold table) (hsplit : ∀ call ∈ calls, Split call)
    (hpriced : ∀ call ∈ calls, ∀ price ∈ resolvePrice table overrides (rates model) model (promptTokens call),
      TiersPriced price call)
    (hfits : Fits (table.map PricedEntry.toPriceEntry) model calls) (long : Bool) :
    (((recordCalls (table.map PricedEntry.toPriceEntry) (calls.map (Prod.mk model))).filter fun row =>
      row.longPrompt = long).map fun row => computedUsd table overrides rates (workerUsageRecord harness row)).sum =
    ((calls.filter fun call => longPromptCall (table.map PricedEntry.toPriceEntry) model call = long).map fun call =>
      computedUsd table overrides rates (usageRow harness model call none)).sum := by
  rw [filter_recordCalls]
  have hgroup : ∀ call ∈ calls.filter fun call => longPromptCall (table.map PricedEntry.toPriceEntry) model call = long,
      call ∈ calls ∧ longPromptCall (table.map PricedEntry.toPriceEntry) model call = long := by
    intro call hcall
    rw [List.mem_filter, decide_eq_true_iff] at hcall
    exact hcall
  have hfit := hfits.counts long
  generalize calls.filter (fun call => longPromptCall (table.map PricedEntry.toPriceEntry) model call = long) = group
    at hgroup hfit ⊢
  -- a flag that no call has gives no row
  by_cases hnil : group = []
  · rw [hnil]
    rfl
  have hsplits : ∀ call ∈ group, Split call := fun call hcall => hsplit call (hgroup call hcall).1
  obtain ⟨usage, husage, hmerges⟩ := joined_merges hnil hsplits hfit
  have hflag : ∀ call ∈ group, ∀ summed, resolvePrice table overrides (rates model) model (tierPrompt (some long) summed) =
      resolvePrice table overrides (rates model) model (promptTokens call) := by
    intro call hcall summed
    rw [← (hgroup call hcall).2]
    exact resolvePrice_of_flag hone call summed
  -- each call by itself has the price of the flag
  have hown : group.map (fun call => computedUsd table overrides rates (usageRow harness model call none)) =
      group.map (usageUsd (resolvePrice table overrides (rates model) model (tierPrompt (some long) 0))
        (assumedTier (some harness))) := by
    refine List.map_congr_left fun call hcall => ?_
    obtain ⟨hcalls, -⟩ := hgroup call hcall
    have hprompt := hfits.prompt call hcalls
    have hwritten : writtenTokens call < 2 ^ 64 := by omega
    have htiers := (hsplit call hcalls).le_written
    rw [hflag call hcall]
    exact computedUsd_usageRow table overrides rates hwritten htiers (promptTokens_usageRow hwritten htiers hprompt)
      (hpriced call hcalls)
  rw [husage, hown, Option.toList_some, List.map_singleton, List.map_singleton, List.sum_singleton,
    ← usageUsd_merges hmerges hnil hsplits]
  have hwritten : writtenTokens usage < 2 ^ 64 := by
    rw [hmerges.written]
    exact hfit writtenTokens (by simp)
  change computedUsd table overrides rates (usageRow harness model usage (some long)) = _
  refine computedUsd_usageRow table overrides rates hwritten (hmerges.tiers_le hsplits)
    (by cases long <;> rfl) fun price hprice => hmerges.tiersPriced fun call hcall => ?_
  -- some call wrote at the tier, and the price is the same for it
  refine hpriced call (hgroup call hcall).1 price ?_
  rw [← hflag call hcall 0]
  exact hprice

theorem sum_by_flag {α : Type*} (flag : α → Bool) (f : α → Usd) (as : List α) : (as.map f).sum =
    ((as.filter fun a => flag a = true).map f).sum + ((as.filter fun a => flag a = false).map f).sum := by
  rw [← ((List.filter_append_perm (fun a => decide (flag a = true)) as).map f).sum_eq, List.map_append, List.sum_append]
  congr 4
  funext a
  cases flag a <;> rfl

theorem merged_usd_eq (hone : OneThreshold table) (hsplit : ∀ call ∈ calls, Split call)
    (hpriced : ∀ call ∈ calls, ∀ price ∈ resolvePrice table overrides (rates model) model (promptTokens call),
      TiersPriced price call)
    (hfits : Fits (table.map PricedEntry.toPriceEntry) model calls) :
    let rows := recordCalls (table.map PricedEntry.toPriceEntry) (calls.map (Prod.mk model))
    let merged := summed (rows.map (workerUsageRecord harness)) (computedUsd table overrides rates)
    let own := fun call => computedUsd table overrides rates (usageRow harness model call none)
    merged.known = (summed (calls.map fun call => usageRow harness model call none)
      (computedUsd table overrides rates)).known ∧ (merged.missing = true ↔ ∃ call ∈ calls, (own call).missing = true) := by
  intro rows merged own
  have htotal : merged = (calls.map own).sum := by
    change summed (rows.map _) _ = _
    rw [summed_eq_sum, List.map_map, sum_by_flag ModelUsage.longPrompt, sum_by_flag (longPromptCall _ model) own calls]
    exact congrArg₂ (· + ·) (sum_flag hone hsplit hpriced hfits true) (sum_flag hone hsplit hpriced hfits false)
  refine ⟨?_, ?_⟩
  · rw [htotal, summed_eq_sum, List.map_map]
    rfl
  · rw [htotal, Usd.missing_sum, List.any_map, List.any_eq_true]
    rfl

end Total

/-- The prices of a model with a threshold. -/
def haikuPrices : List PricedEntry :=
  [⟨⟨"claude-haiku-5-5", none⟩, 1 / 10, 1 / 100, [⟨fiveMin, 1 / 8⟩, ⟨oneHour, 1 / 5⟩], 1 / 2⟩,
    ⟨⟨"claude-haiku-5-5", some 100000⟩, 1 / 2, 1 / 20, [⟨fiveMin, 5 / 8⟩, ⟨oneHour, 1⟩], 5 / 2⟩]

def noRates : String → BillingRates := fun _ => ⟨0, [], 0⟩

/-- Two short prompts that are long together, and a long one. -/
def haikuCalls : List Usage :=
  [⟨60000, 0, [⟨fiveMin, 500⟩], 10, none, []⟩, ⟨100001, 0, [], 20, none, []⟩, ⟨60000, 100, [⟨.unspecified, 7⟩], 0, none, []⟩]

theorem merged_usd_eq_haiku :
    let merged := summed ((recordCalls (haikuPrices.map PricedEntry.toPriceEntry)
      (haikuCalls.map (Prod.mk "claude-haiku-5-5-20261021"))).map (workerUsageRecord "claude"))
        (computedUsd haikuPrices .empty noRates)
    merged.known = (summed (haikuCalls.map fun call => usageRow "claude" "claude-haiku-5-5-20261021" call none)
      (computedUsd haikuPrices .empty noRates)).known :=
  (merged_usd_eq (by decide +kernel) (by decide +kernel) (by decide +kernel)
    ⟨by decide +kernel, by decide +kernel⟩).1

/-- Two calls whose inputs together are one more than a `u64` holds. -/
def halfFull : Usage := ⟨2 ^ 63, 0, [], 0, none, []⟩

theorem merged_usd_ne :
    ∃ (table : List PricedEntry) (overrides : SortedMap String PriceOverride) (rates : String → BillingRates)
      (harness model : String) (calls : List Usage), OneThreshold table ∧ (∀ call ∈ calls, Split call) ∧
      (∀ call ∈ calls, ∀ price ∈ resolvePrice table overrides (rates model) model (promptTokens call),
        TiersPriced price call) ∧
      (summed ((recordCalls (table.map PricedEntry.toPriceEntry) (calls.map (Prod.mk model))).map
        (workerUsageRecord harness)) (computedUsd table overrides rates)).known ≠
      (summed (calls.map fun call => usageRow harness model call none) (computedUsd table overrides rates)).known :=
  ⟨haikuPrices, .empty, noRates, "claude", "claude-haiku-5-5", [halfFull, halfFull], by decide +kernel, by decide +kernel,
    by decide +kernel, by decide +kernel⟩

end Ralph.Worker
