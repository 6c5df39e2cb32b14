import Mathlib.Data.Rat.Defs
import Ralph.SortedMap
import Ralph.Wire.Price

namespace Ralph.Wire

def thirtyMin : CacheTier := .ttl 1800
def twelveHours : CacheTier := .ttl 43200

structure TierPrice where
  tier : CacheTier
  usdPerMtok : ℚ

structure ModelPrice where
  input : ℚ
  cacheRead : ℚ
  cacheWrites : List TierPrice
  output : ℚ

/-- A row of the price table, with the prices. -/
structure PricedEntry extends PriceEntry where
  price : ModelPrice

structure PriceOverride where
  input : ℚ
  cacheRead : Option ℚ
  cacheWrite5m : Option ℚ
  cacheWrite1h : Option ℚ
  cacheWrite30m : Option ℚ
  cacheWrite12h : Option ℚ
  output : Option ℚ

structure TierRate where
  tier : CacheTier
  multiplier : ℚ

structure BillingRates where
  cacheRead : ℚ
  cacheWrites : List TierRate
  output : ℚ

/-- `max_by_key` on the thresholds, as `maxAbove`. -/
def maxPriced (best next : PricedEntry) : PricedEntry :=
  match best.abovePromptTokens, next.abovePromptTokens with
  | some a, some b => if b < a then best else next
  | some _, none => best
  | none, _ => next

namespace PriceTable

def entry (table : List PricedEntry) (model : String) (prompt : ℕ) : Option PricedEntry := do
  let model := normalizeModel model.toList
  let found := table.filter fun e => matchesPrefix model e.model.toList
  let longest ← (found.map fun e => e.model.utf8ByteSize).max?
  -- a row without a threshold is in reach of every prompt
  let above := found.filter fun e =>
    e.model.utf8ByteSize = longest ∧ e.abovePromptTokens.all fun t => t < prompt
  match above with
  | [] => none
  | e :: rest => some (rest.foldl maxPriced e)

def lookup (table : List PricedEntry) (model : String) (prompt : ℕ) : Option ModelPrice :=
  (entry table model prompt).map PricedEntry.price

end PriceTable

def derivedWrite (explicit : Option ℚ) (input : ℚ) (tier : CacheTier) (rates : BillingRates) : Option TierPrice :=
  (explicit.or ((rates.cacheWrites.find? fun rate => rate.tier = tier).map fun rate => input * rate.multiplier)).map
    (TierPrice.mk tier)

def PriceOverride.toPrice (o : PriceOverride) (rates : BillingRates) : ModelPrice where
  input := o.input
  cacheRead := o.cacheRead.getD (o.input * rates.cacheRead)
  cacheWrites := [derivedWrite o.cacheWrite5m o.input fiveMin rates, derivedWrite o.cacheWrite1h o.input oneHour rates,
    derivedWrite o.cacheWrite30m o.input thirtyMin rates, derivedWrite o.cacheWrite12h o.input twelveHours rates].filterMap id
  output := o.output.getD (o.input * rates.output)

/-- `max_by_key` on the lengths of the keys. -/
def longerKey (best next : String × PriceOverride) : String × PriceOverride :=
  if next.1.utf8ByteSize < best.1.utf8ByteSize then best else next

def resolvePrice (table : List PricedEntry) (overrides : SortedMap String PriceOverride) (rates : BillingRates)
    (model : String) (prompt : ℕ) : Option ModelPrice :=
  match overrides.entries.filter fun o => matchesPrefix (normalizeModel model.toList) o.1.toList with
  -- an override holds at every prompt size
  | o :: rest => some ((rest.foldl longerKey o).2.toPrice rates)
  | [] => PriceTable.lookup table model prompt

/-- One write of the sum. -/
def addWriteUsd (price : ModelPrice) (sum : ℚ) (write : CacheWrite) : Option ℚ :=
  if write.tokens = 0 then some sum
  else (price.cacheWrites.find? fun tier => tier.tier = write.tier).map fun tier => sum + write.tokens * tier.usdPerMtok

def usd (usage : Usage) (price : ModelPrice) : Option ℚ :=
  (usage.cacheWrites.foldlM (addWriteUsd price) 0).map fun writes =>
    (usage.inputUncached * price.input + usage.cacheRead * price.cacheRead + writes + usage.output * price.output) /
      1000000

/-- Each listed model has one prompt threshold at most. -/
def OneThreshold (table : List PricedEntry) : Prop :=
  ∀ e ∈ table, ∀ e' ∈ table, e.model = e'.model → ∀ t ∈ e.abovePromptTokens, ∀ t' ∈ e'.abovePromptTokens, t = t'

instance : DecidablePred OneThreshold := fun table => inferInstanceAs
  (Decidable (∀ e ∈ table, ∀ e' ∈ table, e.model = e'.model → ∀ t ∈ e.abovePromptTokens, ∀ t' ∈ e'.abovePromptTokens, t = t'))

namespace PriceTable

variable {table : List PricedEntry} {model : String} {prompt : ℕ}

/-- The entries of the longest listed id. -/
def longestEntries (table : List PricedEntry) (model : String) : List PricedEntry :=
  let found := table.filter fun e => matchesPrefix (normalizeModel model.toList) e.model.toList
  match (found.map fun e => e.model.utf8ByteSize).max? with
  | none => []
  | some longest => found.filter fun e => e.model.utf8ByteSize = longest

def inReach (table : List PricedEntry) (model : String) (prompt : ℕ) : List PricedEntry :=
  (longestEntries table model).filter fun e => e.abovePromptTokens.all fun t => t < prompt

/-- The last of the largest thresholds. -/
def highest : List PricedEntry → Option PricedEntry
  | [] => none
  | e :: rest => some (rest.foldl maxPriced e)

theorem entry_eq (table : List PricedEntry) (model : String) (prompt : ℕ) :
    entry table model prompt = highest (inReach table model prompt) := by
  unfold entry inReach longestEntries
  dsimp only
  generalize table.filter (fun e => matchesPrefix (normalizeModel model.toList) e.model.toList) = found
  cases (found.map fun e => e.model.utf8ByteSize).max? with
  | none => rfl
  | some longest =>
    dsimp only [Option.bind_eq_bind, Option.bind_some]
    rw [List.filter_filter]
    simp only [Bool.decide_and, Bool.and_comm, Bool.decide_eq_true]
    rfl

theorem eq_of_starts {a b : String} (h : a.toList <+: b.toList) (hsize : a.utf8ByteSize = b.utf8ByteSize) : a = b := by
  obtain ⟨more, hmore⟩ := h
  have hb : b = a ++ String.ofList more := by
    rw [← String.ofList_toList (s := b), ← hmore, String.ofList_append, String.ofList_toList]
  rw [hb, String.utf8ByteSize_append] at hsize
  have hnil : String.ofList more = "" := String.utf8ByteSize_eq_zero_iff.mp (by omega)
  rw [hb, hnil, String.append_empty]

theorem starts_of_matches {model name : List Char} (h : matchesPrefix model name = true) : name <+: model := by
  rw [matchesPrefix, Bool.or_eq_true, decide_eq_true_iff, Bool.and_eq_true] at h
  obtain rfl | ⟨hpre, -⟩ := h
  · exact List.prefix_rfl
  · exact List.isPrefixOf_iff_prefix.mp hpre

/-- Two listed ids of one length that match a model are the same. -/
theorem longestEntries_model {e e' : PricedEntry} (he : e ∈ longestEntries table model)
    (he' : e' ∈ longestEntries table model) : e ∈ table ∧ e' ∈ table ∧ e.model = e'.model := by
  rw [longestEntries] at he he'
  split at he
  · exact absurd he List.not_mem_nil
  · next longest hlongest =>
    rw [hlongest] at he'
    dsimp only at he'
    simp only [List.mem_filter, decide_eq_true_iff] at he he'
    obtain ⟨⟨hmem, hmatch⟩, hsize⟩ := he
    obtain ⟨⟨hmem', hmatch'⟩, hsize'⟩ := he'
    refine ⟨hmem, hmem', ?_⟩
    -- both ids start the model, so one starts the other
    obtain hpre | hpre := List.prefix_or_prefix_of_prefix (starts_of_matches hmatch) (starts_of_matches hmatch')
    · exact eq_of_starts hpre (hsize.trans hsize'.symm)
    · exact (eq_of_starts hpre (hsize'.trans hsize.symm)).symm

theorem isSome_maxPriced (a b : PricedEntry) : (maxPriced a b).abovePromptTokens.isSome =
    (a.abovePromptTokens.isSome || b.abovePromptTokens.isSome) := by
  rw [maxPriced]
  cases ha : a.abovePromptTokens <;> cases hb : b.abovePromptTokens
  · rfl
  · rfl
  · exact congrArg Option.isSome ha
  · dsimp only
    split_ifs
    · exact congrArg Option.isSome ha
    · exact congrArg Option.isSome hb

theorem isSome_foldl_maxPriced (e : PricedEntry) (rest : List PricedEntry) :
    (rest.foldl maxPriced e).abovePromptTokens.isSome = (e :: rest).any fun e => e.abovePromptTokens.isSome := by
  induction rest generalizing e with
  | nil => simp
  | cons e' rest ih =>
    rw [List.foldl_cons, ih, List.any_cons, isSome_maxPriced, List.any_cons, List.any_cons, Bool.or_assoc]

/-- A threshold in reach shows in the entry that is taken. -/
theorem any_highest (es : List PricedEntry) :
    (highest es).any (fun e => e.abovePromptTokens.isSome) = es.any fun e => e.abovePromptTokens.isSome := by
  cases es with
  | nil => rfl
  | cons e rest => exact isSome_foldl_maxPriced e rest

theorem maxPriced_toPriceEntry (a b : PricedEntry) :
    (maxPriced a b).toPriceEntry = maxAbove a.toPriceEntry b.toPriceEntry := by
  rw [maxPriced, maxAbove]
  cases a.abovePromptTokens <;> cases b.abovePromptTokens <;> first | rfl | (dsimp only; split_ifs <;> rfl)

theorem foldl_maxPriced_toPriceEntry (e : PricedEntry) (rest : List PricedEntry) :
    (rest.foldl maxPriced e).toPriceEntry = (rest.map PricedEntry.toPriceEntry).foldl maxAbove e.toPriceEntry := by
  induction rest generalizing e with
  | nil => rfl
  | cons e' rest ih => rw [List.foldl_cons, ih, maxPriced_toPriceEntry, List.map_cons, List.foldl_cons]

/-- The table with the prices and the one without give the same entry. -/
theorem entry_toPriceEntry (table : List PricedEntry) (model : String) (prompt : ℕ) :
    (entry table model prompt).map PricedEntry.toPriceEntry =
      Wire.entry (table.map PricedEntry.toPriceEntry) model prompt := by
  unfold entry Wire.entry
  dsimp only
  rw [List.filter_map]
  have hmatch : (fun e : PriceEntry => matchesPrefix (normalizeModel model.toList) e.model.toList) ∘
      PricedEntry.toPriceEntry = fun e => matchesPrefix (normalizeModel model.toList) e.model.toList := rfl
  rw [hmatch]
  generalize table.filter (fun e => matchesPrefix (normalizeModel model.toList) e.model.toList) = found
  rw [List.map_map]
  have hsizes : (fun e : PriceEntry => e.model.utf8ByteSize) ∘ PricedEntry.toPriceEntry =
      fun e => e.model.utf8ByteSize := rfl
  rw [hsizes]
  cases (found.map fun e => e.model.utf8ByteSize).max? with
  | none => rfl
  | some longest =>
    dsimp only [Option.bind_eq_bind, Option.bind_some]
    rw [List.filter_map]
    have hreach : (fun e : PriceEntry => decide (e.model.utf8ByteSize = longest ∧
        (e.abovePromptTokens.all fun t => decide (t < prompt)) = true)) ∘ PricedEntry.toPriceEntry =
          fun e => decide (e.model.utf8ByteSize = longest ∧ (e.abovePromptTokens.all fun t => decide (t < prompt)) = true) := rfl
    rw [hreach]
    cases found.filter fun e => decide (e.model.utf8ByteSize = longest ∧
        (e.abovePromptTokens.all fun t => decide (t < prompt)) = true) with
    | nil => rfl
    | cons e rest => exact congrArg some (foldl_maxPriced_toPriceEntry e rest)

theorem longPrompt_eq (table : List PricedEntry) (model : String) (prompt : ℕ) :
    longPrompt (table.map PricedEntry.toPriceEntry) model prompt =
      (inReach table model prompt).any fun e => e.abovePromptTokens.isSome := by
  rw [longPrompt, ← entry_toPriceEntry, Option.any_map, entry_eq]
  exact any_highest _

theorem inReach_congr {prompt' : ℕ}
    (h : ∀ e ∈ longestEntries table model, ∀ t ∈ e.abovePromptTokens, t < prompt ↔ t < prompt') :
    inReach table model prompt = inReach table model prompt' := by
  refine List.filter_congr fun e he => ?_
  cases ht : e.abovePromptTokens with
  | none => rfl
  | some t => exact decide_eq_decide.mpr (h e he t ht)

/-- A long prompt is priced as the longest one. -/
theorem inReach_of_long (hone : OneThreshold table) (hprompt : prompt < 2 ^ 64)
    (hlong : longPrompt (table.map PricedEntry.toPriceEntry) model prompt = true) :
    inReach table model (2 ^ 64 - 1) = inReach table model prompt := by
  rw [longPrompt_eq, List.any_eq_true] at hlong
  obtain ⟨e, he, hsome⟩ := hlong
  obtain ⟨t, ht⟩ := Option.isSome_iff_exists.mp hsome
  obtain ⟨hmem, hreach⟩ := List.mem_filter.mp he
  have hlt : t < prompt := by
    rw [ht] at hreach
    exact of_decide_eq_true hreach
  -- every other threshold of the model is the same one
  refine inReach_congr fun e' he' t' ht' => ?_
  obtain ⟨htable, htable', hmodel⟩ := longestEntries_model hmem he'
  obtain rfl : t = t' := hone e htable e' htable' hmodel t ht t' ht'
  exact iff_of_true (by omega) hlt

/-- A short prompt is priced as the empty one. -/
theorem inReach_of_short (hshort : longPrompt (table.map PricedEntry.toPriceEntry) model prompt = false) :
    inReach table model 0 = inReach table model prompt := by
  refine inReach_congr fun e he t ht => iff_of_false (Nat.not_lt_zero t) fun hlt => ?_
  rw [longPrompt_eq, List.any_eq_false] at hshort
  refine hshort e (List.mem_filter.mpr ⟨he, ?_⟩) ?_
  · rw [ht]
    exact decide_eq_true hlt
  · rw [ht]
    rfl

end PriceTable

/-- Prompt sizes with the same entries in reach have the same price. -/
theorem resolvePrice_congr {table : List PricedEntry} {model : String} {prompt prompt' : ℕ}
    (h : PriceTable.inReach table model prompt = PriceTable.inReach table model prompt')
    (overrides : SortedMap String PriceOverride) (rates : BillingRates) :
    resolvePrice table overrides rates model prompt = resolvePrice table overrides rates model prompt' := by
  unfold resolvePrice
  split
  · rfl
  · rw [PriceTable.lookup, PriceTable.lookup, PriceTable.entry_eq, PriceTable.entry_eq, h]

end Ralph.Wire
