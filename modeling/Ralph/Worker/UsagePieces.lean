import Mathlib.Data.List.DropRight
import Mathlib.Data.Nat.ModEq
import Ralph.Worker.TranscriptUsage

namespace Ralph.Worker
open Wire

/-- The counts of a row that a later call adds to. -/
inductive UsageKind
  | input
  | cacheRead
  | cacheWrite (tier : CacheTier)
  | output
  | reasoning
  deriving DecidableEq

def tierTokens (tier : CacheTier) (writes : List CacheWrite) : ℕ :=
  ((writes.filter fun write => write.tier = tier).map CacheWrite.tokens).sum

def UsageKind.tokens : UsageKind → Usage → ℕ
  | input, usage => usage.inputUncached
  | cacheRead, usage => usage.cacheRead
  | cacheWrite tier, usage => tierTokens tier usage.cacheWrites
  | output, usage => usage.output
  | reasoning, usage => usage.reasoning.getD 0

theorem addWrap_modEq (a b : ℕ) : addWrap a b ≡ a + b [MOD 2 ^ 64] := Nat.mod_modEq _ _

theorem tierTokens_addWrite (tier : CacheTier) (writes : List CacheWrite) (write : CacheWrite) :
    tierTokens tier (addWrite writes write) ≡
      tierTokens tier writes + tierTokens tier [write] [MOD 2 ^ 64] := by
  induction writes with
  | nil => simp [addWrite, tierTokens]; rfl
  | cons w writes ih =>
    rw [addWrite]
    split_ifs with hsame
    · by_cases htier : w.tier = tier
      · have hwrite : write.tier = tier := hsame ▸ htier
        have hsum := (addWrap_modEq w.tokens write.tokens).add_right (tierTokens tier writes)
        simpa [tierTokens, htier, hwrite, Nat.add_right_comm] using hsum
      · have hwrite : write.tier ≠ tier := hsame ▸ htier
        simp [tierTokens, htier, hwrite]
        rfl
    · have hcons : ∀ ws, tierTokens tier (w :: ws) = tierTokens tier [w] + tierTokens tier ws := by
        intro ws
        by_cases htier : w.tier = tier <;> simp [tierTokens, htier]
      rw [hcons, hcons writes, Nat.add_assoc]
      exact ih.add_left _

theorem tokens_addUsage (kind : UsageKind) (total part : Usage) :
    kind.tokens (addUsage total part) ≡ kind.tokens total + kind.tokens part [MOD 2 ^ 64] := by
  cases kind with
  | input => exact addWrap_modEq _ _
  | cacheRead => exact addWrap_modEq _ _
  | output => exact addWrap_modEq _ _
  | reasoning =>
    show (addReasoning total.reasoning part.reasoning).getD 0 ≡ _ [MOD 2 ^ 64]
    unfold addReasoning
    split
    · next h h' =>
      simp only [UsageKind.tokens, h, h']
      rfl
    · exact addWrap_modEq _ _
  | cacheWrite tier =>
    show tierTokens tier (part.cacheWrites.foldl addWrite total.cacheWrites) ≡
      tierTokens tier total.cacheWrites + tierTokens tier part.cacheWrites [MOD 2 ^ 64]
    generalize total.cacheWrites = writes
    induction part.cacheWrites generalizing writes with
    | nil => simp [tierTokens]; rfl
    | cons write rest ih =>
      have hcons : tierTokens tier (write :: rest) = tierTokens tier [write] + tierTokens tier rest := by
        by_cases htier : write.tier = tier <;> simp [tierTokens, htier]
      rw [List.foldl_cons, hcons, ← Nat.add_assoc]
      exact (ih _).trans ((tierTokens_addWrite tier writes write).add_right _)

theorem tokens_of_empty (kind : UsageKind) {usage : Usage} (h : usageIsEmpty usage = true) :
    kind.tokens usage = 0 := by
  simp only [usageIsEmpty, Bool.and_eq_true, decide_eq_true_iff, List.all_eq_true] at h
  obtain ⟨⟨⟨⟨⟨hinput, hread⟩, hout⟩, hreasoning⟩, hwrites⟩, -⟩ := h
  cases kind with
  | input => exact hinput
  | cacheRead => exact hread
  | output => exact hout
  | reasoning => exact hreasoning
  | cacheWrite tier =>
    apply List.sum_eq_zero
    intro tokens htokens
    obtain ⟨write, hwrite, rfl⟩ := List.mem_map.mp htokens
    exact hwrites write (List.mem_of_mem_filter hwrite)

/-- The counts of the rows of a model, with long prompts or without. -/
def rowTokens (model : String) (long : Bool) (kind : UsageKind) (rows : List ModelUsage) : ℕ :=
  ((rows.filter fun row => row.model = model ∧ row.longPrompt = long).map fun row =>
    kind.tokens row.usage).sum

section Call

variable (env : UsageEnv) (seen : List String) (key : RowKey) (kind : UsageKind)

/-- What a finished message adds to the counts of a row. -/
def weight : Option (String × Usage) → ℕ
  | none => 0
  | some (model, part) =>
    if model = syntheticModel then 0 else if rowKey env model part = key then kind.tokens part else 0

/-- The message is recorded by the call. -/
def Counts (e : String × JsonValue) : Prop := (finishedUsage e.2).isSome ∧ e.1 ∉ seen

instance : DecidablePred (Counts seen) := fun _ => inferInstanceAs (Decidable (_ ∧ _))

def Counted.total (s : Counted) : ℕ := ((s.byModel.lookup key).map kind.tokens).getD 0

theorem countMessage_recorded (s : Counted) (e : String × JsonValue) :
    (countMessage env seen s e).recorded = s.recorded ++ if Counts seen e then [e.1] else [] := by
  unfold countMessage
  cases hfinished : finishedUsage e.2 with
  | none =>
    rw [if_neg fun h => by simp [Counts, hfinished] at h, List.append_nil]
  | some part =>
    obtain ⟨model, part⟩ := part
    dsimp only
    by_cases hseen : e.1 ∈ seen
    · rw [if_pos hseen, if_neg fun h => h.2 hseen, List.append_nil]
    · have hcounts : Counts seen e := ⟨by rw [hfinished]; rfl, hseen⟩
      rw [if_neg hseen, if_pos hcounts]
      split_ifs <;> rfl

/-- One message adds its own counts to its row and nothing to the others. -/
theorem countMessage_total (s : Counted) (e : String × JsonValue) :
    (countMessage env seen s e).total key kind ≡
      s.total key kind + (if Counts seen e then weight env key kind (finishedUsage e.2) else 0)
        [MOD 2 ^ 64] := by
  unfold countMessage
  cases hfinished : finishedUsage e.2 with
  | none =>
    rw [if_neg fun h => by simp [Counts, hfinished] at h]
    rfl
  | some part =>
    obtain ⟨model, part⟩ := part
    dsimp only
    by_cases hseen : e.1 ∈ seen
    · rw [if_pos hseen, if_neg fun h => h.2 hseen]
      rfl
    · have hcounts : Counts seen e := ⟨by rw [hfinished]; rfl, hseen⟩
      rw [if_neg hseen, if_pos hcounts]
      by_cases hskip : model = syntheticModel ∨ usageIsEmpty part = true
      · have hzero : weight env key kind (some (model, part)) = 0 := by
          obtain hskip | hskip := hskip
          · rw [weight, if_pos hskip]
          · rw [weight, tokens_of_empty kind hskip, ite_self, ite_self]
        rw [if_pos hskip, hzero]
        rfl
      · rw [if_neg hskip]
        rw [not_or] at hskip
        rw [weight, if_neg hskip.1, Counted.total, Counted.total, SortedMap.lookup_insert]
        by_cases hkey : key = rowKey env model part
        · rw [if_pos hkey, if_pos hkey.symm, ← hkey]
          cases s.byModel.lookup key with
          | none =>
            simp only [Option.map_some, Option.map_none, Option.getD_some, Option.getD_none, Nat.zero_add]
            rfl
          | some total => exact tokens_addUsage kind total part
        · rw [if_neg hkey, if_neg (Ne.symm hkey)]
          rfl

theorem foldl_countMessage (es : List (String × JsonValue)) (s : Counted) :
    (es.foldl (countMessage env seen) s).recorded = s.recorded ++ (es.filter (Counts seen)).map Prod.fst ∧
      (es.foldl (countMessage env seen) s).total key kind ≡ s.total key kind +
        ((es.filter (Counts seen)).map fun e => weight env key kind (finishedUsage e.2)).sum
          [MOD 2 ^ 64] := by
  induction es generalizing s with
  | nil => exact ⟨(List.append_nil _).symm, rfl⟩
  | cons e es ih =>
    obtain ⟨hrecorded, htotal⟩ := ih (countMessage env seen s e)
    rw [countMessage_recorded] at hrecorded
    have hstep := countMessage_total env seen key kind s e
    rw [List.foldl_cons]
    by_cases hcounts : Counts seen e
    · rw [if_pos hcounts] at hrecorded hstep
      rw [List.filter_cons_of_pos (by simpa using hcounts), List.map_cons, List.map_cons, List.sum_cons,
        ← Nat.add_assoc]
      rw [List.append_assoc, List.singleton_append] at hrecorded
      exact ⟨hrecorded, htotal.trans (hstep.add_right _)⟩
    · rw [if_neg hcounts] at hrecorded hstep
      rw [List.filter_cons_of_neg (by simpa using hcounts)]
      rw [List.append_nil] at hrecorded
      exact ⟨hrecorded, htotal.trans (hstep.add_right _)⟩

end Call

/-- The usage of the last message of an id, once it is finished. -/
def usageAt (found : List (String × JsonValue)) (id : String) : Option (String × Usage) :=
  ((latest found).lookup id).bind finishedUsage

/-- The messages that a call records. -/
def newMessages (env : UsageEnv) (text : String) (seen : List String) : List (String × JsonValue) :=
  (latest (messages env text)).entries.filter (Counts seen)

theorem transcriptUsage_recorded (env : UsageEnv) (text : String) (seen : List String) :
    (transcriptUsage env text seen).recorded = (newMessages env text seen).map Prod.fst :=
  (foldl_countMessage env seen (toLex ("", false)) .input (latest (messages env text)).entries .start).1

theorem usageAt_of_mem {env : UsageEnv} {text : String} {e : String × JsonValue}
    (h : e ∈ (latest (messages env text)).entries) :
    usageAt (messages env text) e.1 = finishedUsage e.2 := by
  rw [usageAt, (SortedMap.mem_entries _).mp h]
  rfl

theorem nodup_recorded (env : UsageEnv) (text : String) (seen : List String) :
    (transcriptUsage env text seen).recorded.Nodup := by
  rw [transcriptUsage_recorded]
  exact (SortedMap.nodup_keys _).sublist (List.filter_sublist.map Prod.fst)

theorem mem_recorded (env : UsageEnv) (text : String) (seen : List String) (id : String) :
    id ∈ (transcriptUsage env text seen).recorded ↔
      (usageAt (messages env text) id).isSome ∧ id ∉ seen := by
  rw [transcriptUsage_recorded, newMessages, List.mem_map]
  constructor
  · rintro ⟨e, he, rfl⟩
    rw [List.mem_filter, decide_eq_true_iff] at he
    rw [usageAt_of_mem he.1]
    exact he.2
  · rintro ⟨hfinished, hseen⟩
    obtain ⟨part, hpart⟩ := Option.isSome_iff_exists.mp hfinished
    obtain ⟨message, hlookup, hmessage⟩ := Option.bind_eq_some_iff.mp hpart
    refine ⟨(id, message), ?_, rfl⟩
    rw [List.mem_filter, decide_eq_true_iff]
    exact ⟨(SortedMap.mem_entries _).mpr hlookup, by rw [hmessage]; rfl, hseen⟩

/-- A key has at most one row. -/
theorem filter_rows (byModel : SortedMap RowKey Usage) (model : String) (long : Bool) :
    ((byModel.entries.map fun (key, usage) => ModelUsage.mk (ofLex key).1 usage (ofLex key).2).filter
      fun row => row.model = model ∧ row.longPrompt = long) =
        (byModel.lookup (toLex (model, long))).toList.map fun usage => ⟨model, usage, long⟩ := by
  rw [List.filter_map]
  have hkey : (fun row : ModelUsage => decide (row.model = model ∧ row.longPrompt = long)) ∘
      (fun e : RowKey × Usage => ModelUsage.mk (ofLex e.1).1 e.2 (ofLex e.1).2) =
        fun e => decide (e.1 = toLex (model, long)) := by
    ext e
    obtain ⟨k, usage⟩ := e
    simp [← ofLex_inj, Prod.ext_iff]
  rw [hkey, SortedMap.filter_key, List.map_map]
  rfl

theorem rowTokens_transcriptUsage (env : UsageEnv) (text : String) (seen : List String) (model : String)
    (long : Bool) (kind : UsageKind) :
    rowTokens model long kind (transcriptUsage env text seen).rows ≡
      ((transcriptUsage env text seen).recorded.map fun id =>
        weight env (toLex (model, long)) kind (usageAt (messages env text) id)).sum [MOD 2 ^ 64] := by
  have htotal := (foldl_countMessage env seen (toLex (model, long)) kind
    (latest (messages env text)).entries .start).2
  have hweights : (transcriptUsage env text seen).recorded.map
      (fun id => weight env (toLex (model, long)) kind (usageAt (messages env text) id)) =
        (newMessages env text seen).map fun e => weight env (toLex (model, long)) kind (finishedUsage e.2) := by
    rw [transcriptUsage_recorded, List.map_map]
    apply List.map_congr_left
    intro e he
    rw [Function.comp_apply, usageAt_of_mem (List.mem_of_mem_filter he)]
  have hrows : rowTokens model long kind (transcriptUsage env text seen).rows =
      ((latest (messages env text)).entries.foldl (countMessage env seen) .start).total
        (toLex (model, long)) kind := by
    rw [Counted.total, rowTokens, transcriptUsage, filter_rows, List.map_map]
    cases ((latest (messages env text)).entries.foldl (countMessage env seen) .start).byModel.lookup
      (toLex (model, long)) <;> simp
  rw [hrows, hweights]
  have hstart : Counted.start.total (toLex (model, long)) kind = 0 := rfl
  rw [hstart, Nat.zero_add] at htotal
  exact htotal

/-- From the first finished message of an id on, all are finished with the same model and usage. -/
def Steady (found : List (String × JsonValue)) : Prop :=
  found.Pairwise fun e e' => e.1 = e'.1 → (finishedUsage e.2).isSome → finishedUsage e'.2 = finishedUsage e.2

def Finished (found : List (String × JsonValue)) (id : String) : Prop :=
  ∃ e ∈ found, e.1 = id ∧ (finishedUsage e.2).isSome

theorem latest_concat (found : List (String × JsonValue)) (e : String × JsonValue) :
    latest (found ++ [e]) = (latest found).insert e.1 e.2 := by
  rw [latest, List.foldl_append]
  rfl

theorem usageAt_concat (found : List (String × JsonValue)) (e : String × JsonValue) (id : String) :
    usageAt (found ++ [e]) id = if id = e.1 then finishedUsage e.2 else usageAt found id := by
  rw [usageAt, latest_concat, SortedMap.lookup_insert]
  split_ifs <;> rfl

/-- The last message of an id is as finished as any of them. -/
theorem usageAt_eq {found : List (String × JsonValue)} (h : Steady found) {e : String × JsonValue}
    (he : e ∈ found) (hfinished : (finishedUsage e.2).isSome) : usageAt found e.1 = finishedUsage e.2 := by
  induction found using List.reverseRecOn with
  | nil => cases he
  | append_singleton found last ih =>
    rw [Steady, List.pairwise_append] at h
    rw [usageAt_concat]
    split_ifs with hid
    · obtain he | he := List.mem_append.mp he
      · exact h.2.2 e he last (List.mem_singleton_self _) hid hfinished
      · rw [List.mem_singleton.mp he]
    · obtain he | he := List.mem_append.mp he
      · exact ih h.1 he
      · exact absurd (congrArg Prod.fst (List.mem_singleton.mp he)) hid

theorem exists_of_usageAt {found : List (String × JsonValue)} {id : String} {part : String × Usage}
    (h : usageAt found id = some part) : ∃ e ∈ found, e.1 = id ∧ finishedUsage e.2 = some part := by
  induction found using List.reverseRecOn with
  | nil => cases h
  | append_singleton found last ih =>
    rw [usageAt_concat] at h
    split_ifs at h with hid
    · exact ⟨last, List.mem_append_right _ (List.mem_singleton_self _), hid.symm, h⟩
    · obtain ⟨e, he, heq⟩ := ih h
      exact ⟨e, List.mem_append_left _ he, heq⟩

theorem isSome_usageAt {found : List (String × JsonValue)} (h : Steady found) (id : String) :
    (usageAt found id).isSome ↔ Finished found id := by
  constructor
  · intro hsome
    obtain ⟨part, hpart⟩ := Option.isSome_iff_exists.mp hsome
    obtain ⟨e, he, hid, hfinished⟩ := exists_of_usageAt hpart
    exact ⟨e, he, hid, by rw [hfinished]; rfl⟩
  · rintro ⟨e, he, rfl, hfinished⟩
    rw [usageAt_eq h he hfinished]
    exact hfinished

/-- What the first messages say of an id stands in all of them. -/
theorem usageAt_mono {found all : List (String × JsonValue)} (hall : Steady all) (h : found <+: all)
    {id : String} (hsome : (usageAt found id).isSome) : usageAt all id = usageAt found id := by
  obtain ⟨part, hpart⟩ := Option.isSome_iff_exists.mp hsome
  obtain ⟨e, he, rfl, hfinished⟩ := exists_of_usageAt hpart
  rw [hpart, usageAt_eq hall (h.subset he) (by rw [hfinished]; rfl), hfinished]

/-- Each call gets the ids that the calls in front of it recorded. -/
def readPieces (env : UsageEnv) (seen : List String) : List String → List TranscriptUsage
  | [] => []
  | piece :: pieces =>
    let found := transcriptUsage env piece seen
    found :: readPieces env (seen ++ found.recorded) pieces

def recordedOf (found : List TranscriptUsage) : List String := found.flatMap TranscriptUsage.recorded

def rowsOf (found : List TranscriptUsage) : List ModelUsage := found.flatMap TranscriptUsage.rows

theorem rowTokens_append (model : String) (long : Bool) (kind : UsageKind) (a b : List ModelUsage) :
    rowTokens model long kind (a ++ b) = rowTokens model long kind a + rowTokens model long kind b := by
  simp [rowTokens]

theorem readPieces_spec (env : UsageEnv) {all : List (String × JsonValue)} (hall : Steady all)
    (seen : List String) {pieces : List String} (h : ∀ piece ∈ pieces, messages env piece <+: all) :
    (recordedOf (readPieces env seen pieces)).Nodup ∧
      (∀ id, id ∈ recordedOf (readPieces env seen pieces) ↔
        (∃ piece ∈ pieces, (usageAt (messages env piece) id).isSome) ∧ id ∉ seen) ∧
      ∀ model long kind, rowTokens model long kind (rowsOf (readPieces env seen pieces)) ≡
        ((recordedOf (readPieces env seen pieces)).map fun id =>
          weight env (toLex (model, long)) kind (usageAt all id)).sum [MOD 2 ^ 64] := by
  induction pieces generalizing seen with
  | nil =>
    refine ⟨List.nodup_nil, ?_, fun model long kind => rfl⟩
    simp [readPieces, recordedOf]
  | cons piece pieces ih =>
    rw [List.forall_mem_cons] at h
    obtain ⟨hnodup, hmem, htokens⟩ := ih (seen ++ (transcriptUsage env piece seen).recorded) h.2
    have hfirst := mem_recorded env piece seen
    rw [readPieces, recordedOf, List.flatMap_cons, ← recordedOf]
    refine ⟨?_, ?_, ?_⟩
    · rw [List.nodup_append]
      refine ⟨nodup_recorded env piece seen, hnodup, ?_⟩
      rintro id hid _ hid' rfl
      exact ((hmem id).mp hid').2 (List.mem_append_right _ hid)
    · intro id
      rw [List.mem_append, hfirst, hmem, List.exists_mem_cons_iff, List.mem_append, not_or, hfirst]
      tauto
    · intro model long kind
      rw [rowsOf, List.flatMap_cons, ← rowsOf, rowTokens_append, List.map_append, List.sum_append]
      have hweights : (transcriptUsage env piece seen).recorded.map
          (fun id => weight env (toLex (model, long)) kind (usageAt (messages env piece) id)) =
            (transcriptUsage env piece seen).recorded.map fun id =>
              weight env (toLex (model, long)) kind (usageAt all id) := by
        apply List.map_congr_left
        intro id hid
        rw [usageAt_mono hall h.1 ((hfirst id).mp hid).1]
      have htokens' := rowTokens_transcriptUsage env piece seen model long kind
      rw [hweights] at htokens'
      exact htokens'.add (htokens model long kind)

/-- How `serde_json` reads a line: a carriage return behind a value is whitespace, and only whitespace may
follow an object. -/
structure JsonLines (read : String → Option JsonValue) : Prop where
  empty : read "" = none
  carriage : ∀ line, read (line ++ "\r") = read line
  ends : ∀ a b v w, read a = some v → v.isObject → read (a ++ b) = some w → w = v

/-- No line goes on behind an object that it starts with. -/
def Unbroken (read : String → Option JsonValue) (text : String) : Prop :=
  ∀ line ∈ Text.lines text, ∀ a, a <+: line.toList → ∀ v, read (String.ofList a) = some v → v.isObject →
    (read line).isSome

theorem isObject_of_messageOf {v : JsonValue} {e : String × JsonValue} (h : messageOf v = some e) :
    v.isObject := by
  cases v with
  | object members => rfl
  | _ => cases h

section Cut

variable {env : UsageEnv} (hread : JsonLines env.read)

include hread

theorem read_chomp (line : String) : env.read (Text.chomp line) = env.read line := by
  unfold Text.chomp
  split_ifs with hcr
  · obtain ⟨cs, hcs⟩ := List.getLast?_eq_some_iff.mp hcr
    have hline : line = Text.pop line ++ "\r" := by
      rw [Text.pop, hcs, List.dropLast_concat, ← String.toList_inj, hcs]
      simp
    conv_rhs => rw [hline]
    exact (hread.carriage _).symm
  · rfl

theorem messages_eq (text : String) : messages env text =
    (Text.parts text).filterMap fun p => (env.read (String.ofList p)).bind messageOf := by
  rw [messages, Text.lines_eq]
  apply Text.filterMap_ended
  · intro line
    rw [read_chomp hread]
  · rw [hread.empty]
    rfl

/-- What a cut line reads as, the whole line does. -/
theorem read_part {text : String} (htext : Unbroken env.read text) {cut rest : List Char}
    (hpart : cut ++ rest ∈ Text.parts text) {v : JsonValue} (hv : env.read (String.ofList cut) = some v)
    (hobject : v.isObject) : env.read (String.ofList (cut ++ rest)) = some v := by
  have hsome : (env.read (String.ofList (cut ++ rest))).isSome := by
    have hne : cut ++ rest ≠ [] := by
      intro hnil
      rw [(List.append_eq_nil_iff.mp hnil).1] at hv
      exact absurd (hread.empty.symm.trans hv) (by simp)
    obtain hline | hline := Text.mem_lines_of_mem_parts hpart hne
    · exact htext _ hline cut (by simp) v hv hobject
    · rw [← read_chomp hread]
      unfold Text.chomp at hline ⊢
      split_ifs at hline ⊢ with hcr
      · obtain ⟨cs, hcs⟩ := List.getLast?_eq_some_iff.mp hcr
        rw [String.toList_ofList] at hcs
        rw [Text.pop, String.toList_ofList, hcs, List.dropLast_concat] at hline ⊢
        obtain hcut | hcut := List.prefix_concat_iff.mp (hcs ▸ List.prefix_append cut rest)
        · have hv' : env.read (String.ofList cs) = some v := by
            rw [← hread.carriage, ← hv, hcut, String.ofList_append]
          rw [hv']
          rfl
        · exact htext _ hline cut (by simpa using hcut) v hv hobject
      · exact htext _ hline cut (by simp) v hv hobject
  obtain ⟨w, hw⟩ := Option.isSome_iff_exists.mp hsome
  rw [hw]
  rw [String.ofList_append] at hw
  rw [hread.ends _ _ v w hv hobject hw]

/-- The messages of a cut text are the first ones of the whole. -/
theorem messages_prefix {text piece : String} (htext : Unbroken env.read text)
    (hpiece : piece.toList <+: text.toList) : messages env piece <+: messages env text := by
  obtain ⟨tail, htail⟩ := hpiece
  obtain ⟨init, last, first, rest, hlast, -, hparts⟩ :=
    Text.exists_parts_append piece (String.ofList tail)
  have hall : piece ++ String.ofList tail = text := by
    rw [← String.toList_inj, String.toList_append, String.toList_ofList, htail]
  rw [hall] at hparts
  rw [messages_eq hread, messages_eq hread, hlast, hparts, List.filterMap_append, List.filterMap_append]
  apply List.prefix_append_right_inj _ |>.mpr
  rw [List.filterMap_cons, List.filterMap_cons, List.filterMap_nil]
  cases hmessage : (env.read (String.ofList last)).bind messageOf with
  | none => exact List.nil_prefix
  | some e =>
    obtain ⟨v, hv, hve⟩ := Option.bind_eq_some_iff.mp hmessage
    have hmem : last ++ first ∈ Text.parts text := by
      rw [hparts]
      exact List.mem_append_right _ List.mem_cons_self
    rw [read_part hread htext hmem hv (isObject_of_messageOf hve), Option.bind_some, hve]
    exact List.cons_prefix_cons.mpr ⟨rfl, List.nil_prefix⟩

end Cut

/-- A transcript that is read whenever it has grown is counted as if it were read once. -/
theorem pieces_eq_once {env : UsageEnv} (hread : JsonLines env.read) {text : String}
    (htext : Unbroken env.read text) (hsteady : Steady (messages env text)) {pieces : List String}
    (hpieces : (pieces.map String.toList).Pairwise (· <+: ·)) (hlast : pieces.getLast? = some text) :
    (recordedOf (readPieces env [] pieces)).Nodup ∧
      (∀ id, id ∈ recordedOf (readPieces env [] pieces) ↔ Finished (messages env text) id) ∧
      ∀ model long kind, rowTokens model long kind (rowsOf (readPieces env [] pieces)) ≡
        rowTokens model long kind (transcriptUsage env text []).rows [MOD 2 ^ 64] := by
  obtain ⟨init, rfl⟩ := List.getLast?_eq_some_iff.mp hlast
  rw [List.map_append, List.pairwise_append] at hpieces
  have hpre : ∀ piece ∈ init ++ [text], messages env piece <+: messages env text := by
    intro piece hpiece
    apply messages_prefix hread htext
    obtain hpiece | hpiece := List.mem_append.mp hpiece
    · exact hpieces.2.2 _ (List.mem_map_of_mem hpiece) _ (List.mem_singleton_self _)
    · rw [List.mem_singleton.mp hpiece]
  obtain ⟨hnodup, hmem, htokens⟩ := readPieces_spec env hsteady [] hpre
  have hfinished : ∀ id, id ∈ recordedOf (readPieces env [] (init ++ [text])) ↔
      Finished (messages env text) id := by
    intro id
    rw [hmem, ← isSome_usageAt hsteady]
    constructor
    · rintro ⟨⟨piece, hpiece, hsome⟩, -⟩
      rw [usageAt_mono hsteady (hpre piece hpiece) hsome]
      exact hsome
    · intro hsome
      exact ⟨⟨text, List.mem_append_right _ (List.mem_singleton_self _), hsome⟩, List.not_mem_nil⟩
  refine ⟨hnodup, hfinished, ?_⟩
  intro model long kind
  -- both record the same ids, and each id counts as what the whole text says of it
  have hperm : (recordedOf (readPieces env [] (init ++ [text]))).Perm
      (transcriptUsage env text []).recorded := by
    rw [List.perm_ext_iff_of_nodup hnodup (nodup_recorded env text [])]
    intro id
    rw [hfinished, mem_recorded, isSome_usageAt hsteady]
    exact (and_iff_left List.not_mem_nil).symm
  refine (htokens model long kind).trans ?_
  rw [(hperm.map fun id => weight env (toLex (model, long)) kind (usageAt (messages env text) id)).sum_eq]
  exact (rowTokens_transcriptUsage env text [] model long kind).symm

/-- A reader of the lines in a table. -/
def tableRead (table : List (String × JsonValue)) (line : String) : Option JsonValue :=
  table.lookup (String.ofList (line.toList.rdropWhile (· = '\r')))

theorem mem_of_tableRead {table : List (String × JsonValue)} {line : String} {v : JsonValue}
    (h : tableRead table line = some v) :
    ∃ key, (key, v) ∈ table ∧ key.toList <+: line.toList ∧ table.lookup key = some v := by
  refine ⟨_, ?_, ?_, h⟩
  · obtain ⟨before, after, htable, -⟩ := List.lookup_eq_some_iff.mp h
    rw [htable]
    exact List.mem_append_right _ List.mem_cons_self
  · rw [String.toList_ofList]
    exact List.rdropWhile_prefix _ _

/-- Lines of which none starts another are read as `serde_json` reads them. -/
theorem tableRead_lines {table : List (String × JsonValue)} (hempty : ∀ e ∈ table, e.1 ≠ "")
    (hapart : ∀ e ∈ table, ∀ e' ∈ table, e.1.toList <+: e'.1.toList → e.1 = e'.1) :
    JsonLines (tableRead table) where
  empty := by
    rw [Option.eq_none_iff_forall_ne_some]
    intro v hv
    obtain ⟨key, hmem, hkey, -⟩ := mem_of_tableRead hv
    have hnil : key.toList = [] := List.prefix_nil.mp hkey
    exact hempty _ hmem (by rw [← String.toList_inj, hnil]; rfl)
  carriage := by
    intro line
    have hline : (line ++ "\r").toList = line.toList ++ ['\r'] := by simp
    rw [tableRead, tableRead, hline, List.rdropWhile_concat_pos _ _ _ (by simp)]
  ends := by
    intro a b v w hv _ hw
    obtain ⟨key, hmem, hkey, hlookup⟩ := mem_of_tableRead hv
    obtain ⟨key', hmem', hkey', hlookup'⟩ := mem_of_tableRead hw
    have hlonger : key.toList <+: (a ++ b).toList := by
      rw [String.toList_append]
      exact hkey.trans (List.prefix_append _ _)
    have hsame : key = key' := by
      obtain h | h := List.prefix_or_prefix_of_prefix hlonger hkey'
      · exact hapart _ hmem _ hmem' h
      · exact (hapart _ hmem' _ hmem h).symm
    rw [hsame, hlookup'] at hlookup
    exact Option.some.inj hlookup

theorem tableRead_self {table : List (String × JsonValue)} {line : String}
    (h : ∀ c ∈ line.toList, c ≠ '\n' ∧ c ≠ '\r') : tableRead table line = table.lookup line := by
  have hkept : line.toList.rdropWhile (· = '\r') = line.toList := by
    rw [List.rdropWhile_eq_self_iff]
    intro hne
    simpa using (h _ (List.getLast_mem hne)).2
  rw [tableRead, hkept, String.ofList_toList]

theorem lines_line {line : String} (h : ∀ c ∈ line.toList, c ≠ '\n' ∧ c ≠ '\r') (hne : line ≠ "") :
    Text.lines line = [line] ∧ Text.chomp line = line := by
  have hline : Text.OneLine line := fun hmem => (h _ hmem).1 rfl
  constructor
  · rw [Text.lines_eq, Text.parts_of_notMem hline]
    simp [Text.ended, hne]
  · rw [Text.chomp, if_neg]
    intro hlast
    exact (h _ (List.mem_of_getLast? hlast)).2 rfl

theorem unbroken_of_read {read : String → Option JsonValue} {text : String}
    (h : ∀ line ∈ Text.lines text, (read line).isSome) : Unbroken read text :=
  fun line hline _ _ _ _ _ => h line hline

section Lines

variable {env : UsageEnv} (hread : JsonLines env.read)

include hread

theorem messages_newline (a b : String) :
    messages env (a ++ "\n" ++ b) = messages env a ++ messages env b := by
  rw [messages_eq hread, messages_eq hread, messages_eq hread, Text.parts_newline, List.filterMap_append]

theorem messages_line {line : String} (h : ∀ c ∈ line.toList, c ≠ '\n' ∧ c ≠ '\r') :
    messages env line = ((env.read line).bind messageOf).toList := by
  have hline : Text.OneLine line := fun hmem => (h _ hmem).1 rfl
  rw [messages_eq hread, Text.parts_of_notMem hline]
  simp [Option.toList, List.filterMap_cons]
  cases (env.read line).bind messageOf <;> rfl

end Lines

def runningLine : String :=
  "\x7b\"type\":\"assistant\",\"message\":\x7b\"id\":\"m\",\"model\":\"opus\",\"stop_reason\":null,\"usage\":\x7b\"output_tokens\":5\x7d\x7d\x7d"

def stoppedLine : String :=
  "\x7b\"type\":\"assistant\",\"message\":\x7b\"id\":\"m\",\"model\":\"opus\",\"stop_reason\":\"end\",\"usage\":\x7b\"output_tokens\":5\x7d\x7d\x7d"

def otherLine : String :=
  "\x7b\"type\":\"assistant\",\"message\":\x7b\"id\":\"n\",\"model\":\"haiku\",\"stop_reason\":\"end\",\"usage\":\x7b\"output_tokens\":7\x7d\x7d\x7d"

def messageValue (stop : JsonValue) : JsonValue :=
  .object [("id", .string "m"), ("model", .string "opus"), ("stop_reason", stop),
    ("usage", .object [("output_tokens", .number "5")])]

def lineValue (stop : JsonValue) : JsonValue :=
  .object [("type", .string "assistant"), ("message", messageValue stop)]

def otherMessage : JsonValue :=
  .object [("id", .string "n"), ("model", .string "haiku"), ("stop_reason", .string "end"),
    ("usage", .object [("output_tokens", .number "7")])]

/-- The reader on the two lines of one message, first running and then stopped, and the line of another. -/
def linesEnv : UsageEnv where
  read := tableRead [(runningLine, lineValue .null), (stoppedLine, lineValue (.string "end")),
    (otherLine, .object [("type", .string "assistant"), ("message", otherMessage)])]
  prices := []

theorem linesEnv_read : linesEnv.read =
    tableRead [(runningLine, lineValue .null), (stoppedLine, lineValue (.string "end")),
      (otherLine, .object [("type", .string "assistant"), ("message", otherMessage)])] := rfl

theorem clean_of_all {line : String} (h : (line.toList.all fun c => c != '\n' && c != '\r') = true) :
    ∀ c ∈ line.toList, c ≠ '\n' ∧ c ≠ '\r' := by
  intro c hc
  simpa using List.all_eq_true.mp h c hc

theorem clean_lines : (∀ c ∈ runningLine.toList, c ≠ '\n' ∧ c ≠ '\r') ∧
    (∀ c ∈ stoppedLine.toList, c ≠ '\n' ∧ c ≠ '\r') ∧ ∀ c ∈ otherLine.toList, c ≠ '\n' ∧ c ≠ '\r' :=
  ⟨clean_of_all (by decide +kernel), clean_of_all (by decide +kernel), clean_of_all (by decide +kernel)⟩

theorem linesEnv_lines : JsonLines linesEnv.read := by
  apply tableRead_lines
  · decide +kernel
  · have hrunning : ¬ runningLine.toList <+: stoppedLine.toList := by decide +kernel
    have hstopped : ¬ stoppedLine.toList <+: runningLine.toList := by decide +kernel
    have hother : ¬ otherLine.toList <+: runningLine.toList ∧ ¬ otherLine.toList <+: stoppedLine.toList := by
      decide +kernel
    have hmessage : ¬ runningLine.toList <+: otherLine.toList ∧ ¬ stoppedLine.toList <+: otherLine.toList := by
      decide +kernel
    simp [hrunning, hstopped, hother, hmessage]

theorem read_lines : linesEnv.read runningLine = some (lineValue .null) ∧
    linesEnv.read stoppedLine = some (lineValue (.string "end")) ∧
    linesEnv.read otherLine = some (.object [("type", .string "assistant"), ("message", otherMessage)]) := by
  have hne : (stoppedLine == runningLine) = false := by decide +kernel
  have hother : (otherLine == runningLine) = false ∧ (otherLine == stoppedLine) = false := by decide +kernel
  refine ⟨?_, ?_, ?_⟩
  · rw [linesEnv_read, tableRead_self clean_lines.1, List.lookup_cons_self]
  · rw [linesEnv_read, tableRead_self clean_lines.2.1, List.lookup_cons, hne]
    exact List.lookup_cons_self
  · rw [linesEnv_read, tableRead_self clean_lines.2.2, List.lookup_cons, hother.1, List.lookup_cons, hother.2]
    exact List.lookup_cons_self

theorem messages_lines : messages linesEnv runningLine = [("m", messageValue .null)] ∧
    messages linesEnv stoppedLine = [("m", messageValue (.string "end"))] ∧
    messages linesEnv otherLine = [("n", otherMessage)] := by
  rw [messages_line linesEnv_lines clean_lines.1, messages_line linesEnv_lines clean_lines.2.1,
    messages_line linesEnv_lines clean_lines.2.2, read_lines.1, read_lines.2.1, read_lines.2.2]
  exact ⟨rfl, rfl, rfl⟩

def twoMessages : String := runningLine ++ "\n" ++ stoppedLine ++ "\n" ++ otherLine

/-- The second message is cut inside its line when the first one is counted. -/
def growingPieces : List String :=
  [runningLine, runningLine ++ "\n" ++ stoppedLine ++ "\n" ++ "\x7b\"type\"", twoMessages]

theorem messages_twoMessages : messages linesEnv twoMessages =
    [("m", messageValue .null), ("m", messageValue (.string "end")), ("n", otherMessage)] := by
  rw [twoMessages, messages_newline linesEnv_lines, messages_newline linesEnv_lines, messages_lines.1,
    messages_lines.2.1, messages_lines.2.2]
  rfl

theorem messages_cutPiece : messages linesEnv (runningLine ++ "\n" ++ stoppedLine ++ "\n" ++ "\x7b\"type\"") =
    [("m", messageValue .null), ("m", messageValue (.string "end"))] := by
  have hclean : ∀ c ∈ "\x7b\"type\"".toList, c ≠ '\n' ∧ c ≠ '\r' := clean_of_all (by decide)
  have hcut : linesEnv.read "\x7b\"type\"" = none := by
    rw [linesEnv_read, tableRead_self hclean]
    decide +kernel
  rw [messages_newline linesEnv_lines, messages_newline linesEnv_lines, messages_lines.1, messages_lines.2.1,
    messages_line linesEnv_lines hclean, hcut]
  rfl

theorem unbroken_twoMessages : Unbroken linesEnv.read twoMessages := by
  have hrunning : Text.OneLine runningLine := fun hmem => (clean_lines.1 _ hmem).1 rfl
  have hstopped : Text.OneLine stoppedLine := fun hmem => (clean_lines.2.1 _ hmem).1 rfl
  have hother := lines_line clean_lines.2.2 (by decide +kernel)
  have hassoc : twoMessages = runningLine ++ "\n" ++ (stoppedLine ++ "\n" ++ otherLine) := by
    simp only [twoMessages, String.append_assoc]
  apply unbroken_of_read
  rw [hassoc, Text.lines_cons hrunning, Text.lines_cons hstopped, hother.1,
    (lines_line clean_lines.1 (by decide +kernel)).2, (lines_line clean_lines.2.1 (by decide +kernel)).2]
  simp [read_lines.1, read_lines.2.1, read_lines.2.2]

theorem pieces_eq_once_cut :
    ((recordedOf (readPieces linesEnv [] growingPieces)).Nodup ∧
      (∀ id, id ∈ recordedOf (readPieces linesEnv [] growingPieces) ↔
        Finished (messages linesEnv twoMessages) id) ∧
      ∀ model long kind, rowTokens model long kind (rowsOf (readPieces linesEnv [] growingPieces)) ≡
        rowTokens model long kind (transcriptUsage linesEnv twoMessages []).rows [MOD 2 ^ 64]) ∧
      recordedOf (readPieces linesEnv [] growingPieces) = ["m", "n"] ∧
      (rowsOf (readPieces linesEnv [] growingPieces)).map (fun r => (r.model, r.usage.output)) =
        [("opus", 5), ("haiku", 7)] := by
  constructor
  · apply pieces_eq_once linesEnv_lines unbroken_twoMessages
    · rw [messages_twoMessages]
      unfold Steady
      decide +kernel
    · have hcut : "\x7b\"type\"".toList <+: otherLine.toList := by decide +kernel
      simpa [growingPieces, twoMessages] using hcut
    · rfl
  · rw [growingPieces]
    simp only [readPieces, transcriptUsage, messages_lines.1, messages_cutPiece, messages_twoMessages]
    decide +kernel

/-- The model and the usage of a message, finished or not. -/
def carriedUsage (message : JsonValue) : Option (String × Usage) := do
  let model ← (message.member? "model").bind JsonValue.asStr
  let usage ← (message.member? "usage").filter JsonValue.isObject
  return (model, Anthropic.mapUsage usage)

/-- From the first finished message of an id on, all carry the same model and usage. -/
def SameUsage (found : List (String × JsonValue)) : Prop :=
  found.Pairwise fun e e' => e.1 = e'.1 → (finishedUsage e.2).isSome → carriedUsage e'.2 = carriedUsage e.2

/-- A call that reads a finished line counts it, although the whole text has an unfinished one behind it
or goes on in the same line. -/
theorem pieces_ne_once :
    (¬ ∀ (env : UsageEnv) (text : String) (pieces : List String), JsonLines env.read →
      Unbroken env.read text → SameUsage (messages env text) →
      (pieces.map String.toList).Pairwise (· <+: ·) → pieces.getLast? = some text →
      ∀ model long kind, rowTokens model long kind (rowsOf (readPieces env [] pieces)) ≡
        rowTokens model long kind (transcriptUsage env text []).rows [MOD 2 ^ 64]) ∧
    ¬ ∀ (env : UsageEnv) (text : String) (pieces : List String), JsonLines env.read →
      Steady (messages env text) →
      (pieces.map String.toList).Pairwise (· <+: ·) → pieces.getLast? = some text →
      ∀ model long kind, rowTokens model long kind (rowsOf (readPieces env [] pieces)) ≡
        rowTokens model long kind (transcriptUsage env text []).rows [MOD 2 ^ 64] := by
  constructor
  · intro h
    have hunbroken : Unbroken linesEnv.read (stoppedLine ++ "\n" ++ runningLine) := by
      have hrunning := lines_line clean_lines.1 (by decide +kernel)
      have hstopped := lines_line clean_lines.2.1 (by decide +kernel)
      apply unbroken_of_read
      rw [Text.lines_cons (fun hmem => (clean_lines.2.1 _ hmem).1 rfl), hrunning.1, hstopped.2,
        List.forall_mem_cons, List.forall_mem_singleton, read_lines.1, read_lines.2.1]
      exact ⟨rfl, rfl⟩
    have hmessages : messages linesEnv (stoppedLine ++ "\n" ++ runningLine) =
        [("m", messageValue (.string "end")), ("m", messageValue .null)] := by
      rw [messages_newline linesEnv_lines, messages_lines.1, messages_lines.2.1]
      rfl
    have hsame : SameUsage (messages linesEnv (stoppedLine ++ "\n" ++ runningLine)) := by
      rw [hmessages]
      unfold SameUsage
      decide
    have hgrow : ([stoppedLine, stoppedLine ++ "\n" ++ runningLine].map String.toList).Pairwise
        (· <+: ·) := by
      simp
    have hequal := h linesEnv (stoppedLine ++ "\n" ++ runningLine) [stoppedLine, stoppedLine ++ "\n" ++ runningLine]
      linesEnv_lines
      hunbroken hsame hgrow rfl "opus" false .output
    simp only [readPieces, transcriptUsage, hmessages, messages_lines.2.1] at hequal
    revert hequal
    decide +kernel
  · intro h
    have hmessages : messages linesEnv (stoppedLine ++ "x") = [] := by
      have hclean : ∀ c ∈ (stoppedLine ++ "x").toList, c ≠ '\n' ∧ c ≠ '\r' := by
        rw [String.toList_append, List.forall_mem_append]
        exact ⟨clean_lines.2.1, clean_of_all (by decide)⟩
      have hread : linesEnv.read (stoppedLine ++ "x") = none := by
        have hrunning : (stoppedLine ++ "x" == runningLine) = false := by decide +kernel
        have hstopped : (stoppedLine ++ "x" == stoppedLine) = false := by decide +kernel
        have hother : (stoppedLine ++ "x" == otherLine) = false := by decide +kernel
        rw [linesEnv_read, tableRead_self hclean]
        simp only [List.lookup_cons, hrunning, hstopped, hother, List.lookup_nil]
      rw [messages_line linesEnv_lines hclean, hread]
      rfl
    have hgrow : ([stoppedLine, stoppedLine ++ "x"].map String.toList).Pairwise (· <+: ·) := by
      simp
    have hequal := h linesEnv (stoppedLine ++ "x") [stoppedLine, stoppedLine ++ "x"] linesEnv_lines
      (by rw [hmessages]; exact List.Pairwise.nil) hgrow rfl "opus" false .output
    simp only [readPieces, transcriptUsage, hmessages, messages_lines.2.1] at hequal
    revert hequal
    decide +kernel

end Ralph.Worker
