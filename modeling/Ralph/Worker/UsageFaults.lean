import Ralph.LossyLines
import Ralph.Worker.UsagePieces

namespace Ralph.Worker
open Wire

/-- The row that a finished message goes to; a synthetic one and one without usage go to none. -/
def countedKey (env : UsageEnv) : Option (String × Usage) → Option RowKey
  | none => none
  | some (model, part) =>
    if model = syntheticModel ∨ usageIsEmpty part then none else some (rowKey env model part)

/-- The ids of the messages that a call counts in the row of a key. -/
def keyIds (env : UsageEnv) (text : String) (seen : List String) (key : RowKey) : List String :=
  ((newMessages env text seen).filter fun e => countedKey env (finishedUsage e.2) = some key).map Prod.fst

/-- A row of the ledger and the ids that are counted in it. -/
structure UsageRow where
  row : ModelUsage
  ids : List String
  deriving DecidableEq

/-- The file operation of a call that returns an error. -/
inductive UsageFault
  | reading
  | row (written : ℕ)
  | folder
  | marking
  deriving DecidableEq

structure UsageCall where
  text : String
  fault : Option UsageFault

structure UsageFiles where
  seen : String
  ledger : List UsageRow
  deriving DecidableEq

def usageRows (env : UsageEnv) (text : String) (seen : List String) : List UsageRow :=
  (transcriptUsage env text seen).rows.map fun row =>
    ⟨row, keyIds env text seen (toLex (row.model, row.longPrompt))⟩

def UsageCall.failedRow (call : UsageCall) (rows : ℕ) : Option ℕ :=
  match call.fault with
  | some (.row written) => if written < rows then some written else none
  | _ => none

/-- The files after a call, and whether it succeeds. An operation that fails changes no file. -/
def recordSession (env : UsageEnv) (files : UsageFiles) (call : UsageCall) : UsageFiles × Bool :=
  let seen := Text.lines files.seen
  let recorded := (transcriptUsage env call.text seen).recorded
  let rows := usageRows env call.text seen
  if call.fault = some .reading then (files, false)
  else
    match call.failedRow rows.length with
    | some written => ({ files with ledger := files.ledger ++ rows.take written }, false)
    | none =>
      let ledger := files.ledger ++ rows
      if recorded = [] then ({ files with ledger }, true)
      else if call.fault = some .folder ∨ call.fault = some .marking then ({ files with ledger }, false)
      else (⟨files.seen ++ "\n".intercalate recorded ++ "\n", ledger⟩, true)

/-- The rows of the ledger that count an id. -/
def timesCounted (id : String) (ledger : List UsageRow) : ℕ := ledger.countP (id ∈ ·.ids)

/-- The last line has its newline. -/
def Terminated (seen : String) : Prop := seen = "" ∨ ∃ front, seen = front ++ "\n"

section Rows

variable (env : UsageEnv) (text : String) (seen : List String)

theorem isSome_lookup_countMessage (s : Counted) (e : String × JsonValue) (key : RowKey) :
    ((countMessage env seen s e).byModel.lookup key).isSome ↔
      (s.byModel.lookup key).isSome ∨ Counts seen e ∧ countedKey env (finishedUsage e.2) = some key := by
  unfold countMessage Counts
  cases finishedUsage e.2 with
  | none => simp
  | some part =>
    rcases part with ⟨model, part⟩
    dsimp only [countedKey]
    by_cases hseen : e.1 ∈ seen
    · simp [hseen]
    · rw [if_neg hseen]
      by_cases hskip : model = syntheticModel ∨ usageIsEmpty part = true
      · simp [hskip]
      · rw [if_neg hskip, if_neg hskip, SortedMap.lookup_insert]
        by_cases hkey : key = rowKey env model part
        · simp [hkey, hseen]
        · simp [hkey, Ne.symm hkey]

theorem isSome_lookup_foldl (es : List (String × JsonValue)) (s : Counted) (key : RowKey) :
    ((es.foldl (countMessage env seen) s).byModel.lookup key).isSome ↔
      (s.byModel.lookup key).isSome ∨
        ∃ e ∈ es, Counts seen e ∧ countedKey env (finishedUsage e.2) = some key := by
  induction es generalizing s with
  | nil => simp
  | cons e es ih =>
    rw [List.foldl_cons, ih, isSome_lookup_countMessage, or_assoc]
    simp only [List.mem_cons, exists_eq_or_imp]

theorem mem_keyIds (key : RowKey) (id : String) : id ∈ keyIds env text seen key ↔
    id ∉ seen ∧ countedKey env (usageAt (messages env text) id) = some key := by
  rw [keyIds, newMessages, List.mem_map]
  constructor
  · rintro ⟨e, he, rfl⟩
    rw [List.mem_filter, List.mem_filter, decide_eq_true_iff, decide_eq_true_iff] at he
    rw [usageAt_of_mem he.1.1]
    exact ⟨he.1.2.2, he.2⟩
  · rintro ⟨hseen, hkey⟩
    cases husage : usageAt (messages env text) id with
    | none =>
      rw [husage] at hkey
      cases hkey
    | some part =>
      obtain ⟨message, hlookup, hmessage⟩ := Option.bind_eq_some_iff.mp husage
      refine ⟨(id, message), ?_, rfl⟩
      rw [List.mem_filter, List.mem_filter, decide_eq_true_iff, decide_eq_true_iff]
      exact ⟨⟨(SortedMap.mem_entries _).mpr hlookup, by rw [hmessage]; rfl, hseen⟩, by rw [hmessage, ← husage, hkey]⟩

/-- A new message is counted in one row if it has a row, and in none otherwise. -/
theorem timesCounted_usageRows (id : String) :
    timesCounted id (usageRows env text seen) =
      if id ∉ seen ∧ (countedKey env (usageAt (messages env text) id)).isSome then 1 else 0 := by
  rw [timesCounted, usageRows, List.countP_map]
  by_cases hcounts : id ∉ seen ∧ (countedKey env (usageAt (messages env text) id)).isSome
  · rw [if_pos hcounts]
    obtain ⟨key, hkey⟩ := Option.isSome_iff_exists.mp hcounts.2
    have hids : ∀ key', id ∈ keyIds env text seen key' ↔ key' = key := by
      intro key'
      rw [mem_keyIds, hkey, Option.some_inj, eq_comm]
      exact and_iff_right hcounts.1
    have hrow : (((latest (messages env text)).entries.foldl (countMessage env seen) .start).byModel.lookup
        key).isSome := by
      rw [isSome_lookup_foldl]
      have hmem := (mem_keyIds env text seen key id).mpr ⟨hcounts.1, hkey⟩
      rw [keyIds, List.mem_map] at hmem
      obtain ⟨e, he, _⟩ := hmem
      rw [newMessages, List.mem_filter, List.mem_filter, decide_eq_true_iff, decide_eq_true_iff] at he
      exact .inr ⟨e, he.1.1, he.1.2, he.2⟩
    obtain ⟨usage, husage⟩ := Option.isSome_iff_exists.mp hrow
    rw [transcriptUsage]
    dsimp only
    rw [List.countP_map]
    have hsame : ((fun row : UsageRow => decide (id ∈ row.ids)) ∘
        fun row : ModelUsage => ⟨row, keyIds env text seen (toLex (row.model, row.longPrompt))⟩) ∘
          (fun e : RowKey × Usage => ModelUsage.mk (ofLex e.1).1 e.2 (ofLex e.1).2) =
            fun e => decide (e.1 = key) := by
      funext e
      simp [hids]
    rw [hsame, List.countP_eq_length_filter, SortedMap.filter_key, husage]
    rfl
  · rw [if_neg hcounts, List.countP_eq_zero]
    intro row _ hmem
    rw [Function.comp_apply, decide_eq_true_iff, mem_keyIds] at hmem
    exact hcounts ⟨hmem.1, by rw [hmem.2]; rfl⟩

theorem weight_of_ne {key : RowKey} {part : Option (String × Usage)} (h : countedKey env part ≠ some key)
    (kind : UsageKind) : weight env key kind part = 0 := by
  cases part with
  | none => rfl
  | some part =>
    rcases part with ⟨model, part⟩
    by_cases hskip : model = syntheticModel ∨ usageIsEmpty part = true
    · rcases hskip with hskip | hskip
      · rw [weight, if_pos hskip]
      · rw [weight, tokens_of_empty kind hskip, ite_self, ite_self]
    · rw [countedKey, if_neg hskip] at h
      rw [weight, if_neg fun hsynthetic => hskip (.inl hsynthetic), if_neg fun hkey => h (congrArg some hkey)]

/-- The counts of a row are those of the messages that it counts. -/
theorem tokens_row {row : UsageRow} (h : row ∈ usageRows env text seen) (kind : UsageKind) :
    kind.tokens row.row.usage ≡ (row.ids.map fun id =>
      weight env (toLex (row.row.model, row.row.longPrompt)) kind (usageAt (messages env text) id)).sum
        [MOD 2 ^ 64] := by
  have htokens := rowTokens_transcriptUsage env text seen row.row.model row.row.longPrompt kind
  rw [usageRows, List.mem_map] at h
  rcases h with ⟨usage, hmem, rfl⟩
  dsimp only at htokens ⊢
  have hone : rowTokens usage.model usage.longPrompt kind (transcriptUsage env text seen).rows =
      kind.tokens usage.usage := by
    rw [transcriptUsage] at hmem ⊢
    dsimp only at hmem ⊢
    rw [List.mem_map] at hmem
    rcases hmem with ⟨⟨key, total⟩, hentry, rfl⟩
    have hlookup := (SortedMap.mem_entries _).mp hentry
    rw [rowTokens, filter_rows]
    dsimp only
    rw [Prod.mk.eta, toLex_ofLex, hlookup]
    simp
  -- messages of other rows weigh nothing here
  have hsum : ((transcriptUsage env text seen).recorded.map fun id =>
      weight env (toLex (usage.model, usage.longPrompt)) kind (usageAt (messages env text) id)).sum =
        ((keyIds env text seen (toLex (usage.model, usage.longPrompt))).map fun id =>
          weight env (toLex (usage.model, usage.longPrompt)) kind (usageAt (messages env text) id)).sum := by
    rw [transcriptUsage_recorded, keyIds]
    have hentries : ∀ e ∈ newMessages env text seen, usageAt (messages env text) e.1 = finishedUsage e.2 :=
      fun e he => usageAt_of_mem (List.mem_of_mem_filter he)
    generalize newMessages env text seen = es at hentries ⊢
    induction es with
    | nil => rfl
    | cons e es ih =>
      rw [List.forall_mem_cons] at hentries
      by_cases hkey : countedKey env (finishedUsage e.2) = some (toLex (usage.model, usage.longPrompt))
      · rw [List.filter_cons_of_pos (by simpa using hkey)]
        simp only [List.map_cons, List.sum_cons, ih hentries.2]
      · rw [List.filter_cons_of_neg (by simpa using hkey), ← ih hentries.2]
        simp only [List.map_cons, List.sum_cons, hentries.1, weight_of_ne env hkey kind, Nat.zero_add]
  rw [hone, hsum] at htokens
  exact htokens

end Rows

/-- The call leaves the files. -/
def Untouched (env : UsageEnv) (files : UsageFiles) (call : UsageCall) : Prop :=
  recordSession env files call = (files, false)

/-- The call appends all its rows and marks all its ids. -/
structure Recorded (env : UsageEnv) (files : UsageFiles) (call : UsageCall) : Prop where
  seen : Text.lines (recordSession env files call).1.seen =
    Text.lines files.seen ++ (transcriptUsage env call.text (Text.lines files.seen)).recorded
  ledger : (recordSession env files call).1.ledger =
    files.ledger ++ usageRows env call.text (Text.lines files.seen)
  terminated : Terminated (recordSession env files call).1.seen

/-- An id is counted in one row once it is marked, and in none before. -/
def CountedOnce (id : String) (files : UsageFiles) : Prop :=
  timesCounted id files.ledger = if id ∈ Text.lines files.seen then 1 else 0

theorem CountedOnce.recordSession {env : UsageEnv} {files : UsageFiles} {call : UsageCall} {id : String}
    (h : CountedOnce id files) (hcall : Untouched env files call ∨ Recorded env files call)
    (hcounts : ∀ part ∈ usageAt (messages env call.text) id, (countedKey env (some part)).isSome) :
    CountedOnce id (recordSession env files call).1 := by
  rcases hcall with hcall | hcall
  · rw [hcall]
    exact h
  · have htimes : (countedKey env (usageAt (messages env call.text) id)).isSome =
        (usageAt (messages env call.text) id).isSome := by
      cases husage : usageAt (messages env call.text) id with
      | none => rfl
      | some part => rw [hcounts part husage, Option.isSome_some]
    rw [CountedOnce, hcall.ledger, hcall.seen, timesCounted, List.countP_append]
    rw [CountedOnce, timesCounted] at h
    have hrows := timesCounted_usageRows env call.text (Text.lines files.seen) id
    rw [timesCounted] at hrows
    rw [h, hrows, htimes]
    simp only [List.mem_append, mem_recorded]
    by_cases hmarked : id ∈ Text.lines files.seen
    · simp [hmarked]
    · simp [hmarked]

end Ralph.Worker
