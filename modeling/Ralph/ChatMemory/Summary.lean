import Ralph.CharBoundary
import Ralph.Chat.Command
import Ralph.ChatMemory.Nap
import Ralph.Text

namespace Ralph.ChatMemory
open String CharBoundary

def metaOpeners : List String :=
  ["i'm ", "i am ", "i'll ", "i will ", "i can", "i need", "here is", "here's", "sure", "summary:",
    "the input", "this excerpt", "based on", "let me"]

def metaPhrases : List String := ["this excerpt", "<input>", "</input>"]

/-- `lower` is `str::to_lowercase`. -/
def metaTalk (lower : String → String) (text : String) : Option String :=
  let low := (lower text).toList
  (metaOpeners.find? fun opener => opener.toList.isPrefixOf low).or
    (metaPhrases.find? fun phrase => decide (phrase.toList <:+: low))

/-- The summary or why the line is rejected; `none` is a slice that panics. -/
def checkSummary (lower : String → String) (text : String) : Option (Except String String) :=
  let text := Chat.trim text
  if text = "" then some (.error "Empty. A summary is one line of text.")
  else if '\n' ∈ text.toList ∨ '\r' ∈ text.toList then
    some (.error s!"{(Text.lines text).length} lines. A summary is one line: merge them.")
  else
    match metaTalk lower text with
    | some matched =>
      some (.error (s!"Meta-talk: your line talks about the task (\"{matched}\"). " ++
        "Write only a third-person summary of the input content."))
    | none =>
      if text.utf8ByteSize > summaryBytes then
        (sliceTo text.toList (boundaryUpTo text.toList summaryBytes)).map fun cut =>
          .error (s!"Too long: your line is {text.utf8ByteSize} bytes, over the {summaryBytes}-byte limit. " ++
            "Write the whole line again for the same input, cutting just enough of the least valuable items to fit before this cut:\n" ++
            s!"{String.ofList cut}| <- LIMIT")
      else some (.ok text)

def maxNapAttempts : ℕ := 5

def retryPrompt (prompt error : String) : String :=
  s!"{prompt}\n\nYour previous line was rejected:\n{error}\n\nReturn a corrected single summary line only."

/-- `fallback_summary` with its slice: `none` is a cut inside a character. -/
def fallbackSliced (source : String) : Option String :=
  let flat := collapse source
  let room := summaryBytes - fallbackMark.utf8ByteSize
  let stop := boundaryUpTo flat.toList (min room flat.utf8ByteSize)
  (sliceTo flat.toList stop).map fun cut => fallbackMark ++ String.ofList (trimEnd cut)

/-- How the attempts on one node end. -/
inductive Attempts
  | accepted (summary : String)
  | failed (error : String)
  | rejected
  deriving DecidableEq, Repr

/-- The `for` loop of `summarize`: the curator answers its `n`-th prompt. -/
def attempts (lower : String → String) (base : String)
    (curate : ℕ → String → Except String String) : ℕ → ℕ → String → Option Attempts
  | 0, _, _ => some .rejected
  | left + 1, n, prompt =>
    match curate n prompt with
    | .error e => some (.failed e)
    | .ok reply =>
      match checkSummary lower reply with
      | none => none
      | some (.ok summary) => some (.accepted summary)
      | some (.error e) => attempts lower base curate left (n + 1) (retryPrompt base e)

/-- `None` inside is the curator error or a node without a source; `none` outside is a panic. -/
def summarize (lower : String → String) (entries : List Entry) (tree : Tree) (node : Node)
    (base : String) (curate : ℕ → String → Except String String) : Option (Option String) :=
  match attempts lower base curate maxNapAttempts 0 base with
  | none => none
  | some (.accepted summary) => some (some summary)
  | some (.failed _) => some none
  | some .rejected =>
    match napSource entries tree node with
    | .error _ => some none
    | .ok source => (fallbackSliced source).map some

/-- One line that fits a leaf. -/
structure ShortLine (text : String) : Prop where
  nonempty : text ≠ ""
  noNewline : '\n' ∉ text.toList
  noReturn : '\r' ∉ text.toList
  short : text.utf8ByteSize ≤ summaryBytes

theorem takeBytes_start (room : ℕ) (cs : List Char) : takeBytes room cs <+: cs := by
  induction cs generalizing room with
  | nil => exact List.prefix_refl []
  | cons c cs ih =>
    rw [takeBytes]
    split_ifs with hfits
    · exact (List.prefix_cons_inj c).2 (ih _)
    · exact List.nil_prefix

theorem utf8Len_takeBytes_le (room : ℕ) (cs : List Char) : utf8Len (takeBytes room cs) ≤ room := by
  induction cs generalizing room with
  | nil => exact Nat.zero_le room
  | cons c cs ih =>
    rw [takeBytes]
    split_ifs with hfits
    · have hrest := ih (room - c.utf8Size)
      rw [utf8Len_cons]
      omega
    · exact Nat.zero_le room

/-- No longer prefix fits. -/
theorem prefix_takeBytes {room : ℕ} {l cs : List Char} (hl : l <+: cs) (hfits : utf8Len l ≤ room) :
    l <+: takeBytes room cs := by
  induction l generalizing room cs with
  | nil => exact List.nil_prefix
  | cons c l ih =>
    obtain ⟨r, hr⟩ := hl
    rw [utf8Len_cons] at hfits
    rw [← hr, List.cons_append, takeBytes, if_pos (by omega), List.prefix_cons_inj]
    apply ih (List.prefix_append l r)
    omega

/-- The slice at the last boundary within the room is defined, and takes all that fits. -/
theorem sliceTo_boundaryUpTo (cs : List Char) (room : ℕ) :
    sliceTo cs (boundaryUpTo cs room) = some (takeBytes room cs) := by
  obtain ⟨hb, hle, hlast⟩ := boundaryUpTo_spec cs room
  obtain ⟨l, r, hcs, hl⟩ := isCharBoundary_iff.1 hb
  have hpre := prefix_takeBytes ⟨r, hcs.symm⟩ (hl.trans_le hle)
  obtain ⟨more, hmore⟩ := takeBytes_start room cs
  have hsize := hlast _ (utf8Len_takeBytes_le room cs)
    (isCharBoundary_iff.2 ⟨_, more, hmore.symm, rfl⟩)
  obtain ⟨extra, hextra⟩ := hpre
  have hnil : extra = [] := by
    apply utf8Len_eq_zero.1
    rw [← hextra, utf8Len_append] at hsize
    omega
  rw [← hextra, hnil, List.append_nil, ← hl]
  conv_lhs => rw [hcs]
  exact (slices_append l r).2.1

/-- More room than the text has changes nothing. -/
theorem takeBytes_min (room : ℕ) (cs : List Char) :
    takeBytes (min room (utf8Len cs)) cs = takeBytes room cs := by
  have hle : takeBytes (min room (utf8Len cs)) cs <+: takeBytes room cs := by
    apply prefix_takeBytes (takeBytes_start _ cs)
    have hfits := utf8Len_takeBytes_le (min room (utf8Len cs)) cs
    omega
  have hge : takeBytes room cs <+: takeBytes (min room (utf8Len cs)) cs := by
    apply prefix_takeBytes (takeBytes_start room cs)
    have hall := utf8Len_le_of_prefix (takeBytes_start room cs)
    have hfits := utf8Len_takeBytes_le room cs
    omega
  exact hle.eq_of_length_le hge.length_le

/-- The fallback never cuts inside a character. -/
theorem fallbackSliced_eq (source : String) :
    fallbackSliced source = some (fallbackSummary source) := by
  rw [fallbackSliced, fallbackSummary]
  rw [sliceTo_boundaryUpTo, ← utf8Len_toList (collapse source), takeBytes_min]
  rfl

theorem exists_checkSummary (lower : String → String) (text : String) :
    ∃ r, checkSummary lower text = some r := by
  rw [checkSummary]
  simp only [sliceTo_boundaryUpTo]
  by_cases hempty : Chat.trim text = ""
  · exact ⟨_, if_pos hempty⟩
  · rw [if_neg hempty]
    by_cases hlines : '\n' ∈ (Chat.trim text).toList ∨ '\r' ∈ (Chat.trim text).toList
    · exact ⟨_, if_pos hlines⟩
    · rw [if_neg hlines]
      cases metaTalk lower (Chat.trim text) with
      | some matched => exact ⟨_, rfl⟩
      | none =>
        by_cases hlong : (Chat.trim text).utf8ByteSize > summaryBytes
        · exact ⟨_, if_pos hlong⟩
        · exact ⟨_, if_neg hlong⟩

theorem shortLine_of_checkSummary {lower : String → String} {text summary : String}
    (h : checkSummary lower text = some (.ok summary)) : ShortLine summary := by
  rw [checkSummary] at h
  simp only [sliceTo_boundaryUpTo] at h
  by_cases hempty : Chat.trim text = ""
  · simp [hempty] at h
  · rw [if_neg hempty] at h
    by_cases hlines : '\n' ∈ (Chat.trim text).toList ∨ '\r' ∈ (Chat.trim text).toList
    · simp [hlines] at h
    · rw [if_neg hlines] at h
      cases hmeta : metaTalk lower (Chat.trim text) with
      | some matched => simp [hmeta] at h
      | none =>
        rw [hmeta] at h
        dsimp only at h
        by_cases hlong : (Chat.trim text).utf8ByteSize > summaryBytes
        · simp [hlong] at h
        · rw [if_neg hlong, Option.some.injEq, Except.ok.injEq] at h
          rw [not_or] at hlines
          rw [← h]
          exact ⟨hempty, hlines.1, hlines.2, Nat.le_of_not_gt hlong⟩

theorem not_whitespace_of_mem_word {source word : String} (h : word ∈ splitWhitespace source) :
    ∀ c ∈ word.toList, isWhitespace c = false := by
  rw [splitWhitespace, List.mem_map] at h
  obtain ⟨part, hpart, hword⟩ := h
  rw [← hword, String.toList_ofList]
  exact Text.not_of_mem_splitOnP (List.mem_filter.1 hpart).1

/-- Words joined by blanks hold no other white space. -/
theorem whitespace_of_mem_collapse {source : String} {c : Char}
    (h : c ∈ (collapse source).toList) (hc : isWhitespace c = true) : c = ' ' := by
  rw [collapse] at h
  have hwords : ∀ word ∈ splitWhitespace source, ∀ d ∈ word.toList, isWhitespace d = false :=
    fun word => not_whitespace_of_mem_word
  generalize splitWhitespace source = words at h hwords
  induction words with
  | nil => simp at h
  | cons word words ih =>
    rw [List.forall_mem_cons] at hwords
    have hfirst : c ∉ word.toList := fun hmem => by simp [hwords.1 c hmem] at hc
    cases words with
    | nil =>
      rw [String.intercalate_singleton] at h
      exact absurd h hfirst
    | cons next words =>
      have hblank : " ".toList = [' '] := by decide
      rw [String.intercalate_cons_cons, String.toList_append, String.toList_append, hblank,
        List.mem_append, List.mem_append, List.mem_singleton] at h
      rcases h with (hmem | heq) | hmem
      · exact absurd hmem hfirst
      · exact heq
      · exact ih hmem hwords.2

theorem fallbackSummary_shortLine (source : String) : ShortLine (fallbackSummary source) := by
  have hmark : fallbackMark.toList = "[raw excerpt] ".toList := rfl
  set cut := takeBytes (summaryBytes - fallbackMark.utf8ByteSize) (collapse source).toList with hcut
  have hsub : ∀ c ∈ trimEnd cut, c ∈ (collapse source).toList := by
    intro c hc
    apply (takeBytes_start _ _).subset
    rw [← hcut]
    exact (List.rdropWhile_prefix _ _).subset hc
  have hnot : ∀ c, isWhitespace c = true → c ≠ ' ' → c ∉ fallbackMark.toList →
      c ∉ (fallbackSummary source).toList := by
    intro c hc hblank hfree hmem
    rw [fallbackSummary, String.toList_append, List.mem_append, String.toList_ofList] at hmem
    rcases hmem with hmem | hmem
    · exact hfree hmem
    · exact hblank (whitespace_of_mem_collapse (hsub c hmem) hc)
  refine ⟨?_, hnot '\n' (by decide) (by decide) (by decide),
    hnot '\r' (by decide) (by decide) (by decide), ?_⟩
  · intro hnil
    have hlen := congrArg String.utf8ByteSize hnil
    rw [fallbackSummary, String.utf8ByteSize_append] at hlen
    have hsize : fallbackMark.utf8ByteSize = 14 := by decide
    have hzero : ("" : String).utf8ByteSize = 0 := by decide
    omega
  · rw [fallbackSummary, String.utf8ByteSize_append, String.utf8ByteSize_ofList]
    have hfits : utf8Len cut ≤ summaryBytes - fallbackMark.utf8ByteSize :=
      utf8Len_takeBytes_le _ _
    have hle := utf8Len_le_of_prefix (List.rdropWhile_prefix isWhitespace cut)
    have hsize : fallbackMark.utf8ByteSize = 14 := by decide
    have hmax : summaryBytes = 512 := rfl
    show fallbackMark.utf8ByteSize + utf8Len (trimEnd cut) ≤ summaryBytes
    rw [trimEnd]
    omega

/-- The attempts of one node never panic, and what they accept is one short line. -/
theorem attempts_spec (lower : String → String) (base : String)
    (curate : ℕ → String → Except String String) (left n : ℕ) (prompt : String) :
    ∃ r, attempts lower base curate left n prompt = some r ∧
      ∀ summary, r = .accepted summary → ShortLine summary := by
  induction left generalizing n prompt with
  | zero => exact ⟨.rejected, rfl, by simp⟩
  | succ left ih =>
    rw [attempts]
    cases curate n prompt with
    | error e => exact ⟨.failed e, rfl, by simp⟩
    | ok reply =>
      obtain ⟨r, hr⟩ := exists_checkSummary lower reply
      dsimp only
      rw [hr]
      cases r with
      | error e => exact ih (n + 1) (retryPrompt base e)
      | ok summary =>
        refine ⟨.accepted summary, rfl, fun s hs => ?_⟩
        rw [Attempts.accepted.injEq] at hs
        rw [← hs]
        exact shortLine_of_checkSummary hr

/-- Whatever the curator replies, neither cut panics and a summary is one short line. -/
theorem summarize_shortLine (lower : String → String) :
    (∀ text, checkSummary lower text ≠ none) ∧ (∀ source, fallbackSliced source ≠ none) ∧
      ∀ entries tree node base curate,
        ∃ r, summarize lower entries tree node base curate = some r ∧
          ∀ summary, r = some summary → ShortLine summary := by
  refine ⟨fun text => ?_, fun source => ?_, fun entries tree node base curate => ?_⟩
  · obtain ⟨r, hr⟩ := exists_checkSummary lower text
    rw [hr]
    exact Option.some_ne_none r
  · rw [fallbackSliced_eq]
    exact Option.some_ne_none _
  · obtain ⟨r, hr, hshort⟩ := attempts_spec lower base curate maxNapAttempts 0 base
    rw [summarize, hr]
    cases r with
    | accepted summary =>
      refine ⟨some summary, rfl, fun s hs => ?_⟩
      rw [Option.some.injEq] at hs
      rw [← hs]
      exact hshort summary rfl
    | failed e => exact ⟨none, rfl, by simp⟩
    | rejected =>
      dsimp only
      cases napSource entries tree node with
      | error e => exact ⟨none, rfl, by simp⟩
      | ok source =>
        refine ⟨some (fallbackSummary source), ?_, fun s hs => ?_⟩
        · dsimp only
          rw [fallbackSliced_eq, Option.map_some]
        · rw [Option.some.injEq] at hs
          rw [← hs]
          exact fallbackSummary_shortLine source

end Ralph.ChatMemory
