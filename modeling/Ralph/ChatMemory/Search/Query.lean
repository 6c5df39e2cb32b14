import Mathlib.Data.String.Basic
import Ralph.Loop

namespace Ralph.ChatMemory.Search
open String

/-- What the standard library knows of Unicode. -/
structure Unicode where
  /-- `char::is_alphanumeric`. -/
  isAlphanumeric : Char → Bool
  /-- `str::to_lowercase`. -/
  toLowercase : String → String

/-- A word of a text, lowercase, with its parts and the byte it starts at. -/
structure Token where
  word : String
  parts : List String
  start : ℕ
  deriving DecidableEq, Repr

section
variable (u : Unicode)

def isWord (c : Char) : Bool := u.isAlphanumeric c || c == '_'

def isCompound (word : String) : Bool := word.toList.any fun c => !isWord u c

def partsOf (word : String) : List String :=
  if !isCompound u word then []
  else ((word.toList.splitOnP fun c => !isWord u c).filter (· ≠ [])).map String.ofList

def nextIsWord (chars : List Char) (k : ℕ) : Bool := (chars[k]?).any (isWord u)

def joinerLen (chars : List Char) (at_ : ℕ) : ℕ :=
  match chars[at_]? with
  | some c =>
    if (c = '-' ∨ c = '.') ∧ nextIsWord u chars (at_ + 1) then 1
    else if c = ':' ∧ chars[at_ + 1]? = some ':' ∧ nextIsWord u chars (at_ + 2) then 2
    else 0
  | none => 0

theorem lt_of_nextIsWord {chars : List Char} {k : ℕ} (h : nextIsWord u chars k = true) :
    k < chars.length := by
  by_contra hge
  rw [nextIsWord, List.getElem?_eq_none (not_lt.mp hge)] at h
  cases h

theorem lt_of_joinerLen {chars : List Char} {at_ : ℕ} (h : joinerLen u chars at_ ≠ 0) :
    at_ + joinerLen u chars at_ < chars.length := by
  unfold joinerLen at h ⊢
  split at h
  · split_ifs at h ⊢ with hone htwo
    · exact lt_of_nextIsWord u hone.2
    · exact lt_of_nextIsWord u htwo.2.2
    · exact absurd rfl h
  · exact absurd rfl h

theorem joiner_of_joinerLen {chars : List Char} {at_ k : ℕ} {c : Char} (hk : at_ ≤ k)
    (hlt : k < at_ + joinerLen u chars at_) (hc : chars[k]? = some c) : c ∈ ['-', '.', ':'] := by
  unfold joinerLen at hlt
  split at hlt
  · next d hd =>
    split_ifs at hlt with hone htwo
    · obtain rfl : k = at_ := by omega
      obtain rfl := Option.some.inj (hd.symm.trans hc)
      obtain rfl | rfl := hone.1 <;> decide
    · obtain rfl | rfl : k = at_ ∨ k = at_ + 1 := by omega
      · obtain rfl := Option.some.inj (hd.symm.trans hc)
        rw [htwo.1]
        decide
      · obtain rfl := Option.some.inj (htwo.2.1.symm.trans hc)
        decide
    · omega
  · omega

/-- `while j < chars.len() && is_word(chars[j].1) { j += 1 }`. -/
def wordBody (chars : List Char) : Loop.Body ℕ ℕ where
  step j := if nextIsWord u chars j then .inl (j + 1) else .inr j
  measure j := chars.length - j
  decreases := by
    intro j j' h
    split_ifs at h with hword
    obtain rfl := Sum.inl.inj h
    have hlt := lt_of_nextIsWord u hword
    omega

/-- Where the word characters from `j` on end. -/
def wordEnd (chars : List Char) (j : ℕ) : ℕ := (wordBody u chars).run j

/-- Only word characters are passed, and only up to the end of the text. -/
theorem wordEnd_spec (chars : List Char) (j : ℕ) :
    j ≤ wordEnd u chars j ∧ (nextIsWord u chars j = true → j < wordEnd u chars j) ∧
      (j ≤ chars.length → wordEnd u chars j ≤ chars.length) ∧
      ∀ k c, j ≤ k → k < wordEnd u chars j → chars[k]? = some c → isWord u c = true := by
  apply (wordBody u chars).run_induction fun j r => j ≤ r ∧ (nextIsWord u chars j = true → j < r) ∧
    (j ≤ chars.length → r ≤ chars.length) ∧
    ∀ k c, j ≤ k → k < r → chars[k]? = some c → isWord u c = true
  · intro j r h
    simp only [wordBody] at h
    split_ifs at h with hword
    obtain rfl := Sum.inr.inj h
    exact ⟨le_rfl, fun h => absurd h hword, id, fun k c hk hlt => by omega⟩
  · rintro j j' r h ⟨hle, -, hlen, hpassed⟩
    simp only [wordBody] at h
    split_ifs at h with hword
    obtain rfl := Sum.inl.inj h
    have hlt := lt_of_nextIsWord u hword
    refine ⟨by omega, fun _ => by omega, fun _ => hlen (by omega), ?_⟩
    intro k c hk hkr hc
    obtain rfl | hnext := hk.eq_or_lt
    · rw [nextIsWord, hc] at hword
      exact hword
    · exact hpassed k c hnext hkr hc

/-- The `loop` of `tokenize`: words and the joiners between them. -/
def tokenBody (chars : List Char) : Loop.Body ℕ ℕ where
  step j :=
    match joinerLen u chars (wordEnd u chars j) with
    | 0 => .inr (wordEnd u chars j)
    | joiner => .inl (wordEnd u chars j + joiner)
  measure j := chars.length - j
  decreases := by
    intro j j' h
    have hle := (wordEnd_spec u chars j).1
    split at h
    · cases h
    · next hjoiner =>
      obtain rfl := Sum.inl.inj h
      have hlast := lt_of_joinerLen u hjoiner
      have hpos := Nat.pos_of_ne_zero hjoiner
      omega

def tokenEnd (chars : List Char) (i : ℕ) : ℕ := (tokenBody u chars).run i

/-- What a token is made of. -/
def isTokenChar (c : Char) : Bool := isWord u c || c ∈ ['-', '.', ':']

theorem tokenEnd_spec (chars : List Char) (i : ℕ) :
    i ≤ tokenEnd u chars i ∧ (nextIsWord u chars i = true → i < tokenEnd u chars i) ∧
      (i ≤ chars.length → tokenEnd u chars i ≤ chars.length) ∧
      ∀ k c, i ≤ k → k < tokenEnd u chars i → chars[k]? = some c → isTokenChar u c = true := by
  apply (tokenBody u chars).run_induction fun i r => i ≤ r ∧ (nextIsWord u chars i = true → i < r) ∧
    (i ≤ chars.length → r ≤ chars.length) ∧
    ∀ k c, i ≤ k → k < r → chars[k]? = some c → isTokenChar u c = true
  · intro i r h
    obtain ⟨hle, hlt, hlen, hpassed⟩ := wordEnd_spec u chars i
    simp only [tokenBody] at h
    split at h
    · obtain rfl := Sum.inr.inj h
      refine ⟨hle, hlt, hlen, fun k c hk hkr hc => ?_⟩
      rw [isTokenChar, hpassed k c hk hkr hc, Bool.true_or]
    · cases h
  · rintro i i' r h ⟨hle', -, hlen', hpassed'⟩
    obtain ⟨hle, -, hlen, hpassed⟩ := wordEnd_spec u chars i
    simp only [tokenBody] at h
    split at h
    · cases h
    · next hjoiner =>
      obtain rfl := Sum.inl.inj h
      have hlast := lt_of_joinerLen u hjoiner
      have hpos := Nat.pos_of_ne_zero hjoiner
      refine ⟨by omega, fun _ => by omega, fun _ => hlen' (by omega), ?_⟩
      intro k c hk hkr hc
      rw [isTokenChar, Bool.or_eq_true, decide_eq_true_eq]
      -- a character of the word, of the joiner or of what follows it
      by_cases hword : k < wordEnd u chars i
      · exact .inl (hpassed k c hk hword hc)
      · by_cases hjoined : k < wordEnd u chars i + joinerLen u chars (wordEnd u chars i)
        · exact .inr (joiner_of_joinerLen u (not_lt.mp hword) hjoined hc)
        · have hrest := hpassed' k c (not_lt.mp hjoined) hkr hc
          rwa [isTokenChar, Bool.or_eq_true, decide_eq_true_eq] at hrest

/-- The token on the characters `[i, j)`. -/
def tokenAt (chars : List Char) (i j : ℕ) : Token :=
  let word := u.toLowercase (String.ofList ((chars.take j).drop i))
  ⟨word, partsOf u word, utf8Len (chars.take i)⟩

/-- The `while` loop of `tokenize`. -/
def tokenizeBody (chars : List Char) : Loop.Body (ℕ × List Token) (List Token) where
  step := fun (i, tokens) =>
    if i < chars.length then
      if nextIsWord u chars i then
        .inl (tokenEnd u chars i, tokens ++ [tokenAt u chars i (tokenEnd u chars i)])
      else .inl (i + 1, tokens)
    else .inr tokens
  measure := fun (i, _) => chars.length - i
  decreases := by
    rintro ⟨i, tokens⟩ s' h
    simp only at h
    split_ifs at h with hlt hword
    · obtain rfl := Sum.inl.inj h
      have hend := (tokenEnd_spec u chars i).2.1 hword
      simp only
      omega
    · obtain rfl := Sum.inl.inj h
      simp only
      omega

def tokenize (text : String) : List Token := (tokenizeBody u text.toList).run (0, [])

/-- A token stands on some characters of the text. -/
def OnText (chars : List Char) (token : Token) : Prop :=
  ∃ i j, i < j ∧ j ≤ chars.length ∧ token = tokenAt u chars i j ∧
    ∀ c ∈ (chars.take j).drop i, isTokenChar u c = true

theorem onText_tokenEnd {chars : List Char} {i : ℕ} (hword : nextIsWord u chars i = true) :
    OnText u chars (tokenAt u chars i (tokenEnd u chars i)) := by
  obtain ⟨-, hlt, hlen, hpassed⟩ := tokenEnd_spec u chars i
  refine ⟨i, _, hlt hword, hlen (lt_of_nextIsWord u hword).le, rfl, fun c hc => ?_⟩
  obtain ⟨n, hn⟩ := List.mem_iff_getElem?.mp hc
  rw [List.getElem?_drop, List.getElem?_take] at hn
  split_ifs at hn with hk
  exact hpassed (i + n) c (by omega) hk hn

/-- A text has at most as many tokens as characters, and each stands on some of them. -/
theorem tokenize_spec (text : String) :
    (tokenize u text).length ≤ text.toList.length ∧
      ∀ token ∈ tokenize u text, OnText u text.toList token := by
  refine (tokenizeBody u text.toList).run_of_invariant
    (I := fun s => s.2.length ≤ s.1 ∧ s.1 ≤ text.toList.length ∧
      ∀ token ∈ s.2, OnText u text.toList token)
    (Q := fun r => r.length ≤ text.toList.length ∧ ∀ token ∈ r, OnText u text.toList token)
    ?_ ?_ ⟨le_rfl, Nat.zero_le _, by simp⟩
  · rintro ⟨i, tokens⟩ s' ⟨hcount, hlen, hon⟩ h
    simp only [tokenizeBody] at h
    split_ifs at h with hlt hword
    · obtain rfl := Sum.inl.inj h
      obtain ⟨-, hend, hinside, -⟩ := tokenEnd_spec u text.toList i
      have hnext := hend hword
      refine ⟨?_, hinside hlen, fun token htoken => ?_⟩
      · simp only [List.length_append, List.length_singleton] at hcount ⊢
        omega
      · obtain hold | hnew := List.mem_append.mp htoken
        · exact hon token hold
        · rw [List.mem_singleton.mp hnew]
          exact onText_tokenEnd u hword
    · obtain rfl := Sum.inl.inj h
      exact ⟨hcount.trans (Nat.le_succ i), hlt, hon⟩
  · rintro ⟨i, tokens⟩ r ⟨hcount, hlen, hon⟩ h
    simp only [tokenizeBody] at h
    split_ifs at h
    obtain rfl := Sum.inr.inj h
    exact ⟨hcount.trans hlen, hon⟩

end

/-- A word or a phrase in quotes. -/
structure QueryUnit where
  words : List String
  required : Bool
  deriving DecidableEq, Repr

namespace QueryUnit

def normalized (unit : QueryUnit) : String :=
  let joined := " ".intercalate unit.words
  if unit.required then s!"\"{joined}\"" else joined

/-- The words of a unit are the words of the tokens from `at_` on. -/
def wordsAt (unit : QueryUnit) (tokens : List Token) (at_ : ℕ) : Bool :=
  (unit.words.zip (tokens.drop at_)).all fun (word, token) => word == token.word

def matchesAt (u : Unicode) (unit : QueryUnit) (tokens : List Token) (at_ : ℕ) : Bool :=
  match unit.words with
  | [word] =>
    if !isCompound u word && !unit.required then
      (tokens[at_]?).any fun token => token.word == word || token.parts.contains word
    else unit.wordsAt tokens at_
  | _ => unit.wordsAt tokens at_

/-- How often a unit occurs, and the byte where it does first. The program counts in `u32`; a text
has no more tokens than bytes. -/
def occurrences (u : Unicode) (unit : QueryUnit) (tokens : List Token) : ℕ × Option ℕ :=
  let width := unit.words.length
  if tokens.length < width then (0, none)
  else
    let found := (List.range (tokens.length - width + 1)).filter (unit.matchesAt u tokens)
    (found.length, found.head?.bind fun at_ => (tokens[at_]?).map Token.start)

/-- What a unit asks of a text: a run of whole tokens, or for a plain word a part of a token. -/
inductive Contained (u : Unicode) (tokens : List Token) : QueryUnit → Prop
  | part {word : String} {token : Token} (plain : isCompound u word = false) (htoken : token ∈ tokens)
      (h : token.word = word ∨ word ∈ token.parts) : Contained u tokens ⟨[word], false⟩
  | run {unit : QueryUnit} (h : unit.words <:+: tokens.map Token.word) : Contained u tokens unit

theorem wordsAt_iff {unit : QueryUnit} {tokens : List Token} {at_ : ℕ}
    (hroom : at_ + unit.words.length ≤ tokens.length) :
    unit.wordsAt tokens at_ = true ↔ unit.words <+: (tokens.map Token.word).drop at_ := by
  have hzip : ∀ (words : List String) (rest : List Token), words.length ≤ rest.length →
      ((words.zip rest).all (fun (word, token) => word == token.word) = true ↔
        words <+: rest.map Token.word) := by
    intro words
    induction words with
    | nil => exact fun rest _ => iff_of_true rfl List.nil_prefix
    | cons word words ih =>
      intro rest hlen
      cases rest with
      | nil => simp at hlen
      | cons token rest =>
        rw [List.length_cons, List.length_cons] at hlen
        rw [List.zip_cons_cons, List.all_cons, Bool.and_eq_true, ih rest (by omega), List.map_cons,
          List.cons_prefix_cons, beq_iff_eq]
  rw [← List.map_drop]
  exact hzip unit.words (tokens.drop at_) (by rw [List.length_drop]; omega)

/-- A run of words stands at one of the places that leave room for it. -/
theorem infix_iff {words : List String} {texts : List String} (hroom : words.length ≤ texts.length) :
    words <:+: texts ↔ ∃ at_ ≤ texts.length - words.length, words <+: texts.drop at_ := by
  constructor
  · rintro ⟨before, after, rfl⟩
    refine ⟨before.length, ?_, ?_⟩
    · simp only [List.length_append]
      omega
    · rw [List.append_assoc, List.drop_left]
      exact List.prefix_append _ _
  · rintro ⟨at_, -, hpre⟩
    exact hpre.isInfix.trans (List.drop_suffix at_ texts).isInfix

theorem matchesAt_plain {u : Unicode} {word : String} (plain : isCompound u word = false)
    (tokens : List Token) (at_ : ℕ) :
    matchesAt u ⟨[word], false⟩ tokens at_ =
      (tokens[at_]?).any fun token => token.word == word || token.parts.contains word := by
  simp [matchesAt, plain]

theorem matchesAt_run {u : Unicode} {unit : QueryUnit}
    (h : ∀ word, unit = ⟨[word], false⟩ → isCompound u word = true) (tokens : List Token) (at_ : ℕ) :
    unit.matchesAt u tokens at_ = unit.wordsAt tokens at_ := by
  unfold matchesAt
  split
  · next word hwords =>
    refine if_neg fun hplain => ?_
    rw [Bool.and_eq_true, Bool.not_eq_true', Bool.not_eq_true'] at hplain
    obtain ⟨words, required⟩ := unit
    obtain rfl : words = [word] := hwords
    obtain rfl : required = false := hplain.2
    rw [h word rfl] at hplain
    exact Bool.noConfusion hplain.1
  · rfl

theorem contained_plain {u : Unicode} {word : String} (plain : isCompound u word = false)
    {tokens : List Token} : Contained u tokens ⟨[word], false⟩ ↔
      ∃ token ∈ tokens, token.word = word ∨ word ∈ token.parts := by
  constructor
  · intro h
    cases h with
    | part _ htoken h => exact ⟨_, htoken, h⟩
    | run h =>
      obtain ⟨token, htoken, rfl⟩ := List.mem_map.mp (h.subset List.mem_cons_self)
      exact ⟨token, htoken, .inl rfl⟩
  · rintro ⟨token, htoken, h⟩
    exact .part plain htoken h

/-- A place matches when the unit is contained there. -/
theorem exists_matchesAt (u : Unicode) {unit : QueryUnit} {tokens : List Token}
    (hroom : unit.words.length ≤ tokens.length) :
    (∃ at_ ≤ tokens.length - unit.words.length, unit.matchesAt u tokens at_ = true) ↔
      Contained u tokens unit := by
  by_cases hplain : ∃ word, unit = ⟨[word], false⟩ ∧ isCompound u word = false
  · obtain ⟨word, rfl, hplain⟩ := hplain
    rw [List.length_singleton] at hroom
    simp only [matchesAt_plain hplain, contained_plain hplain, List.length_singleton]
    constructor
    · rintro ⟨at_, -, h⟩
      rw [Option.any_eq_true] at h
      obtain ⟨token, hat, h⟩ := h
      rw [Bool.or_eq_true, beq_iff_eq, List.contains_iff_mem] at h
      exact ⟨token, List.mem_of_getElem? hat, h⟩
    · rintro ⟨token, htoken, h⟩
      obtain ⟨at_, hat⟩ := List.mem_iff_getElem?.mp htoken
      have hlt := (List.getElem?_eq_some_iff.mp hat).1
      refine ⟨at_, by omega, ?_⟩
      rw [hat, Option.any_some, Bool.or_eq_true, beq_iff_eq, List.contains_iff_mem]
      exact h
  · have hcompound : ∀ word, unit = ⟨[word], false⟩ → isCompound u word = true := by
      intro word hunit
      by_contra hfalse
      exact hplain ⟨word, hunit, by simpa using hfalse⟩
    simp only [matchesAt_run hcompound]
    have hrun : Contained u tokens unit ↔ unit.words <:+: tokens.map Token.word := by
      refine ⟨fun h => ?_, .run⟩
      cases h with
      | part plain => exact absurd (hcompound _ rfl) (by simp [plain])
      | run h => exact h
    rw [hrun, infix_iff (by rwa [List.length_map]), List.length_map]
    refine exists_congr fun at_ => and_congr_right fun hle => ?_
    exact wordsAt_iff (by omega)

/-- A unit is counted, and has a first place, exactly when the text contains it. -/
theorem occurrences_spec (u : Unicode) {unit : QueryUnit} (hwords : unit.words ≠ [])
    (tokens : List Token) :
    (0 < (unit.occurrences u tokens).1 ↔ Contained u tokens unit) ∧
      ((unit.occurrences u tokens).2.isSome ↔ Contained u tokens unit) ∧
      (unit.occurrences u tokens).1 ≤ tokens.length ∧
      ∀ first, (unit.occurrences u tokens).2 = some first → ∃ token ∈ tokens, token.start = first := by
  have hwidth : 0 < unit.words.length := List.length_pos_iff.mpr hwords
  unfold occurrences
  by_cases hroom : tokens.length < unit.words.length
  -- a text shorter than the unit cannot hold it
  · have hnot : ¬Contained u tokens unit := by
      intro h
      cases h with
      | part plain htoken =>
        have hlen := List.length_pos_of_mem htoken
        rw [List.length_singleton] at hroom
        omega
      | run h =>
        have hlen := h.length_le
        rw [List.length_map] at hlen
        omega
    simp only [if_pos hroom]
    simp [hnot]
  · rw [← exists_matchesAt u (not_lt.mp hroom)]
    simp only [if_neg hroom]
    -- the places where the unit matches
    let found := (List.range (tokens.length - unit.words.length + 1)).filter (unit.matchesAt u tokens)
    have hmem : ∀ at_, at_ ∈ found ↔
        at_ ≤ tokens.length - unit.words.length ∧ unit.matchesAt u tokens at_ = true := by
      intro at_
      rw [List.mem_filter, List.mem_range, Nat.lt_succ_iff]
    have hlen : found.length ≤ tokens.length := by
      have hfilter : found.length ≤ (List.range (tokens.length - unit.words.length + 1)).length :=
        List.length_filter_le _ _
      rw [List.length_range] at hfilter
      omega
    have hsome : (found.head?.bind fun at_ => (tokens[at_]?).map Token.start).isSome ↔ found ≠ [] := by
      cases hfound : found with
      | nil => simp
      | cons at_ rest =>
        have hat := ((hmem at_).mp (hfound ▸ List.mem_cons_self)).1
        have hlt : at_ < tokens.length := by omega
        simp [hlt]
    have hne : found ≠ [] ↔ ∃ at_ ≤ tokens.length - unit.words.length,
        unit.matchesAt u tokens at_ = true := by
      constructor
      · intro h
        obtain ⟨at_, hat⟩ := List.exists_mem_of_ne_nil found h
        exact ⟨at_, (hmem at_).mp hat⟩
      · rintro ⟨at_, hat⟩
        exact List.ne_nil_of_mem ((hmem at_).mpr hat)
    refine ⟨List.length_pos_iff.trans hne, hsome.trans hne, hlen, ?_⟩
    intro first hfirst
    obtain ⟨at_, -, hat⟩ := Option.bind_eq_some_iff.mp hfirst
    obtain ⟨token, htoken, rfl⟩ := Option.map_eq_some_iff.mp hat
    exact ⟨token, List.mem_of_getElem? htoken, rfl⟩

end QueryUnit

end Ralph.ChatMemory.Search
