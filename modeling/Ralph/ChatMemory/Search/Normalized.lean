import Ralph.ChatMemory.Search.Query
import Ralph.Text

namespace Ralph.ChatMemory.Search
open String

structure Query where
  units : List QueryUnit
  deriving DecidableEq, Repr

/-- A unit that is there already only becomes required. -/
def addUnit : List QueryUnit → QueryUnit → List QueryUnit
  | [], unit => [unit]
  | existing :: units, unit =>
    if existing.words = unit.words then
      { existing with required := existing.required || unit.required } :: units
    else existing :: addUnit units unit

/-- The units of a segment: one phrase, or a unit for each word. -/
def foundUnits (required : Bool) (words : List String) : List QueryUnit :=
  if required then if words = [] then [] else [⟨words, true⟩]
  else words.map fun word => ⟨[word], false⟩

namespace Query

/-- Every second segment between the quotes is a phrase. -/
def unitsOf (u : Unicode) (segments : List (List Char)) : List QueryUnit :=
  segments.zipIdx.foldl (fun units (segment, i) =>
    (foundUnits (i % 2 == 1) ((tokenize u (String.ofList segment)).map Token.word)).foldl addUnit
      units) []

def parse (u : Unicode) (text : String) : Except String Query :=
  if text.toList.count '"' % 2 = 1 then .error "unclosed quote in query."
  else
    let units := unitsOf u (text.toList.splitOn '"')
    if units = [] then .error "query has no searchable words." else .ok ⟨units⟩

def normalized (query : Query) : String := " ".intercalate (query.units.map QueryUnit.normalized)

end Query

/-- What `normalized` and the key of a request put between their parts. -/
def separators : List Char := [' ', '"', '\u001f']

/-- What the search relies on. Separators are no letters or digits, and the lowercase of a text is
not empty and has none of them unless the text is or has. -/
structure Unicode.Lawful (u : Unicode) : Prop where
  separator : ∀ c ∈ separators, u.isAlphanumeric c = false
  nonempty : ∀ s, s ≠ "" → u.toLowercase s ≠ ""
  fresh : ∀ s, ∀ c ∈ separators, c ∉ s.toList → c ∉ (u.toLowercase s).toList

/-- A word that can stand between separators. -/
structure IsBare (word : String) : Prop where
  nonempty : word ≠ ""
  fresh : ∀ c ∈ separators, c ∉ word.toList

/-- A unit as `parse` makes them. -/
structure QueryUnit.WellFormed (unit : QueryUnit) : Prop where
  words : unit.words ≠ []
  bare : ∀ word ∈ unit.words, IsBare word
  single : unit.required = false → ∃ word, unit.words = [word]

section
variable {u : Unicode}

theorem isBare_of_tokenize (hu : u.Lawful) {text : String} {token : Token}
    (h : token ∈ tokenize u text) : IsBare token.word := by
  obtain ⟨i, j, hij, hj, rfl, hchars⟩ := (tokenize_spec u text).2 token h
  constructor
  · apply hu.nonempty
    intro hempty
    have hnil := congrArg List.length (String.ofList_eq_empty_iff.mp hempty)
    rw [List.length_drop, List.length_take, List.length_nil] at hnil
    omega
  · intro c hc
    apply hu.fresh _ c hc
    rw [String.toList_ofList]
    intro hmem
    have hseparator := hchars c hmem
    have hnot := hu.separator c hc
    rw [isTokenChar, isWord, hnot, Bool.false_or] at hseparator
    simp only [separators, List.mem_cons, List.not_mem_nil, or_false] at hc
    obtain rfl | rfl | rfl := hc
    all_goals exact absurd hseparator (by decide)

theorem wellFormed_of_addUnit {units : List QueryUnit} {unit : QueryUnit}
    (hunits : ∀ x ∈ units, x.WellFormed) (hunit : unit.WellFormed) :
    ∀ x ∈ addUnit units unit, x.WellFormed := by
  induction units with
  | nil =>
    rw [addUnit, List.forall_mem_singleton]
    exact hunit
  | cons existing units ih =>
    rw [List.forall_mem_cons] at hunits
    rw [addUnit]
    split_ifs with hsame
    · rw [List.forall_mem_cons]
      refine ⟨⟨hunits.1.words, hunits.1.bare, fun hfalse => ?_⟩, hunits.2⟩
      rw [Bool.or_eq_false_iff] at hfalse
      exact hunits.1.single hfalse.1
    · rw [List.forall_mem_cons]
      exact ⟨hunits.1, ih hunits.2⟩

theorem wellFormed_of_foundUnits {required : Bool} {words : List String}
    (hwords : ∀ word ∈ words, IsBare word) :
    ∀ unit ∈ foundUnits required words, unit.WellFormed := by
  intro unit hunit
  unfold foundUnits at hunit
  split_ifs at hunit with hrequired hempty
  · cases hunit
  · obtain rfl := List.mem_singleton.mp hunit
    exact ⟨hempty, hwords, fun h => Bool.noConfusion h⟩
  · obtain ⟨word, hword, rfl⟩ := List.mem_map.mp hunit
    refine ⟨List.cons_ne_nil _ _, ?_, fun _ => ⟨word, rfl⟩⟩
    rw [List.forall_mem_singleton]
    exact hwords word hword

theorem wellFormed_of_unitsOf (hu : u.Lawful) (segments : List (List Char)) :
    ∀ unit ∈ Query.unitsOf u segments, unit.WellFormed := by
  refine List.foldlRecOn (motive := fun units : List QueryUnit => ∀ x ∈ units, x.WellFormed)
    _ _ (by simp) fun units hunits segment _ => ?_
  refine List.foldlRecOn (motive := fun units : List QueryUnit => ∀ x ∈ units, x.WellFormed)
    _ _ hunits fun units hunits unit hunit => ?_
  apply wellFormed_of_addUnit hunits
  apply wellFormed_of_foundUnits _ unit hunit
  intro word hword
  obtain ⟨token, htoken, rfl⟩ := List.mem_map.mp hword
  exact isBare_of_tokenize hu htoken

theorem wellFormed_of_parse (hu : u.Lawful) {text : String} {query : Query}
    (h : Query.parse u text = .ok query) :
    query.units ≠ [] ∧ ∀ unit ∈ query.units, unit.WellFormed := by
  unfold Query.parse at h
  simp only at h
  split_ifs at h with hquotes hempty
  obtain rfl := Except.ok.inj h
  exact ⟨hempty, wellFormed_of_unitsOf hu _⟩

end

namespace QueryUnit

/-- The words of a unit with blanks between them. -/
def joined (unit : QueryUnit) : List Char := [' '].intercalate (unit.words.map String.toList)

theorem toList_normalized (unit : QueryUnit) :
    unit.normalized.toList =
      if unit.required then '"' :: (unit.joined ++ ['"']) else unit.joined := by
  unfold normalized joined
  split_ifs
  · simp [String.toList_append]
  · exact String.toList_intercalate

theorem WellFormed.notMem_joined {unit : QueryUnit} (h : unit.WellFormed) {c : Char}
    (hc : c ∈ separators) (hblank : c ≠ ' ') : c ∉ unit.joined := by
  intro hmem
  obtain rfl | ⟨text, htext, hin⟩ := Text.mem_intercalate hmem
  · exact hblank rfl
  · obtain ⟨word, hword, rfl⟩ := List.mem_map.mp htext
    exact (h.bare word hword).fresh c hc hin

theorem WellFormed.words_of_joined {a b : QueryUnit} (ha : a.WellFormed) (hb : b.WellFormed)
    (h : a.joined = b.joined) : a.words = b.words := by
  have hblank : ∀ unit : QueryUnit, unit.WellFormed → ∀ x ∈ unit.words.map String.toList, ' ' ∉ x := by
    intro unit hunit x hx
    obtain ⟨word, hword, rfl⟩ := List.mem_map.mp hx
    exact (hunit.bare word hword).fresh ' ' (by decide)
  have hne : ∀ unit : QueryUnit, unit.WellFormed → unit.words.map String.toList ≠ [] := by
    intro unit hunit
    rw [ne_eq, List.map_eq_nil_iff]
    exact hunit.words
  apply List.map_injective_iff.mpr fun _ _ => String.toList_injective
  exact Text.intercalate_inj (hblank a ha) (hblank b hb) (hne a ha) (hne b hb) h

/-- A word that stands alone begins like no phrase and holds no blank. -/
theorem WellFormed.alone {unit : QueryUnit} (h : unit.WellFormed) (hoptional : unit.required = false) :
    unit.joined ≠ [] ∧ '"' ∉ unit.joined ∧ ' ' ∉ unit.joined := by
  obtain ⟨word, hword⟩ := h.single hoptional
  have hbare := h.bare word (hword ▸ List.mem_singleton_self word)
  have hjoined : unit.joined = word.toList := by
    rw [joined, hword, List.map_singleton, List.intercalate_singleton]
  rw [hjoined]
  refine ⟨?_, hbare.fresh '"' (by decide), hbare.fresh ' ' (by decide)⟩
  intro hnil
  exact hbare.nonempty (String.toList_eq_nil_iff.mp hnil)

end QueryUnit

/-- The units after the first one, each after a blank. -/
def blankFirst (units : List QueryUnit) : List Char :=
  units.flatMap fun unit => ' ' :: unit.normalized.toList

theorem toList_normalized_cons (unit : QueryUnit) (units : List QueryUnit) :
    (Query.mk (unit :: units)).normalized.toList = unit.normalized.toList ++ blankFirst units := by
  rw [Query.normalized, String.toList_intercalate]
  induction units generalizing unit with
  | nil => simp [blankFirst]
  | cons next units ih =>
    have hrest := ih next
    simp only [List.map_cons, List.intercalate_cons_cons] at hrest ⊢
    rw [hrest]
    simp [blankFirst]

theorem blankFirst_cases (units : List QueryUnit) :
    blankFirst units = [] ∨ ∃ rest, blankFirst units = ' ' :: rest := by
  cases units with
  | nil => exact .inl rfl
  | cons unit units => exact .inr ⟨_, rfl⟩

/-- What comes before the first blank is told apart from what comes after it. -/
theorem append_blankFirst_inj {x y : List Char} (hx : ' ' ∉ x) (hy : ' ' ∉ y) {us vs : List QueryUnit}
    (h : x ++ blankFirst us = y ++ blankFirst vs) : x = y ∧ blankFirst us = blankFirst vs := by
  obtain hus | ⟨xs, hus⟩ := blankFirst_cases us <;> obtain hvs | ⟨ys, hvs⟩ := blankFirst_cases vs
  · rw [hus, hvs, List.append_nil, List.append_nil] at h
    exact ⟨h, hus.trans hvs.symm⟩
  · rw [hus, hvs, List.append_nil] at h
    exact absurd (h ▸ List.mem_append_right y List.mem_cons_self) hx
  · rw [hus, hvs, List.append_nil] at h
    exact absurd (h.symm ▸ List.mem_append_right x List.mem_cons_self) hy
  · rw [hus, hvs] at h ⊢
    obtain ⟨hxy, hrest⟩ := Text.append_cons_inj hx hy h
    exact ⟨hxy, by rw [hrest]⟩

/-- The text of a unit ends where the next blank after it begins. -/
theorem normalized_append_inj {a b : QueryUnit} (ha : a.WellFormed) (hb : b.WellFormed)
    {us vs : List QueryUnit}
    (h : a.normalized.toList ++ blankFirst us = b.normalized.toList ++ blankFirst vs) :
    a = b ∧ blankFirst us = blankFirst vs := by
  rw [QueryUnit.toList_normalized, QueryUnit.toList_normalized] at h
  have hquote : '"' ∈ separators := by decide
  have hsame : ∀ {required : Bool}, a.required = required → b.required = required →
      a.joined = b.joined → a = b := by
    intro required hra hrb hjoined
    obtain ⟨words, flag⟩ := a
    obtain ⟨words', flag'⟩ := b
    have hwords := ha.words_of_joined hb hjoined
    simp only at hra hrb hwords
    rw [hwords, hra, hrb]
  cases hra : a.required with
  | false =>
    obtain ⟨hne, hquoteA, hblankA⟩ := ha.alone hra
    cases hrb : b.required with
    | false =>
      rw [hra, hrb] at h
      obtain ⟨hjoined, hrest⟩ := append_blankFirst_inj hblankA (hb.alone hrb).2.2 h
      exact ⟨hsame hra hrb hjoined, hrest⟩
    | true =>
      -- a phrase begins with a quote
      rw [hra, hrb] at h
      obtain ⟨c, cs, hc⟩ := List.exists_cons_of_ne_nil hne
      simp only [hc, Bool.false_eq_true, if_false, if_true, List.cons_append, List.cons.injEq] at h
      rw [hc, h.1] at hquoteA
      exact absurd List.mem_cons_self hquoteA
  | true =>
    cases hrb : b.required with
    | false =>
      obtain ⟨hne, hquoteB, -⟩ := hb.alone hrb
      rw [hra, hrb] at h
      obtain ⟨c, cs, hc⟩ := List.exists_cons_of_ne_nil hne
      simp only [hc, Bool.false_eq_true, if_false, if_true, List.cons_append, List.cons.injEq] at h
      rw [hc, ← h.1] at hquoteB
      exact absurd List.mem_cons_self hquoteB
    | true =>
      rw [hra, hrb] at h
      simp only [if_true, List.cons_append, List.append_assoc, List.nil_append, List.cons.injEq,
        true_and] at h
      obtain ⟨hjoined, hrest⟩ := Text.append_cons_inj (ha.notMem_joined hquote (by decide))
        (hb.notMem_joined hquote (by decide)) h
      exact ⟨hsame hra hrb hjoined, hrest⟩

theorem blankFirst_inj {us vs : List QueryUnit} (hus : ∀ unit ∈ us, unit.WellFormed)
    (hvs : ∀ unit ∈ vs, unit.WellFormed) (h : blankFirst us = blankFirst vs) : us = vs := by
  induction us generalizing vs with
  | nil =>
    cases vs with
    | nil => rfl
    | cons v vs => cases h
  | cons x us ih =>
    cases vs with
    | nil => cases h
    | cons v vs =>
      rw [List.forall_mem_cons] at hus hvs
      simp only [blankFirst, List.flatMap_cons, List.cons_append, List.cons.injEq, true_and] at h
      obtain ⟨rfl, hrest⟩ := normalized_append_inj hus.1 hvs.1 h
      rw [ih hus.2 hvs.2 hrest]

/-- Two queries with one normalized text are the same. -/
theorem normalized_inj {a b : Query} (ha : ∀ unit ∈ a.units, unit.WellFormed)
    (hb : ∀ unit ∈ b.units, unit.WellFormed) (ha' : a.units ≠ []) (hb' : b.units ≠ [])
    (h : a.normalized = b.normalized) : a = b := by
  obtain ⟨x, us, hx⟩ := List.exists_cons_of_ne_nil ha'
  obtain ⟨y, vs, hy⟩ := List.exists_cons_of_ne_nil hb'
  obtain ⟨units⟩ := a
  obtain ⟨units'⟩ := b
  simp only at hx hy ha hb
  subst hx
  subst hy
  rw [List.forall_mem_cons] at ha hb
  have htexts := congrArg String.toList h
  rw [toList_normalized_cons, toList_normalized_cons] at htexts
  obtain ⟨rfl, hrest⟩ := normalized_append_inj ha.1 hb.1 htexts
  rw [blankFirst_inj ha.2 hb.2 hrest]

/-- The separator of a key is in no normalized text. -/
theorem notMem_normalized {query : Query} (h : ∀ unit ∈ query.units, unit.WellFormed) :
    '\u001f' ∉ query.normalized.toList := by
  rw [Query.normalized, String.toList_intercalate]
  intro hmem
  obtain hblank | ⟨text, htext, hin⟩ := Text.mem_intercalate hmem
  · exact absurd hblank (by decide)
  · rw [List.map_map] at htext
    obtain ⟨unit, hunit, rfl⟩ := List.mem_map.mp htext
    have hnot := (h unit hunit).notMem_joined (c := '\u001f') (by decide) (by decide)
    rw [Function.comp_apply, QueryUnit.toList_normalized] at hin
    split_ifs at hin
    · rw [List.mem_cons, List.mem_append, List.mem_singleton] at hin
      obtain hq | hin | hq := hin
      · exact absurd hq (by decide)
      · exact hnot hin
      · exact absurd hq (by decide)
    · exact hnot hin

end Ralph.ChatMemory.Search
