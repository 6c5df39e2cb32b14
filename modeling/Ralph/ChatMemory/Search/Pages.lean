import Ralph.ChatMemory.Search.Scan

namespace Ralph.ChatMemory.Search
open CharBoundary

variable {T S : Type} [LinearOrder T]

/-- The bounds on the time of an entry; without a bound any time will do. -/
def InTime (dates : Dates T) (request : SearchRequest T) (entry : Entry) : Prop :=
  (request.since = none ∧ request.before = none) ∨
    ∃ moment, dates.stamp entry.at_ = some moment ∧
      (∀ since, request.since = some since → since ≤ moment) ∧
      ∀ before, request.before = some before → moment < before

/-- What a request asks of an entry. -/
structure Matches (u : Unicode) (dates : Dates T) (request : SearchRequest T) (entry : Entry) : Prop where
  intact : entry.corrupt = false
  role : ∀ role, request.role = some role → entry.role = role
  time : InTime dates request entry
  required : ∀ unit ∈ request.query.units, unit.required = true →
    unit.Contained u (tokenize u entry.text)
  any : ∃ unit ∈ request.query.units, unit.Contained u (tokenize u entry.text)

theorem passes_iff {dates : Dates T} {request : SearchRequest T} {entry : Entry} :
    passes dates request entry = true ↔
      (∀ role, request.role = some role → entry.role = role) ∧ InTime dates request entry := by
  have hrole : (request.role.any fun role => decide (role ≠ entry.role)) = true ↔
      ¬∀ role, request.role = some role → entry.role = role := by
    rw [Option.any_eq_true]
    push Not
    refine exists_congr fun role => and_congr_right fun _ => ?_
    rw [decide_eq_true_iff, ne_comm]
  have hopen : (request.since.isNone && request.before.isNone) = true ↔
      request.since = none ∧ request.before = none := by
    rw [Bool.and_eq_true, Option.isNone_iff_eq_none, Option.isNone_iff_eq_none]
  unfold passes InTime
  split_ifs with hother hnone
  · exact iff_of_false id fun h => hrole.mp hother h.1
  · rw [hrole, not_not] at hother
    exact iff_of_true rfl ⟨hother, .inl (hopen.mp hnone)⟩
  · rw [hrole, not_not] at hother
    rw [hopen] at hnone
    rw [and_iff_right hother, or_iff_right hnone]
    cases dates.stamp entry.at_ with
    | none => simp
    | some moment => simp [Option.all_eq_true]

theorem excerpt_isSome (u : Unicode) {text : String} {token : Token} (h : token ∈ tokenize u text)
    (leadChars width : ℕ) : (excerpt text token.start leadChars width).isSome := by
  obtain ⟨i, j, -, -, rfl, -⟩ := (tokenize_spec u text).2 token h
  have hslice := (slices_append (text.toList.take i) (text.toList.drop i)).2.1
  rw [List.take_append_drop] at hslice
  rw [excerpt, Option.isSome_map]
  show (sliceTo text.toList (String.utf8Len (text.toList.take i))).isSome
  rw [hslice]
  rfl

/-- An entry is a candidate when it holds every required unit and some unit; no snippet is cut inside
a character. -/
theorem candidateOf_spec (u : Unicode) {units : List QueryUnit}
    (hunits : ∀ unit ∈ units, unit.words ≠ []) (id : ℕ) (entry : Entry) :
    ∃ candidate, candidateOf u units id entry (tokenize u entry.text) = some candidate ∧
      (candidate.isSome ↔
        (∀ unit ∈ units, unit.required = true → unit.Contained u (tokenize u entry.text)) ∧
        ∃ unit ∈ units, unit.Contained u (tokenize u entry.text)) ∧
      ∀ hit, candidate = some hit → hit.id = id ∧ hit.role = entry.role ∧ hit.at_ = entry.at_ := by
  -- the names of the source for what the query is compared with
  let tokens := tokenize u entry.text
  let found := units.map fun unit => unit.occurrences u tokens
  let requiredMet := (units.zip found).all fun (unit, count, _) => !unit.required || decide (count > 0)
  let first := (found.filterMap Prod.snd).min?
  have hspec : ∀ unit ∈ units, _ := fun unit hunit =>
    QueryUnit.occurrences_spec u (hunits unit hunit) tokens
  have hrequired : requiredMet = true ↔
      ∀ unit ∈ units, unit.required = true → unit.Contained u tokens := by
    have hzip : units.zip found = units.map fun unit => (unit, unit.occurrences u tokens) := by
      have hboth := List.zip_map' (l := units) (f := fun unit => unit)
        (g := fun unit => unit.occurrences u tokens)
      rwa [List.map_id'] at hboth
    show (units.zip found).all _ = true ↔ _
    rw [hzip, List.all_map, List.all_eq_true]
    refine forall₂_congr fun unit hunit => ?_
    rw [← (hspec unit hunit).1]
    simp [imp_iff_not_or]
  have hmem : ∀ at_, at_ ∈ found.filterMap Prod.snd ↔
      ∃ unit ∈ units, (unit.occurrences u tokens).2 = some at_ := by
    intro at_
    simp [found, List.mem_filterMap]
  -- the snippet starts at the first match, which is there when some unit is
  have hfirst : first.isSome ↔ ∃ unit ∈ units, unit.Contained u tokens := by
    have hsome : first.isSome ↔ ∃ at_, at_ ∈ found.filterMap Prod.snd := by
      rw [← Option.ne_none_iff_isSome, ne_eq, List.min?_eq_none_iff, ← ne_eq]
      exact ⟨List.exists_mem_of_ne_nil _, fun ⟨_, hat⟩ => List.ne_nil_of_mem hat⟩
    rw [hsome]
    constructor
    · rintro ⟨at_, hat⟩
      obtain ⟨unit, hunit, hsome⟩ := (hmem at_).mp hat
      exact ⟨unit, hunit, (hspec unit hunit).2.1.mp (hsome ▸ rfl)⟩
    · rintro ⟨unit, hunit, hcontained⟩
      obtain ⟨at_, hat⟩ := Option.isSome_iff_exists.mp ((hspec unit hunit).2.1.mpr hcontained)
      exact ⟨at_, (hmem at_).mpr ⟨unit, hunit, hat⟩⟩
  -- every match starts at a token, so the excerpt is there
  have hstart : ∀ at_, first = some at_ → ∃ token ∈ tokens, token.start = at_ := by
    intro at_ hat
    obtain ⟨unit, hunit, hsome⟩ := (hmem at_).mp (List.min?_mem hat)
    exact (hspec unit hunit).2.2.2 at_ hsome
  rw [← hrequired, ← hfirst]
  unfold candidateOf
  cases hfiltered : first.filter fun _ => requiredMet with
  | none =>
    refine ⟨none, ?_, ?_, by simp⟩
    · simp only [first, found, requiredMet, tokens] at hfiltered
      simp only [hfiltered]
    · refine iff_of_false (by simp) fun ⟨hmet, hsome⟩ => ?_
      obtain ⟨at_, hat⟩ := Option.isSome_iff_exists.mp hsome
      rw [hat, Option.filter_some, if_pos hmet] at hfiltered
      cases hfiltered
  | some at_ =>
    obtain ⟨hat, hmet⟩ := Option.filter_eq_some_iff.mp hfiltered
    obtain ⟨token, htoken, rfl⟩ := hstart at_ hat
    obtain ⟨snippet, hsnippet⟩ := Option.isSome_iff_exists.mp
      (excerpt_isSome u htoken snippetLeadChars snippetChars)
    let hit : Candidate :=
      ⟨id, entry.role, entry.at_, found.map Prod.fst, tokens.length, snippet⟩
    refine ⟨some hit, ?_, ?_, ?_⟩
    · simp only [first, found, requiredMet, tokens] at hfiltered
      simp only [hfiltered, hsnippet]
      rfl
    · exact iff_of_true rfl ⟨hmet, hat ▸ rfl⟩
    · intro other hother
      obtain rfl := Option.some.inj hother
      exact ⟨rfl, rfl, rfl⟩

/-- What an entry puts on the list of hits. -/
def hitOf (env : Env T S) (request : SearchRequest T) (id : ℕ) (entry : Entry) : Option Candidate :=
  if entry.corrupt || !passes env.dates request entry then none
  else (candidateOf env.unicode request.query.units id entry (tokenize env.unicode entry.text)).getD none

section
variable {env : Env T S} {request : SearchRequest T}
  (hunits : ∀ unit ∈ request.query.units, unit.words ≠ [])
include hunits

theorem hitOf_spec (id : ℕ) (entry : Entry) :
    ((hitOf env request id entry).isSome ↔ Matches env.unicode env.dates request entry) ∧
      ∀ hit, hitOf env request id entry = some hit →
        hit.id = id ∧ hit.role = entry.role ∧ hit.at_ = entry.at_ := by
  obtain ⟨candidate, hcandidate, hsome, hfields⟩ := candidateOf_spec env.unicode hunits id entry
  rw [hitOf, hcandidate, Option.getD_some]
  split_ifs with hskip
  · refine ⟨iff_of_false (by simp) fun hmatches => ?_, fun _ h => nomatch h⟩
    have hpasses := passes_iff.mpr ⟨hmatches.role, hmatches.time⟩
    rw [hmatches.intact, hpasses] at hskip
    exact absurd hskip (by decide)
  · rw [Bool.or_eq_true, Bool.not_eq_true', not_or, Bool.not_eq_true, Bool.not_eq_false] at hskip
    obtain ⟨hrole, htime⟩ := passes_iff.mp hskip.2
    refine ⟨?_, hfields⟩
    rw [hsome]
    exact ⟨fun h => ⟨hskip.1, hrole, htime, h.1, h.2⟩, fun h => ⟨h.required, h.any⟩⟩

/-- A scan never panics, and an entry only adds its own hit. -/
theorem push_spec {scan : Scan T} (hrequest : scan.request = request) (id : ℕ) (entry : Entry) :
    ∃ scan', scan.push env.unicode env.dates id entry = some scan' ∧ scan'.request = request ∧
      scan'.candidates = scan.candidates ++ (hitOf env request id entry).toList := by
  obtain ⟨candidate, hcandidate, -, -⟩ := candidateOf_spec env.unicode hunits id entry
  subst hrequest
  unfold Scan.push hitOf
  split_ifs with hskip
  · exact ⟨scan, rfl, rfl, by simp⟩
  · simp only [hcandidate]
    exact ⟨_, rfl, rfl, rfl⟩

end

/-- The hits of the entries from id `from_` on. -/
def hitsOf (env : Env T S) (request : SearchRequest T) (from_ : ℕ) (entries : List Entry) :
    List Candidate :=
  (entries.zipIdx from_).filterMap fun (entry, id) => hitOf env request id entry

/-- The visitor of `search`. -/
def visitPush (env : Env T S) (scan : Option (Scan T)) (id : ℕ) (entry : Entry) : Option (Scan T) :=
  scan.bind fun scan => scan.push env.unicode env.dates id entry

theorem visitAll_push {env : Env T S} {request : SearchRequest T}
    (hunits : ∀ unit ∈ request.query.units, unit.words ≠ []) (entries : List Entry) (from_ : ℕ)
    {scan : Scan T} (hrequest : scan.request = request) :
    ∃ scan', visitAll (visitPush env) from_ entries (some scan) = some scan' ∧
      scan'.candidates = scan.candidates ++ hitsOf env request from_ entries := by
  induction entries generalizing from_ scan with
  | nil => exact ⟨scan, rfl, by simp [hitsOf]⟩
  | cons entry entries ih =>
    obtain ⟨next, hpush, hnext, hcandidates⟩ := @push_spec T S _ env request hunits scan hrequest from_
      entry
    obtain ⟨last, hlast, hall⟩ := ih (from_ + 1) hnext
    refine ⟨last, ?_, ?_⟩
    · rw [← hlast, ← hpush]
      rfl
    · rw [hall, hcandidates, List.append_assoc]
      congr 1
      simp only [hitsOf, List.zipIdx_cons, List.filterMap_cons]
      cases hitOf env request from_ entry <;> rfl

/-- The cursor takes no part in the scan. -/
def SearchRequest.at_ (request : SearchRequest T) (cursor : Option SearchCursor) : SearchRequest T :=
  { request with cursor := cursor }

def Scan.at_ (scan : Scan T) (cursor : Option SearchCursor) : Scan T :=
  { scan with request := scan.request.at_ cursor }

theorem visitAll_at (env : Env T S) (cursor : Option SearchCursor) (entries : List Entry) (from_ : ℕ)
    (scan : Option (Scan T)) :
    visitAll (visitPush env) from_ entries (scan.map (Scan.at_ · cursor)) =
      (visitAll (visitPush env) from_ entries scan).map (Scan.at_ · cursor) := by
  induction entries generalizing from_ scan with
  | nil => rfl
  | cons entry entries ih =>
    have hvisit : visitPush env (scan.map (Scan.at_ · cursor)) from_ entry =
        (visitPush env scan from_ entry).map (Scan.at_ · cursor) := by
      cases scan with
      | none => rfl
      | some scan =>
        show Scan.push _ _ (scan.at_ cursor) _ _ = (Scan.push _ _ scan _ _).map _
        unfold Scan.push
        have hpasses : passes env.dates (scan.at_ cursor).request entry =
          passes env.dates scan.request entry := rfl
        rw [hpasses]
        split_ifs
        · rfl
        · rw [Option.map_map]
          rfl
    have hrest := ih (from_ + 1) (visitPush env scan from_ entry)
    rw [← hvisit] at hrest
    exact hrest

theorem mem_hitsOf {env : Env T S} {request : SearchRequest T} {entries : List Entry}
    {hit : Candidate} :
    hit ∈ hitsOf env request 0 entries ↔
      ∃ i entry, entries[i]? = some entry ∧ hitOf env request i entry = some hit := by
  rw [hitsOf, List.mem_filterMap]
  constructor
  · rintro ⟨⟨entry, i⟩, hin, hhit⟩
    exact ⟨i, entry, List.mk_mem_zipIdx_iff_getElem?.mp hin, hhit⟩
  · rintro ⟨i, entry, hget, hhit⟩
    exact ⟨(entry, i), List.mk_mem_zipIdx_iff_getElem?.mpr hget, hhit⟩

/-- The order of the hits: by score and then by id, the higher ones first. -/
def Ahead [LinearOrder S] (rank : Candidate → S) (a b : Candidate) : Prop :=
  rank b < rank a ∨ rank a = rank b ∧ b.id < a.id

section
variable {env : Env T S} {request : SearchRequest T}
  (hunits : ∀ unit ∈ request.query.units, unit.words ≠ [])
include hunits

theorem pairwise_hitsOf (entries : List Entry) :
    (hitsOf env request 0 entries).Pairwise fun a b => a.id < b.id := by
  have hids : (entries.zipIdx).Pairwise fun a b => a.2 < b.2 := by
    rw [← List.pairwise_map (f := Prod.snd) (R := (· < ·)), List.zipIdx_map_snd]
    exact List.pairwise_lt_range'
  rw [hitsOf, List.pairwise_filterMap]
  apply hids.imp
  rintro ⟨entry, i⟩ ⟨entry', i'⟩ hlt hit hhit hit' hhit'
  have hspec := @hitOf_spec T S _ env request hunits
  rw [((hspec i entry).2 hit hhit).1, ((hspec i' entry').2 hit' hhit').1]
  exact hlt

/-- The ids of the hits are those of the entries that the request asks for. -/
theorem exists_mem_hitsOf {entries : List Entry} {i : ℕ} :
    (∃ hit ∈ hitsOf env request 0 entries, hit.id = i) ↔
      ∃ entry, entries[i]? = some entry ∧ Matches env.unicode env.dates request entry := by
  constructor
  · rintro ⟨hit, hin, rfl⟩
    obtain ⟨i, entry, hget, hhit⟩ := mem_hitsOf.mp hin
    have hspec := @hitOf_spec T S _ env request hunits i entry
    rw [(hspec.2 hit hhit).1]
    exact ⟨entry, hget, hspec.1.mp (hhit ▸ rfl)⟩
  · rintro ⟨entry, hget, hmatches⟩
    have hspec := @hitOf_spec T S _ env request hunits i entry
    obtain ⟨hit, hhit⟩ := Option.isSome_iff_exists.mp (hspec.1.mpr hmatches)
    exact ⟨hit, mem_hitsOf.mpr ⟨i, entry, hget, hhit⟩, (hspec.2 hit hhit).1⟩

end

variable [LinearOrder S]

omit [LinearOrder T] in
/-- Sorting keeps the candidates and puts them into the order of the hits. -/
theorem ranked_spec (env : Env T S) {scan : Scan T}
    (hids : scan.candidates.Pairwise fun a b => a.id < b.id) :
    (scan.ranked env).Perm scan.candidates ∧
      (scan.ranked env).Pairwise (Ahead (scan.score env)) := by
  let le := fun a b : S × Candidate => decide (b.1 < a.1 ∨ a.1 = b.1 ∧ b.2.id ≤ a.2.id)
  let scored := scan.candidates.map fun c => (scan.score env c, c)
  have hperm : (scored.mergeSort le).Perm scored := List.mergeSort_perm scored le
  have hcandidates : scored.map Prod.snd = scan.candidates := by
    rw [List.map_map]
    exact List.map_id' _
  have hranked : (scan.ranked env).Perm scan.candidates := by
    have hmap := hperm.map Prod.snd
    rwa [hcandidates] at hmap
  refine ⟨hranked, ?_⟩
  have hsorted : (scored.mergeSort le).Pairwise fun a b => le a b = true := by
    apply List.pairwise_mergeSort
    · intro a b c hab hbc
      simp only [le, decide_eq_true_eq] at hab hbc ⊢
      obtain hab | hab := hab <;> obtain hbc | hbc := hbc
      · exact .inl (hbc.trans hab)
      · exact .inl (hbc.1 ▸ hab)
      · exact .inl (hab.1 ▸ hbc)
      · exact .inr ⟨hab.1.trans hbc.1, hbc.2.trans hab.2⟩
    · intro a b
      simp only [le, Bool.or_eq_true, decide_eq_true_eq]
      obtain hlt | heq | hgt := lt_trichotomy a.1 b.1
      · exact .inr (.inl hlt)
      · obtain hle | hle := Nat.le_total a.2.id b.2.id
        · exact .inr (.inr ⟨heq.symm, hle⟩)
        · exact .inl (.inr ⟨heq, hle⟩)
      · exact .inl (.inl hgt)
  -- no two candidates have one id, so the order is strict
  have hdistinct : (scan.ranked env).Pairwise fun a b => a.id ≠ b.id :=
    hranked.symm.pairwise (hids.imp Nat.ne_of_lt) Ne.symm
  have hscore : ∀ p ∈ scored.mergeSort le, p.1 = scan.score env p.2 := by
    intro p hp
    obtain ⟨candidate, -, rfl⟩ := List.mem_map.mp (hperm.mem_iff.mp hp)
    rfl
  have hpairs := List.pairwise_map.mp hdistinct
  show ((scored.mergeSort le).map Prod.snd).Pairwise _
  rw [List.pairwise_map]
  apply (hsorted.and hpairs).imp_of_mem
  intro a b ha hb hab
  obtain ⟨hle, hne⟩ := hab
  rw [Ahead, ← hscore a ha, ← hscore b hb]
  obtain hlt | ⟨heq, hid⟩ := of_decide_eq_true hle
  · exact .inl hlt
  · exact .inr ⟨heq, Nat.lt_of_le_of_ne hid hne.symm⟩

end Ralph.ChatMemory.Search
