import Ralph.ChatMemory.Search.Pages

namespace Ralph.ChatMemory.Search
open Fallible

variable {T S : Type} [LinearOrder T] [LinearOrder S]

/-- An archive over the log with an index that a scan can rely on. -/
structure Opened (J : Json) (log : Bytes) (limit : ℕ) (a : Archive) : Prop where
  log_eq : a.log = log
  reliable : Reliable J limit a 0

theorem opened_of_open (J : Json) (log tree : Bytes) (kLog kTree : Option ℕ) (limit : ℕ) :
    ∃ a, Archive.open_ J log (storedAt logSlot log kLog) tree (storedAt (nodeSlot J) tree kTree) =
      .ok a ∧ Opened J log limit a := by
  obtain ⟨a, hopen, hlog, -, hcurrent⟩ := Archive.open_storedAt J log tree kLog kTree
  exact ⟨a, hopen, hlog, reliable_built hcurrent.log 0⟩

/-- A search call on an archive shows a page. -/
def Shows (env : Env T S) (limit : ℕ) (a : Archive) (args : JsonValue) (page : SearchPage) : Prop :=
  ∃ request count ranked a', parseSearchArgs env.unicode env.dates args = .ok request ∧
    searchRanked env limit a request = some (.ok (.ok (count, ranked), a')) ∧
    page = pageOf request count ranked

theorem length_hits_le {env : Env T S} {limit : ℕ} {a : Archive} {args : JsonValue}
    {request : SearchRequest T} {page : SearchPage}
    (hparse : parseSearchArgs env.unicode env.dates args = .ok request)
    (h : Shows env limit a args page) : page.hits.length ≤ request.limit := by
  obtain ⟨request', count, ranked, -, hparse', -, rfl⟩ := h
  obtain rfl := Except.ok.inj (hparse'.symm.trans hparse)
  rw [pageOf, List.length_drop, List.length_take]
  omega

/-- The calls that follow the next cursor from one page to the next, with the pages before the last. -/
inductive Pages (env : Env T S) (log : Bytes) (limit : ℕ) (args : JsonValue) :
    JsonValue → List SearchPage → SearchPage → Prop
  | first {a : Archive} {page : SearchPage} (opened : Opened env.json log limit a)
      (shows : Shows env limit a args page) : Pages env log limit args args [] page
  | next {call call' : JsonValue} {before : List SearchPage} {page page' : SearchPage}
      {cursor : SearchCursor} {a : Archive} (pages : Pages env log limit args call before page)
      (next : page.next = some cursor) (call_next : NextCall call call' cursor)
      (opened : Opened env.json log limit a) (shows : Shows env limit a call' page') :
      Pages env log limit args call' (before ++ [page]) page'

/-- The page that begins at an offset. -/
def pageFrom (request : SearchRequest T) (count : ℕ) (hits : List Candidate) (offset : ℕ) : SearchPage :=
  ⟨(hits.drop offset).take request.limit,
    if offset + request.limit < hits.length then
      some ⟨offset + request.limit, count, request.fingerprint⟩
    else none⟩

omit [LinearOrder T] in
theorem pageOf_at (request : SearchRequest T) (count : ℕ) {hits : List Candidate}
    {cursor : Option SearchCursor} {offset : ℕ} (hoffset : cursor.elim 0 SearchCursor.offset = offset)
    (hle : offset ≤ hits.length) :
    pageOf (request.at_ cursor) count hits = pageFrom request count hits offset := by
  have hmin : min (cursor.elim 0 SearchCursor.offset) hits.length = offset := by omega
  unfold pageOf pageFrom
  show SearchPage.mk ((hits.take (min (min (cursor.elim 0 SearchCursor.offset) hits.length +
    request.limit) hits.length)).drop (min (cursor.elim 0 SearchCursor.offset) hits.length)) _ = _
  simp only [SearchRequest.at_, hmin]
  congr 1
  · rw [List.drop_take]
    obtain hshort | hlong := Nat.le_total (offset + request.limit) hits.length
    · rw [min_eq_left hshort, Nat.add_sub_cancel_left]
    · rw [min_eq_right hlong, List.take_of_length_le, List.take_of_length_le]
      · rw [List.length_drop]
        omega
      · rw [List.length_drop]
  · by_cases hmore : offset + request.limit < hits.length
    · rw [if_pos hmore, min_eq_left hmore.le, if_pos hmore]
    · rw [if_neg hmore, if_neg (by omega)]

/-- What a search finds on each archive over the log: the cursor only has to be accepted. -/
def Finds (env : Env T S) (log : Bytes) (limit : ℕ) (request : SearchRequest T)
    (hits : List Candidate) : Prop :=
  ∀ a, Opened env.json log limit a → ∀ cursor, checkFingerprint (request.at_ cursor) = .ok () →
    ∃ a', searchRanked env limit a (request.at_ cursor) =
      some (.ok ((checkCursor (request.at_ cursor) (visible env.json log limit).length).map
        fun _ => ((visible env.json log limit).length, hits), a'))

theorem finds_ranked (env : Env T S) (log : Bytes) (limit : ℕ) {request : SearchRequest T}
    (hunits : ∀ unit ∈ request.query.units, unit.words ≠ []) :
    ∃ scan : Scan T, scan.candidates = hitsOf env request 0 (visible env.json log limit) ∧
      Finds env log limit request (scan.ranked env) := by
  let entries := visible env.json log limit
  obtain ⟨scan, hvisit, hcandidates⟩ :=
    @visitAll_push T S _ env request hunits entries 0 (Scan.new request) rfl
  refine ⟨scan, hcandidates, fun a ha cursor haccepted => ?_⟩
  obtain ⟨rfl, hreliable⟩ := ha
  obtain ⟨a', hscan, -⟩ := scanEntries_reliable (visitPush env) hreliable chunkEntries
    (some ((Scan.new request).at_ cursor))
  have hat : visitAll (visitPush env) 0 entries (some ((Scan.new request).at_ cursor)) =
      some (scan.at_ cursor) := by
    have hmap := visitAll_at env cursor entries 0 (some (Scan.new request))
    rwa [hvisit] at hmap
  rw [hat] at hscan
  refine ⟨a', ?_⟩
  have hloop : scanEntries env.json limit (fun (scan : Option (Scan T)) id entry =>
      scan.bind fun scan => scan.push env.unicode env.dates id entry) a chunkEntries
      (some (Scan.new (request.at_ cursor))) = .ok (some (scan.at_ cursor), entries.length, a') := hscan
  simp only [searchRanked, haccepted, hloop, Option.map_some]
  cases checkCursor (request.at_ cursor) entries.length <;> rfl

/-- The call is read as the request, at the cursor of a page that ended at the offset. -/
def ReadsAt (env : Env T S) (request : SearchRequest T) (count : ℕ) (args : JsonValue) (offset : ℕ) :
    Prop :=
  ∃ cursor, parseSearchArgs env.unicode env.dates args = .ok (request.at_ cursor) ∧
    ((cursor = none ∧ offset = 0) ∨ cursor = some ⟨offset, count, request.fingerprint⟩)

section
variable {env : Env T S} {log : Bytes} {limit : ℕ} {args : JsonValue} {request : SearchRequest T}
  {hits : List Candidate} {offset : ℕ}

/-- A call at an offset shows the page that begins there, and no other. -/
theorem shows_iff (hfinds : Finds env log limit request hits)
    (hreads : ReadsAt env request (visible env.json log limit).length args offset)
    (hle : offset ≤ hits.length) {a : Archive} (ha : Opened env.json log limit a) (page : SearchPage) :
    Shows env limit a args page ↔
      page = pageFrom request (visible env.json log limit).length hits offset := by
  obtain ⟨cursor, hparse, hcursor⟩ := hreads
  have haccepted : checkFingerprint (request.at_ cursor) = .ok () ∧
      checkCursor (request.at_ cursor) (visible env.json log limit).length = .ok () ∧
      cursor.elim 0 SearchCursor.offset = offset := by
    obtain ⟨rfl, rfl⟩ | rfl := hcursor
    · exact ⟨rfl, rfl, rfl⟩
    · simp [checkFingerprint, checkCursor, SearchRequest.at_]
  obtain ⟨hfingerprint, hcount, hoffset⟩ := haccepted
  obtain ⟨a', hsearch⟩ := hfinds a ha cursor hfingerprint
  rw [hcount] at hsearch
  rw [← pageOf_at request _ hoffset hle]
  constructor
  · rintro ⟨request', count, ranked, b, hparse', hsearch', rfl⟩
    obtain rfl := Except.ok.inj (hparse.symm.trans hparse')
    rw [hsearch] at hsearch'
    simp only [Except.map, Option.some.injEq, Except.ok.injEq, Prod.mk.injEq] at hsearch'
    obtain ⟨⟨rfl, rfl⟩, -⟩ := hsearch'
    rfl
  · rintro rfl
    exact ⟨_, _, _, a', hparse, hsearch, rfl⟩

omit [LinearOrder S] in
/-- The next call goes on where the page has ended. -/
theorem readsAt_next {count : ℕ} (hreads : ReadsAt env request count args offset)
    (hcount : count ≤ usizeMax) (hhits : hits.length ≤ usizeMax) {cursor : SearchCursor}
    (hnext : (pageFrom request count hits offset).next = some cursor) {args' : JsonValue}
    (hcall : NextCall args args' cursor) :
    offset + request.limit < hits.length ∧ ReadsAt env request count args' (offset + request.limit) := by
  obtain ⟨last, hparse, -⟩ := hreads
  unfold pageFrom at hnext
  simp only at hnext
  split_ifs at hnext with hmore
  obtain rfl := Option.some.inj hnext
  have hoffset : offset + request.limit ≤ usizeMax := by omega
  exact ⟨hmore, _, parse_nextCall hparse hcall hoffset hcount, .inr rfl⟩

/-- The pages so far show the hits in front of an offset, and the last page begins there. -/
theorem pages_reach (hfinds : Finds env log limit request hits)
    (hfirst : ReadsAt env request (visible env.json log limit).length args 0)
    (hcount : (visible env.json log limit).length ≤ usizeMax) (hhits : hits.length ≤ usizeMax)
    {call : JsonValue} {before : List SearchPage} {page : SearchPage}
    (hpages : Pages env log limit args call before page) :
    ReadsAt env request (visible env.json log limit).length call (before.length * request.limit) ∧
      (before = [] ∨ before.length * request.limit < hits.length) ∧
      page = pageFrom request (visible env.json log limit).length hits
        (before.length * request.limit) ∧
      before.flatMap SearchPage.hits = hits.take (before.length * request.limit) := by
  induction hpages with
  | first ha hshows =>
    have hstart : ReadsAt env request (visible env.json log limit).length args
        ((@List.nil SearchPage).length * request.limit) := by
      rwa [List.length_nil, Nat.zero_mul]
    refine ⟨hstart, .inl rfl, ?_, ?_⟩
    · exact (shows_iff hfinds hstart (by simp) ha _).mp hshows
    · simp
  | @next call call' before page page' cursor a _ hnext hcall ha hshows ih =>
    obtain ⟨hreads, -, rfl, hshown⟩ := ih
    obtain ⟨hmore, hreads'⟩ := readsAt_next hreads hcount hhits hnext hcall
    have hend : (before ++ [pageFrom request (visible env.json log limit).length hits
        (before.length * request.limit)]).length * request.limit =
        before.length * request.limit + request.limit := by
      rw [List.length_append, List.length_singleton, Nat.add_mul, Nat.one_mul]
    rw [hend]
    refine ⟨hreads', .inr hmore, ?_, ?_⟩
    · exact (shows_iff hfinds hreads' hmore.le ha _).mp hshows
    · rw [List.flatMap_append, hshown, List.flatMap_singleton, List.take_add]
      rfl

end

/-- The hits are the entries that the request asks for, each under its own id. -/
structure ListsMatches (env : Env T S) (entries : List Entry) (request : SearchRequest T)
    (hits : List Candidate) : Prop where
  distinct : (hits.map Candidate.id).Nodup
  sound : ∀ hit ∈ hits, ∃ entry, entries[hit.id]? = some entry ∧
    Matches env.unicode env.dates request entry ∧ hit.role = entry.role ∧ hit.at_ = entry.at_
  complete : ∀ (i : ℕ) (entry : Entry), entries[i]? = some entry →
    Matches env.unicode env.dates request entry → ∃ hit ∈ hits, hit.id = i

omit [LinearOrder S] in
theorem ListsMatches.length_eq {env : Env T S} {entries : List Entry} {request : SearchRequest T}
    {hits : List Candidate} (h : ListsMatches env entries request hits)
    (hall : ∀ entry ∈ entries, Matches env.unicode env.dates request entry) :
    hits.length = entries.length := by
  have hids : (hits.map Candidate.id).Perm (List.range entries.length) := by
    rw [List.perm_ext_iff_of_nodup h.distinct List.nodup_range]
    intro i
    rw [List.mem_map, List.mem_range]
    constructor
    · rintro ⟨hit, hmem, rfl⟩
      obtain ⟨entry, hentry, -⟩ := h.sound hit hmem
      exact (List.getElem?_eq_some_iff.mp hentry).1
    · intro hi
      exact h.complete i _ (List.getElem?_eq_getElem hi) (hall _ (List.getElem_mem hi))
  simpa using hids.length_eq

/-- Following the next cursor shows the hits in their order, each on one page, and comes to an end. -/
structure Traverses (env : Env T S) (log : Bytes) (limit : ℕ) (args : JsonValue)
    (hits : List Candidate) : Prop where
  starts : ∀ a, Opened env.json log limit a → ∃ page, Shows env limit a args page
  shown : ∀ call before page, Pages env log limit args call before page →
    (before ++ [page]).flatMap SearchPage.hits <+: hits
  ends : ∀ call before page, Pages env log limit args call before page →
    before.length < max 1 hits.length
  all : ∀ call before page, Pages env log limit args call before page → page.next = none →
    (before ++ [page]).flatMap SearchPage.hits = hits
  goes_on : ∀ call before page, Pages env log limit args call before page →
    ∀ cursor, page.next = some cursor → (∃ call', NextCall call call' cursor) ∧
      ∀ call', NextCall call call' cursor → ∀ a, Opened env.json log limit a →
        ∃ page', Shows env limit a call' page'

omit [LinearOrder S] in
theorem listsMatches_of_perm {env : Env T S} {entries : List Entry} {request : SearchRequest T}
    (hunits : ∀ unit ∈ request.query.units, unit.words ≠ []) {hits : List Candidate}
    (hperm : hits.Perm (hitsOf env request 0 entries)) : ListsMatches env entries request hits := by
  have hspec := @hitOf_spec T S _ env request hunits
  refine ⟨?_, ?_, ?_⟩
  · apply (hperm.map Candidate.id).nodup_iff.mpr
    apply List.Pairwise.map Candidate.id (fun _ _ h => h)
    exact (@pairwise_hitsOf T S _ env request hunits entries).imp Nat.ne_of_lt
  · intro hit hin
    obtain ⟨i, entry, hget, hhit⟩ := mem_hitsOf.mp (hperm.mem_iff.mp hin)
    obtain ⟨hsome, hfields⟩ := hspec i entry
    obtain ⟨rfl, hrole, hat⟩ := hfields hit hhit
    exact ⟨entry, hget, hsome.mp (hhit ▸ rfl), hrole, hat⟩
  · intro i entry hget hmatches
    obtain ⟨hit, hin, hid⟩ := (exists_mem_hitsOf hunits).mpr ⟨entry, hget, hmatches⟩
    exact ⟨hit, hperm.mem_iff.mpr hin, hid⟩

omit [LinearOrder T] in
theorem SearchRequest.at_of_none {request : SearchRequest T} (h : request.cursor = none) :
    request.at_ none = request := by
  rw [SearchRequest.at_, ← h]

theorem traverses_of_finds {env : Env T S} {log : Bytes} {limit : ℕ} {args : JsonValue}
    {request : SearchRequest T} {hits : List Candidate} (hfinds : Finds env log limit request hits)
    (hparse : parseSearchArgs env.unicode env.dates args = .ok request) (hfirst : request.cursor = none)
    (hcount : (visible env.json log limit).length ≤ usizeMax) (hhits : hits.length ≤ usizeMax) :
    Traverses env log limit args hits := by
  have hlimit := (parsed_of_parseSearchArgs hparse).limit
  have hstart : ReadsAt env request (visible env.json log limit).length args 0 := by
    refine ⟨none, ?_, .inl ⟨rfl, rfl⟩⟩
    rwa [SearchRequest.at_of_none hfirst]
  have hreach := @pages_reach T S _ _ env log limit args request hits hfinds hstart hcount hhits
  refine ⟨?_, ?_, ?_, ?_, ?_⟩
  · exact fun a ha => ⟨_, (shows_iff hfinds hstart (Nat.zero_le _) ha _).mpr rfl⟩
  · intro call before page hpages
    obtain ⟨-, -, rfl, hshown⟩ := hreach hpages
    rw [List.flatMap_append, hshown, List.flatMap_singleton]
    show hits.take _ ++ (hits.drop _).take _ <+: hits
    rw [← List.take_add]
    exact List.take_prefix _ _
  · intro call before page hpages
    obtain ⟨-, hbefore, -, -⟩ := hreach hpages
    obtain rfl | hbefore := hbefore
    · exact Nat.lt_of_lt_of_le Nat.one_pos (le_max_left _ _)
    · have hle := Nat.le_mul_of_pos_right before.length hlimit
      omega
  · intro call before page hpages hnone
    obtain ⟨-, -, rfl, hshown⟩ := hreach hpages
    unfold pageFrom at hnone
    simp only at hnone
    split_ifs at hnone with hmore
    rw [List.flatMap_append, hshown, List.flatMap_singleton]
    show hits.take _ ++ (hits.drop _).take _ = hits
    rw [← List.take_add, List.take_of_length_le (not_lt.mp hmore)]
  -- the cursor of a page leads to the next one
  · intro call before page hpages cursor hnext
    obtain ⟨hreads, -, rfl, -⟩ := hreach hpages
    refine ⟨?_, fun call' hcall a ha => ?_⟩
    · obtain ⟨last, hread, -⟩ := hreads
      exact exists_nextCall call cursor (parsed_of_parseSearchArgs hread).args
    · obtain ⟨hmore, hreads'⟩ := readsAt_next hreads hcount hhits hnext hcall
      exact ⟨_, (shows_iff hfinds hreads' hmore.le ha _).mpr rfl⟩

/-- A traversal can be followed to its last page. -/
theorem Traverses.exists_complete {env : Env T S} {log : Bytes} {limit : ℕ} {args : JsonValue}
    {hits : List Candidate} (h : Traverses env log limit args hits) {a : Archive}
    (ha : Opened env.json log limit a) :
    ∃ call before page, Pages env log limit args call before page ∧ page.next = none := by
  by_contra! hopen
  -- no run would be the longest one
  have hlong : ∀ n : ℕ, ∃ call before page, Pages env log limit args call before page ∧
      before.length = n := by
    intro n
    induction n with
    | zero =>
      obtain ⟨page, hshows⟩ := h.starts a ha
      exact ⟨args, [], page, .first ha hshows, rfl⟩
    | succ n ih =>
      obtain ⟨call, before, page, hpages, rfl⟩ := ih
      obtain ⟨cursor, hnext⟩ := Option.ne_none_iff_exists'.mp (hopen call before page hpages)
      obtain ⟨⟨call', hcall⟩, hgoes⟩ := h.goes_on call before page hpages cursor hnext
      obtain ⟨page', hshows⟩ := hgoes call' hcall a ha
      exact ⟨call', before ++ [page], page', .next hpages hnext hcall ha hshows, by simp⟩
  obtain ⟨call, before, page, hpages, hlen⟩ := hlong (max 1 hits.length)
  exact absurd hlen (h.ends call before page hpages).ne

/-- Two requests with one query, one set of filters and one limit. -/
def SameSearch (request request' : SearchRequest T) : Prop :=
  request.query = request'.query ∧ request.role = request'.role ∧
    request.since = request'.since ∧ request.before = request'.before ∧
    request.limit = request'.limit

section
variable {env : Env T S} {log : Bytes} {limit : ℕ} {request : SearchRequest T} {cursor : SearchCursor}

/-- A cursor of another search is refused, unless the hashes of both keys collide. -/
theorem refused_of_other (hu : env.unicode.Lawful) (hdates : env.dates.Lawful) {args args' : JsonValue}
    {request' : SearchRequest T} (hparse : parseSearchArgs env.unicode env.dates args = .ok request)
    (hparse' : parseSearchArgs env.unicode env.dates args' = .ok request')
    (hcursor : request'.cursor = some cursor) (hfingerprint : cursor.fingerprint = request.fingerprint)
    (hother : ¬SameSearch request request')
    (hhash : fingerprint env.dates request = fingerprint env.dates request' →
      searchKey env.dates request = searchKey env.dates request') (a : Archive) :
    searchRanked env limit a request' = some (.ok (.error "cursor does not match this query", a)) := by
  have hparsed := parsed_of_parseSearchArgs hparse
  have hparsed' := parsed_of_parseSearchArgs hparse'
  have hne : cursor.fingerprint ≠ request'.fingerprint := by
    intro heq
    rw [hfingerprint, hparsed.fingerprint, hparsed'.fingerprint] at heq
    exact hother (searchKey_inj hu hdates hparsed hparsed' (hhash heq))
  have hrefused : checkFingerprint request' = .error "cursor does not match this query" := by
    simp only [checkFingerprint, hcursor, if_pos hne]
  rw [searchRanked, hrefused]

/-- A cursor of a log with another number of entries is refused. -/
theorem refused_of_count (hunits : ∀ unit ∈ request.query.units, unit.words ≠ [])
    (hcursor : request.cursor = some cursor) (hcount : cursor.count ≠ (visible env.json log limit).length)
    {a : Archive} (ha : Opened env.json log limit a) :
    ∃ message a', searchRanked env limit a request = some (.ok (.error message, a')) := by
  cases haccepted : checkFingerprint request with
  | error message =>
    refine ⟨message, a, ?_⟩
    rw [searchRanked, haccepted]
  | ok x =>
    obtain ⟨scan, -, hfinds⟩ := finds_ranked env log limit hunits
    have hat : request.at_ (some cursor) = request := by
      rw [SearchRequest.at_, ← hcursor]
    have hfound := hfinds a ha (some cursor)
    rw [hat] at hfound
    obtain ⟨a', hsearch⟩ := hfound haccepted
    have hstale : checkCursor request (visible env.json log limit).length =
        .error "stale cursor; the log changed" := by
      simp only [checkCursor, hcursor, if_pos hcount]
    rw [hstale] at hsearch
    exact ⟨_, a', hsearch⟩

end

omit [LinearOrder T] [LinearOrder S] in
theorem length_visible_le (env : Env T S) (log : Bytes) (limit : ℕ) :
    (visible env.json log limit).length ≤ log.length := by
  rw [length_visible, count_logIndex]
  exact (min_le_left _ _).trans (Lines.length_records_le 0 log)

/-- The pages of a search show every entry that it asks for once, in the order of the scores, and come
to an end; the cursor of another search or of another log is refused. -/
theorem search_pages_exact {env : Env T S} (hu : env.unicode.Lawful) (hdates : env.dates.Lawful)
    {log : Bytes} (hlog : log.length ≤ usizeMax) (limit : ℕ) {args : JsonValue}
    {request : SearchRequest T} (hparse : parseSearchArgs env.unicode env.dates args = .ok request)
    (hfirst : request.cursor = none) :
    (∃ (eligible totalLength : ℕ) (frequency : List ℕ) (hits : List Candidate),
      hits.Pairwise (Ahead (env.score eligible totalLength frequency)) ∧
      ListsMatches env (visible env.json log limit) request hits ∧
      Traverses env log limit args hits) ∧
    (∃ call before page, Pages env log limit args call before page ∧ page.next = none) ∧
    ∀ args' request' cursor, parseSearchArgs env.unicode env.dates args' = .ok request' →
      request'.cursor = some cursor →
      (cursor.fingerprint = request.fingerprint → ¬SameSearch request request' →
        (fingerprint env.dates request = fingerprint env.dates request' →
          searchKey env.dates request = searchKey env.dates request') →
        ∀ a, searchRanked env limit a request' =
          some (.ok (.error "cursor does not match this query", a))) ∧
      (cursor.count ≠ (visible env.json log limit).length → ∀ a, Opened env.json log limit a →
        ∃ message a', searchRanked env limit a request' = some (.ok (.error message, a'))) := by
  have hwords : ∀ {args : JsonValue} {request : SearchRequest T},
      parseSearchArgs env.unicode env.dates args = .ok request →
        ∀ unit ∈ request.query.units, unit.words ≠ [] := by
    intro args request hparse unit hunit
    exact ((wellFormed_of_parse hu (parsed_of_parseSearchArgs hparse).query).2 unit hunit).words
  obtain ⟨scan, hcandidates, hfinds⟩ := finds_ranked env log limit (hwords hparse)
  have hids := @pairwise_hitsOf T S _ env request (hwords hparse) (visible env.json log limit)
  rw [← hcandidates] at hids
  obtain ⟨hperm, hsorted⟩ := ranked_spec env hids
  rw [hcandidates] at hperm
  have hcount := (length_visible_le env log limit).trans hlog
  have hhits : (scan.ranked env).length ≤ usizeMax := by
    rw [hperm.length_eq]
    apply (List.length_filterMap_le _ _).trans
    rwa [List.length_zipIdx]
  have htraverses := traverses_of_finds hfinds hparse hfirst hcount hhits
  refine ⟨⟨_, _, _, _, hsorted, listsMatches_of_perm (hwords hparse) hperm, htraverses⟩, ?_, ?_⟩
  · obtain ⟨a, -, ha⟩ := opened_of_open env.json log [] none none limit
    exact htraverses.exists_complete ha
  · intro args' request' cursor hparse' hcursor
    refine ⟨fun hfingerprint hother hhash a => ?_, fun hstale a ha => ?_⟩
    · exact refused_of_other hu hdates hparse hparse' hcursor hfingerprint hother hhash a
    · exact refused_of_count (hwords hparse') hcursor hstale ha

/-- ASCII letters, no dates, and a reader of one line. -/
def asciiEnv : Env ℕ ℕ where
  json :=
    { entry := fun line =>
        if line = [0x7B, 0x7D] then .ok ⟨.user, "2026-01-01", "needle"⟩ else .error "no entry"
      record := fun _ => .error "no record"
      entryText := fun _ => .error "not written"
      recordText := fun _ => .error "not written" }
  unicode := ⟨Char.isAlphanum, fun s => String.ofList (s.toList.map Char.toLower)⟩
  dates := ⟨fun _ => none, fun _ => none, fun moment nanos => some (moment + nanos), fun moment => toString moment⟩
  score := fun _ _ _ hit => hit.counts.sum

theorem asciiEnv_unicode : asciiEnv.unicode.Lawful := by
  refine ⟨?_, ?_, ?_⟩
  · simp only [separators, List.forall_mem_cons]
    exact ⟨rfl, rfl, rfl, List.forall_mem_nil _⟩
  · intro s hs hempty
    have hnil : s.toList.map Char.toLower = [] := String.ofList_eq_empty_iff.mp hempty
    exact hs (String.toList_eq_nil_iff.mp (List.map_eq_nil_iff.mp hnil))
  · intro s c hc hfresh hmem
    have htext : (asciiEnv.unicode.toLowercase s).toList = s.toList.map Char.toLower :=
      String.toList_ofList
    rw [htext] at hmem
    obtain ⟨d, hd, rfl⟩ := List.mem_map.mp hmem
    by_cases hupper : d.val ≥ 'A'.val ∧ d.val ≤ 'Z'.val
    · -- a capital letter gives a letter and no separator
      have hlower : d.toLower.val.toNat = d.val.toNat + 32 := by
        delta Char.toLower
        rw [dif_pos hupper, UInt32.toNat_add]
        have hle : d.val.toNat ≤ 90 := UInt32.le_iff_toNat_le.mp hupper.2
        show (d.val.toNat + 32) % 2 ^ 32 = _
        omega
      have hge : 65 ≤ d.val.toNat := UInt32.le_iff_toNat_le.mp hupper.1
      have hsmall : ∀ x ∈ separators, x.val.toNat < 65 := by
        simp only [separators, List.forall_mem_cons]
        exact ⟨by decide, by decide, by decide, List.forall_mem_nil _⟩
      have hlt := hsmall _ hc
      omega
    · delta Char.toLower at hfresh
      rw [dif_neg hupper] at hfresh
      exact hfresh hd

theorem asciiEnv_dates : asciiEnv.dates.Lawful := by
  refine ⟨?_, ?_, ?_⟩
  · intro a b h
    have hvalue := congrArg (fun s => Nat.ofDigitChars 10 (String.toList s) 0) h
    show a = b
    simpa only [asciiEnv, Nat.toString_eq_ofList_toDigits, String.toList_ofList,
      Nat.ofDigitChars_ten_toDigits] using hvalue
  · intro moment hempty
    have hnil := String.toList_eq_nil_iff.mpr hempty
    simp only [asciiEnv, Nat.toString_eq_ofList_toDigits, String.toList_ofList] at hnil
    exact Nat.toDigits_ne_nil hnil
  · intro moment hmem
    exact absurd (Text.isDigit_of_mem_toString hmem) (by decide)

/-- Three lines that say the same. -/
def needleLog : Bytes := (List.replicate 3 [0x7B, 0x7D, newline]).flatten

def needleArgs : JsonValue := .object [("query", .string "needle"), ("limit", .number "1")]

def needleEntry : Entry := ⟨.user, "2026-01-01", "needle", false⟩

theorem matches_needle {request : SearchRequest ℕ}
    (hparse : parseSearchArgs asciiEnv.unicode asciiEnv.dates needleArgs = .ok request) :
    request.cursor = none ∧ request.limit = 1 ∧
      Matches asciiEnv.unicode asciiEnv.dates request needleEntry := by
  have hunits : Query.unitsOf asciiEnv.unicode ("needle".toList.splitOn '\"') =
      [⟨["needle"], false⟩] := by decide
  have hwords : (tokenize asciiEnv.unicode "needle").map Token.word = ["needle"] := by decide
  have hcontained : QueryUnit.Contained asciiEnv.unicode (tokenize asciiEnv.unicode "needle")
      ⟨["needle"], false⟩ := .run (hwords ▸ List.infix_rfl)
  obtain rfl := Except.ok.inj hparse
  refine ⟨rfl, rfl, ⟨rfl, nofun, .inl ⟨rfl, rfl⟩, ?_, ⟨["needle"], false⟩, ?_, hcontained⟩⟩
  · intro unit hunit _
    change unit ∈ Query.unitsOf asciiEnv.unicode _ at hunit
    rw [hunits, List.mem_singleton] at hunit
    exact hunit ▸ hcontained
  · change _ ∈ Query.unitsOf asciiEnv.unicode _
    rw [hunits]
    exact List.mem_cons_self

/-- Three hits with one on a page: the first page is not the last. -/
theorem search_pages_exact_needle : ∃ request hits,
    parseSearchArgs asciiEnv.unicode asciiEnv.dates needleArgs = .ok request ∧
      ListsMatches asciiEnv (visible asciiEnv.json needleLog 3) request hits ∧
      hits.length = 3 ∧ Traverses asciiEnv needleLog 3 needleArgs hits ∧
      ∃ call before page, Pages asciiEnv needleLog 3 needleArgs call before page ∧
        page.next = none ∧ before ≠ [] ∧ (before ++ [page]).flatMap SearchPage.hits = hits := by
  obtain ⟨request, hparse⟩ : ∃ request,
      parseSearchArgs asciiEnv.unicode asciiEnv.dates needleArgs = .ok request := ⟨_, rfl⟩
  obtain ⟨hcursor, hlimit, hmatches⟩ := matches_needle hparse
  obtain ⟨⟨-, -, -, hits, -, hlists, htraverses⟩, ⟨call, before, page, hpages, hlast⟩, -⟩ :=
    @search_pages_exact ℕ ℕ _ _ asciiEnv asciiEnv_unicode asciiEnv_dates needleLog (by decide) 3
      needleArgs request hparse hcursor
  have hentries : visible asciiEnv.json needleLog 3 = List.replicate 3 needleEntry := by decide
  have hlength : hits.length = 3 := by
    rw [hlists.length_eq, hentries, List.length_replicate]
    intro entry hentry
    rw [hentries] at hentry
    exact List.eq_of_mem_replicate hentry ▸ hmatches
  have hall := htraverses.all call before page hpages hlast
  refine ⟨request, hits, hparse, hlists, hlength, htraverses, call, before, page, hpages, hlast, ?_, hall⟩
  intro hfirst
  have hshort : page.hits.length ≤ 1 := by
    obtain ⟨-, hshows⟩ | hnext := hpages
    · exact hlimit ▸ length_hits_le hparse hshows
    · exact absurd hfirst (by simp)
  rw [hfirst, List.nil_append, List.flatMap_singleton] at hall
  rw [hall] at hshort
  omega

end Ralph.ChatMemory.Search
