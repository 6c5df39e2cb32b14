import Ralph.ChatMemory.ArchiveReads

namespace Ralph.ChatMemory
open Fallible

namespace Archive

/-- `Archive::count`, where `limit` is what `limit_to` has set. -/
def count (a : Archive) (limit : ℕ) : ℕ := min a.logIndex.count limit

/-- The archive with both indexes built from their files. -/
def rebuilt (J : Json) (a : Archive) : Archive :=
  { a with
    logIndex := Index.build logSlot a.log
    treeIndex := Index.build (nodeSlot J) a.tree
    stale := ⟨true, true⟩
    notes := [] }

section
variable {α : Type} {J : Json} {a a' : Archive} {call : Archive → Except IoError (α × Notes)}
  {answer : α} {notes : Notes}

theorem retry_of_ok (h : call a = .ok (answer, notes)) :
    a.retry J call = .ok (answer, { a with notes := notes }) := by
  rw [retry, h]

theorem retry_of_error {e : IoError} (h : call a = .error e) (he : e.kind = .invalidData) :
    a.retry J call =
      (call (a.rebuilt J)).map fun (answer, notes) => (answer, { a.rebuilt J with notes := notes }) := by
  rw [retry, h]
  simp only [if_pos he, refresh, rebuild_eq, ok_bind]
  show (call (a.rebuilt J) >>= _) = _
  cases call (a.rebuilt J) with
  | error e => rfl
  | ok x => rfl

theorem retry_cases (h : a.retry J call = .ok (answer, a')) :
    (∃ notes, call a = .ok (answer, notes) ∧ a' = { a with notes := notes }) ∨
    ∃ e notes, call a = .error e ∧ call (a.rebuilt J) = .ok (answer, notes) ∧
      a' = { a.rebuilt J with notes := notes } := by
  cases hcall : call a with
  | ok x =>
    rw [retry_of_ok hcall, Except.ok.injEq, Prod.mk.injEq] at h
    exact .inl ⟨x.2, by rw [← h.1], h.2.symm⟩
  | error e =>
    by_cases he : e.kind = .invalidData
    · rw [retry_of_error hcall he] at h
      cases hagain : call (a.rebuilt J) with
      | error e => simp [hagain, Except.map] at h
      | ok x =>
        rw [hagain, Except.map, Except.ok.injEq, Prod.mk.injEq] at h
        exact .inr ⟨e, x.2, rfl, by rw [← h.1], h.2.symm⟩
    · rw [retry, hcall] at h
      simp [he] at h

end

end Archive

/-- One load of `scan_entries`: the entries from `from_` on, at most `chunk` of them. -/
def loadChunk (J : Json) (limit chunk from_ : ℕ) (a : Archive) :
    Except IoError ((ℕ × List Entry) × Notes) :=
  let to_ := min (from_ + chunk) (a.count limit)
  (load J a.log a.logIndex a.notes from_ to_).map fun (loaded, notes) => ((to_, loaded), notes)

section
variable {σ : Type} (J : Json) (limit : ℕ) (visit : σ → ℕ → Entry → σ)

/-- `for (id, entry) in (from..).zip(loaded) { visit(id, &entry) }`. -/
def visitAll (from_ : ℕ) (loaded : List Entry) (seen : σ) : σ :=
  (loaded.zipIdx from_).foldl (fun seen (entry, id) => visit seen id entry) seen

/-- One round of `scan_entries`, over the archive, the next id and what was visited. -/
def scanStep (chunk : ℕ) (s : Archive × ℕ × σ) :
    (Archive × ℕ × σ) ⊕ Except IoError (σ × ℕ × Archive) :=
  let (a, from_, seen) := s
  if from_ < a.count limit then
    match a.retry J (loadChunk J limit chunk from_) with
    | .error e => .inr (.error e)
    | .ok ((to_, loaded), a) => .inl (a, to_, visitAll visit from_ loaded seen)
  else .inr (.ok (seen, a.count limit, a))

variable {J limit}

/-- The index of the whole log never makes a load fail. -/
theorem loadChunk_built {a : Archive} (h : a.logIndex = Index.build logSlot a.log) (chunk from_ : ℕ) :
    ∃ notes, loadChunk J limit chunk from_ a =
      .ok ((min (from_ + chunk) (a.count limit),
        ((parseLog J a.log).1.take (min (from_ + chunk) (a.count limit))).drop from_), notes) := by
  have hto : min (from_ + chunk) (a.count limit) ≤ (lineRecords 0 a.log).length := by
    rw [Archive.count, h, count_logIndex]
    omega
  obtain ⟨notes, hload⟩ := load_logIndex J a.log a.notes from_ hto
  refine ⟨notes, ?_⟩
  rw [loadChunk, h, hload]
  rfl

/-- A load that finds the index wrong puts the right one in its place, once for all. -/
def scanMeasure (limit : ℕ) (a : Archive) (from_ : ℕ) : ℕ :=
  (a.count limit - from_) +
    if a.logIndex = Index.build logSlot a.log then 0 else (Index.build logSlot a.log).count + 1

theorem fst_of_loadChunk {chunk from_ : ℕ} {a : Archive} {x : (ℕ × List Entry) × Notes}
    (h : loadChunk J limit chunk from_ a = .ok x) : x.1.1 = min (from_ + chunk) (a.count limit) := by
  unfold loadChunk at h
  cases hload : load J a.log a.logIndex a.notes from_ (min (from_ + chunk) (a.count limit)) with
  | error e => simp [hload, Except.map] at h
  | ok y =>
    simp only [hload, Except.map] at h
    obtain rfl := Except.ok.inj h
    rfl

theorem scanStep_decreases {chunk : ℕ} (hchunk : 0 < chunk) {s s' : Archive × ℕ × σ}
    (h : scanStep J limit visit chunk s = .inl s') :
    scanMeasure limit s'.1 s'.2.1 < scanMeasure limit s.1 s.2.1 := by
  obtain ⟨a, from_, seen⟩ := s
  unfold scanStep at h
  simp only at h
  split_ifs at h with hlt
  cases hretry : a.retry J (loadChunk J limit chunk from_) with
  | error e => simp [hretry] at h
  | ok x =>
    obtain ⟨⟨to_, loaded⟩, a'⟩ := x
    rw [hretry] at h
    obtain rfl := Sum.inl.inj h
    obtain ⟨notes, hload, rfl⟩ | ⟨e, notes, hload, hagain, rfl⟩ := Archive.retry_cases hretry
    · have hto := fst_of_loadChunk hload
      simp only at hto
      simp only [scanMeasure, Archive.count] at hlt hto ⊢
      omega
    · have hwrong : a.logIndex ≠ Index.build logSlot a.log := by
        intro hbuilt
        obtain ⟨notes', hok⟩ := @loadChunk_built J limit a hbuilt chunk from_
        rw [hok] at hload
        cases hload
      simp only [scanMeasure, Archive.rebuilt, Archive.count, if_neg hwrong] at hlt ⊢
      rw [if_pos trivial]
      omega

variable (J limit)

/-- The loop of `scan_entries`. -/
def scanBody (chunk : {n : ℕ // 0 < n}) :
    Loop.Body (Archive × ℕ × σ) (Except IoError (σ × ℕ × Archive)) where
  step := scanStep J limit visit chunk
  measure := fun (a, from_, _) => scanMeasure limit a from_
  decreases _ _ h := scanStep_decreases visit chunk.2 h

/-- Visits every entry in loads of `chunk` entries and returns how many there are. -/
def scanEntries (a : Archive) (chunk : ℕ) (seen : σ) : Except IoError (σ × ℕ × Archive) :=
  (scanBody J limit visit ⟨max chunk 1, by omega⟩).run (a, 0, seen)

variable {J limit visit}

/-- The entries of the log that the limit leaves visible. -/
def visible (J : Json) (log : Bytes) (limit : ℕ) : List Entry := (parseLog J log).1.take limit

theorem length_visible (log : Bytes) :
    (visible J log limit).length = min (Index.build logSlot log).count limit := by
  rw [visible, List.length_take, length_parseLog, min_comm]

theorem take_visible {log : Bytes} {to_ : ℕ} (h : to_ ≤ limit) :
    (visible J log limit).take to_ = (parseLog J log).1.take to_ := by
  rw [visible, List.take_take, min_eq_left h]

/-- What a load from `from_` on relies on. It gives the entries of a whole parse or finds the index
wrong, and an index that does not show every entry has a slot that no load gets past. -/
structure Reliable (J : Json) (limit : ℕ) (a : Archive) (from_ : ℕ) : Prop where
  sound : ∀ notes lo hi, hi ≤ a.count limit →
    (hi ≤ (visible J a.log limit).length ∧ ∃ notes', load J a.log a.logIndex notes lo hi =
      .ok (((visible J a.log limit).take hi).drop lo, notes')) ∨
    ∃ e, load J a.log a.logIndex notes lo hi = .error e ∧ e.kind = .invalidData
  whole : a.count limit = (visible J a.log limit).length ∨
    ∃ bad, from_ ≤ bad ∧ bad < a.count limit ∧ ∀ notes lo hi, lo ≤ bad → bad < hi →
      hi ≤ a.count limit → ∃ e, load J a.log a.logIndex notes lo hi = .error e

/-- The index of the log itself is reliable. -/
theorem reliable_built {a : Archive} (h : a.logIndex = Index.build logSlot a.log) (from_ : ℕ) :
    Reliable J limit a from_ := by
  have hcount : a.count limit = (visible J a.log limit).length := by
    rw [length_visible, Archive.count, h]
  refine ⟨fun notes lo hi hhi => .inl ⟨hcount ▸ hhi, ?_⟩, .inl hcount⟩
  have hlimit : hi ≤ limit := hhi.trans (min_le_right _ _)
  have hlines : hi ≤ (lineRecords 0 a.log).length := by
    rw [Archive.count, h, count_logIndex] at hhi
    omega
  rw [h, take_visible hlimit]
  exact load_logIndex J a.log notes lo hlines

theorem visitAll_append (visit : σ → ℕ → Entry → σ) (from_ : ℕ) (xs ys : List Entry) (seen : σ) :
    visitAll visit (from_ + xs.length) ys (visitAll visit from_ xs seen) =
      visitAll visit from_ (xs ++ ys) seen := by
  rw [visitAll, visitAll, visitAll, List.zipIdx_append, List.foldl_append]

/-- The entries in front of `from_` have been visited in their order. -/
structure Scanned (J : Json) (limit : ℕ) (visit : σ → ℕ → Entry → σ) (log : Bytes) (start : σ)
    (s : Archive × ℕ × σ) : Prop where
  log_eq : s.1.log = log
  le : s.2.1 ≤ (visible J log limit).length
  seen : s.2.2 = visitAll visit 0 ((visible J log limit).take s.2.1) start
  reliable : Reliable J limit s.1 s.2.1

theorem visitAll_take (visit : σ → ℕ → Entry → σ) (start : σ) {entries : List Entry} {from_ to_ : ℕ}
    (hfrom : from_ ≤ entries.length) (hto : from_ ≤ to_) :
    visitAll visit from_ ((entries.take to_).drop from_) (visitAll visit 0 (entries.take from_) start) =
      visitAll visit 0 (entries.take to_) start := by
  have hlen : (entries.take from_).length = from_ := by rw [List.length_take, min_eq_left hfrom]
  have hparts : entries.take from_ ++ (entries.take to_).drop from_ = entries.take to_ := by
    conv_rhs => rw [← List.take_append_drop from_ (entries.take to_)]
    rw [List.take_take, min_eq_left hto]
  have happend := visitAll_append visit 0 (entries.take from_) ((entries.take to_).drop from_) start
  rwa [hlen, Nat.zero_add, hparts] at happend

/-- A round goes on over the next entries, or it ends when all are visited. -/
theorem scanned_step {visit : σ → ℕ → Entry → σ} {log : Bytes} {start : σ} {chunk : ℕ}
    (hchunk : 0 < chunk) {s : Archive × ℕ × σ} (h : Scanned J limit visit log start s) :
    (∃ s', scanStep J limit visit chunk s = .inl s' ∧ Scanned J limit visit log start s') ∨
    ∃ a, scanStep J limit visit chunk s =
        .inr (.ok (visitAll visit 0 (visible J log limit) start, (visible J log limit).length, a)) ∧
      a.log = log := by
  obtain ⟨a, from_, seen⟩ := s
  obtain ⟨hlog, hle, hseen, hsound, hwhole⟩ := h
  simp only at hlog hle hseen hsound hwhole
  subst hlog
  subst hseen
  by_cases hlt : from_ < a.count limit
  · refine .inl ?_
    let to_ := min (from_ + chunk) (a.count limit)
    have hto : from_ < to_ := by omega
    rw [scanStep, if_pos hlt]
    obtain ⟨hhi, notes, hload⟩ | ⟨e, hload, he⟩ := hsound a.notes from_ to_ (min_le_right _ _)
    · have hchunk : loadChunk J limit chunk from_ a =
          .ok ((to_, ((visible J a.log limit).take to_).drop from_), notes) := by
        simp only [loadChunk, hload, to_]
        rfl
      rw [Archive.retry_of_ok hchunk]
      refine ⟨_, rfl, rfl, hhi, visitAll_take visit start hle hto.le, hsound, ?_⟩
      obtain hcount | ⟨bad, hfrom, hbad, hfails⟩ := hwhole
      · exact .inl hcount
      · refine .inr ⟨bad, ?_, hbad, hfails⟩
        -- a load that has succeeded did not reach the bad slot
        by_contra hbefore
        obtain ⟨e, herror⟩ := hfails a.notes from_ to_ hfrom (not_le.mp hbefore) (min_le_right _ _)
        rw [herror] at hload
        cases hload
    · have hfails : loadChunk J limit chunk from_ a = .error e := by
        simp only [loadChunk, to_] at hload ⊢
        rw [hload]
        rfl
      let next := min (from_ + chunk) ((a.rebuilt J).count limit)
      have hcount : (a.rebuilt J).count limit = (visible J a.log limit).length := by
        rw [length_visible]
        rfl
      obtain ⟨notes, hload⟩ := @loadChunk_built J limit (a.rebuilt J) rfl chunk from_
      rw [Archive.retry_of_error hfails he, hload]
      refine ⟨_, rfl, rfl, ?_, ?_, reliable_built rfl _⟩
      · exact (min_le_right _ _).trans hcount.le
      · have hlimit : next ≤ limit := (min_le_right _ _).trans (min_le_right _ _)
        show visitAll visit from_ (((parseLog J a.log).1.take next).drop from_) _ = _
        rw [← take_visible hlimit]
        exact visitAll_take visit start hle (le_min (by omega) (hcount ▸ hle))
  · refine .inr ⟨a, ?_, rfl⟩
    have hcount : a.count limit = (visible J a.log limit).length := by
      obtain hcount | ⟨bad, hfrom, hbad, -⟩ := hwhole
      · exact hcount
      · omega
    rw [scanStep, if_neg hlt, hcount, List.take_of_length_le (by omega)]

/-- A scan visits every visible entry once, in the order of the ids, whatever it finds wrong with
the index on the way. -/
theorem scanEntries_reliable (visit : σ → ℕ → Entry → σ) {a : Archive} (h : Reliable J limit a 0)
    (chunk : ℕ) (start : σ) :
    ∃ a', scanEntries J limit visit a chunk start =
        .ok (visitAll visit 0 (visible J a.log limit) start, (visible J a.log limit).length, a') ∧
      a'.log = a.log := by
  have hchunk : 0 < max chunk 1 := by omega
  let body := scanBody J limit visit ⟨max chunk 1, hchunk⟩
  have hstart : Scanned J limit visit a.log start (a, 0, start) := by
    refine ⟨rfl, Nat.zero_le _, ?_, h⟩
    rw [List.take_zero]
    rfl
  refine body.run_of_invariant (I := fun s => Scanned J limit visit a.log start s)
    (Q := fun r => ∃ a', r = .ok (visitAll visit 0 (visible J a.log limit) start,
      (visible J a.log limit).length, a') ∧ a'.log = a.log) ?_ ?_ hstart
  · intro s s' hs hstep
    obtain ⟨next, hnext, hscanned⟩ | ⟨a', hend, -⟩ := scanned_step hchunk hs
    · exact Sum.inl.inj (hnext.symm.trans hstep) ▸ hscanned
    · cases hend.symm.trans hstep
  · intro s r hs hstep
    obtain ⟨next, hnext, -⟩ | ⟨a', hend, hlog⟩ := scanned_step hchunk hs
    · cases hnext.symm.trans hstep
    · exact ⟨a', (Sum.inr.inj (hend.symm.trans hstep)).symm, hlog⟩

end

end Ralph.ChatMemory
