import Ralph.ChatMemory.Index

namespace Ralph.ChatMemory
open Words

/-- What the round trip through an index file asks of a slot kind. -/
structure Slot.Lawful {S : Type} (K : Slot S) : Prop where
  magic_length : K.magic.length = 8
  bytes_pos : 0 < K.bytes
  write_length : ∀ slot, (K.write slot).length = K.bytes
  start_scan : ∀ bytes line slot, K.scan bytes line = .add slot → K.start slot = line.start
  read_scan : ∀ bytes line slot, K.scan bytes line = .add slot → line.start < line.stop →
    line.stop ≤ usizeMax → K.read (K.write slot) = some slot

theorem logSlot_lawful : logSlot.Lawful where
  magic_length := rfl
  bytes_pos := by decide
  write_length slot := length_leBytes 8 slot
  start_scan bytes line slot h := by
    cases h
    rfl
  read_scan bytes line slot h hlt hle := by
    cases h
    have hw := wordAt_append (k := 8) (n := line.start) [] [] (by unfold usizeMax at hle; omega)
    simpa [logSlot] using hw

theorem recordNode_eq_some {J : Json} (hJ : J.Fits) {bytes : Bytes} {node : Node}
    (h : recordNode J bytes = some node) :
    Node.new node.lo node.hi = .ok node ∧ node.lo ≤ usizeMax ∧ node.hi ≤ usizeMax := by
  unfold recordNode at h
  cases hr : J.record bytes with
  | error e => simp [hr] at h
  | ok r =>
    cases hn : Node.new r.lo r.hi with
    | error e => simp [hr, hn, Except.toOption] at h
    | ok n =>
      obtain rfl : n = node := by simpa [hr, hn, Except.toOption] using h
      obtain ⟨rfl, -⟩ := Node.new_eq_ok_iff.mp hn
      exact ⟨hn, hJ bytes r hr⟩

theorem nodeSlot_lawful {J : Json} (hJ : J.Fits) : (nodeSlot J).Lawful where
  magic_length := rfl
  bytes_pos := Nat.zero_lt_succ 31
  write_length slot := by simp [nodeSlot]
  start_scan bytes line slot h := by
    simp only [nodeSlot] at h
    split at h
    · cases h
      rfl
    · cases h
  read_scan bytes line slot h hlt hle := by
    simp only [nodeSlot] at h ⊢
    cases hn : recordNode J bytes with
    | none => simp [hn] at h
    | some node =>
      obtain ⟨hnew, hlo, hhi⟩ := recordNode_eq_some hJ hn
      simp only [hn, Scan.add.injEq] at h
      subst h
      unfold usizeMax at hle hlo hhi
      have word := fun (i : ℕ) (hi : i < 4)
          (hw : [node.lo, node.hi, line.start, line.stop][i] < 256 ^ 8) =>
        wordAt_flatMap (k := 8) [] [] hi hw
      have h0 := word 0 (by omega) (by simp; omega)
      have h1 := word 1 (by omega) (by simp; omega)
      have h2 := word 2 (by omega) (by simp; omega)
      have h3 := word 3 (by omega) (by simp; omega)
      simp only [List.length_nil, List.nil_append, List.append_nil, Nat.zero_add,
        List.getElem_cons_zero, List.getElem_cons_succ] at h0 h1 h2 h3
      simp only [h0, h1, h2, h3, if_pos hlt, hnew]
      rfl

namespace Index

variable {S : Type}

/-- What `decode` checks, and words that fit their eight bytes. -/
structure Encodable (K : Slot S) (index : Index S) : Prop where
  words : ∀ w ∈ [index.covered, index.tail, index.skipped, index.count], w ≤ usizeMax
  read_write : ∀ slot ∈ index.slots, K.read (K.write slot) = some slot
  ordered : index.slots.Pairwise fun a b => K.start a < K.start b
  inside : ∀ slot ∈ index.slots, K.start slot ≤ index.tail
  tail_ok : index.tail < index.covered ∨ (index.tail = 0 ∧ index.covered = 0)

/-- Every header word fits its eight bytes. -/
theorem Encodable.bits {K : Slot S} {index : Index S} (h : index.Encodable K) :
    ∀ w ∈ [index.covered, index.tail, index.hash.toNat, index.skipped, index.count],
      w < 256 ^ 8 := by
  have hw := h.words
  simp only [usizeMax, List.forall_mem_cons] at hw ⊢
  have hhash := index.hash.toNat_lt
  refine ⟨?_, ?_, ?_, ?_, ?_, by simp⟩ <;> omega

theorem wordAt_encodeHeader {K : Slot S} (hK : K.Lawful) {index : Index S}
    (hbits : ∀ w ∈ [index.covered, index.tail, index.hash.toNat, index.skipped, index.count],
      w < 256 ^ 8) (body : Bytes) {i : ℕ} (hi : i < 5) :
    wordAt 8 (12 + 8 * i) (index.encodeHeader K ++ body) =
      [index.covered, index.tail, index.hash.toNat, index.skipped, index.count][i] := by
  have hw := wordAt_flatMap (k := 8) (K.magic ++ leBytes 4 version) body hi
    (hbits _ (List.getElem_mem hi))
  rw [List.length_append, hK.magic_length, length_leBytes] at hw
  exact hw

theorem length_encodeHeader {K : Slot S} (hK : K.Lawful) (index : Index S) :
    (index.encodeHeader K).length = headerBytes := by
  simp [encodeHeader, hK.magic_length, headerBytes]

theorem length_encodeSlots {K : Slot S} (hK : K.Lawful) (index : Index S) (from_ : ℕ) :
    (index.encodeSlots K from_).length = (index.count - from_) * K.bytes := by
  rw [encodeSlots, length_flatMap hK.write_length, List.length_drop, count]

theorem length_encode {K : Slot S} (hK : K.Lawful) (index : Index S) :
    (index.encode K).length = slotOffset K index.count := by
  rw [encode, List.length_append, length_encodeHeader hK, length_encodeSlots hK, slotOffset,
    Nat.sub_zero]

theorem zip_tail_all_of_pairwise {r : S → S → Prop} [DecidableRel r] {slots : List S}
    (h : slots.Pairwise r) : (slots.zip slots.tail).all fun (a, b) => r a b := by
  induction slots with
  | nil => rfl
  | cons a slots ih =>
    cases slots with
    | nil => rfl
    | cons b slots =>
      rw [List.pairwise_cons] at h
      simpa [h.1 b (by simp)] using ih h.2

theorem mapM_map_of_left_inverse {f : Bytes → Option S} {g : S → Bytes} {slots : List S}
    (h : ∀ slot ∈ slots, f (g slot) = some slot) : (slots.map g).mapM f = some slots := by
  induction slots with
  | nil => rfl
  | cons slot slots ih =>
    rw [List.forall_mem_cons] at h
    simp [List.mapM_cons, h.1, ih h.2]

theorem decode_encode {K : Slot S} (hK : K.Lawful) {index : Index S} (h : index.Encodable K) :
    decode K (index.encode K) = some index := by
  have hlen := length_encode hK index
  have hbits := h.bits
  have hmagic : (index.encode K).take 8 = K.magic := by
    rw [encode, encodeHeader, List.append_assoc, List.append_assoc, List.take_left' hK.magic_length]
  have hversion : wordAt 4 8 (index.encode K) = version := by
    have hw := wordAt_append (k := 4) (n := version) K.magic
      ([index.covered, index.tail, index.hash.toNat, index.skipped, index.count].flatMap
        (leBytes 8) ++ index.encodeSlots K 0) (by decide)
    rw [hK.magic_length] at hw
    rw [encode, encodeHeader, List.append_assoc]
    exact hw
  have hword := fun i hi => wordAt_encodeHeader hK hbits (index.encodeSlots K 0) (i := i) hi
  have hbody : (index.encode K).drop headerBytes = index.encodeSlots K 0 :=
    List.drop_left' (length_encodeHeader hK index)
  have hread : (chunksExact K.bytes (index.encodeSlots K 0)).mapM K.read = some index.slots := by
    rw [encodeSlots, List.drop_zero, chunksExact_flatMap hK.bytes_pos hK.write_length]
    exact mapM_map_of_left_inverse h.read_write
  have hinside : (index.slots.getLast?.elim true fun last => K.start last ≤ index.tail) = true := by
    cases hl : index.slots.getLast? with
    | none => rfl
    | some last => simpa using h.inside last (List.mem_of_getLast? hl)
  have hordered := zip_tail_all_of_pairwise h.ordered
  unfold decode
  rw [if_neg (by simp [hlen, hmagic, slotOffset]), if_neg (by rw [hversion]; simp)]
  rw [← encode] at hword
  simp only [hword 0 (by omega), hword 1 (by omega), hword 2 (by omega), hword 3 (by omega),
    hword 4 (by omega), List.getElem_cons_zero, List.getElem_cons_succ, hbody, hread, hinside,
    hordered, length_encodeSlots hK, Nat.sub_zero, ne_eq, not_true_eq_false, if_false]
  simp [h.tail_ok]

/-- A scanned line is not empty and lies in the data. -/
theorem lineRecord_span {data : Bytes} {s : ℕ × Bytes} (h : s ∈ lineRecords 0 data) :
    0 < s.2.length ∧ s.1 + s.2.length + 1 ≤ data.length := by
  have hend := Lines.end_le_of_mem_records h
  obtain ⟨-, -, -, -, -, hkeep⟩ := Lines.mem_records h
  refine ⟨List.length_pos_iff.mpr ?_, by omega⟩
  intro hnil
  simp [hnil, blank] at hkeep

theorem start_scanned {K : Slot S} (hK : K.Lawful) {s : ℕ × Bytes} {slot : S}
    (h : K.scanned s = some slot) : K.start slot = s.1 := by
  unfold Slot.scanned at h
  cases hs : K.scan s.2 ⟨s.1, s.1 + s.2.length⟩ with
  | skip => simp [hs] at h
  | add slot' =>
    obtain rfl : slot' = slot := by simpa [hs] using h
    exact hK.start_scan _ _ _ hs

theorem read_scanned {K : Slot S} (hK : K.Lawful) {data : Bytes} (hdata : data.length ≤ usizeMax)
    {s : ℕ × Bytes} (hs : s ∈ lineRecords 0 data) {slot : S} (h : K.scanned s = some slot) :
    K.read (K.write slot) = some slot := by
  obtain ⟨hpos, hend⟩ := lineRecord_span hs
  unfold Slot.scanned at h
  cases hscan : K.scan s.2 ⟨s.1, s.1 + s.2.length⟩ with
  | skip => simp [hscan] at h
  | add slot' =>
    obtain rfl : slot' = slot := by simpa [hscan] using h
    exact hK.read_scan _ _ _ hscan (by simp only; omega) (by simp only; omega)

theorem slots_build (K : Slot S) (data : Bytes) :
    (build K data).slots = (lineRecords 0 data).filterMap K.scanned := by
  rw [build_eq]
  rfl

/-- No line holds a slot past `tail`, and every line ends by `covered`. -/
theorem lineRecord_le_tail (K : Slot S) {data : Bytes} {s : ℕ × Bytes}
    (h : s ∈ lineRecords 0 data) :
    s.1 ≤ (build K data).tail ∧ s.1 + s.2.length + 1 ≤ (build K data).covered := by
  have hpair : (lineRecords 0 data).Pairwise _ := Lines.pairwise_records 0 data
  rw [build_eq]
  rcases List.eq_nil_or_concat (lineRecords 0 data) with hl | ⟨init, last, hl⟩
  · simp [hl] at h
  · rw [List.concat_eq_append] at hl
    rw [hl] at h hpair
    have hbefore : ∀ t ∈ init, t.1 + t.2.length < last.1 := fun t ht =>
      (List.pairwise_append.mp hpair).2.2 t ht last (by simp)
    simp only [addRecords, hl, List.getLast?_append, List.getLast?_singleton, Option.some_or,
      Option.map_some, Option.getD_some]
    rcases List.mem_append.mp h with h | h
    · have := hbefore s h
      omega
    · obtain rfl := List.mem_singleton.mp h
      omega

theorem tail_lt_covered (K : Slot S) (data : Bytes) :
    (build K data).tail < (build K data).covered ∨ build K data = empty := by
  rw [build_eq]
  rcases List.eq_nil_or_concat (lineRecords 0 data) with hl | ⟨init, last, hl⟩
  · right
    rw [hl, addRecords_nil]
  · left
    simp only [addRecords, hl, List.concat_eq_append, List.getLast?_append,
      List.getLast?_singleton, Option.some_or, Option.map_some, Option.getD_some]
    omega

theorem covered_le (K : Slot S) (data : Bytes) : (build K data).covered ≤ data.length := by
  obtain ⟨a, b, rfl, -, hlen, -⟩ := exists_covered K data
  rw [← hlen, List.length_append]
  omega

theorem skipped_add_count (K : Slot S) (data : Bytes) :
    (build K data).skipped + (build K data).count = (lineRecords 0 data).length := by
  rw [build_eq, count, addRecords]
  simp only [empty, Nat.zero_add, List.nil_append, List.length_filterMap_eq_countP]
  rw [List.length_eq_countP_add_countP (fun s => (K.scanned s).isNone)]
  congr 2
  funext s
  cases K.scanned s <;> rfl

theorem encodable_build {K : Slot S} (hK : K.Lawful) {data : Bytes}
    (hdata : data.length ≤ usizeMax) : (build K data).Encodable K := by
  have hcovered := covered_le K data
  have htail := tail_lt_covered K data
  have htail_le : (build K data).tail ≤ data.length := by
    rcases htail with h | h
    · omega
    · simp [h, empty]
  have hlines := skipped_add_count K data
  have hlength : (lineRecords 0 data).length ≤ data.length := Lines.length_records_le 0 data
  refine ⟨?_, ?_, ?_, ?_, ?_⟩
  · simp only [List.forall_mem_cons]
    refine ⟨?_, ?_, ?_, ?_, by simp⟩ <;> omega
  · intro slot hslot
    rw [slots_build, List.mem_filterMap] at hslot
    obtain ⟨s, hs, hslot⟩ := hslot
    exact read_scanned hK hdata hs hslot
  · rw [slots_build]
    refine (Lines.pairwise_records 0 data).filterMap _ ?_
    intro s t hst a ha b hb
    rw [start_scanned hK ha, start_scanned hK hb]
    omega
  · intro slot hslot
    rw [slots_build, List.mem_filterMap] at hslot
    obtain ⟨s, hs, hslot⟩ := hslot
    rw [start_scanned hK hslot]
    exact (lineRecord_le_tail K hs).1
  · rcases htail with h | h
    · exact .inl h
    · exact .inr (by simp [h, empty])

end Index

end Ralph.ChatMemory
