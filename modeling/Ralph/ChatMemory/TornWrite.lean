import Ralph.ChatMemory.Refresh

namespace Ralph.ChatMemory
open Words

/-- An index that calls of `extend` have built, over the states of a file that only grows. -/
inductive Built {S : Type} (K : Slot S) : Bytes → Index S → Prop
  | empty : Built K [] Index.empty
  | extend {file : Bytes} {index : Index S} (h : Built K file index) (more : Bytes) :
      Built K (file ++ more) (index.extend K ((file ++ more).drop index.covered))

/-- With the in-place plan of a later refresh, an index file whose new slots are there in part, or
all of them but not the new header, is refused, and one with none of them is the old index. -/
def DetectsTorn {S : Type} (K : Slot S) : Prop :=
  ∀ (file more : Bytes) (index grown : Index S) (how : Refresh) (at_ : ℕ) (body header : Bytes),
    Built K file index → (file ++ more).length ≤ usizeMax →
    refresh K (some index) (file ++ more) = .ok (grown, how) →
    writePlan K grown how = .inPlace at_ body header → body ≠ [] →
    (∀ n, 0 < n → Index.decode K (writeAt (index.encode K) at_ (body.take n)) = none) ∧
      Index.decode K (writeAt (index.encode K) at_ []) = some index

section
variable {S : Type} {K : Slot S}

theorem Built.eq_build {file : Bytes} {index : Index S} (h : Built K file index) :
    index = Index.build K file := by
  induction h with
  | empty => rfl
  | @extend file index h more ih =>
    rw [ih]
    exact Index.extend_build K file more

/-- The header counts the slots that the body must hold, to the byte. -/
theorem decode_torn (hK : K.Lawful) {index : Index S} (h : index.Encodable K) {part : Bytes}
    (hpart : part ≠ []) : Index.decode K (index.encode K ++ part) = none := by
  have hcount := Index.wordAt_encodeHeader hK h.bits (index.encodeSlots K 0 ++ part) (i := 4)
    (by omega)
  rw [← List.append_assoc, ← Index.encode] at hcount
  have hlen : ((index.encode K ++ part).drop headerBytes).length =
      index.count * K.bytes + part.length := by
    rw [List.length_drop, List.length_append, Index.length_encode hK, Index.slotOffset]
    omega
  have hpos : 0 < part.length := List.length_pos_of_ne_nil hpart
  unfold Index.decode
  split_ifs with hmagic hversion
  · rfl
  · rfl
  · simp only [hcount, hlen, List.getElem_cons_succ, List.getElem_cons_zero]
    rw [if_pos (by omega)]

theorem detectsTorn (hK : K.Lawful) : DetectsTorn K := by
  intro file more index grown how at_ body header hbuilt hsize hrefresh hplan hbody
  obtain rfl := hbuilt.eq_build
  have hfile : file.length ≤ usizeMax := by
    rw [List.length_append] at hsize
    omega
  have hencodable := Index.encodable_build hK hfile
  obtain ⟨how', hrefresh', hhow⟩ := refresh_build (K := K) file more
  obtain ⟨rfl, rfl⟩ := Prod.mk.inj (Except.ok.inj (hrefresh.symm.trans hrefresh'))
  have hat : at_ = ((Index.build K file).encode K).length := by
    rw [Index.length_encode hK]
    rcases hhow with rfl | ⟨rfl, -⟩
    · cases hplan
      rfl
    · cases hplan
  rw [hat, writeAt_length, List.append_nil]
  refine ⟨fun n hn => ?_, Index.decode_encode hK hencodable⟩
  rw [writeAt_length]
  apply decode_torn hK hencodable
  rw [ne_eq, List.take_eq_nil_iff]
  rintro (hzero | hnil)
  · omega
  · exact hbody hnil

end

/-- An interrupted in-place write of either index is always detected. -/
theorem torn_write_detected (J : Json) (hJ : J.Fits) : DetectsTorn logSlot ∧ DetectsTorn (nodeSlot J) :=
  ⟨detectsTorn logSlot_lawful, detectsTorn (nodeSlot_lawful hJ)⟩

/-- The log grows from one line to two, and the write stops after three of the eight bytes of the
new slot. -/
theorem torn_slot_detected :
    Index.decode logSlot (writeAt ((Index.build logSlot [0x7B, newline]).encode logSlot)
      60 ((leBytes 8 2).take 3)) = none := by
  have hbuilt : Built logSlot [0x7B, newline] (Index.build logSlot [0x7B, newline]) := .extend .empty _
  have hgrown : refresh logSlot (some (Index.build logSlot [0x7B, newline])) [0x7B, newline, 0x7D, newline] =
      .ok (Index.build logSlot [0x7B, newline, 0x7D, newline], .extended 1) := by decide +kernel
  exact ((torn_write_detected CompactJson.compactJson CompactJson.compactJson_fits).1
    [0x7B, newline] [0x7D, newline] _ _ _ 60 (leBytes 8 2) _ hbuilt (by decide) hgrown rfl
    (by decide)).1 3 (by decide)

end Ralph.ChatMemory
