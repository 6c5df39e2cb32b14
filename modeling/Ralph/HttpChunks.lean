import Mathlib.Data.List.TakeWhile
import Ralph.Hex
import Ralph.Utf8Lossy

namespace Ralph.HttpChunks

def crlf : Bytes := [13, 10]

/-- `{:x}` of a size. -/
def sizeBytes (n : ℕ) : Bytes := (Nat.toDigits 16 n).map fun c => c.toNat.toUInt8

/-- A chunk of the chunked transfer coding, without extensions. -/
def frame (data : Bytes) : Bytes := sizeBytes data.length ++ crlf ++ data ++ crlf

def lastChunk : Bytes := [48, 13, 10, 13, 10]

def digit? (b : UInt8) : Option ℕ := Hex.digit? (Char.ofNat b.toNat)

/-- A size line: digits and the end of the line. -/
def readSize (bytes : Bytes) : Option (ℕ × Bytes) :=
  let digits := bytes.takeWhile fun b => (digit? b).isSome
  match bytes.drop digits.length with
  | 13 :: 10 :: rest => if digits = [] then none else (digits.mapM digit?).map fun ds => (Hex.value ds, rest)
  | _ => none

/-- The data of a chunk and what comes behind it. -/
def readChunk (bytes : Bytes) : Option (Bytes × Bytes) :=
  (readSize bytes).bind fun sized =>
    match sized.2.drop sized.1 with
    | 13 :: 10 :: rest => if sized.1 ≤ sized.2.length then some (sized.2.take sized.1, rest) else none
    | _ => none

structure Decoded where
  payload : Bytes
  ended : Bool
  left : Bytes
  deriving DecidableEq

/-- The whole chunks, up to the last one or to where the bytes stop. -/
def decodeChunks : ℕ → Bytes → Decoded
  | 0, bytes => ⟨[], false, bytes⟩
  | fuel + 1, bytes =>
    match readChunk bytes with
    | none => ⟨[], false, bytes⟩
    | some ([], rest) => ⟨[], true, rest⟩
    | some (b :: data, rest) =>
      let later := decodeChunks fuel rest
      ⟨b :: data ++ later.payload, later.ended, later.left⟩

/-- A chunk takes a byte at least. -/
def decode (bytes : Bytes) : Decoded := decodeChunks (bytes.length + 1) bytes

theorem digit?_of_toDigits {n : ℕ} {c : Char} (h : c ∈ Nat.toDigits 16 n) :
    digit? c.toNat.toUInt8 = Hex.digit? c ∧ (digit? c.toNat.toUInt8).isSome = true := by
  obtain ⟨d, hd, hc⟩ := Hex.digit_of_mem_toDigits h
  rw [hc]
  interval_cases d <;> decide

theorem mapM_digit? {cs : List Char} (h : ∀ c ∈ cs, digit? c.toNat.toUInt8 = Hex.digit? c) :
    (cs.map fun c => c.toNat.toUInt8).mapM digit? = cs.mapM Hex.digit? := by
  induction cs with
  | nil => rfl
  | cons c cs ih =>
    rw [List.map_cons, List.mapM_cons, List.mapM_cons, h c List.mem_cons_self,
      ih fun d hd => h d (List.mem_cons_of_mem _ hd)]

theorem mapM_sizeBytes (n : ℕ) : ∃ ds, (sizeBytes n).mapM digit? = some ds ∧ Hex.value ds = n := by
  obtain ⟨ds, hds, hvalue⟩ := Hex.mapM_toDigits n
  refine ⟨ds, ?_, hvalue⟩
  rw [sizeBytes, mapM_digit? fun c hc => (digit?_of_toDigits hc).1, hds]

theorem takeWhile_sizeBytes (n : ℕ) (rest : Bytes) :
    (sizeBytes n ++ 13 :: rest).takeWhile (fun b => (digit? b).isSome) = sizeBytes n := by
  have hall : ∀ b ∈ sizeBytes n, (digit? b).isSome = true := by
    intro b hb
    obtain ⟨c, hc, hb⟩ := List.mem_map.mp hb
    rw [← hb]
    exact (digit?_of_toDigits hc).2
  have hstop : (digit? 13).isSome = false := by decide
  rw [List.takeWhile_append_of_pos hall, List.takeWhile_cons_of_neg (by simp [hstop]), List.append_nil]

theorem readSize_sizeBytes (n : ℕ) (rest : Bytes) : readSize (sizeBytes n ++ 13 :: 10 :: rest) = some (n, rest) := by
  obtain ⟨ds, hds, hvalue⟩ := mapM_sizeBytes n
  have hne : sizeBytes n ≠ [] := by
    rw [sizeBytes, ne_eq, List.map_eq_nil_iff]
    exact Nat.toDigits_ne_nil
  simp only [readSize, takeWhile_sizeBytes, List.drop_left, if_neg hne, hds, Option.map_some, hvalue]

theorem readChunk_frame (data rest : Bytes) : readChunk (frame data ++ rest) = some (data, rest) := by
  have hframe : frame data ++ rest = sizeBytes data.length ++ 13 :: 10 :: (data ++ 13 :: 10 :: rest) := by
    simp [frame, crlf]
  rw [readChunk, hframe, readSize_sizeBytes, Option.bind_some]
  simp only [List.drop_left, List.length_append, Nat.le_add_right, if_true, List.take_left]

theorem readChunk_last (rest : Bytes) : readChunk (lastChunk ++ rest) = some ([], rest) := by
  have hlast : lastChunk = frame [] := by decide
  rw [hlast]
  exact readChunk_frame [] rest

theorem readSize_append {bytes rest : Bytes} {n : ℕ} (h : readSize bytes = some (n, rest)) (more : Bytes) :
    readSize (bytes ++ more) = some (n, rest ++ more) := by
  rw [readSize] at h
  split at h
  · next rest' hrest =>
    have hsplit : bytes = bytes.takeWhile (fun b => (digit? b).isSome) ++ 13 :: 10 :: rest' := by
      conv_lhs => rw [← List.take_append_drop (bytes.takeWhile fun b => (digit? b).isSome).length bytes, hrest]
      congr 1
      exact (List.prefix_iff_eq_take.mp (List.takeWhile_prefix _)).symm
    have hall : ∀ b ∈ bytes.takeWhile (fun b => (digit? b).isSome), (digit? b).isSome = true :=
      fun b hb => @List.mem_takeWhile_imp _ (fun b => (digit? b).isSome) _ _ hb
    have hstop : (digit? 13).isSome = false := by decide
    have hwhile : (bytes ++ more).takeWhile (fun b => (digit? b).isSome) =
        bytes.takeWhile (fun b => (digit? b).isSome) := by
      conv_lhs => rw [hsplit]
      rw [List.append_assoc, List.takeWhile_append_of_pos hall, List.cons_append,
        List.takeWhile_cons_of_neg (by simp [hstop]), List.append_nil]
    have hdrop : (bytes ++ more).drop (bytes.takeWhile fun b => (digit? b).isSome).length = 13 :: 10 :: (rest' ++ more) := by
      rw [List.drop_append_of_le_length (List.takeWhile_prefix _).length_le, hrest]
      rfl
    simp only [readSize, hwhile, hdrop]
    split_ifs at h ⊢ with hnone
    obtain ⟨ds, hds, hpair⟩ := Option.map_eq_some_iff.mp h
    rw [hds, ← (Prod.mk.inj hpair).1, ← (Prod.mk.inj hpair).2]
    rfl
  · cases h

theorem readChunk_append {bytes data rest : Bytes} (h : readChunk bytes = some (data, rest)) (more : Bytes) :
    readChunk (bytes ++ more) = some (data, rest ++ more) := by
  rw [readChunk] at h
  obtain ⟨⟨n, body⟩, hsize, h⟩ := Option.bind_eq_some_iff.mp h
  dsimp only at h
  rw [readChunk, readSize_append hsize, Option.bind_some]
  dsimp only
  split at h
  · next rest' hrest =>
    split_ifs at h with hfits
    obtain ⟨hdata, hrest'⟩ := Prod.mk.inj (Option.some.inj h)
    rw [List.drop_append_of_le_length hfits, hrest, ← hdata, ← hrest']
    simp only [List.cons_append]
    rw [if_pos (by rw [List.length_append]; omega), List.take_append_of_le_length hfits]
  · cases h

/-- A chunk that stops early is none. -/
theorem readChunk_cut {data cut missing : Bytes} (h : cut ++ missing = frame data) (hmissing : missing ≠ []) :
    readChunk cut = none := by
  cases hread : readChunk cut with
  | none => rfl
  | some chunk =>
    have hwhole := readChunk_append hread missing
    rw [h, ← List.append_nil (frame data), readChunk_frame] at hwhole
    have hnil := (Prod.mk.inj (Option.some.inj hwhole)).2
    exact absurd (List.append_eq_nil_iff.mp hnil.symm).2 hmissing

theorem frame_ne_nil (data : Bytes) : frame data ≠ [] := by
  simp [frame, crlf]

/-- Chunks of data in front of whatever comes next. -/
theorem decodeChunks_frames {blocks : List Bytes} (hblocks : ∀ block ∈ blocks, block ≠ []) (fuel : ℕ) (rest : Bytes) :
    decodeChunks (blocks.length + fuel) (blocks.flatMap frame ++ rest) =
      ⟨blocks.flatten ++ (decodeChunks fuel rest).payload, (decodeChunks fuel rest).ended, (decodeChunks fuel rest).left⟩ := by
  induction blocks with
  | nil => simp
  | cons block blocks ih =>
    have hblock := hblocks block List.mem_cons_self
    cases hcase : block with
    | nil => exact absurd hcase hblock
    | cons b data =>
      rw [List.flatMap_cons, List.append_assoc, List.length_cons, Nat.add_right_comm, decodeChunks, readChunk_frame]
      simp only [ih fun other hother => hblocks other (List.mem_cons_of_mem _ hother)]
      rw [List.flatten_cons, List.append_assoc]

theorem length_le_frames (blocks : List Bytes) : blocks.length ≤ (blocks.flatMap frame).length := by
  induction blocks with
  | nil => exact le_refl _
  | cons block blocks ih =>
    have hpos := List.length_pos_iff.mpr (frame_ne_nil block)
    rw [List.flatMap_cons, List.length_append, List.length_cons]
    omega

theorem decode_frames {blocks : List Bytes} (hblocks : ∀ block ∈ blocks, block ≠ []) (rest : Bytes) :
    ∃ fuel, 0 < fuel ∧ decode (blocks.flatMap frame ++ rest) =
      ⟨blocks.flatten ++ (decodeChunks fuel rest).payload, (decodeChunks fuel rest).ended, (decodeChunks fuel rest).left⟩ := by
  have hle := length_le_frames blocks
  refine ⟨(blocks.flatMap frame ++ rest).length + 1 - blocks.length, by rw [List.length_append]; omega, ?_⟩
  rw [← decodeChunks_frames hblocks, decode]
  congr 1
  rw [List.length_append]
  omega

theorem decode_ended {blocks : List Bytes} (hblocks : ∀ block ∈ blocks, block ≠ []) :
    decode (blocks.flatMap frame ++ lastChunk) = ⟨blocks.flatten, true, []⟩ := by
  obtain ⟨fuel, hfuel, hdecode⟩ := decode_frames hblocks lastChunk
  obtain ⟨fuel, rfl⟩ := Nat.exists_eq_succ_of_ne_zero hfuel.ne'
  have hlast := readChunk_last []
  rw [List.append_nil] at hlast
  rw [hdecode, decodeChunks, hlast, List.append_nil]

theorem decode_cut {blocks : List Bytes} (hblocks : ∀ block ∈ blocks, block ≠ []) {data cut missing : Bytes}
    (h : cut ++ missing = frame data) (hmissing : missing ≠ []) :
    decode (blocks.flatMap frame ++ cut) = ⟨blocks.flatten, false, cut⟩ := by
  obtain ⟨fuel, hfuel, hdecode⟩ := decode_frames hblocks cut
  obtain ⟨fuel, rfl⟩ := Nat.exists_eq_succ_of_ne_zero hfuel.ne'
  rw [hdecode, decodeChunks, readChunk_cut h hmissing, List.append_nil]

theorem decode_whole {blocks : List Bytes} (hblocks : ∀ block ∈ blocks, block ≠ []) :
    decode (blocks.flatMap frame) = ⟨blocks.flatten, false, []⟩ := by
  have hcut := @decode_cut blocks hblocks [] [] (frame []) (List.nil_append _) (frame_ne_nil [])
  rw [List.append_nil] at hcut
  exact hcut

end Ralph.HttpChunks
