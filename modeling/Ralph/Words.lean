import Mathlib.Tactic
import Ralph.Utf8Lossy

namespace Ralph.Words

/-- The `k` low bytes of `n`, least significant byte first: `to_le_bytes`. -/
def leBytes : ℕ → ℕ → Bytes
  | 0, _ => []
  | k + 1, n => UInt8.ofNat n :: leBytes k (n / 256)

/-- `from_le_bytes`. -/
def leNat : Bytes → ℕ
  | [] => 0
  | b :: bs => b.toNat + 256 * leNat bs

@[simp] theorem length_leBytes (k n : ℕ) : (leBytes k n).length = k := by
  induction k generalizing n with
  | zero => rfl
  | succ k ih => simp [leBytes, ih]

theorem leNat_leBytes {k n : ℕ} (h : n < 256 ^ k) : leNat (leBytes k n) = n := by
  induction k generalizing n with
  | zero => simp only [pow_zero, Nat.lt_one_iff] at h; simp [leBytes, leNat, h]
  | succ k ih =>
    rw [pow_succ] at h
    rw [leBytes, leNat, ih (by omega), UInt8.toNat_ofNat']
    omega

/-- The word of `k` bytes at offset `i`. -/
def wordAt (k i : ℕ) (bytes : Bytes) : ℕ := leNat ((bytes.drop i).take k)

theorem wordAt_append {k n : ℕ} (a b : Bytes) (h : n < 256 ^ k) :
    wordAt k a.length (a ++ leBytes k n ++ b) = n := by
  rw [wordAt, List.append_assoc, List.drop_left, List.take_left' (length_leBytes k n),
    leNat_leBytes h]

/-- Word `i` of a run of encoded words. -/
theorem wordAt_flatMap {k i : ℕ} {ws : List ℕ} (a b : Bytes) (hi : i < ws.length)
    (h : ws[i] < 256 ^ k) : wordAt k (a.length + k * i) (a ++ ws.flatMap (leBytes k) ++ b) = ws[i] := by
  have hlen : ∀ us : List ℕ, (us.flatMap (leBytes k)).length = k * us.length := by
    intro us
    induction us with
    | nil => rfl
    | cons u us ih => rw [List.flatMap_cons, List.length_append, ih, length_leBytes, List.length_cons]; ring
  have hws : ws.flatMap (leBytes k) = (ws.take i).flatMap (leBytes k) ++ leBytes k ws[i] ++
      (ws.drop (i + 1)).flatMap (leBytes k) := by
    conv_lhs => rw [← List.take_append_drop i ws, List.drop_eq_getElem_cons hi]
    simp only [List.flatMap_append, List.flatMap_cons, List.append_assoc]
  have hw := wordAt_append (a ++ (ws.take i).flatMap (leBytes k))
    ((ws.drop (i + 1)).flatMap (leBytes k) ++ b) h
  rw [List.length_append, hlen, List.length_take, Nat.min_eq_left hi.le] at hw
  simpa [hws] using hw

variable {α β : Type*}

/-- `slice::chunks_exact`: the full chunks of `n` elements. -/
def chunksExact (n : ℕ) (l : List α) : List (List α) :=
  (List.range (l.length / n)).map fun i => (l.drop (i * n)).take n

theorem chunksExact_append {n : ℕ} (hn : 0 < n) {c : List α} (hc : c.length = n) (l : List α) :
    chunksExact n (c ++ l) = c :: chunksExact n l := by
  have hlen : (c ++ l).length / n = l.length / n + 1 := by
    rw [List.length_append, hc, Nat.add_div_left _ hn]
  rw [chunksExact, hlen, List.range_succ_eq_map, List.map_cons, List.map_map]
  congr 1
  · rw [Nat.zero_mul, List.drop_zero, List.take_left' hc]
  · refine List.map_congr_left fun i _ => ?_
    simp only [Function.comp_apply, Nat.succ_mul]
    rw [Nat.add_comm, ← List.drop_drop, List.drop_left' hc]

theorem chunksExact_flatMap {n : ℕ} (hn : 0 < n) {f : β → List α} (hf : ∀ b, (f b).length = n)
    (bs : List β) : chunksExact n (bs.flatMap f) = bs.map f := by
  induction bs with
  | nil => simp [chunksExact]
  | cons b bs ih => rw [List.flatMap_cons, chunksExact_append hn (hf b), ih, List.map_cons]

theorem length_flatMap {n : ℕ} {f : β → List α} (hf : ∀ b, (f b).length = n) (bs : List β) :
    (bs.flatMap f).length = bs.length * n := by
  induction bs with
  | nil => simp
  | cons b bs ih => rw [List.flatMap_cons, List.length_append, ih, hf, List.length_cons]; ring

/-- Overwriting a file from offset `i` on, zeros filling a gap before it. -/
def writeAt (file : Bytes) (i : ℕ) (bytes : Bytes) : Bytes :=
  file.take i ++ List.replicate (i - file.length) 0 ++ bytes ++ file.drop (i + bytes.length)

theorem writeAt_length (file bytes : Bytes) : writeAt file file.length bytes = file ++ bytes := by
  simp [writeAt]

theorem writeAt_zero {a b : Bytes} (c : Bytes) (h : a.length = b.length) :
    writeAt (a ++ c) 0 b = b ++ c := by
  rw [writeAt, ← h, Nat.zero_add, List.drop_left]
  simp

end Ralph.Words
