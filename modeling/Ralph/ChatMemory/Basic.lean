import Ralph.Utf8Lossy

namespace Ralph.ChatMemory

/-- `usize::MAX` and `u64::MAX` of the 64-bit targets. -/
def usizeMax : ℕ := 2 ^ 64 - 1

/-- A window that doubles. -/
theorem double_pos (n : {n : ℕ // 0 < n}) : 0 < (n : ℕ) * 2 := Nat.mul_pos n.2 Nat.two_pos

def summaryBytes : ℕ := 512
def unavailableMark : String := "[not summarized] "

inductive Role
  | user
  | assistant
  | worker
  deriving DecidableEq, Repr

def Role.asStr : Role → String
  | .user => "user"
  | .assistant => "assistant"
  | .worker => "worker"

/-- What the log writer takes: the fields that are in the file. -/
structure NewEntry where
  role : Role
  at_ : String
  text : String
  deriving DecidableEq, Repr

structure Entry where
  role : Role
  at_ : String
  text : String
  corrupt : Bool
  deriving DecidableEq, Repr

def corruptText : String := "[corrupt entry]"

/-- `Entry::corrupt`: the placeholder of a line that does not parse. -/
def Entry.placeholder : Entry := ⟨.worker, "", corruptText, true⟩

/-- A parsed line: the flag is skipped by serde, so it reads as `false`. -/
def NewEntry.read (e : NewEntry) : Entry := ⟨e.role, e.at_, e.text, false⟩

instance : Inhabited Entry := ⟨Entry.placeholder⟩

structure Node where
  lo : ℕ
  hi : ℕ
  deriving DecidableEq, Repr, Inhabited

structure Record where
  lo : ℕ
  hi : ℕ
  text : String
  deriving DecidableEq, Repr

namespace Node

def size (n : Node) : ℕ := n.hi - n.lo

def new (lo hi : ℕ) : Except String Node :=
  let size := hi - lo
  if size = 0 ∨ ¬size.isPowerOfTwo ∨ lo % size ≠ 0 then
    .error s!"[{lo},{hi}) is not a block: expected an aligned power-of-two range."
  else .ok ⟨lo, hi⟩

def id (n : Node) : String :=
  if n.size = 1 then toString n.lo else s!"{n.lo}-{n.hi - 1}"

def halves (n : Node) : Node × Node :=
  let mid := (n.lo + n.hi) / 2
  (⟨n.lo, mid⟩, ⟨mid, n.hi⟩)

def leaf (i : ℕ) : Node := ⟨i, i + 1⟩

/-- The `m`-th aligned block of `2 ^ k` entries. -/
def block (k m : ℕ) : Node := ⟨m * 2 ^ k, (m + 1) * 2 ^ k⟩

/-- An aligned power-of-two range. -/
def IsBlock (n : Node) : Prop := ∃ k m, n = block k m

@[simp] theorem size_block (k m : ℕ) : (block k m).size = 2 ^ k := by
  simp only [size, block, Nat.add_mul]
  omega

@[simp] theorem size_leaf (i : ℕ) : (leaf i).size = 1 := by simp [size, leaf]

theorem block_zero (i : ℕ) : block 0 i = leaf i := by simp [block, leaf]

/-- A block of two or more entries splits into two blocks. -/
theorem halves_block (k m : ℕ) : (block (k + 1) m).halves = (block k (2 * m), block k (2 * m + 1)) := by
  have hmid : (m * 2 ^ (k + 1) + (m + 1) * 2 ^ (k + 1)) / 2 = (2 * m + 1) * 2 ^ k := by
    rw [pow_succ]
    have : m * (2 ^ k * 2) + (m + 1) * (2 ^ k * 2) = (2 * m + 1) * 2 ^ k * 2 := by ring
    rw [this, Nat.mul_div_cancel _ two_pos]
  simp only [halves, block, hmid, Prod.mk.injEq, Node.mk.injEq, and_true, true_and]
  refine ⟨?_, ?_⟩ <;> ring

theorem IsBlock.lo_lt_hi {n : Node} (h : n.IsBlock) : n.lo < n.hi := by
  obtain ⟨k, m, rfl⟩ := h
  have hpos := Nat.two_pow_pos k
  simp only [block, Nat.add_mul]
  omega

theorem IsBlock.halves {n : Node} (h : n.IsBlock) (hsize : 1 < n.size) :
    n.halves.1.IsBlock ∧ n.halves.2.IsBlock := by
  obtain ⟨k, m, rfl⟩ := h
  cases k with
  | zero =>
    rw [size_block] at hsize
    omega
  | succ k =>
    rw [halves_block]
    exact ⟨⟨k, 2 * m, rfl⟩, ⟨k, 2 * m + 1, rfl⟩⟩

theorem isBlock_iff (n : Node) : n.IsBlock ↔ n.size.isPowerOfTwo ∧ n.lo % n.size = 0 := by
  constructor
  · rintro ⟨k, m, rfl⟩
    rw [size_block]
    exact ⟨⟨k, rfl⟩, Nat.mul_mod_left m _⟩
  · unfold size
    rintro ⟨⟨k, hk⟩, hmod⟩
    have hpos := Nat.two_pow_pos k
    rw [hk] at hmod
    obtain ⟨m, hm⟩ := Nat.dvd_of_mod_eq_zero hmod
    refine ⟨k, m, ?_⟩
    rw [block, Nat.add_mul, Nat.mul_comm m, ← hm]
    cases n
    simp only [Node.mk.injEq, true_and] at *
    omega

theorem new_eq_ok_iff {lo hi : ℕ} {n : Node} : new lo hi = .ok n ↔ n = ⟨lo, hi⟩ ∧ n.IsBlock := by
  simp only [new, isBlock_iff]
  split_ifs with h
  · simp only [false_iff, not_and]
    rintro rfl hpow hmod
    have hpos := Nat.pos_of_isPowerOfTwo hpow
    simp only [size] at hpow hmod hpos
    rcases h with h | h | h
    · omega
    · exact h hpow
    · exact h hmod
  · simp only [not_or, not_not] at h
    simp only [Except.ok.injEq]
    constructor
    · rintro rfl
      exact ⟨rfl, h.2⟩
    · rintro ⟨rfl, -⟩
      rfl

end Node

/-- `HashMap<Node, String>`. -/
abbrev Tree := Node → Option String

namespace Tree

def empty : Tree := fun _ => none

def containsKey (t : Tree) (n : Node) : Bool := (t n).isSome

def insert (t : Tree) (n : Node) (text : String) : Tree := fun m => if m = n then some text else t m

/-- `entry(n).or_insert(text)`: the first text of a node stays. -/
def orInsert (t : Tree) (n : Node) (text : String) : Tree :=
  if t.containsKey n then t else t.insert n text

end Tree

/-- Entries `[start, start + entries.len())` of a log that holds `total`. -/
structure Window where
  start : ℕ
  total : ℕ
  entries : List Entry

def Window.full (entries : List Entry) : Window := ⟨0, entries.length, entries⟩

def Window.get (w : Window) (i : ℕ) : Option Entry :=
  if i < w.start then none else w.entries[i - w.start]?

end Ralph.ChatMemory
