import Mathlib.Logic.Relation
import Ralph.Loop

namespace Ralph.Worklist

variable {α : Type*} [DecidableEq α]

/-- The candidates behind those found, each only where it is not found yet. -/
def absorb (found candidates : List α) : List α :=
  candidates.foldl (fun found x => if x ∈ found then found else found ++ [x]) found

@[simp] theorem absorb_nil (found : List α) : absorb found [] = found := rfl

theorem absorb_cons_of_mem {found : List α} {x : α} (h : x ∈ found) (xs : List α) :
    absorb found (x :: xs) = absorb found xs := by
  rw [absorb, List.foldl_cons, if_pos h]
  rfl

theorem absorb_cons_of_notMem {found : List α} {x : α} (h : x ∉ found) (xs : List α) :
    absorb found (x :: xs) = absorb (found ++ [x]) xs := by
  rw [absorb, List.foldl_cons, if_neg h]
  rfl

/-- What an absorption adds: candidates that were not found, none of them twice. -/
theorem exists_absorb (found candidates : List α) :
    ∃ fresh, absorb found candidates = found ++ fresh ∧ fresh.Nodup ∧
      (∀ x ∈ fresh, x ∈ candidates ∧ x ∉ found) ∧ ∀ x ∈ candidates, x ∈ found ++ fresh := by
  induction candidates generalizing found with
  | nil => exact ⟨[], by simp⟩
  | cons x xs ih =>
    by_cases hx : x ∈ found
    · obtain ⟨fresh, heq, hnodup, hfresh, hall⟩ := ih found
      refine ⟨fresh, by rw [absorb_cons_of_mem hx, heq], hnodup, ?_, ?_⟩
      · intro y hy
        exact ⟨List.mem_cons_of_mem _ (hfresh y hy).1, (hfresh y hy).2⟩
      · intro y hy
        rcases List.mem_cons.1 hy with rfl | hy
        · exact List.mem_append_left _ hx
        · exact hall y hy
    · obtain ⟨fresh, heq, hnodup, hfresh, hall⟩ := ih (found ++ [x])
      have hxfresh : x ∉ fresh := fun h => (hfresh x h).2 (by simp)
      refine ⟨x :: fresh, by rw [absorb_cons_of_notMem hx, heq, List.append_assoc]; rfl,
        List.nodup_cons.2 ⟨hxfresh, hnodup⟩, ?_, ?_⟩
      · intro y hy
        rcases List.mem_cons.1 hy with rfl | hy
        · exact ⟨List.mem_cons_self, hx⟩
        · have hnew := hfresh y hy
          exact ⟨List.mem_cons_of_mem _ hnew.1, fun h => hnew.2 (List.mem_append_left _ h)⟩
      · intro y hy
        rcases List.mem_cons.1 hy with rfl | hy
        · simp
        · have hmem := hall y hy
          rwa [List.append_assoc] at hmem

/-- Successors that stay in a finite pool. -/
structure Successors (α : Type*) where
  next : α → List α
  pool : Finset α
  inPool : ∀ a, ∀ b ∈ next a, b ∈ pool

namespace Successors

variable (s : Successors α)

theorem card_absorb (found : List α) (a : α) :
    (s.pool \ (absorb found (s.next a)).toFinset).card + (absorb found (s.next a)).length ≤
      (s.pool \ found.toFinset).card + found.length := by
  obtain ⟨fresh, heq, hnodup, hfresh, -⟩ := exists_absorb found (s.next a)
  have hsub : fresh.toFinset ⊆ s.pool \ found.toFinset := by
    intro x hx
    have hnew := hfresh x (List.mem_toFinset.1 hx)
    simp only [Finset.mem_sdiff, List.mem_toFinset]
    exact ⟨s.inPool a x hnew.1, hnew.2⟩
  have hcard : fresh.toFinset.card = fresh.length := List.toFinset_card_of_nodup hnodup
  have hrest := Finset.card_sdiff_add_card_eq_card hsub
  rw [heq, List.toFinset_append, ← Finset.sup_eq_union, ← sdiff_sdiff_left, List.length_append]
  omega

/-- The `while` loop over the positions of a list that grows while it is read. -/
def body : Loop.Body (List α × ℕ) (List α) where
  step := fun (found, at_) =>
    match found[at_]? with
    | some parent => .inl (absorb found (s.next parent), at_ + 1)
    | none => .inr found
  measure := fun (found, at_) => (s.pool \ found.toFinset).card + (found.length - at_)
  decreases := by
    rintro ⟨found, at_⟩ ⟨found', at'⟩ h
    dsimp only at h
    split at h
    · next parent hparent =>
      obtain ⟨rfl, rfl⟩ := Prod.mk.inj (Sum.inl.inj h)
      have hat : at_ < found.length := (List.getElem?_eq_some_iff.1 hparent).1
      have hcard := s.card_absorb found parent
      obtain ⟨fresh, heq, -⟩ := exists_absorb found (s.next parent)
      have hlen : found.length ≤ (absorb found (s.next parent)).length := by rw [heq]; simp
      dsimp only
      omega
    · exact nomatch h

def run (root : α) : List α := s.body.run ([root], 0)

/-- One step of the search. -/
def Edge (a b : α) : Prop := b ∈ s.next a

/-- What holds of the list at the top of each round: the elements before the position have all
their successors in it, and each element but the first stands behind one that it succeeds. -/
structure Searching (root : α) (found : List α) (at_ : ℕ) : Prop where
  head : found.head? = some root
  nodup : found.Nodup
  reached : ∀ x ∈ found, Relation.ReflTransGen s.Edge root x
  expanded : ∀ a ∈ found.take at_, ∀ b ∈ s.next a, b ∈ found
  ordered : ∀ before x after, found = before ++ x :: after → before = [] ∨ ∃ a ∈ before, s.Edge a x

omit [DecidableEq α] in
theorem searching_start (root : α) : s.Searching root [root] 0 where
  head := rfl
  nodup := List.nodup_singleton root
  reached := by
    intro x hx
    rw [List.mem_singleton.1 hx]
  expanded := by simp
  ordered := by
    intro before x after h
    left
    cases before with
    | nil => rfl
    | cons y before => simp at h

theorem Searching.round {s : Successors α} {root : α} {found : List α} {at_ : ℕ}
    (h : s.Searching root found at_) {parent : α} (hparent : found[at_]? = some parent) :
    s.Searching root (absorb found (s.next parent)) (at_ + 1) := by
  obtain ⟨fresh, heq, hnodup, hfresh, hall⟩ := exists_absorb found (s.next parent)
  obtain ⟨hat, hget⟩ := List.getElem?_eq_some_iff.1 hparent
  have hmem : parent ∈ found := hget ▸ List.getElem_mem hat
  rw [heq]
  constructor
  case head =>
    rw [List.head?_append, h.head]
    rfl
  case nodup =>
    exact List.Nodup.append h.nodup hnodup fun x hx hx' => (hfresh x hx').2 hx
  case reached =>
    intro x hx
    rcases List.mem_append.1 hx with hx | hx
    · exact h.reached x hx
    · exact (h.reached parent hmem).tail (hfresh x hx).1
  case expanded =>
    intro a ha b hb
    rw [List.take_append_of_le_length hat, List.take_add_one, hparent, List.mem_append] at ha
    rcases ha with ha | ha
    · exact List.mem_append_left _ (h.expanded a ha b hb)
    · obtain rfl : a = parent := by simpa using ha
      exact hall b hb
  case ordered =>
    intro before x after hsplit
    rcases List.append_eq_append_iff.1 hsplit with ⟨mid, rfl, hmid⟩ | ⟨mid, hfound, hmid⟩
    · -- The element is a fresh one: the parent stands among those found before it.
      right
      refine ⟨parent, List.mem_append_left _ hmem, (hfresh x ?_).1⟩
      rw [hmid]
      simp
    · cases mid with
      | nil =>
        right
        rw [List.append_nil] at hfound
        refine ⟨parent, hfound ▸ hmem, (hfresh x ?_).1⟩
        rw [List.nil_append] at hmid
        rw [← hmid]
        simp
      | cons y mid =>
        obtain ⟨rfl, rfl⟩ := List.cons.inj hmid
        exact h.ordered before _ mid hfound

/-- A search ends, and its list is then expanded as a whole. -/
theorem searching_run (root : α) :
    ∃ at_, s.Searching root (s.run root) at_ ∧ (s.run root).length ≤ at_ := by
  apply s.body.run_of_invariant (I := fun st => s.Searching root st.1 st.2)
    (Q := fun found => ∃ at_, s.Searching root found at_ ∧ found.length ≤ at_)
  · rintro ⟨found, at_⟩ ⟨found', at'⟩ h hstep
    simp only [body] at hstep
    split at hstep
    · next parent hparent =>
      obtain ⟨rfl, rfl⟩ := Prod.mk.inj (Sum.inl.inj hstep)
      exact h.round hparent
    · exact nomatch hstep
  · rintro ⟨found, at_⟩ r h hstep
    simp only [body] at hstep
    split at hstep
    · exact nomatch hstep
    · next hnone =>
      obtain rfl := Sum.inr.inj hstep
      exact ⟨at_, h, List.getElem?_eq_none_iff.1 hnone⟩
  · exact s.searching_start root

theorem nodup_run (root : α) : (s.run root).Nodup := by
  obtain ⟨_, h, -⟩ := s.searching_run root
  exact h.nodup

theorem head_run (root : α) : (s.run root).head? = some root := by
  obtain ⟨_, h, -⟩ := s.searching_run root
  exact h.head

/-- The search finds exactly what steps lead to. -/
theorem mem_run {root x : α} : x ∈ s.run root ↔ Relation.ReflTransGen s.Edge root x := by
  obtain ⟨at_, h, hend⟩ := s.searching_run root
  constructor
  · exact h.reached x
  · intro hreach
    induction hreach with
    | refl => exact List.mem_of_mem_head? (s.head_run root)
    | tail _ hedge ih => exact h.expanded _ (by rwa [List.take_of_length_le hend]) _ hedge

/-- Everything but the root stands behind an element that it succeeds. -/
theorem ordered_run {root : α} {before after : List α} {x : α}
    (h : s.run root = before ++ x :: after) : before = [] ∨ ∃ a ∈ before, s.Edge a x := by
  obtain ⟨_, hsearch, -⟩ := s.searching_run root
  exact hsearch.ordered before x after h

end Successors

end Ralph.Worklist
