import Mathlib.Data.List.Pairwise
import Mathlib.Tactic

namespace Ralph

variable {κ ν : Type*} [LinearOrder κ]

/-- A map whose entries stand in the order of their keys, each key once. -/
structure SortedMap (κ ν : Type*) [LinearOrder κ] where
  entries : List (κ × ν)
  sorted : entries.Pairwise fun a b => a.1 < b.1

namespace SortedMap

def empty : SortedMap κ ν := ⟨[], .nil⟩

def lookup (m : SortedMap κ ν) (k : κ) : Option ν := m.entries.lookup k

def insertEntry (k : κ) (v : ν) : List (κ × ν) → List (κ × ν)
  | [] => [(k, v)]
  | e :: es => if k < e.1 then (k, v) :: e :: es else if k = e.1 then (k, v) :: es else e :: insertEntry k v es

theorem mem_of_mem_insertEntry {k : κ} {v : ν} {es : List (κ × ν)} {e : κ × ν}
    (h : e ∈ insertEntry k v es) : e = (k, v) ∨ e ∈ es := by
  induction es with
  | nil => exact .inl (List.mem_singleton.mp h)
  | cons e' es ih =>
    rw [insertEntry] at h
    split_ifs at h
    · exact (List.mem_cons.mp h)
    · exact (List.mem_cons.mp h).imp_right (List.mem_cons_of_mem _)
    · obtain rfl | h := List.mem_cons.mp h
      · exact .inr List.mem_cons_self
      · exact (ih h).imp_right (List.mem_cons_of_mem _)

theorem insertEntry_sorted (k : κ) (v : ν) {es : List (κ × ν)}
    (h : es.Pairwise fun a b => a.1 < b.1) : (insertEntry k v es).Pairwise fun a b => a.1 < b.1 := by
  induction es with
  | nil => exact List.pairwise_singleton _ _
  | cons e es ih =>
    rw [List.pairwise_cons] at h
    rw [insertEntry]
    split_ifs with hlt heq
    · rw [List.pairwise_cons, List.forall_mem_cons, List.pairwise_cons]
      exact ⟨⟨hlt, fun e' he' => hlt.trans (h.1 e' he')⟩, h⟩
    · rw [List.pairwise_cons]
      exact ⟨fun e' he' => heq ▸ h.1 e' he', h.2⟩
    · rw [List.pairwise_cons]
      refine ⟨fun e' he' => ?_, ih h.2⟩
      obtain rfl | he' := mem_of_mem_insertEntry he'
      · exact lt_of_le_of_ne (not_lt.mp hlt) (Ne.symm heq)
      · exact h.1 e' he'

def insert (m : SortedMap κ ν) (k : κ) (v : ν) : SortedMap κ ν :=
  ⟨insertEntry k v m.entries, insertEntry_sorted k v m.sorted⟩

theorem lookup_cons_ite (k k' : κ) (v : ν) (es : List (κ × ν)) :
    ((k, v) :: es).lookup k' = if k' = k then some v else es.lookup k' := by
  split_ifs with h
  · rw [h, List.lookup_cons_self]
  · rw [List.lookup_cons, beq_eq_false_iff_ne.mpr h]

theorem lookup_insert (m : SortedMap κ ν) (k k' : κ) (v : ν) :
    (m.insert k v).lookup k' = if k' = k then some v else m.lookup k' := by
  show (insertEntry k v m.entries).lookup k' = if k' = k then some v else m.entries.lookup k'
  induction m.entries with
  | nil => exact lookup_cons_ite k k' v []
  | cons e es ih =>
    rw [insertEntry]
    split_ifs with hlt hfound hkey hfound hfound
    · rw [lookup_cons_ite, if_pos hfound]
    · rw [lookup_cons_ite, if_neg hfound]
    · rw [lookup_cons_ite, if_pos hfound]
    · rw [lookup_cons_ite, lookup_cons_ite, if_neg hfound, if_neg (hkey ▸ hfound)]
    · rw [lookup_cons_ite, if_neg fun h => hkey (hfound.symm.trans h), ih, if_pos hfound]
    · rw [lookup_cons_ite, lookup_cons_ite, ih, if_neg hfound]

@[simp] theorem lookup_empty (k : κ) : (empty : SortedMap κ ν).lookup k = none := rfl

theorem mem_entries (m : SortedMap κ ν) {k : κ} {v : ν} : (k, v) ∈ m.entries ↔ m.lookup k = some v := by
  obtain ⟨es, hes⟩ := m
  show (k, v) ∈ es ↔ es.lookup k = some v
  induction es with
  | nil => simp
  | cons e es ih =>
    obtain ⟨k', v'⟩ := e
    rw [List.pairwise_cons] at hes
    rw [List.mem_cons, ih hes.2, lookup_cons_ite]
    by_cases h : k = k'
    · subst h
      have hnone : es.lookup k ≠ some v := by
        rw [Ne, ← ih hes.2]
        exact fun hmem => lt_irrefl k (hes.1 _ hmem)
      simp [hnone, eq_comm]
    · simp [h]

theorem nodup_keys (m : SortedMap κ ν) : (m.entries.map Prod.fst).Nodup := by
  rw [List.nodup_iff_pairwise_ne, List.pairwise_map]
  exact m.sorted.imp fun h => ne_of_lt h

theorem filter_key (m : SortedMap κ ν) (k : κ) :
    m.entries.filter (fun e => e.1 = k) = (m.lookup k).toList.map (Prod.mk k) := by
  obtain ⟨es, hes⟩ := m
  show es.filter (fun e => e.1 = k) = (es.lookup k).toList.map (Prod.mk k)
  induction es with
  | nil => rfl
  | cons e es ih =>
    obtain ⟨k', v'⟩ := e
    rw [List.pairwise_cons] at hes
    rw [lookup_cons_ite]
    split_ifs with h
    · subst h
      have hnil : es.filter (fun e => e.1 = k) = [] := by
        rw [List.filter_eq_nil_iff]
        exact fun e he => by simpa using ne_of_gt (hes.1 e he)
      rw [List.filter_cons_of_pos (by simp), hnil]
      rfl
    · rw [List.filter_cons_of_neg (by simpa using Ne.symm h), ih hes.2]

def erase (m : SortedMap κ ν) (k : κ) : SortedMap κ ν := ⟨m.entries.filter (·.1 ≠ k), m.sorted.filter _⟩

theorem mem_filter_entries {p : κ × ν → Bool} (m : SortedMap κ ν) {k : κ} {v : ν} :
    (k, v) ∈ m.entries.filter p ↔ m.lookup k = some v ∧ p (k, v) = true := by
  rw [List.mem_filter, mem_entries]

theorem lookup_eq_some_iff {es : List (κ × ν)} (h : (es.map Prod.fst).Nodup) {k : κ} {v : ν} :
    es.lookup k = some v ↔ (k, v) ∈ es := by
  induction es with
  | nil => simp
  | cons e es ih =>
    obtain ⟨k', v'⟩ := e
    rw [List.map_cons, List.nodup_cons] at h
    rw [List.mem_cons, ← ih h.2, lookup_cons_ite]
    by_cases hk : k = k'
    · subst hk
      have hnone : es.lookup k ≠ some v := by
        rw [Ne, ih h.2]
        exact fun hmem => h.1 (List.mem_map.2 ⟨(k, v), hmem, rfl⟩)
      simp [hnone, eq_comm]
    · simp [hk]

theorem lookup_erase (m : SortedMap κ ν) (k k' : κ) :
    (m.erase k).lookup k' = if k' = k then none else m.lookup k' := by
  ext v
  rw [← mem_entries, erase, mem_filter_entries]
  split_ifs with h <;> simp [h]

theorem ext_lookup {m n : SortedMap κ ν} (h : ∀ k, m.lookup k = n.lookup k) : m = n := by
  have hmem : ∀ e, e ∈ m.entries ↔ e ∈ n.entries := by
    intro e
    rw [← Prod.mk.eta (p := e), mem_entries, mem_entries, h]
  have hentries : m.entries = n.entries := by
    have hperm : m.entries.Perm n.entries :=
      (List.perm_ext_iff_of_nodup m.nodup_keys.of_map n.nodup_keys.of_map).2 hmem
    refine hperm.eq_of_pairwise ?_ m.sorted n.sorted
    exact fun a b _ _ hab hba => absurd (hab.trans hba) (lt_irrefl _)
  obtain ⟨es, hes⟩ := m
  obtain ⟨fs, hfs⟩ := n
  obtain rfl : es = fs := hentries
  rfl

theorem lookup_foldl_erase (ks : List κ) (m : SortedMap κ ν) (k : κ) :
    (ks.foldl erase m).lookup k = if k ∈ ks then none else m.lookup k := by
  induction ks generalizing m with
  | nil => simp
  | cons k' ks ih =>
    rw [List.foldl_cons, ih, lookup_erase]
    by_cases hk : k = k' <;> by_cases hks : k ∈ ks <;> simp [hk, hks]

def insertAll (m : SortedMap κ ν) (es : List (κ × ν)) : SortedMap κ ν :=
  es.foldl (fun m e => m.insert e.1 e.2) m

theorem lookup_insertAll {es : List (κ × ν)} (h : (es.map Prod.fst).Nodup) (m : SortedMap κ ν) (k : κ) :
    (m.insertAll es).lookup k = (es.lookup k).or (m.lookup k) := by
  induction es generalizing m with
  | nil => rfl
  | cons e es ih =>
    rw [List.map_cons, List.nodup_cons] at h
    have hrest := ih h.2 (m.insert e.1 e.2)
    rw [insertAll, List.foldl_cons, ← insertAll, hrest, lookup_insert, lookup_cons_ite]
    split_ifs with hk
    · have hnone : es.lookup k = none := by
        rw [List.lookup_eq_none_iff]
        intro e' hmem
        rw [bne_iff_ne, hk]
        exact fun heq => h.1 (List.mem_map.2 ⟨e', hmem, heq.symm⟩)
      rw [hnone]
      rfl
    · rfl

/-- A map is its entries, put into an empty one in any order. -/
theorem insertAll_perm {es : List (κ × ν)} {m : SortedMap κ ν} (h : es.Perm m.entries) :
    insertAll empty es = m := by
  have hnodup : (es.map Prod.fst).Nodup := (h.map Prod.fst).nodup_iff.2 m.nodup_keys
  apply ext_lookup
  intro k
  rw [lookup_insertAll hnodup, lookup_empty, Option.or_none]
  ext v
  rw [lookup_eq_some_iff hnodup, h.mem_iff, mem_entries]

/-- `entry(k).or_insert(d)`, with the value there changed. -/
def update (m : SortedMap κ ν) (k : κ) (d : ν) (f : ν → ν) : SortedMap κ ν :=
  m.insert k (f ((m.lookup k).getD d))

def push {ν : Type*} (m : SortedMap κ (List ν)) (k : κ) (v : ν) : SortedMap κ (List ν) :=
  m.update k [] (· ++ [v])

theorem lookup_eq_none_of_lt {k : κ} {es : List (κ × ν)} (h : ∀ e ∈ es, k < e.1) : es.lookup k = none := by
  rw [List.lookup_eq_none_iff]
  intro e he
  rw [bne_iff_ne]
  exact (h e he).ne

section Total

variable {M : Type*} [AddCommMonoid M]

/-- The sum over the values. -/
def total (g : ν → M) (m : SortedMap κ ν) : M := (m.entries.map fun e => g e.2).sum

variable {g : ν → M} {d : ν} {f : ν → ν} {x : M}

theorem sum_insertEntry (hd : g d = 0) (hf : ∀ v, g (f v) = g v + x) (k : κ) {es : List (κ × ν)}
    (h : es.Pairwise fun a b => a.1 < b.1) :
    ((insertEntry k (f ((es.lookup k).getD d)) es).map fun e => g e.2).sum =
      (es.map fun e => g e.2).sum + x := by
  induction es with
  | nil =>
    rw [List.lookup_nil, Option.getD_none, insertEntry, List.map_singleton, List.sum_singleton, hf, hd]
    rfl
  | cons e es ih =>
    have hsorted := h
    rw [List.pairwise_cons] at h
    rw [insertEntry]
    split_ifs with hlt heq
    · have hnone : (e :: es).lookup k = none := by
        apply lookup_eq_none_of_lt
        rw [List.forall_mem_cons]
        exact ⟨hlt, fun e' he' => hlt.trans (h.1 e' he')⟩
      rw [hnone, Option.getD_none, List.map_cons, List.sum_cons, hf, hd, zero_add, add_comm]
    · obtain ⟨k', v⟩ := e
      obtain rfl : k = k' := heq
      rw [List.lookup_cons_self, Option.getD_some, List.map_cons, List.map_cons, List.sum_cons,
        List.sum_cons, hf, add_right_comm]
    · have hskip : (e :: es).lookup k = es.lookup k := by
        obtain ⟨k', v⟩ := e
        rw [lookup_cons_ite, if_neg heq]
      rw [hskip, List.map_cons, List.map_cons, List.sum_cons, List.sum_cons, ih h.2, add_assoc]

theorem total_update (hd : g d = 0) (hf : ∀ v, g (f v) = g v + x) (m : SortedMap κ ν) (k : κ) :
    (m.update k d f).total g = m.total g + x :=
  sum_insertEntry hd hf k m.sorted

theorem total_push {ν : Type*} (h : ν → M) (m : SortedMap κ (List ν)) (k : κ) (v : ν) :
    (m.push k v).total (fun vs => (vs.map h).sum) = m.total (fun vs => (vs.map h).sum) + h v := by
  apply total_update
  · rfl
  · intro vs
    rw [List.map_append, List.sum_append, List.map_singleton, List.sum_singleton]

/-- What is collected under the keys of a list adds up to the list. -/
theorem total_foldl_push {ν : Type*} (h : ν → M) (key : ν → κ) (vs : List ν) (m : SortedMap κ (List ν)) :
    (vs.foldl (fun m v => m.push (key v) v) m).total (fun vs => (vs.map h).sum) =
      m.total (fun vs => (vs.map h).sum) + (vs.map h).sum := by
  induction vs generalizing m with
  | nil => rw [List.foldl_nil, List.map_nil, List.sum_nil, add_zero]
  | cons v vs ih => rw [List.foldl_cons, ih, total_push, List.map_cons, List.sum_cons, add_assoc]

end Total

end SortedMap

end Ralph
