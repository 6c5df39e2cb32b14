import Ralph.ChatMemory.Basic
import Ralph.Text
import Ralph.Tiling

namespace Ralph.ChatMemory
open Tiling

/-- A line of a view, or an entry that a notice stands for. -/
inductive Shown
  | line (text : String)
  | unreadable (id : ℕ)
  deriving DecidableEq, Repr

def notice (first last : ℕ) : String :=
  if first = last then s!"[#{first}: unreadable log line, skipped]"
  else s!"[#{first}-{last}: unreadable log lines, skipped]"

/-- The variables of `merge_notices`: the lines so far, and the run of unreadable entries it is in. -/
structure Merge where
  lines : List String
  run : Option (ℕ × ℕ)

def Merge.push (m : Merge) : Shown → Merge
  | .unreadable id =>
    match m.run with
    | some (first, last) =>
      if last + 1 = id then ⟨m.lines, some (first, id)⟩
      else ⟨m.lines ++ [notice first last], some (id, id)⟩
    | none => ⟨m.lines, some (id, id)⟩
  | .line text =>
    match m.run with
    | some (first, last) => ⟨m.lines ++ [notice first last, text], none⟩
    | none => ⟨m.lines ++ [text], none⟩

def Merge.finish (m : Merge) : List String :=
  match m.run with
  | some (first, last) => m.lines ++ [notice first last]
  | none => m.lines

def mergeNotices (shown : List Shown) : List String := (shown.foldl Merge.push ⟨[], none⟩).finish

/-- The entries that a line stands for: a node line for its node, a notice for its run. -/
inductive LineShows : String → ℕ × ℕ → Prop
  | node (n : Node) (text : String) : LineShows s!"#{n.id} {text}" (n.lo, n.hi)
  | notice (first last : ℕ) : LineShows (notice first last) (first, last + 1)

def ItemShows : Shown → ℕ × ℕ → Prop
  | .line text, range => LineShows text range
  | .unreadable id, range => range = (id, id + 1)

/-- The entries that the lines and the open run of a merge stand for. -/
def Merge.Shows (m : Merge) (lo hi : ℕ) : Prop :=
  ∃ mid, Covers LineShows m.lines lo mid ∧
    match m.run with
    | some (first, last) => first = mid ∧ last + 1 = hi ∧ first ≤ last
    | none => mid = hi

theorem Merge.Shows.push {m : Merge} {lo mid hi : ℕ} (hm : m.Shows lo mid) (hlt : mid < hi)
    {item : Shown} (hitem : ItemShows item (mid, hi)) : (m.push item).Shows lo hi := by
  obtain ⟨lines, run⟩ := m
  obtain ⟨at_, hlines, hrun⟩ := hm
  cases item with
  | line text =>
    cases run with
    | none =>
      obtain rfl : at_ = mid := hrun
      exact ⟨hi, hlines.append (.singleton hitem hlt), rfl⟩
    | some r =>
      obtain ⟨first, last⟩ := r
      obtain ⟨rfl, rfl, hle⟩ := hrun
      have hnotice : Covers LineShows [notice first last] first (last + 1) :=
        .singleton (.notice first last) (Nat.lt_succ_of_le hle)
      exact ⟨hi, hlines.append (hnotice.append (.singleton hitem hlt)), rfl⟩
  | unreadable id =>
    obtain ⟨rfl, rfl⟩ := Prod.mk.inj hitem
    cases run with
    | none => exact ⟨at_, hlines, hrun.symm, rfl, le_rfl⟩
    | some r =>
      obtain ⟨first, last⟩ := r
      obtain ⟨rfl, rfl, hle⟩ := hrun
      simp only [Merge.push, if_true]
      exact ⟨first, hlines, rfl, rfl, hle.trans (Nat.le_succ last)⟩

theorem Merge.Shows.finish {m : Merge} {lo hi : ℕ} (hm : m.Shows lo hi) :
    Covers LineShows m.finish lo hi := by
  obtain ⟨lines, run⟩ := m
  obtain ⟨mid, hlines, hrun⟩ := hm
  cases run with
  | none =>
    obtain rfl : mid = hi := hrun
    exact hlines
  | some r =>
    obtain ⟨first, last⟩ := r
    obtain ⟨rfl, rfl, hle⟩ := hrun
    exact hlines.append (.singleton (.notice first last) (Nat.lt_succ_of_le hle))

/-- Merging notices keeps what the lines stand for, without a gap or an overlap. -/
theorem mergeNotices_shows {shown : List Shown} {lo hi : ℕ} (h : Covers ItemShows shown lo hi) :
    Covers LineShows (mergeNotices shown) lo hi := by
  have hfold : ∀ (m : Merge) (mid : ℕ), m.Shows lo mid → Covers ItemShows shown mid hi →
      (shown.foldl Merge.push m).Shows lo hi := by
    clear h
    induction shown with
    | nil =>
      intro m mid hm h
      rw [Covers.nil_iff.mp h] at hm
      exact hm
    | cons item shown ih =>
      intro m mid hm h
      obtain ⟨next, hitem, hlt, hrest⟩ := Covers.cons_iff.mp h
      exact ih _ next (hm.push hlt hitem) hrest
  exact (hfold ⟨[], none⟩ lo ⟨lo, .nil lo, rfl⟩ h).finish

/-- The characters of a notice, up to the text after its ids. -/
theorem notice_toList (first last : ℕ) : ∃ rest, (notice first last).toList =
    '[' :: '#' :: ((toString first).toList ++
      if first = last then ':' :: " unreadable log line, skipped]".toList
      else '-' :: ((toString last).toList ++ ':' :: rest)) := by
  unfold notice
  split_ifs
  · exact ⟨[], by simp [String.toList_append]⟩
  · exact ⟨" unreadable log lines, skipped]".toList, by simp [String.toList_append]⟩

theorem notice_inj {first last first' last' : ℕ} (h : notice first last = notice first' last') :
    first = first' ∧ last = last' := by
  obtain ⟨rest, hleft⟩ := notice_toList first last
  obtain ⟨rest', hright⟩ := notice_toList first' last'
  rw [h, hright] at hleft
  simp only [List.cons.injEq, true_and] at hleft
  split_ifs at hleft with h₁ h₂ h₂
  · obtain ⟨rfl, -⟩ := Text.toString_append_inj (by rfl) (by rfl) hleft
    exact ⟨rfl, h₂.symm.trans h₁⟩
  · exact absurd (Text.toString_append_inj (by rfl) (by rfl) hleft).2 (by simp)
  · exact absurd (Text.toString_append_inj (by rfl) (by rfl) hleft).2 (by simp)
  · obtain ⟨rfl, hlast⟩ := Text.toString_append_inj (by rfl) (by rfl) hleft
    have hlast' := (List.cons.inj hlast).2
    exact ⟨rfl, (Text.toString_append_inj (by rfl) (by rfl) hlast').1.symm⟩

theorem lineShows_iff {text : String} {p : ℕ × ℕ} : LineShows text p ↔
    (∃ (n : Node) (t : String), text = s!"#{n.id} {t}" ∧ p = (n.lo, n.hi)) ∨
      ∃ first last, text = notice first last ∧ p = (first, last + 1) := by
  constructor
  · rintro (⟨n, t⟩ | ⟨first, last⟩)
    · exact .inl ⟨n, t, rfl, rfl⟩
    · exact .inr ⟨first, last, rfl, rfl⟩
  · rintro (⟨n, t, rfl, rfl⟩ | ⟨first, last, rfl, rfl⟩)
    · exact .node n t
    · exact .notice first last

/-- The characters of a node line, up to the text after its id. -/
theorem nodeLine_toList (n : Node) (t : String) : s!"#{n.id} {t}".toList =
    '#' :: ((toString n.lo).toList ++
      if n.size = 1 then ' ' :: t.toList
      else '-' :: ((toString (n.hi - 1)).toList ++ ' ' :: t.toList)) := by
  unfold Node.id
  split_ifs <;> simp [String.toList_append]

theorem node_eq_of_line {n m : Node} {t u : String} (hn : n.lo < n.hi) (hm : m.lo < m.hi)
    (h : s!"#{n.id} {t}" = s!"#{m.id} {u}") : n = m := by
  have hlist := congrArg String.toList h
  rw [nodeLine_toList, nodeLine_toList] at hlist
  have hbody := (List.cons.inj hlist).2
  suffices n.lo = m.lo ∧ n.hi = m.hi by
    cases n
    cases m
    simpa using this
  by_cases hsize : n.size = 1 <;> by_cases hsize' : m.size = 1
  · rw [if_pos hsize, if_pos hsize'] at hbody
    obtain ⟨hlo, -⟩ := Text.toString_append_inj (by rfl) (by rfl) hbody
    unfold Node.size at hsize hsize'
    omega
  · rw [if_pos hsize, if_neg hsize'] at hbody
    exact absurd (Text.toString_append_inj (by rfl) (by rfl) hbody).2 (by simp)
  · rw [if_neg hsize, if_pos hsize'] at hbody
    exact absurd (Text.toString_append_inj (by rfl) (by rfl) hbody).2 (by simp)
  · rw [if_neg hsize, if_neg hsize'] at hbody
    obtain ⟨hlo, hrest⟩ := Text.toString_append_inj (by rfl) (by rfl) hbody
    obtain ⟨hhi, -⟩ := Text.toString_append_inj (by rfl) (by rfl) (List.cons.inj hrest).2
    omega

theorem nodeLine_ne_notice (n : Node) (t : String) (first last : ℕ) :
    s!"#{n.id} {t}" ≠ notice first last := by
  intro h
  obtain ⟨rest, hnotice⟩ := notice_toList first last
  rw [← h, nodeLine_toList] at hnotice
  exact absurd (List.cons.inj hnotice).1 (by decide)

/-- A line tells which entries it stands for. -/
theorem LineShows.unique {text : String} {p q : ℕ × ℕ} (hp : LineShows text p)
    (hq : LineShows text q) (hpos : p.1 < p.2) (hpos' : q.1 < q.2) : p = q := by
  rcases lineShows_iff.mp hp with ⟨n, t, rfl, rfl⟩ | ⟨first, last, rfl, rfl⟩ <;>
    rcases lineShows_iff.mp hq with ⟨m, u, htext, rfl⟩ | ⟨first', last', htext, rfl⟩
  · rw [node_eq_of_line hpos hpos' htext]
  · exact absurd htext (nodeLine_ne_notice n t first' last')
  · exact absurd htext.symm (nodeLine_ne_notice m u first last)
  · obtain ⟨rfl, rfl⟩ := notice_inj htext
    rfl

theorem Merge.lines_prefix_push (m : Merge) (item : Shown) : m.lines <+: (m.push item).lines := by
  unfold Merge.push
  cases item <;> rcases m.run with _ | ⟨first, last⟩ <;> simp only
  · exact List.prefix_append _ _
  · exact List.prefix_append _ _
  · exact List.prefix_rfl
  · split_ifs
    · exact List.prefix_rfl
    · exact List.prefix_append _ _

theorem Merge.lines_prefix_finish (m : Merge) (shown : List Shown) :
    m.lines <+: (shown.foldl Merge.push m).finish := by
  induction shown generalizing m with
  | nil =>
    unfold Merge.finish
    rcases hrun : m.run with _ | ⟨first, last⟩ <;> simp [hrun]
  | cons item shown ih => exact (m.lines_prefix_push item).trans (ih _)

theorem mem_mergeNotices {shown : List Shown} {text : String} (h : .line text ∈ shown) :
    text ∈ mergeNotices shown := by
  obtain ⟨before, after, rfl⟩ := List.append_of_mem h
  rw [mergeNotices, List.foldl_append, List.foldl_cons]
  generalize before.foldl Merge.push ⟨[], none⟩ = m
  have hpush : text ∈ (m.push (.line text)).lines := by
    unfold Merge.push
    rcases m.run with _ | ⟨first, last⟩ <;> simp
  exact ((m.push (.line text)).lines_prefix_finish after).subset hpush

/-- An open run becomes one notice, which ends no earlier. -/
theorem Merge.finish_of_run {m : Merge} {first last : ℕ} (hrun : m.run = some (first, last))
    (shown : List Shown) : ∃ last', last ≤ last' ∧
      m.lines ++ [notice first last'] <+: (shown.foldl Merge.push m).finish := by
  induction shown generalizing m last with
  | nil => exact ⟨last, le_rfl, by simp [Merge.finish, hrun]⟩
  | cons item shown ih =>
    have hrest := (m.push item).lines_prefix_finish shown
    cases item with
    | line text =>
      refine ⟨last, le_rfl, List.IsPrefix.trans ?_ hrest⟩
      exact ⟨[text], by simp [Merge.push, hrun]⟩
    | unreadable id =>
      by_cases hid : last + 1 = id
      · have hpush : m.push (.unreadable id) = ⟨m.lines, some (first, id)⟩ := by
          simp [Merge.push, hrun, hid]
        obtain ⟨last', hle, hpre⟩ := ih (m := ⟨m.lines, some (first, id)⟩) rfl
        exact ⟨last', by omega, by rw [List.foldl_cons, hpush]; exact hpre⟩
      · refine ⟨last, le_rfl, List.IsPrefix.trans ?_ hrest⟩
        simp [Merge.push, hrun, hid]

/-- The open run ends with the last item. -/
theorem Merge.run_foldl (shown : List Shown) (id : ℕ) :
    (∃ first, (shown.foldl Merge.push ⟨[], none⟩).run = some (first, id)) ↔
      shown.getLast? = some (.unreadable id) := by
  rcases List.eq_nil_or_concat shown with rfl | ⟨shown, item, rfl⟩
  · simp
  · rw [List.concat_eq_append, List.foldl_append, List.getLast?_concat]
    generalize shown.foldl Merge.push ⟨[], none⟩ = m
    simp only [List.foldl_cons, List.foldl_nil, Option.some.injEq]
    unfold Merge.push
    rcases item with text | id' <;> rcases m.run with _ | ⟨first, last⟩ <;> simp only
    · simp
    · simp
    · simp [eq_comm]
    · split_ifs <;> simp [eq_comm]

/-- More items leave the lines as they are, unless a run goes on in them. -/
theorem mergeNotices_prefix_iff (shown more : List Shown) :
    mergeNotices shown <+: mergeNotices (shown ++ more) ↔
      ∀ id, shown.getLast? = some (.unreadable id) → more.head? ≠ some (.unreadable (id + 1)) := by
  simp only [mergeNotices, List.foldl_append, ← Merge.run_foldl]
  generalize shown.foldl Merge.push ⟨[], none⟩ = m
  rcases hrun : m.run with _ | ⟨first, last⟩
  · have hfinish : m.finish = m.lines := by simp [Merge.finish, hrun]
    rw [hfinish]
    simp [m.lines_prefix_finish more]
  · have hfinish : m.finish = m.lines ++ [notice first last] := by simp [Merge.finish, hrun]
    rw [hfinish]
    rcases more with _ | ⟨item, more⟩
    · simp [hfinish]
    have hrest := Merge.lines_prefix_finish (m.push item) more
    constructor
    · rintro hpre id ⟨first', hid⟩ hitem
      obtain ⟨rfl, rfl⟩ := Prod.mk.inj (Option.some.inj hid)
      obtain rfl : item = .unreadable (last + 1) := by simpa using hitem
      have hpush : (m.push (.unreadable (last + 1))).run = some (first, last + 1) := by
        simp [Merge.push, hrun]
      have hlines : (m.push (.unreadable (last + 1))).lines = m.lines := by
        simp [Merge.push, hrun]
      obtain ⟨last', hle, hlonger⟩ := Merge.finish_of_run hpush more
      rw [hlines] at hlonger
      have hsame := List.prefix_of_prefix_length_le hpre hlonger (by simp)
      have hnotice := (hsame.eq_of_length (by simp))
      obtain ⟨-, rfl⟩ := notice_inj (List.cons.inj (List.append_cancel_left hnotice)).1
      omega
    · intro hother
      refine List.IsPrefix.trans ?_ hrest
      rcases item with text | id
      · exact ⟨[text], by simp [Merge.push, hrun]⟩
      · have hid : last + 1 ≠ id := by
          rintro rfl
          exact hother last ⟨first, rfl⟩ rfl
        simp [Merge.push, hrun, hid]

end Ralph.ChatMemory
