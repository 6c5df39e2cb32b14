import Mathlib.Tactic

namespace Ralph.Tiling

variable {α : Type*} [LinearOrder α] {lo mid hi : α} {p q : α × α} {ps qs rs : List (α × α)}

/-- The half-open intervals cover `[lo, hi)` from left to right, without a gap or an overlap. -/
inductive Tiles : α → α → List (α × α) → Prop
  | nil (lo : α) : Tiles lo lo []
  | cons {lo mid hi : α} {ps : List (α × α)} (h : lo < mid) (rest : Tiles mid hi ps) :
      Tiles lo hi ((lo, mid) :: ps)

namespace Tiles

theorem cons_iff : Tiles lo hi (p :: ps) ↔ p.1 = lo ∧ p.1 < p.2 ∧ Tiles p.2 hi ps := by
  constructor
  · rintro (_ | ⟨h, rest⟩)
    exact ⟨rfl, h, rest⟩
  · obtain ⟨a, b⟩ := p
    rintro ⟨rfl, h, rest⟩
    exact .cons h rest

theorem nil_iff : Tiles lo hi ([] : List (α × α)) ↔ lo = hi := by
  constructor
  · rintro ⟨⟩
    rfl
  · rintro rfl
    exact .nil lo

theorem singleton (h : lo < hi) : Tiles lo hi [(lo, hi)] := .cons h (.nil hi)

theorem le (h : Tiles lo hi ps) : lo ≤ hi := by
  induction h with
  | nil lo => exact le_rfl
  | cons h _ ih => exact h.le.trans ih

theorem append_iff : Tiles lo hi (ps ++ qs) ↔ ∃ mid, Tiles lo mid ps ∧ Tiles mid hi qs := by
  induction ps generalizing lo with
  | nil => simp [nil_iff]
  | cons p ps ih =>
    rw [List.cons_append, cons_iff, ih]
    constructor
    · rintro ⟨hp, hlt, mid, hps, hqs⟩
      exact ⟨mid, cons_iff.mpr ⟨hp, hlt, hps⟩, hqs⟩
    · rintro ⟨mid, hps, hqs⟩
      obtain ⟨hp, hlt, hps⟩ := cons_iff.mp hps
      exact ⟨hp, hlt, mid, hps, hqs⟩

theorem append (h : Tiles lo mid ps) (h' : Tiles mid hi qs) : Tiles lo hi (ps ++ qs) :=
  append_iff.mpr ⟨mid, h, h'⟩

/-- A stretch of intervals may be replaced by any other that tiles the same piece. -/
theorem replace (h : Tiles lo hi (ps ++ qs ++ rs)) {qs' : List (α × α)}
    (hqs : ∀ a b, Tiles a b qs → Tiles a b qs') : Tiles lo hi (ps ++ qs' ++ rs) := by
  obtain ⟨b, h, hrs⟩ := append_iff.mp h
  obtain ⟨a, hps, h⟩ := append_iff.mp h
  exact (hps.append (hqs a b h)).append hrs

/-- An interval may be cut in two. -/
theorem cut {a b : α} (h : Tiles a b [(lo, hi)]) (hlo : lo < mid) (hhi : mid < hi) :
    Tiles a b [(lo, mid), (mid, hi)] := by
  obtain ⟨rfl, -, hb⟩ := cons_iff.mp h
  obtain rfl := nil_iff.mp hb
  exact .cons hlo (.singleton hhi)

/-- Two neighbours may be glued. -/
theorem glue {a b : α} (h : Tiles a b [p, q]) : Tiles a b [(p.1, q.2)] := by
  obtain ⟨rfl, hlo, h⟩ := cons_iff.mp h
  obtain ⟨hmid, hhi, hb⟩ := cons_iff.mp h
  obtain rfl := nil_iff.mp hb
  exact .singleton (hlo.trans (hmid ▸ hhi))

theorem bounds (h : Tiles lo hi ps) (hp : p ∈ ps) : lo ≤ p.1 ∧ p.1 < p.2 ∧ p.2 ≤ hi := by
  induction h with
  | nil => cases hp
  | cons hlt rest ih =>
    rcases List.mem_cons.mp hp with rfl | hp
    · exact ⟨le_rfl, hlt, rest.le⟩
    · obtain ⟨hlo, hlt', hhi⟩ := ih hp
      exact ⟨hlt.le.trans hlo, hlt', hhi⟩

/-- Each interval ends before the next ones start. -/
theorem pairwise (h : Tiles lo hi ps) : ps.Pairwise fun p q => p.2 ≤ q.1 := by
  induction h with
  | nil => exact .nil
  | cons _ rest ih => exact .cons (fun q hq => (rest.bounds hq).1) ih

/-- The next interval begins where one ends. -/
theorem adjacent (h : Tiles lo hi ps) {i : ℕ} (hp : ps[i]? = some p) (hq : ps[i + 1]? = some q) :
    p.2 = q.1 := by
  induction h generalizing i with
  | nil => cases hp
  | cons hlt rest ih =>
    cases i with
    | zero =>
      obtain rfl := Option.some.inj hp
      cases rest with
      | nil => cases hq
      | cons => exact congrArg Prod.fst (Option.some.inj hq)
    | succ i => exact ih hp hq

/-- Intervals of one point at most are at least as many as the points. -/
theorem le_length {lo hi : ℕ} {ps : List (ℕ × ℕ)} (h : Tiles lo hi ps)
    (hsmall : ∀ p ∈ ps, p.2 - p.1 ≤ 1) : hi ≤ lo + ps.length := by
  induction h with
  | nil lo => omega
  | @cons lo mid hi ps hlt rest ih =>
    rw [List.forall_mem_cons] at hsmall
    have hrest := ih hsmall.2
    have hone := hsmall.1
    rw [List.length_cons]
    omega

end Tiles

/-- Steps of one length from a start. -/
theorem tiles_range' (lo step : ℕ) (hstep : 0 < step) (n : ℕ) :
    Tiles lo (lo + n * step) ((List.range' lo n step).map fun i => (i, i + step)) := by
  induction n generalizing lo with
  | zero => simpa using Tiles.nil lo
  | succ n ih =>
    have hrest := ih (lo + step)
    rw [show lo + step + n * step = lo + (n + 1) * step by ring] at hrest
    exact .cons (by omega) hrest

variable {β γ : Type*} {R : β → α × α → Prop} {xs ys : List β}

/-- Each item stands for an interval, and these tile `[lo, hi)` in the order of the items. -/
def Covers (R : β → α × α → Prop) (xs : List β) (lo hi : α) : Prop :=
  ∃ ps, List.Forall₂ R xs ps ∧ Tiles lo hi ps

namespace Covers

theorem nil (lo : α) : Covers R [] lo lo := ⟨[], .nil, .nil lo⟩

theorem nil_iff : Covers R [] lo hi ↔ lo = hi := by
  constructor
  · rintro ⟨ps, ⟨⟩, h⟩
    exact Tiles.nil_iff.mp h
  · rintro rfl
    exact .nil lo

theorem singleton {x : β} (hx : R x (lo, hi)) (h : lo < hi) : Covers R [x] lo hi :=
  ⟨[(lo, hi)], .cons hx .nil, .singleton h⟩

theorem append (h : Covers R xs lo mid) (h' : Covers R ys mid hi) : Covers R (xs ++ ys) lo hi := by
  obtain ⟨ps, hps, ht⟩ := h
  obtain ⟨qs, hqs, ht'⟩ := h'
  exact ⟨ps ++ qs, List.rel_append hps hqs, ht.append ht'⟩

theorem cons_iff {x : β} :
    Covers R (x :: xs) lo hi ↔ ∃ mid, R x (lo, mid) ∧ lo < mid ∧ Covers R xs mid hi := by
  constructor
  · rintro ⟨_, hps, ht⟩
    cases hps with
    | cons hx hps =>
      obtain ⟨rfl, hlt, ht⟩ := Tiles.cons_iff.mp ht
      exact ⟨_, hx, hlt, _, hps, ht⟩
  · rintro ⟨mid, hx, hlt, ps, hps, ht⟩
    exact ⟨_, .cons hx hps, .cons hlt ht⟩

/-- Every tile is shown by the items that stand for it. -/
theorem flatMap {cs : List γ} {ends : γ → α × α} {f : γ → List β} (h : Tiles lo hi (cs.map ends))
    (hf : ∀ c ∈ cs, (ends c).1 < (ends c).2 → Covers R (f c) (ends c).1 (ends c).2) :
    Covers R (cs.flatMap f) lo hi := by
  induction cs generalizing lo with
  | nil => exact nil_iff.mpr (Tiles.nil_iff.mp h)
  | cons c cs ih =>
    rw [List.forall_mem_cons] at hf
    obtain ⟨rfl, hlt, h⟩ := Tiles.cons_iff.mp h
    exact (hf.1 hlt).append (ih h hf.2)

theorem map {cs : List γ} {ends : γ → α × α} {f : γ → β} (h : Tiles lo hi (cs.map ends))
    (hf : ∀ c ∈ cs, R (f c) (ends c)) : Covers R (cs.map f) lo hi := by
  refine ⟨cs.map ends, ?_, h⟩
  rw [List.forall₂_map_left_iff, List.forall₂_map_right_iff, List.forall₂_same]
  exact hf

end Covers

end Ralph.Tiling
