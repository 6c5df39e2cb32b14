import Mathlib.Data.List.Basic
import Mathlib.Data.Option.Basic

namespace Ralph

variable {α : Type*} (p q : α → Bool)

/-- A switch that `p` turns on and `q` turns off, along a list: where it is left, or `none`
once it would be turned on a second time. -/
def switch : Bool → List α → Option Bool
  | on, [] => some on
  | on, a :: l =>
    if p a then (if on then none else switch true l)
    else if q a then switch false l
    else switch on l

@[simp] theorem switch_nil (on : Bool) : switch p q on [] = some on := rfl

variable {p q}

theorem switch_on {a : α} {l : List α} (h : p a) :
    switch p q false (a :: l) = switch p q true l := by
  simp [switch, h]

theorem switch_off {on : Bool} {a : α} {l : List α} (hp : p a = false) (hq : q a) :
    switch p q on (a :: l) = switch p q false l := by
  simp [switch, hp, hq]

theorem switch_keep {on : Bool} {a : α} {l : List α} (hp : p a = false) (hq : q a = false) :
    switch p q on (a :: l) = switch p q on l := by
  simp [switch, hp, hq]

theorem switch_append (on : Bool) (l l' : List α) :
    switch p q on (l ++ l') = (switch p q on l).bind (switch p q · l') := by
  induction l generalizing on with
  | nil => rfl
  | cons a l ih =>
    simp only [List.cons_append, switch]
    split_ifs
    · rfl
    · exact ih true
    · exact ih false
    · exact ih on

theorem switch_append_of {on m : Bool} {l : List α} (h : switch p q on l = some m) (l' : List α) :
    switch p q on (l ++ l') = switch p q m l' := by
  rw [switch_append, h]
  rfl

theorem exists_of_switch_append {on : Bool} {l l' : List α} (h : (switch p q on (l ++ l')).isSome) :
    ∃ mid, switch p q on l = some mid ∧ (switch p q mid l').isSome := by
  rw [switch_append] at h
  cases hl : switch p q on l with
  | none => simp [hl] at h
  | some mid => exact ⟨mid, rfl, by simpa [hl] using h⟩

theorem switch_of_neither {l : List α} (h : ∀ a ∈ l, p a = false ∧ q a = false) (on : Bool) :
    switch p q on l = some on := by
  induction l with
  | nil => rfl
  | cons a l ih =>
    obtain ⟨hp, hq⟩ := h a (List.mem_cons_self ..)
    rw [switch_keep hp hq]
    exact ih fun b hb => h b (List.mem_cons_of_mem a hb)

theorem switch_of_not_off {l : List α} (h : ∀ a ∈ l, q a = false) {a : α} (ha : p a)
    (l' : List α) : switch p q true (l ++ a :: l') = none := by
  induction l with
  | nil => simp [switch, ha]
  | cons b l ih =>
    have hq := h b (List.mem_cons_self ..)
    by_cases hp : p b
    · simp [switch, hp]
    · rw [List.cons_append, switch_keep (by simpa using hp) hq]
      exact ih fun c hc => h c (List.mem_cons_of_mem b hc)

/-- A switch that ends on was on all along, or was turned on and not off again. -/
theorem exists_on_of_switch {on : Bool} {l : List α} (h : switch p q on l = some true) :
    (on = true ∧ ∀ x ∈ l, q x = false) ∨ ∃ pre x post, l = pre ++ x :: post ∧ p x ∧ ∀ y ∈ post, q y = false := by
  induction l generalizing on with
  | nil => exact .inl ⟨Option.some.inj h, List.forall_mem_nil _⟩
  | cons a l ih =>
    have hlater : (∃ pre x post, l = pre ++ x :: post ∧ p x ∧ ∀ y ∈ post, q y = false) →
        ∃ pre x post, a :: l = pre ++ x :: post ∧ p x ∧ ∀ y ∈ post, q y = false := by
      rintro ⟨pre, x, post, rfl, hx, hpost⟩
      exact ⟨a :: pre, x, post, rfl, hx, hpost⟩
    by_cases hp : p a
    · cases on with
      | true => simp [switch, hp] at h
      | false =>
        rw [switch_on hp] at h
        obtain ⟨-, hq⟩ | hon := ih h
        · exact .inr ⟨[], a, l, rfl, hp, hq⟩
        · exact .inr (hlater hon)
    · have hp : p a = false := by simpa using hp
      by_cases hq : q a
      · rw [switch_off hp hq] at h
        obtain ⟨hon, -⟩ | hon := ih h
        · cases hon
        · exact .inr (hlater hon)
      · have hq : q a = false := by simpa using hq
        rw [switch_keep hp hq] at h
        obtain ⟨hon, hall⟩ | hon := ih h
        · exact .inl ⟨hon, List.forall_mem_cons.mpr ⟨hq, hall⟩⟩
        · exact .inr (hlater hon)

/-- A switch that is never turned on twice is turned off between any two times it is turned on. -/
theorem exists_off_of_switch {on : Bool} {pre mid post : List α} {a b : α}
    (h : (switch p q on (pre ++ a :: mid ++ b :: post)).isSome) (ha : p a) (hb : p b) :
    ∃ x ∈ mid, q x := by
  by_contra hmid
  have hq : ∀ x ∈ mid, q x = false := fun x hx => by
    by_contra hx'
    exact hmid ⟨x, hx, by simpa using hx'⟩
  rw [List.append_assoc] at h
  obtain ⟨v, -, hv⟩ := exists_of_switch_append h
  cases v with
  | true => simp [switch, ha] at hv
  | false =>
    rw [List.cons_append, switch_on ha, switch_of_not_off hq hb] at hv
    exact absurd hv (by simp)

/-- Without the off signal in between, the switch is turned on once at most. -/
theorem countP_le_of_switch {on : Bool} {l : List α} (h : (switch p q on l).isSome)
    (hq : ∀ a ∈ l, q a = false) : l.countP p + on.toNat ≤ 1 := by
  induction l generalizing on with
  | nil => simp [Bool.toNat_le]
  | cons a l ih =>
    have hl : ∀ b ∈ l, q b = false := fun b hb => hq b (List.mem_cons_of_mem a hb)
    by_cases hp : p a
    · cases on with
      | true => simp [switch, hp] at h
      | false =>
        rw [switch_on hp] at h
        have hrest := ih h hl
        simpa [hp] using hrest
    · rw [switch_keep (by simpa using hp) (hq a (List.mem_cons_self ..))] at h
      simpa [hp] using ih h hl

/-- Two switches that each turn the other off alternate: between two times in a row that the
first is turned on, the second is turned on once. -/
theorem countP_eq_one_of_switch {on on' : Bool} {pre mid post : List α} {a b : α}
    (hp : (switch p q on (pre ++ a :: mid ++ b :: post)).isSome)
    (hq : (switch q p on' (pre ++ a :: mid ++ b :: post)).isSome) (ha : p a) (hb : p b)
    (hmid : ∀ x ∈ mid, p x = false) : mid.countP q = 1 := by
  have hpos : 0 < mid.countP q := List.countP_pos_iff.2 (exists_off_of_switch hp ha hb)
  rw [show pre ++ a :: mid ++ b :: post = (pre ++ [a]) ++ (mid ++ b :: post) by simp] at hq
  obtain ⟨v, -, hv⟩ := exists_of_switch_append hq
  obtain ⟨v', hv', -⟩ := exists_of_switch_append hv
  have hle := countP_le_of_switch (Option.isSome_of_mem hv') hmid
  omega

end Ralph
