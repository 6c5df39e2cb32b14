import Ralph.JsonValue

namespace Ralph.JsonValue

/-- The members with the value of the first one of this name changed. -/
def modifyFirst (key : String) (f : JsonValue → JsonValue) :
    List (String × JsonValue) → List (String × JsonValue)
  | [] => []
  | (k, v) :: members => if k = key then (k, f v) :: members else (k, v) :: modifyFirst key f members

/-- A value put in the place that a pointer leads to, if it leads anywhere. None of the names is a
number, so the pointer leads into no array. -/
def replaceAt (new : JsonValue) : List String → JsonValue → JsonValue
  | [], _ => new
  | key :: path, object members => object (modifyFirst key (replaceAt new path) members)
  | _ :: _, v => v

/-- The same members, but for the value of the first one of a name. -/
inductive MembersAgree (key : String) (R : JsonValue → JsonValue → Prop) :
    List (String × JsonValue) → List (String × JsonValue) → Prop
  | nil : MembersAgree key R [] []
  | here {v w : JsonValue} (members : List (String × JsonValue)) (h : R v w) :
      MembersAgree key R ((key, v) :: members) ((key, w) :: members)
  | there {k : String} (v : JsonValue) {members members' : List (String × JsonValue)} (hk : k ≠ key)
      (h : MembersAgree key R members members') :
      MembersAgree key R ((k, v) :: members) ((k, v) :: members')

/-- The same value, but for what a pointer leads to in both. -/
def SameBut : List String → JsonValue → JsonValue → Prop
  | [], _, _ => True
  | key :: path, v, w => v = w ∨ ∃ members members',
      v = object members ∧ w = object members' ∧ MembersAgree key (SameBut path) members members'

theorem SameBut.refl (path : List String) (v : JsonValue) : SameBut path v v := by
  cases path with
  | nil => trivial
  | cons _ _ => exact .inl rfl

section Agree

variable {key : String} {f : JsonValue → JsonValue} {R : JsonValue → JsonValue → Prop}

theorem modifyFirst_eq_iff (hR : ∀ v w, f v = f w ↔ R v w)
    {members members' : List (String × JsonValue)} :
    modifyFirst key f members = modifyFirst key f members' ↔ MembersAgree key R members members' := by
  constructor
  · intro h
    induction members generalizing members' with
    | nil =>
      obtain _ | ⟨⟨k', w⟩, members'⟩ := members'
      · exact .nil
      · rw [modifyFirst, modifyFirst] at h
        split_ifs at h
    | cons member members ih =>
      obtain ⟨k, v⟩ := member
      obtain _ | ⟨⟨k', w⟩, members'⟩ := members'
      · rw [modifyFirst, modifyFirst] at h
        split_ifs at h
      · rw [modifyFirst, modifyFirst] at h
        split_ifs at h with hk hk' hk'
        · obtain ⟨⟨-, hv⟩, rfl⟩ := by simpa using h
          subst hk hk'
          exact .here _ ((hR v w).1 hv)
        · obtain ⟨⟨rfl, -⟩, -⟩ := by simpa using h
          exact absurd hk hk'
        · obtain ⟨⟨rfl, -⟩, -⟩ := by simpa using h
          exact absurd hk' hk
        · obtain ⟨⟨rfl, rfl⟩, hrest⟩ := by simpa using h
          exact .there _ hk (ih hrest)
  · intro h
    induction h with
    | nil => rfl
    | here members h => rw [modifyFirst, modifyFirst, if_pos rfl, if_pos rfl, (hR _ _).2 h]
    | there v hk _ ih => rw [modifyFirst, modifyFirst, if_neg hk, if_neg hk, ih]

end Agree

/-- Replacing hides what a pointer leads to, and nothing else. -/
theorem replaceAt_eq_iff {new : JsonValue} {path : List String} {v w : JsonValue} :
    replaceAt new path v = replaceAt new path w ↔ SameBut path v w := by
  induction path generalizing v w with
  | nil => simp [replaceAt, SameBut]
  | cons key path ih =>
    constructor
    · intro h
      cases v <;> cases w
      case object.object members members' =>
        rw [replaceAt, replaceAt, object.injEq, modifyFirst_eq_iff fun _ _ => ih] at h
        exact .inr ⟨members, members', rfl, rfl, h⟩
      all_goals first
        | exact .inl h
        | cases h
    · rintro (rfl | ⟨members, members', rfl, rfl, h⟩)
      · rfl
      · rw [replaceAt, replaceAt, (modifyFirst_eq_iff fun _ _ => ih).2 h]

end Ralph.JsonValue
