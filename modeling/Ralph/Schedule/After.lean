import Ralph.Chat.Words
import Ralph.Text

namespace Ralph.Schedule
open Chat ChatMemory

def unitSecs : Char → Option ℕ
  | 'h' => some 3600
  | 'm' => some 60
  | 's' => some 1
  | _ => none

/-- `checked_mul` and `checked_add` on `u64`. -/
def checkedU64 (n : ℕ) : Option ℕ := if n < 2 ^ 64 then some n else none

/-- The variables of the `while` in `parse_after`. -/
structure AfterState where
  rest : List Char
  total : ℕ
  previousUnit : ℕ
  deriving DecidableEq, Repr

def afterStep (raw : String) (r : AfterState) : AfterState ⊕ Except String ℕ :=
  if r.rest = [] then .inr (.ok r.total)
  else
    match r.rest.dropWhile Char.isDigit with
    | [] => .inr (.error s!"after '{raw}' is missing a unit (h, m or s).")
    | letter :: tail =>
      match parseUsize (String.ofList (r.rest.takeWhile Char.isDigit)) with
      | none => .inr (.error s!"after '{raw}' must use whole numbers like 1h30m.")
      | some amount =>
        match unitSecs letter with
        | none => .inr (.error s!"after '{raw}' has unknown unit '{letter}'.")
        | some unit =>
          if r.previousUnit ≤ unit then
            .inr (.error s!"after '{raw}' must list each unit once, largest first.")
          else
            match (checkedU64 (amount * unit)).bind fun secs => checkedU64 (r.total + secs) with
            | none => .inr (.error s!"after '{raw}' is too large.")
            | some total => .inl ⟨tail, total, unit⟩

/-- One decimal amount with its unit. -/
structure Term where
  digits : List Char
  letter : Char
  unit : ℕ
  nonempty : digits ≠ []
  decimal : ∀ c ∈ digits, c.isDigit = true
  fits : Nat.ofDigitChars 10 digits 0 < 2 ^ 64
  known : unitSecs letter = some unit

namespace Term

def amount (t : Term) : ℕ := Nat.ofDigitChars 10 t.digits 0

def secs (t : Term) : ℕ := t.amount * t.unit

def text (t : Term) : List Char := t.digits ++ [t.letter]

end Term

theorem unitSecs_eq_some {letter : Char} {unit : ℕ} (h : unitSecs letter = some unit) :
    (letter = 'h' ∨ letter = 'm' ∨ letter = 's') ∧ 0 < unit ∧ unit < 2 ^ 64 - 1 := by
  unfold unitSecs at h
  split at h
  · simp only [Option.some.injEq] at h
    exact ⟨.inl rfl, by omega, by omega⟩
  · simp only [Option.some.injEq] at h
    exact ⟨.inr (.inl rfl), by omega, by omega⟩
  · simp only [Option.some.injEq] at h
    exact ⟨.inr (.inr rfl), by omega, by omega⟩
  · exact absurd h (by simp)

theorem Term.isDigit_letter (t : Term) : t.letter.isDigit = false := by
  rcases (unitSecs_eq_some t.known).1 with h | h | h
  all_goals rw [h]; decide

theorem checkedU64_eq_some {n m : ℕ} : checkedU64 n = some m ↔ m = n ∧ n < 2 ^ 64 := by
  unfold checkedU64
  split_ifs with h
  · rw [Option.some.injEq, and_iff_left h, eq_comm]
  · constructor
    · intro hnone
      exact absurd hnone (by simp)
    · intro hm
      exact absurd hm.2 h

/-- A round of the loop reads exactly one term of a smaller unit, and the sum still fits. -/
theorem afterStep_eq_inl {raw : String} {r r' : AfterState} :
    afterStep raw r = .inl r' ↔ ∃ t : Term, r.rest = t.text ++ r'.rest ∧
      t.unit < r.previousUnit ∧ r'.previousUnit = t.unit ∧ r'.total = r.total + t.secs ∧
      r'.total < 2 ^ 64 := by
  constructor
  · intro h
    rw [afterStep] at h
    -- each failing branch of the round ends the loop, so it is not `.inl`
    split_ifs at h with hrest
    have hsplit := List.takeWhile_append_dropWhile (p := Char.isDigit) (l := r.rest)
    cases hdrop : r.rest.dropWhile Char.isDigit with
    | nil => simp [hdrop] at h
    | cons letter tail =>
      rw [hdrop] at h hsplit
      dsimp only at h
      have hdigits : ∀ c ∈ r.rest.takeWhile Char.isDigit, c.isDigit = true :=
        fun c => List.mem_takeWhile_imp
      cases hamount : parseUsize (String.ofList (r.rest.takeWhile Char.isDigit)) with
      | none => simp [hamount] at h
      | some amount =>
        rw [hamount] at h
        rw [parseUsize_digits hdigits] at hamount
        cases hunit : unitSecs letter with
        | none => simp [hunit] at h
        | some unit =>
          rw [hunit] at h
          dsimp only at h
          split_ifs at h with hle
          split at h
          · exact absurd h (by simp)
          · next total htotal =>
            rw [Option.bind_eq_some_iff] at htotal
            obtain ⟨secs, hsecs, htotal⟩ := htotal
            rw [checkedU64_eq_some] at hsecs htotal
            have hr' := Sum.inl.inj h
            refine ⟨⟨_, letter, unit, hamount.1, hdigits, hamount.2.1 ▸ hamount.2.2, hunit⟩, ?_, ?_⟩
            · rw [← hr', Term.text, List.append_assoc, List.singleton_append]
              exact hsplit.symm
            · rw [← hr']
              refine ⟨Nat.lt_of_not_le hle, rfl, ?_, ?_⟩
              · show total = r.total +
                  Nat.ofDigitChars 10 (r.rest.takeWhile Char.isDigit) 0 * unit
                rw [← hamount.2.1]
                omega
              · show total < 2 ^ 64
                omega
  · rintro ⟨t, hrest, hunit, hprevious, htotal, hfits⟩
    have hdigit : ¬ t.letter.isDigit = true := by simp [t.isDigit_letter]
    have htext : r.rest = t.digits ++ t.letter :: r'.rest := by
      rw [hrest, Term.text, List.append_assoc, List.singleton_append]
    -- the unit is no digit, so the digits end where the term says
    have htake : r.rest.takeWhile Char.isDigit = t.digits := by
      rw [htext, List.takeWhile_append_of_pos t.decimal, List.takeWhile_cons_of_neg hdigit,
        List.append_nil]
    have hdrop : r.rest.dropWhile Char.isDigit = t.letter :: r'.rest := by
      rw [htext, List.dropWhile_append_of_pos t.decimal, List.dropWhile_cons_of_neg hdigit]
    have hne : r.rest ≠ [] := by simp [htext]
    have hamount : parseUsize (String.ofList t.digits) = some t.amount := by
      rw [parseUsize_digits t.decimal]
      exact ⟨t.nonempty, rfl, t.fits⟩
    have hsum : ((checkedU64 (t.amount * t.unit)).bind fun secs => checkedU64 (r.total + secs)) =
        some r'.total := by
      have hsecs : t.secs = t.amount * t.unit := rfl
      rw [Option.bind_eq_some_iff]
      refine ⟨t.secs, ?_, ?_⟩
      · rw [checkedU64_eq_some]
        omega
      · rw [checkedU64_eq_some]
        omega
    rw [afterStep, if_neg hne, hdrop, htake]
    dsimp only
    rw [hamount]
    dsimp only
    rw [t.known]
    dsimp only
    rw [if_neg (by omega), hsum]
    dsimp only
    rw [← hprevious]

theorem afterStep_eq_ok {raw : String} {r : AfterState} {n : ℕ} :
    afterStep raw r = .inr (.ok n) ↔ r.rest = [] ∧ n = r.total := by
  constructor
  · intro h
    rw [afterStep] at h
    split_ifs at h with hrest
    · rw [Sum.inr.injEq, Except.ok.injEq] at h
      exact ⟨hrest, h.symm⟩
    · split at h
      · simp at h
      · split at h
        · simp at h
        · split at h
          · simp at h
          · split_ifs at h
            · simp at h
            · split at h
              · simp at h
              · simp at h
  · rintro ⟨hrest, hn⟩
    rw [afterStep, if_pos hrest, hn]

def afterBody (raw : String) : Loop.Body AfterState (Except String ℕ) where
  step := afterStep raw
  measure r := r.rest.length
  decreases r r' hs := by
    obtain ⟨t, hrest, -⟩ := afterStep_eq_inl.1 hs
    rw [hrest, Term.text, List.length_append, List.length_append, List.length_singleton]
    omega

def parseAfter (raw : String) : Except String ℕ :=
  let text := trim raw
  if text = "" then .error "after must not be empty."
  else
    match (afterBody raw).run ⟨text.toList, 0, 2 ^ 64 - 1⟩ with
    | .error e => .error e
    | .ok total => if total = 0 then .error "after must be longer than zero." else .ok total

def spanParts (secs : ℕ) : List (ℕ × Char) :=
  [(secs / 3600, 'h'), (secs % 3600 / 60, 'm'), (secs % 60, 's')].filter fun part => 0 < part.1

def formatSpan (secs : ℕ) : String :=
  let parts := String.join ((spanParts secs).map fun part =>
    toString part.1 ++ String.singleton part.2)
  if parts = "" then "0s" else parts

/-- The terms from here on, with falling units, and what they add to the total. -/
def Sums (terms : List Term) (r : AfterState) (n : ℕ) : Prop :=
  r.rest = terms.flatMap Term.text ∧
    (r.previousUnit :: terms.map Term.unit).Pairwise (· > ·) ∧
    n = r.total + (terms.map Term.secs).sum ∧ n < 2 ^ 64

/-- The loop accepts exactly the sequences of terms. -/
theorem afterBody_run (raw : String) (r : AfterState) (hr : r.total < 2 ^ 64) (n : ℕ) :
    (afterBody raw).run r = .ok n ↔ ∃ terms, Sums terms r n := by
  revert hr
  refine (afterBody raw).run_induction
    (fun r res => r.total < 2 ^ 64 → (res = .ok n ↔ ∃ terms, Sums terms r n)) ?_ ?_ r
  · intro r res hs hr
    constructor
    · intro hres
      obtain ⟨hrest, hn⟩ := afterStep_eq_ok.1 (hs.trans (congrArg Sum.inr hres))
      exact ⟨[], hrest, List.pairwise_singleton _ _, hn, by omega⟩
    · rintro ⟨terms, hrest, hunits, hn, hfits⟩
      cases terms with
      | nil =>
        have hstep : afterStep raw r = .inr (.ok n) := afterStep_eq_ok.2 ⟨hrest, hn⟩
        exact Sum.inr.inj (hs.symm.trans hstep)
      | cons t terms =>
        -- a first term makes the loop go on
        rw [List.map_cons, List.pairwise_cons, List.forall_mem_cons] at hunits
        rw [List.map_cons, List.sum_cons] at hn
        have hstep : afterStep raw r = .inl ⟨terms.flatMap Term.text, r.total + t.secs, t.unit⟩ :=
          afterStep_eq_inl.2 ⟨t, hrest, hunits.1.1, rfl, rfl, by dsimp only; omega⟩
        exact absurd (hs.symm.trans hstep) (by simp)
  · intro r s res hs ih hr
    obtain ⟨t, hrest, hunit, hprevious, htotal, hfits⟩ := afterStep_eq_inl.1 hs
    rw [ih hfits]
    constructor
    · rintro ⟨terms, hrest', hunits, hn, hn'⟩
      rw [hprevious] at hunits
      refine ⟨t :: terms, ?_, ?_, ?_, hn'⟩
      · rw [hrest, hrest', List.flatMap_cons]
      · rw [List.map_cons, List.pairwise_cons, List.forall_mem_cons]
        refine ⟨⟨hunit, fun u hu => ?_⟩, hunits⟩
        have hsmaller := (List.pairwise_cons.1 hunits).1 u hu
        omega
      · rw [List.map_cons, List.sum_cons]
        omega
    · rintro ⟨terms, hrest', hunits, hn, hn'⟩
      cases terms with
      | nil =>
        have hstep : afterStep raw r = .inr (.ok n) := afterStep_eq_ok.2 ⟨hrest', hn⟩
        exact absurd (hs.symm.trans hstep) (by simp)
      | cons u terms =>
        rw [List.map_cons, List.pairwise_cons, List.forall_mem_cons] at hunits
        rw [List.map_cons, List.sum_cons] at hn
        have hstep : afterStep raw r = .inl ⟨terms.flatMap Term.text, r.total + u.secs, u.unit⟩ :=
          afterStep_eq_inl.2 ⟨u, hrest', hunits.1.1, rfl, rfl, by dsimp only; omega⟩
        rw [Sum.inl.inj (hs.symm.trans hstep)]
        exact ⟨terms, rfl, hunits.2, by dsimp only; omega, hn'⟩

/-- What `parse_after` accepts, and the number it then gives. -/
theorem parseAfter_eq_ok {raw : String} {n : ℕ} :
    parseAfter raw = .ok n ↔ ∃ terms : List Term, terms ≠ [] ∧
      (trim raw).toList = terms.flatMap Term.text ∧ (terms.map Term.unit).Pairwise (· > ·) ∧
      n = (terms.map Term.secs).sum ∧ 1 ≤ n ∧ n < 2 ^ 64 := by
  have hrun := afterBody_run raw ⟨(trim raw).toList, 0, 2 ^ 64 - 1⟩ (by dsimp only; omega)
  rw [parseAfter]
  constructor
  · intro h
    split_ifs at h with hempty
    split at h
    · exact absurd h (by simp)
    · next total htotal =>
      split_ifs at h with hzero
      rw [Except.ok.injEq] at h
      obtain ⟨terms, hrest, hunits, hn, hfits⟩ := (hrun total).1 htotal
      dsimp only at hrest hn
      refine ⟨terms, ?_, hrest, (List.pairwise_cons.1 hunits).2, by omega, by omega, by omega⟩
      intro hnil
      apply hempty
      rw [← String.toList_inj, hrest, hnil]
      rfl
  · rintro ⟨terms, hne, htext, hunits, hn, hpos, hfits⟩
    have hsums : Sums terms ⟨(trim raw).toList, 0, 2 ^ 64 - 1⟩ n := by
      refine ⟨htext, ?_, by dsimp only; omega, hfits⟩
      rw [List.pairwise_cons]
      refine ⟨fun u hu => ?_, hunits⟩
      obtain ⟨t, ht, hu⟩ := List.mem_map.1 hu
      rw [← hu]
      exact (unitSecs_eq_some t.known).2.2
    rw [if_neg, (hrun n).2 ⟨terms, hsums⟩]
    · exact if_neg (by omega)
    · intro hempty
      obtain ⟨t, terms', hterms⟩ := List.exists_cons_of_ne_nil hne
      rw [hempty, hterms, List.flatMap_cons, Term.text] at htext
      simp at htext

theorem isWhitespace_of_term {t : Term} : ∀ c ∈ t.text, isWhitespace c = false := by
  intro c hc
  rw [Term.text, List.mem_append, List.mem_singleton] at hc
  rcases hc with hdigit | hletter
  · exact isWhitespace_of_isDigit (t.decimal c hdigit)
  · rw [hletter]
    rcases (unitSecs_eq_some t.known).1 with h | h | h
    all_goals rw [h]; decide

/-- A printed amount is read back. -/
def Term.print (amount : ℕ) (letter : Char) (unit : ℕ) (hfits : amount < 2 ^ 64)
    (hknown : unitSecs letter = some unit) : Term where
  digits := Nat.toDigits 10 amount
  letter := letter
  unit := unit
  nonempty := Nat.toDigits_ne_nil
  decimal := fun _ hc => Nat.isDigit_of_mem_toDigits (by decide) (by decide) hc
  fits := Nat.ofDigitChars_ten_toDigits.trans_lt hfits
  known := hknown

def unitOf (letter : Char) : ℕ := (unitSecs letter).getD 0

def partText (part : ℕ × Char) : List Char := (toString part.1).toList ++ [part.2]

theorem exists_terms {parts : List (ℕ × Char)}
    (h : ∀ part ∈ parts, part.1 < 2 ^ 64 ∧ unitSecs part.2 = some (unitOf part.2)) :
    ∃ terms : List Term, terms.flatMap Term.text = parts.flatMap partText ∧
      terms.map Term.unit = parts.map (fun part => unitOf part.2) ∧
      terms.map Term.secs = parts.map fun part => part.1 * unitOf part.2 := by
  induction parts with
  | nil => exact ⟨[], rfl, rfl, rfl⟩
  | cons part parts ih =>
    rw [List.forall_mem_cons] at h
    obtain ⟨terms, htext, hunits, hsecs⟩ := ih h.2
    have hprinted : (Term.print part.1 part.2 _ h.1.1 h.1.2).text = partText part := by
      rw [Term.text, partText, Nat.toString_eq_ofList_toDigits, String.toList_ofList]
      rfl
    have hamount : (Term.print part.1 part.2 _ h.1.1 h.1.2).secs = part.1 * unitOf part.2 := by
      rw [Term.secs, Term.amount]
      exact congrArg (· * unitOf part.2) Nat.ofDigitChars_ten_toDigits
    refine ⟨Term.print part.1 part.2 _ h.1.1 h.1.2 :: terms, ?_, ?_, ?_⟩
    · rw [List.flatMap_cons, List.flatMap_cons, htext, hprinted]
    · rw [List.map_cons, List.map_cons, hunits]
      rfl
    · rw [List.map_cons, List.map_cons, hsecs, hamount]

/-- Leaving out the parts of nothing leaves the sum as it is. -/
theorem sum_filter_pos (parts : List (ℕ × Char)) :
    ((parts.filter fun part => 0 < part.1).map fun part => part.1 * unitOf part.2).sum =
      (parts.map fun part => part.1 * unitOf part.2).sum := by
  induction parts with
  | nil => rfl
  | cons part parts ih =>
    by_cases hpos : 0 < part.1
    · rw [List.filter_cons_of_pos (by simpa using hpos), List.map_cons, List.map_cons,
        List.sum_cons, List.sum_cons, ih]
    · have hzero : part.1 = 0 := by omega
      rw [List.filter_cons_of_neg (by simpa using hpos), ih, List.map_cons, List.sum_cons, hzero]
      omega

theorem formatSpan_toList {secs : ℕ} (h : (spanParts secs).flatMap partText ≠ []) :
    (formatSpan secs).toList = (spanParts secs).flatMap partText := by
  have hjoin : (String.join ((spanParts secs).map fun part =>
      toString part.1 ++ String.singleton part.2)).toList = (spanParts secs).flatMap partText := by
    rw [String.toList_join, List.flatMap_map]
    congr 1
    funext part
    rw [String.toList_append, String.toList_singleton, partText]
  rw [formatSpan]
  split_ifs with hempty
  · rw [hempty] at hjoin
    exact absurd hjoin.symm h
  · exact hjoin

/-- Every span of whole seconds is read back from its own text, and `parse_after` accepts
nothing but falling units with an exact sum. -/
theorem parseAfter_exact :
    (∀ n, 1 ≤ n → n < 2 ^ 64 → parseAfter (formatSpan n) = .ok n) ∧
      ∀ raw n, parseAfter raw = .ok n ↔ ∃ terms : List Term, terms ≠ [] ∧
        (trim raw).toList = terms.flatMap Term.text ∧ (terms.map Term.unit).Pairwise (· > ·) ∧
        n = (terms.map Term.secs).sum ∧ 1 ≤ n ∧ n < 2 ^ 64 := by
  refine ⟨fun n hpos hfits => ?_, fun raw n => parseAfter_eq_ok⟩
  have hknown : ∀ part ∈ [(n / 3600, 'h'), (n % 3600 / 60, 'm'), (n % 60, 's')],
      part.1 < 2 ^ 64 ∧ unitSecs part.2 = some (unitOf part.2) := by
    rw [List.forall_mem_cons, List.forall_mem_cons, List.forall_mem_singleton]
    exact ⟨⟨by dsimp only; omega, rfl⟩, ⟨by dsimp only; omega, rfl⟩, by dsimp only; omega, rfl⟩
  obtain ⟨terms, htext, hunits, hsecs⟩ := @exists_terms (spanParts n)
    fun part hpart => hknown part (List.mem_of_mem_filter hpart)
  have hsum : (terms.map Term.secs).sum = n := by
    rw [hsecs, spanParts, sum_filter_pos]
    show n / 3600 * 3600 + (n % 3600 / 60 * 60 + (n % 60 * 1 + 0)) = n
    omega
  have hne : terms ≠ [] := by
    intro hnil
    rw [hnil, List.map_nil, List.sum_nil] at hsum
    omega
  have hprinted : (formatSpan n).toList = terms.flatMap Term.text := by
    rw [htext]
    apply formatSpan_toList
    rw [← htext]
    obtain ⟨t, terms', hterms⟩ := List.exists_cons_of_ne_nil hne
    rw [hterms, List.flatMap_cons, Term.text]
    simp
  rw [parseAfter_eq_ok]
  refine ⟨terms, hne, ?_, ?_, hsum.symm, hpos, hfits⟩
  · rw [trim, String.toList_ofList, hprinted]
    apply trimChars_of_not_whitespace
    intro c hc
    obtain ⟨t, -, hct⟩ := List.mem_flatMap.1 hc
    exact isWhitespace_of_term c hct
  · rw [hunits]
    have hall : [3600, 60, 1].Pairwise (· > ·) := by decide
    exact hall.sublist (List.filter_sublist.map fun part : ℕ × Char => unitOf part.2)

theorem parseAfter_ninety_minutes : parseAfter (formatSpan 5400) = .ok 5400 :=
  parseAfter_exact.1 5400 (by decide) (by decide)

end Ralph.Schedule
