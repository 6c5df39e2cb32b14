import Ralph.Chat.Command

namespace Ralph.Chat
open ChatMemory

def trimStart (s : String) : String := String.ofList (s.toList.dropWhile isWhitespace)

/-- `str::split_once` on a predicate of characters. -/
def splitOnce (p : Char → Bool) (s : String) : Option (String × String) :=
  match s.toList.dropWhile fun c => !p c with
  | [] => none
  | _ :: after => some (String.ofList (s.toList.takeWhile fun c => !p c), String.ofList after)

/-- `str::rsplit_once` on a predicate of characters. -/
def rsplitOnce (p : Char → Bool) (s : String) : Option (String × String) :=
  match s.toList.rdropWhile fun c => !p c with
  | [] => none
  | before => some (String.ofList before.dropLast, String.ofList (s.toList.rtakeWhile fun c => !p c))

/-- `str::rsplit_once` on a text: the last place where it stands. -/
def rsplitText (sep : List Char) : List Char → Option (List Char × List Char)
  | [] => none
  | c :: cs =>
    match rsplitText sep cs with
    | some (before, after) => some (c :: before, after)
    | none => if sep.isPrefixOf (c :: cs) then some ([], (c :: cs).drop sep.length) else none

/-- `str::parse::<usize>` on 64 bits. -/
def parseUsize (s : String) : Option ℕ :=
  let digits := if s.toList.head? = some '+' then s.toList.tail else s.toList
  let value := Nat.ofDigitChars 10 digits 0
  if digits ≠ [] ∧ digits.all Char.isDigit ∧ value < 2 ^ 64 then some value else none

theorem parseUsize_digits {digits : List Char} {amount : ℕ} (hdigits : ∀ c ∈ digits, c.isDigit = true) :
    parseUsize (String.ofList digits) = some amount ↔
      digits ≠ [] ∧ amount = Nat.ofDigitChars 10 digits 0 ∧ amount < 2 ^ 64 := by
  have hplus : digits.head? ≠ some '+' := by
    intro h
    have hmem := hdigits '+' (List.mem_of_mem_head? h)
    exact absurd hmem (by decide)
  have hall : digits.all Char.isDigit = true := List.all_eq_true.2 hdigits
  rw [parseUsize, String.toList_ofList, if_neg hplus]
  split_ifs with h
  · rw [Option.some.injEq]
    constructor
    · intro hamount
      exact ⟨h.1, hamount.symm, hamount ▸ h.2.2⟩
    · intro hamount
      exact hamount.2.1.symm
  · constructor
    · intro hnone
      exact absurd hnone (by simp)
    · intro hamount
      exact absurd ⟨hamount.1, hall, hamount.2.1 ▸ hamount.2.2⟩ h

def HasText (s : String) : Prop := trim s ≠ ""

instance (s : String) : Decidable (HasText s) := inferInstanceAs (Decidable (_ ≠ _))

theorem stripPrefix_eq_some_iff {s pre rest : String} :
    stripPrefix s pre = some rest ↔ s.toList = pre.toList ++ rest.toList := by
  rw [stripPrefix]
  split_ifs with hpre
  · obtain ⟨t, ht⟩ := List.isPrefixOf_iff_prefix.mp hpre
    rw [← ht, List.drop_left, List.append_cancel_left_eq, Option.some.injEq, ← String.toList_inj,
      String.toList_ofList]
  · refine iff_of_false nofun fun h => hpre ?_
    rw [h, List.isPrefixOf_iff_prefix]
    exact List.prefix_append _ _

theorem hasText_iff {s : String} : HasText s ↔ ∃ c ∈ s.toList, isWhitespace c = false := by
  have hnil : trim s = "" ↔ ∀ c ∈ s.toList, isWhitespace c = true := by
    rw [trim, ← String.toList_inj, String.toList_ofList, String.toList_empty, trimChars,
      List.rdropWhile_eq_nil_iff]
    constructor
    · intro h c hc
      by_contra hblank
      have hdrop := List.takeWhile_append_dropWhile (p := isWhitespace) (l := s.toList)
      rw [← hdrop, List.mem_append] at hc
      rcases hc with hc | hc
      · exact hblank (List.mem_takeWhile_imp hc)
      · exact hblank (h c hc)
    · exact fun h c hc => h c ((List.dropWhile_sublist _).subset hc)
  rw [HasText, ne_eq, hnil]
  push Not
  simp only [Bool.not_eq_true]

theorem rdropWhile_append_of_text {s : List Char} (hs : ∃ c ∈ s, isWhitespace c = false) (f : List Char) :
    (f ++ s).rdropWhile isWhitespace = f ++ s.rdropWhile isWhitespace := by
  obtain ⟨c, hc, hblank⟩ := hs
  have hback : s.reverse.dropWhile isWhitespace ≠ [] := by
    intro hnil
    rw [List.dropWhile_eq_nil_iff] at hnil
    rw [hnil c (List.mem_reverse.mpr hc)] at hblank
    cases hblank
  rw [List.rdropWhile, List.reverse_append, List.dropWhile_append, if_neg (by simpa using hback),
    List.reverse_append, List.reverse_reverse, List.rdropWhile]

theorem exists_text_rdropWhile {s : List Char} (hs : ∃ c ∈ s, isWhitespace c = false) :
    ∃ c ∈ s.rdropWhile isWhitespace, isWhitespace c = false := by
  obtain ⟨c, hc, hblank⟩ := hs
  rw [← List.rdropWhile_append_rtakeWhile (p := isWhitespace) (l := s), List.mem_append] at hc
  refine ⟨c, hc.resolve_right fun hmem => ?_, hblank⟩
  rw [List.mem_rtakeWhile_imp hmem] at hblank
  cases hblank

theorem isWhitespace_of_isDigit {c : Char} (h : c.isDigit = true) : isWhitespace c = false := by
  rw [Char.isDigit, Bool.and_eq_true, decide_eq_true_eq, decide_eq_true_eq] at h
  have hlow : 48 ≤ c.toNat := UInt32.le_iff_toNat_le.1 h.1
  have hhigh : c.toNat ≤ 57 := UInt32.le_iff_toNat_le.1 h.2
  simp only [isWhitespace, Bool.or_eq_false_iff, Bool.and_eq_false_iff, decide_eq_false_iff_not,
    beq_eq_false_iff_ne]
  omega

/-- A text without white space is its own trimmed text. -/
theorem trimChars_of_not_whitespace {cs : List Char} (h : ∀ c ∈ cs, isWhitespace c = false) :
    trimChars cs = cs := by
  have hfront : cs.dropWhile isWhitespace = cs := by
    rw [List.dropWhile_eq_self_iff]
    intro hpos
    simp [h _ (List.getElem_mem hpos)]
  rw [trimChars, hfront, List.rdropWhile_eq_self_iff]
  intro hne
  simp [h _ (List.getLast_mem hne)]

theorem trimChars_append {f s : List Char} (hf : ∃ c ∈ f, isWhitespace c = false)
    (hs : ∃ c ∈ s, isWhitespace c = false) :
    trimChars (f ++ s) = f.dropWhile isWhitespace ++ s.rdropWhile isWhitespace := by
  obtain ⟨c, hc, hblank⟩ := hf
  have hfront : f.dropWhile isWhitespace ≠ [] := by
    intro hnil
    rw [List.dropWhile_eq_nil_iff] at hnil
    rw [hnil c hc] at hblank
    cases hblank
  rw [trimChars, List.dropWhile_append, if_neg (by simpa using hfront), rdropWhile_append_of_text hs]

/-- The text of a trimmed text, with the blanks that were behind it. -/
theorem dropWhile_eq_trimChars_append (f : List Char) :
    ∃ w, (∀ c ∈ w, isWhitespace c = true) ∧ f.dropWhile isWhitespace = trimChars f ++ w :=
  ⟨_, fun _ hc => List.mem_rtakeWhile_imp hc, (List.rdropWhile_append_rtakeWhile ..).symm⟩

/-- A text goes on with a blank and something that is not blank. -/
structure GoesOn (s : List Char) : Prop where
  blank : ∃ c t, s = c :: t ∧ isWhitespace c = true
  text : ∃ c ∈ s, isWhitespace c = false

theorem splitWhitespace_ne_nil {s : List Char} (h : ∃ c ∈ s, isWhitespace c = false) :
    splitWhitespace (String.ofList s) ≠ [] := by
  have hpieces : (s.splitOnP isWhitespace).filter (· ≠ []) ≠ [] := by
    induction s with
    | nil => simp at h
    | cons c s ih =>
      rw [List.splitOnP_cons_eq_if_modifyHead]
      by_cases hc : isWhitespace c = true
      · obtain ⟨d, hd, hblank⟩ := h
        rw [if_pos hc, List.filter_cons_of_neg (by simp)]
        rcases List.mem_cons.mp hd with rfl | hd
        · rw [hc] at hblank
          cases hblank
        · exact ih ⟨d, hd, hblank⟩
      · rw [if_neg hc]
        cases hrest : s.splitOnP isWhitespace with
        | nil => exact absurd hrest (List.splitOnP_ne_nil _ _)
        | cons piece pieces => simp
  simpa only [splitWhitespace, String.toList_ofList, ne_eq, List.map_eq_nil_iff] using hpieces

theorem splitWhitespace_ne_nil_iff {s : String} : splitWhitespace s ≠ [] ↔ HasText s := by
  constructor
  · intro h
    by_contra hblank
    apply h
    rw [hasText_iff] at hblank
    push Not at hblank
    simp only [ne_eq, Bool.not_eq_false] at hblank
    have hpieces : ∀ cs : List Char, (∀ c ∈ cs, isWhitespace c = true) →
        (cs.splitOnP isWhitespace).filter (· ≠ []) = [] := by
      intro cs hcs
      induction cs with
      | nil => simp
      | cons c cs ih =>
        rw [List.forall_mem_cons] at hcs
        rw [List.splitOnP_cons_eq_if_modifyHead, if_pos hcs.1, List.filter_cons_of_neg (by simp)]
        exact ih hcs.2
    rw [splitWhitespace, hpieces _ hblank, List.map_nil]
  · intro h
    have hne := splitWhitespace_ne_nil (hasText_iff.mp h)
    rwa [String.ofList_toList] at hne

theorem splitWhitespace_append {s : List Char} (h : GoesOn s) (a : String) :
    splitWhitespace (a ++ String.ofList s) = splitWhitespace a ++ splitWhitespace (String.ofList s) := by
  obtain ⟨c, t, rfl, hc⟩ := h.blank
  have hwords : ∀ xs : List Char, ((xs ++ c :: t).splitOnP isWhitespace).filter (· ≠ []) =
      (xs.splitOnP isWhitespace).filter (· ≠ []) ++ (t.splitOnP isWhitespace).filter (· ≠ []) := by
    intro xs
    rw [List.splitOnP_append_cons _ _ hc, List.filter_append]
  simp only [splitWhitespace, String.toList_append, String.toList_ofList]
  rw [hwords, show c :: t = [] ++ c :: t from rfl, hwords, ← List.map_append]
  rfl

end Ralph.Chat
