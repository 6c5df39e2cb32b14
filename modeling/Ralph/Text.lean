import Mathlib.Data.String.Basic
import Mathlib.Tactic

namespace Ralph.Text
open String

/-- `str::split_once` on a character. -/
def splitOnce (s : String) (c : Char) : Option (String × String) :=
  match s.toList.span (· ≠ c) with
  | (_, []) => none
  | (before, _ :: after) => some (String.ofList before, String.ofList after)

/-- `str::strip_prefix` on a character. -/
def stripPrefix (s : String) (c : Char) : Option String :=
  match s.toList with
  | [] => none
  | d :: rest => if d = c then some (String.ofList rest) else none

/-- `String::pop`, without the popped character. -/
def pop (s : String) : String := String.ofList s.toList.dropLast

@[simp] theorem toString_string (s : String) : toString s = s := rfl

theorem toList_toString_char (c : Char) : (toString c).toList = [c] := by
  have hsingle : toString c = singleton c := rfl
  rw [hsingle, toList_singleton]

/-- `str::lines`: a newline ends a line, with a carriage return before it. -/
def lines (s : String) : List String :=
  let parts := s.splitOn "\n"
  let ended := parts.dropLast.map fun line =>
    if line.toList.getLast? = some '\r' then pop line else line
  ended ++ (parts.getLast?.toList.filter (· ≠ ""))

/-- The loop of `splitOn`: `l` is behind it, `m` is the part it is in, and `r` is ahead. -/
theorem splitOnAux_newline (l m r : List Char) (acc : List String) :
    splitOnAux (ofList (l ++ m ++ r)) "\n" ⟨utf8Len l⟩ ⟨utf8Len l + utf8Len m⟩ 0 acc =
      acc.reverse ++ (r.splitOnPPrepend (· == '\n') m.reverse).map ofList := by
  induction r generalizing l m acc with
  | nil =>
    have hend : (⟨utf8Len l + utf8Len m⟩ : Pos.Raw).atEnd (ofList (l ++ m ++ [])) = true := by
      simp [-ofList_append, atEnd_iff, rawEndPos_ofList, utf8Len_append]
    rw [splitOnAux, if_pos hend, extract_of_valid l m []]
    simp
  | cons c r ih =>
    have hend : ¬ (⟨utf8Len l + utf8Len m⟩ : Pos.Raw).atEnd (ofList (l ++ m ++ c :: r)) = true := by
      have := Char.utf8Size_pos c
      simp only [atEnd_iff, rawEndPos_ofList, utf8Len_append, utf8Len_cons, Pos.Raw.mk_le_mk]
      omega
    have hget := get_of_valid (l ++ m) (c :: r)
    have hnext := next_of_valid (l ++ m) c r
    rw [utf8Len_append] at hget hnext
    have hsep : (0 : Pos.Raw).get "\n" = '\n' := by decide
    have hsepNext : (0 : Pos.Raw).next "\n" = ⟨1⟩ := by decide
    have hsepEnd : (⟨1⟩ : Pos.Raw).atEnd "\n" = true := by decide
    rw [splitOnAux, if_neg hend, hget, hnext, hsep, hsepNext]
    simp only [List.headD_cons, hsepEnd, if_true]
    by_cases hc : c = '\n'
    · subst hc
      have hone : ('\n' : Char).utf8Size = 1 := by decide
      have hback : (⟨utf8Len l + utf8Len m + ('\n' : Char).utf8Size⟩ : Pos.Raw).unoffsetBy ⟨1⟩ =
          ⟨utf8Len l + utf8Len m⟩ := by
        simp [Pos.Raw.unoffsetBy, hone]
      have h := ih (l ++ m ++ ['\n']) [] (ofList m :: acc)
      rw [if_pos (by simp), hback, extract_of_valid l m ('\n' :: r)]
      simp only [List.append_nil, utf8Len_append, utf8Len_cons, utf8Len_nil, Nat.zero_add,
        Nat.add_zero, List.append_assoc, List.cons_append, List.nil_append, Nat.add_assoc] at h ⊢
      rw [h, List.splitOnPPrepend_cons_pos (by simp)]
      simp
    · have hback : (⟨utf8Len l + utf8Len m⟩ : Pos.Raw).unoffsetBy 0 = ⟨utf8Len l + utf8Len m⟩ := by
        simp [Pos.Raw.unoffsetBy]
      have h := ih l (m ++ [c]) acc
      rw [if_neg (by simpa using hc), hback, hnext]
      simp only [utf8Len_append, utf8Len_cons, utf8Len_nil, Nat.zero_add, List.append_assoc,
        List.singleton_append, Nat.add_assoc] at h ⊢
      rw [h, List.splitOnPPrepend_cons_neg (by simpa using hc)]
      simp

/-- The text between the newlines. -/
def parts (s : String) : List (List Char) := s.toList.splitOn '\n'

theorem splitOn_newline (s : String) : s.splitOn "\n" = (parts s).map ofList := by
  have h := splitOnAux_newline [] [] s.toList []
  rw [parts, List.splitOn_eq_splitOnP]
  simpa [splitOn] using h

theorem parts_ne_nil (s : String) : parts s ≠ [] := List.splitOn_ne_nil _ _

theorem parts_newline (a b : String) : parts (a ++ "\n" ++ b) = parts a ++ parts b := by
  have hone : "\n".toList = ['\n'] := by decide
  rw [parts, toList_append, toList_append, hone, List.append_assoc, List.singleton_append,
    List.splitOn_append_cons_self]
  rfl

/-- A text in front of the first newline belongs to the first part. -/
theorem parts_append {a : String} (h : '\n' ∉ a.toList) (b : String) :
    parts (a ++ b) = (parts b).modifyHead (a.toList ++ ·) := by
  rw [parts, toList_append, parts]
  generalize a.toList = x at h
  induction x with
  | nil =>
    rw [List.nil_append]
    cases b.toList.splitOn '\n' <;> rfl
  | cons c x ih =>
    rw [List.mem_cons, not_or] at h
    rw [List.cons_append, List.splitOn_cons_eq_if_modifyHead, if_neg (by simpa using Ne.symm h.1),
      ih h.2]
    cases b.toList.splitOn '\n' <;> rfl

theorem parts_of_notMem {a : String} (h : '\n' ∉ a.toList) : parts a = [a.toList] :=
  List.splitOn_eq_singleton h

/-- A separator is in none of the parts it separates. -/
theorem not_of_mem_splitOnP {α : Type*} {p : α → Bool} {xs part : List α}
    (h : part ∈ xs.splitOnP p) : ∀ x ∈ part, p x = false := by
  induction xs generalizing part with
  | nil =>
    rw [List.splitOnP_nil, List.mem_singleton] at h
    simp [h]
  | cons x xs ih =>
    rw [List.splitOnP_cons_eq_if_modifyHead] at h
    split_ifs at h with hx
    · rcases List.mem_cons.1 h with hnil | hmem
      · simp [hnil]
      · exact ih hmem
    · obtain ⟨first, rest, hparts⟩ := List.exists_cons_of_ne_nil (List.splitOnP_ne_nil p xs)
      rw [hparts, List.modifyHead_cons] at h
      rw [hparts] at ih
      rcases List.mem_cons.1 h with hfirst | hmem
      · rw [hfirst, List.forall_mem_cons]
        exact ⟨by simpa using hx, ih (List.mem_cons_self ..)⟩
      · exact ih (List.mem_cons_of_mem _ hmem)

theorem notMem_parts (s : String) : ∀ p ∈ parts s, '\n' ∉ p := by
  intro p hp hmem
  rw [parts, List.splitOn_eq_splitOnP] at hp
  simpa using not_of_mem_splitOnP hp _ hmem

/-- Two texts side by side: the last part of the first and the first part of the second are one part. -/
theorem exists_parts_append (s t : String) : ∃ init last first rest, parts s = init ++ [last] ∧
    parts t = first :: rest ∧ parts (s ++ t) = init ++ (last ++ first) :: rest := by
  have hs := notMem_parts s
  have ht := notMem_parts t
  obtain hnil | ⟨init, last, hlast⟩ := List.eq_nil_or_concat (parts s)
  · exact absurd hnil (parts_ne_nil _)
  obtain ⟨first, rest, hfirst⟩ := List.exists_cons_of_ne_nil (parts_ne_nil t)
  rw [List.concat_eq_append] at hlast
  refine ⟨init, last, first, rest, hlast, hfirst, ?_⟩
  have hjoin : ∀ init : List (List Char), ['\n'].intercalate (init ++ [last]) ++
      ['\n'].intercalate (first :: rest) = ['\n'].intercalate (init ++ (last ++ first) :: rest) := by
    intro init
    induction init with
    | nil => cases rest <;> simp [List.intercalate_cons_cons]
    | cons p init ih =>
      cases init with
      | nil => cases rest <;> simp [List.intercalate_cons_cons]
      | cons q init =>
        rw [List.cons_append, List.cons_append, List.cons_append, List.cons_append,
          List.intercalate_cons_cons, List.intercalate_cons_cons, List.append_assoc, ← List.cons_append, ih,
          List.cons_append]
  have htext : (s ++ t).toList = ['\n'].intercalate (init ++ (last ++ first) :: rest) := by
    rw [← hjoin, ← hlast, ← hfirst, parts, parts, List.intercalate_splitOn, List.intercalate_splitOn,
      toList_append]
  rw [hlast, List.forall_mem_append, List.forall_mem_singleton] at hs
  rw [hfirst, List.forall_mem_cons] at ht
  rw [parts, htext]
  apply List.splitOn_intercalate
  · rw [List.forall_mem_append, List.forall_mem_cons, List.mem_append, not_or]
    exact ⟨hs.1, ⟨hs.2, ht.1⟩, ht.2⟩
  · simp

/-- A line without the carriage return that ends it. -/
def chomp (line : String) : String := if line.toList.getLast? = some '\r' then pop line else line

/-- The lines that parts stand for: a last part with nothing in it is none. -/
def ended (ps : List (List Char)) : List String :=
  ps.dropLast.map (chomp ∘ ofList) ++ (ps.getLast?.map ofList).toList.filter (· ≠ "")

theorem lines_eq (s : String) : lines s = ended (parts s) := by
  unfold lines ended
  rw [splitOn_newline]
  dsimp only
  rw [← List.map_dropLast, List.map_map, List.getLast?_map]
  rfl

theorem lines_empty : lines "" = [] := by
  rw [lines_eq]
  rfl

theorem ended_cons_cons (p q : List Char) (ps : List (List Char)) :
    ended (p :: q :: ps) = chomp (ofList p) :: ended (q :: ps) := rfl

theorem tail_ended_singleton (p : List Char) : (ended [p]).tail = [] := by
  by_cases h : ofList p = "" <;> simp [ended, h]

/-- What is read off each line without its carriage return is read off the parts. -/
theorem filterMap_ended {β : Type*} {f : String → Option β} (hchomp : ∀ line, f (chomp line) = f line)
    (hempty : f "" = none) (ps : List (List Char)) :
    (ended ps).filterMap f = ps.filterMap (f ∘ ofList) := by
  induction ps with
  | nil => rfl
  | cons p ps ih =>
    cases ps with
    | nil => by_cases h : ofList p = "" <;> simp [ended, h, hempty, List.filterMap_cons]
    | cons q ps =>
      rw [ended_cons_cons, List.filterMap_cons, List.filterMap_cons, ih, hchomp]
      rfl

theorem lines_cons {a : String} (h : '\n' ∉ a.toList) (b : String) :
    lines (a ++ "\n" ++ b) = chomp a :: lines b := by
  obtain ⟨p, ps, hps⟩ := List.exists_cons_of_ne_nil (parts_ne_nil b)
  rw [lines_eq, lines_eq, parts_newline, parts_of_notMem h, hps, List.singleton_append,
    ended_cons_cons, ofList_toList]

theorem mem_ended {ps : List (List Char)} {line : String} (h : line ∈ ended ps) :
    ∃ p ∈ ps, line = chomp (ofList p) ∨ line = ofList p := by
  rw [ended, List.mem_append, List.mem_map] at h
  rcases h with ⟨p, hp, rfl⟩ | h
  · exact ⟨p, List.mem_of_mem_dropLast hp, .inl rfl⟩
  · obtain ⟨p, hp, rfl⟩ := by simpa using (List.mem_filter.1 h).1
    exact ⟨p, List.mem_of_getLast? hp, .inr rfl⟩

/-- A part with text in it is a line, its carriage return apart. -/
theorem mem_lines_of_mem_parts {s : String} {p : List Char} (hp : p ∈ parts s) (hne : p ≠ []) :
    ofList p ∈ lines s ∨ chomp (ofList p) ∈ lines s := by
  rw [lines_eq, ended]
  obtain hnil | ⟨init, last, hlast⟩ := List.eq_nil_or_concat (parts s)
  · exact absurd hnil (parts_ne_nil s)
  rw [List.concat_eq_append] at hlast
  rw [hlast] at hp ⊢
  rw [List.dropLast_concat, List.getLast?_concat]
  obtain hp | hp := List.mem_append.mp hp
  · exact .inr (List.mem_append_left _ (List.mem_map.mpr ⟨p, hp, rfl⟩))
  · obtain rfl := List.mem_singleton.mp hp
    refine .inl (List.mem_append_right _ ?_)
    have htext : ofList p ≠ "" := fun h => hne (by rw [← toList_ofList (l := p), h]; rfl)
    simp [htext]

/-- What is in front of the first separator is told apart from what is behind it. -/
theorem append_cons_inj {α : Type*} {c : α} {x y xs ys : List α} (hx : c ∉ x) (hy : c ∉ y)
    (h : x ++ c :: xs = y ++ c :: ys) : x = y ∧ xs = ys := by
  induction x generalizing y with
  | nil =>
    cases y with
    | nil => exact ⟨rfl, (List.cons.inj h).2⟩
    | cons d y => exact absurd ((List.cons.inj h).1 ▸ List.mem_cons_self) hy
  | cons d x ih =>
    cases y with
    | nil => exact absurd ((List.cons.inj h).1 ▸ List.mem_cons_self) hx
    | cons e y =>
      rw [List.mem_cons, not_or] at hx hy
      obtain ⟨rfl, hrest⟩ := List.cons.inj h
      obtain ⟨rfl, hxs⟩ := ih hx.2 hy.2 hrest
      exact ⟨rfl, hxs⟩

/-- Texts joined by a separator that is in none of them are told apart. -/
theorem intercalate_inj {α : Type*} [BEq α] [LawfulBEq α] {c : α} {xs ys : List (List α)}
    (hx : ∀ x ∈ xs, c ∉ x) (hy : ∀ y ∈ ys, c ∉ y) (hxs : xs ≠ []) (hys : ys ≠ [])
    (h : [c].intercalate xs = [c].intercalate ys) : xs = ys := by
  rw [← List.splitOn_intercalate c hx hxs, h, List.splitOn_intercalate c hy hys]

theorem mem_intercalate {α : Type*} {c d : α} {xs : List (List α)} (h : d ∈ [c].intercalate xs) :
    d = c ∨ ∃ x ∈ xs, d ∈ x := by
  induction xs with
  | nil => cases h
  | cons x xs ih =>
    cases xs with
    | nil =>
      rw [List.intercalate_singleton] at h
      exact .inr ⟨x, List.mem_cons_self, h⟩
    | cons y ys =>
      rw [List.intercalate_cons_cons, List.mem_append, List.mem_append, List.mem_singleton] at h
      obtain (hx | rfl) | hrest := h
      · exact .inr ⟨x, List.mem_cons_self, hx⟩
      · exact .inl rfl
      · exact (ih hrest).imp_right fun ⟨z, hz, hd⟩ => ⟨z, List.mem_cons_of_mem _ hz, hd⟩

theorem isDigit_of_mem_toString {n : ℕ} {c : Char} (h : c ∈ (toString n).toList) :
    c.isDigit = true := by
  rw [Nat.toString_eq_ofList_toDigits, String.toList_ofList] at h
  exact Nat.isDigit_of_mem_toDigits (by omega) le_rfl h

theorem takeWhile_isDigit_toString (n : ℕ) {c : Char} (hc : c.isDigit = false) (x : List Char) :
    ((toString n).toList ++ c :: x).takeWhile Char.isDigit = (toString n).toList := by
  rw [List.takeWhile_append_of_pos fun d => isDigit_of_mem_toString,
    List.takeWhile_cons_of_neg (by simp [hc]), List.append_nil]

/-- A text that holds no newline. -/
def OneLine (text : String) : Prop := '\n' ∉ text.toList

instance (text : String) : Decidable (OneLine text) := inferInstanceAs (Decidable (¬ _))

theorem OneLine.append {a b : String} (ha : OneLine a) (hb : OneLine b) : OneLine (a ++ b) := by
  simpa [OneLine] using ⟨ha, hb⟩

theorem oneLine_toString (n : ℕ) : OneLine (toString n) := fun h =>
  absurd (isDigit_of_mem_toString h) (by decide)

theorem oneLine_intercalate {sep : String} (hsep : OneLine sep) {items : List String}
    (h : ∀ item ∈ items, OneLine item) : OneLine (sep.intercalate items) := by
  induction items with
  | nil => simp [OneLine]
  | cons item items ih =>
    rw [List.forall_mem_cons] at h
    cases items with
    | nil => simpa using h.1
    | cons next items =>
      rw [String.intercalate_cons_cons]
      exact (h.1.append hsep).append (ih h.2)

/-- Texts of one line each, joined by newlines, are the parts again. -/
theorem parts_intercalate {items : List String} (hne : items ≠ [])
    (h : ∀ item ∈ items, OneLine item) : parts ("\n".intercalate items) = items.map toList := by
  induction items with
  | nil => exact absurd rfl hne
  | cons item items ih =>
    rw [List.forall_mem_cons] at h
    cases items with
    | nil =>
      rw [intercalate_singleton, parts_of_notMem h.1]
      rfl
    | cons next items =>
      rw [intercalate_cons_cons, parts_newline, parts_of_notMem h.1, ih (by simp) h.2]
      rfl

theorem OneLine.chomp {line : String} (h : OneLine line) : OneLine (chomp line) := by
  unfold Text.chomp
  split_ifs
  · intro hmem
    rw [pop, toList_ofList] at hmem
    exact h (List.mem_of_mem_dropLast hmem)
  · exact h

theorem oneLine_of_mem_lines {s line : String} (h : line ∈ lines s) : OneLine line := by
  rw [lines_eq] at h
  obtain ⟨p, hp, hline⟩ := mem_ended h
  have hpart : OneLine (ofList p) := by
    rw [OneLine, toList_ofList]
    exact notMem_parts s p hp
  rcases hline with rfl | rfl
  · exact hpart.chomp
  · exact hpart

theorem chomp_of_getLast? {line : String} {c : Char} (h : line.toList.getLast? = some c)
    (hc : c ≠ '\r') : chomp line = line := by
  rw [chomp, h, if_neg]
  simpa using hc

theorem head?_chomp {line : String} {c : Char} (h : line.toList.head? = some c) (hc : c ≠ '\r') :
    (chomp line).toList.head? = some c := by
  unfold chomp
  split_ifs with hcr
  · obtain ⟨cs, hcs⟩ := List.head?_eq_some_iff.1 h
    rw [pop, toList_ofList, hcs]
    cases cs with
    | nil =>
      rw [hcs] at hcr
      exact absurd (Option.some.inj hcr) hc
    | cons d ds => rfl
  · exact h

theorem splitOnce_of_notMem {s : String} {c : Char} (h : c ∉ s.toList) : splitOnce s c = none := by
  have hpass : ∀ d ∈ s.toList, decide (d ≠ c) = true := by
    intro d hd
    rw [decide_eq_true_eq]
    rintro rfl
    exact h hd
  have hdrop : (s.toList ++ []).dropWhile (· ≠ c) = [] := List.dropWhile_append_of_pos hpass
  rw [List.append_nil] at hdrop
  rw [splitOnce, List.span_eq_takeWhile_dropWhile, hdrop]

theorem splitOnce_append {s before after : String} {c : Char}
    (hs : s.toList = before.toList ++ c :: after.toList) (h : c ∉ before.toList) :
    splitOnce s c = some (before, after) := by
  have hpass : ∀ d ∈ before.toList, decide (d ≠ c) = true := by
    intro d hd
    rw [decide_eq_true_eq]
    rintro rfl
    exact h hd
  have hspan : s.toList.span (· ≠ c) = (before.toList, c :: after.toList) := by
    rw [hs, List.span_eq_takeWhile_dropWhile, List.takeWhile_append_of_pos hpass,
      List.dropWhile_append_of_pos hpass]
    simp
  rw [splitOnce, hspan]
  simp

theorem splitOnce_eq_none_iff {s : String} {c : Char} : splitOnce s c = none ↔ c ∉ s.toList := by
  refine ⟨fun h hc => ?_, splitOnce_of_notMem⟩
  obtain ⟨front, back, hs, hfront⟩ := List.eq_append_cons_of_mem hc
  have hsplit : splitOnce s c = some (ofList front, ofList back) :=
    splitOnce_append (by simpa using hs) (by simpa using hfront)
  rw [h] at hsplit
  cases hsplit

/-- The text is split at the first place of the character. -/
theorem splitOnce_eq_some_iff {s before after : String} {c : Char} :
    splitOnce s c = some (before, after) ↔
      s.toList = before.toList ++ c :: after.toList ∧ c ∉ before.toList := by
  constructor
  · intro h
    have hc : c ∈ s.toList := by
      by_contra hc
      rw [splitOnce_of_notMem hc] at h
      cases h
    obtain ⟨front, back, hs, hfront⟩ := List.eq_append_cons_of_mem hc
    have hsplit : splitOnce s c = some (ofList front, ofList back) :=
      splitOnce_append (by simpa using hs) (by simpa using hfront)
    rw [hsplit] at h
    obtain ⟨rfl, rfl⟩ := Prod.mk.inj (Option.some.inj h)
    simpa using ⟨hs, hfront⟩
  · rintro ⟨hs, hfront⟩
    exact splitOnce_append hs hfront

/-- `str::split_once` on a text, on characters. -/
def splitOnceText (sep : List Char) : List Char → Option (List Char × List Char)
  | [] => none
  | c :: cs =>
    if sep.isPrefixOf (c :: cs) then some ([], (c :: cs).drop sep.length)
    else (splitOnceText sep cs).map fun (before, after) => (c :: before, after)

theorem eq_of_splitOnceText {sep cs before after : List Char}
    (h : splitOnceText sep cs = some (before, after)) : cs = before ++ sep ++ after := by
  induction cs generalizing before with
  | nil => cases h
  | cons c cs ih =>
    rw [splitOnceText] at h
    split_ifs at h with hsep
    · obtain ⟨rfl, rfl⟩ := Prod.mk.inj (Option.some.inj h)
      obtain ⟨rest, hrest⟩ := List.isPrefixOf_iff_prefix.mp hsep
      rw [List.nil_append, ← hrest, List.drop_left]
    · rw [Option.map_eq_some_iff] at h
      obtain ⟨⟨first, last⟩, hrest, heq⟩ := h
      obtain ⟨rfl, rfl⟩ := Prod.mk.inj heq
      rw [List.cons_append, List.cons_append, ← ih hrest]

/-- A number is read back from the digits in front of another character. -/
theorem toString_append_inj {m n : ℕ} {c d : Char} {x y : List Char} (hc : c.isDigit = false)
    (hd : d.isDigit = false) (h : (toString m).toList ++ c :: x = (toString n).toList ++ d :: y) :
    m = n ∧ c :: x = d :: y := by
  have hdigits := congrArg (List.takeWhile Char.isDigit) h
  rw [takeWhile_isDigit_toString m hc, takeWhile_isDigit_toString n hd] at hdigits
  have hnum := congrArg (fun l => Nat.ofDigitChars 10 l 0) hdigits
  simp only [Nat.toString_eq_ofList_toDigits, String.toList_ofList,
    Nat.ofDigitChars_ten_toDigits] at hnum
  rw [hnum] at h
  exact ⟨hnum, List.append_cancel_left h⟩

end Ralph.Text
