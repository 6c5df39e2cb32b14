import Ralph.Chat.Route

namespace Ralph.Chat
open ChatMemory

theorem isPrefixOf_append_blank {n t : List Char} {c : Char} (hn : ∀ d ∈ n, isWhitespace d = false)
    (hc : isWhitespace c = true) (f : List Char) :
    n.isPrefixOf (f ++ c :: t) = n.isPrefixOf f := by
  induction n generalizing f with
  | nil => cases f <;> rfl
  | cons d n ih =>
    have hrest := fun f => ih (fun e he => hn e (List.mem_cons_of_mem _ he)) f
    cases f with
    | nil =>
      have hne : d ≠ c := by
        rintro rfl
        rw [hn d List.mem_cons_self] at hc
        cases hc
      simp [List.isPrefixOf, hne]
    | cons e f => simp [List.isPrefixOf, hrest]

theorem not_blank_of_all {name : String} (h : name.toList.all fun c => !isWhitespace c) :
    ∀ c ∈ name.toList, isWhitespace c = false := fun c hc => by
  simpa using List.all_eq_true.1 h c hc

theorem stripPrefix_append {name : String} {s : List Char} (hname : ∀ c ∈ name.toList, isWhitespace c = false)
    (hs : GoesOn s) (line : String) :
    stripPrefix (line ++ String.ofList s) name = (stripPrefix line name).map (· ++ String.ofList s) := by
  obtain ⟨c, t, rfl, hc⟩ := hs.blank
  rw [stripPrefix, stripPrefix, String.toList_append, String.toList_ofList,
    isPrefixOf_append_blank hname hc]
  split_ifs with hpre
  · have hlen := (List.isPrefixOf_iff_prefix.mp hpre).length_le
    rw [List.drop_append_of_le_length hlen, Option.map_some, String.ofList_append]
  · rfl

namespace Command

theorem name_not_blank (c : Command) : ∀ d ∈ c.name.toList, isWhitespace d = false :=
  not_blank_of_all (by cases c <;> decide)

theorem mem_all (c : Command) : c ∈ all := by
  cases c <;> decide

theorem find_name (c : Command) : all.find? (fun d => d.name = c.name) = some c := by
  cases c <;> decide

theorem name_injective {c d : Command} (h : c.name = d.name) : c = d := by
  have hc := find_name c
  rw [h, find_name d] at hc
  exact (Option.some.inj hc).symm

theorem args_eq_some {c : Command} {line args : String} (h : c.args line = some args) :
    line.toList = c.name.toList ++ args.toList ∧ (args = "" ∨ startsWith args isWhitespace = true) := by
  rw [Command.args] at h
  split at h
  next => cases h
  next rest hrest =>
    simp only at h
    split_ifs at h with hargs
    obtain rfl := Option.some.inj h
    exact ⟨stripPrefix_eq_some_iff.mp hrest, hargs.imp_right And.right⟩

/-- The name of the command is the first word of the line. -/
theorem takeWhile_of_args {c : Command} {line args : String} (h : c.args line = some args) :
    line.toList.takeWhile (fun d => !isWhitespace d) = c.name.toList := by
  obtain ⟨hline, hargs⟩ := args_eq_some h
  have hname : ∀ d ∈ c.name.toList, (!isWhitespace d) = true := by
    intro d hd
    rw [c.name_not_blank d hd]
    rfl
  rw [hline, List.takeWhile_append_of_pos hname]
  have hrest : args.toList.takeWhile (fun d => !isWhitespace d) = [] := by
    rcases hargs with rfl | hblank
    · rfl
    · rw [startsWith] at hblank
      cases hcs : args.toList with
      | nil => rfl
      | cons d cs =>
        rw [hcs] at hblank
        rw [List.takeWhile_cons_of_neg (by simpa using hblank)]
  rw [hrest, List.append_nil]

theorem args_unique {c d : Command} {line a b : String} (hc : c.args line = some a)
    (hd : d.args line = some b) : c = d := by
  apply name_injective
  rw [← String.toList_inj, ← takeWhile_of_args hc, takeWhile_of_args hd]

theorem leading_eq_some {c : Command} {line args : String} :
    leading line = some (c, args) ↔ c.args line = some args := by
  constructor
  · intro h
    obtain ⟨d, -, hd⟩ := List.exists_of_findSome?_eq_some h
    obtain ⟨a, ha, heq⟩ := Option.map_eq_some_iff.mp hd
    cases heq
    exact ha
  · intro h
    have hsome : (leading line).isSome := by
      rw [leading, List.findSome?_isSome_iff]
      exact ⟨c, c.mem_all, by simp [h]⟩
    obtain ⟨⟨d, b⟩, hlead⟩ := Option.isSome_iff_exists.mp hsome
    obtain ⟨d', -, hd⟩ := List.exists_of_findSome?_eq_some hlead
    obtain ⟨a, ha, heq⟩ := Option.map_eq_some_iff.mp hd
    cases heq
    obtain rfl := args_unique h ha
    rw [hlead, Option.some.inj (h.symm.trans ha)]

theorem args_append {s : List Char} (hs : GoesOn s) (c : Command) (line : String) :
    c.args (line ++ String.ofList s) =
      if c = help ∨ c = config then none else (c.args line).map (· ++ String.ofList s) := by
  obtain ⟨d, t, hst, hd⟩ := hs.blank
  have hne : ∀ a : String, a ++ String.ofList s ≠ "" := by
    intro a h
    have hlist := congrArg String.toList h
    simp [hst] at hlist
  rw [args, args, stripPrefix_append c.name_not_blank hs]
  cases stripPrefix line c.name with
  | none => simp
  | some a =>
    have hstarts : startsWith (a ++ String.ofList s) isWhitespace =
        (decide (a = "") || startsWith a isWhitespace) := by
      rw [startsWith, startsWith, String.toList_append, String.toList_ofList, hst]
      cases hcs : a.toList with
      | nil =>
        have hempty : a = "" := by rw [← String.toList_inj, hcs, String.toList_empty]
        simp [hd, hempty]
      | cons e cs =>
        have hnot : a ≠ "" := by
          rintro rfl
          cases hcs
        simp [hnot]
    simp only [Option.map_some, hne, false_or, hstarts, Bool.or_eq_true, decide_eq_true_eq]
    by_cases hc : c = help ∨ c = config
    · rw [if_pos hc, if_neg]
      rintro ⟨⟨hhelp, hconfig⟩, -⟩
      exact hc.elim hhelp hconfig
    · rw [if_neg hc]
      rw [not_or] at hc
      simp only [hc, ne_eq, not_false_eq_true, and_self, true_and]
      split_ifs <;> rfl

/-- Neither `/help` nor `/config` takes anything, so a longer line is no such command. -/
theorem leading_append {s : List Char} (hs : GoesOn s) {line : String}
    (hhelp : help.args line = none) (hconfig : config.args line = none) :
    leading (line ++ String.ofList s) = (leading line).map fun p => (p.1, p.2 ++ String.ofList s) := by
  have hargs : ∀ c : Command, c.args (line ++ String.ofList s) =
      (c.args line).map (· ++ String.ofList s) := by
    intro c
    rw [args_append hs]
    split_ifs with hc
    · rcases hc with rfl | rfl
      · rw [hhelp, Option.map_none]
      · rw [hconfig, Option.map_none]
    · rfl
  cases hlead : leading line with
  | some p =>
    obtain ⟨c, a⟩ := p
    rw [leading_eq_some] at hlead
    rw [Option.map_some, leading_eq_some, hargs, hlead, Option.map_some]
  | none =>
    cases hlong : leading (line ++ String.ofList s) with
    | none => rfl
    | some p =>
      obtain ⟨c, b⟩ := p
      rw [leading_eq_some, hargs] at hlong
      obtain ⟨a, ha, -⟩ := Option.map_eq_some_iff.mp hlong
      rw [← leading_eq_some, hlead] at ha
      cases ha

end Command

end Ralph.Chat
