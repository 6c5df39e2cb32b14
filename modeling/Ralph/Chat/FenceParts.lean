import Ralph.Chat.CellOutput
import Ralph.Chat.ShellCell

namespace Ralph.Chat
open ChatMemory

theorem backtickRun_empty : backtickRun "" = none := by simp [backtickRun, trimStart]

namespace FenceScan

/-- Outside a fence only the backticks of a line count. -/
theorem step_congr {s : FenceScan} {a b : String} (h : backtickRun a = backtickRun b)
    (hout : (s.step a).opened = none) : s.step b = s.step a := by
  unfold step at hout ⊢
  cases hopened : s.opened with
  | none => rw [h]
  | some o =>
    have hcloses : closes o.ticks b = closes o.ticks a := by rw [closes, closes, h]
    rw [hopened] at hout
    dsimp only at hout ⊢
    split_ifs at hout with hclose
    rw [hcloses, if_pos hclose, if_pos hclose]

/-- A line without backticks ends no fence. -/
theorem outside_of_step {s : FenceScan} {line : String} (h : backtickRun line = none)
    (hout : (s.step line).opened = none) : s.opened = none ∧ (s.step line).found = s.found := by
  unfold step at hout ⊢
  cases hopened : s.opened with
  | none => exact ⟨rfl, rfl⟩
  | some o =>
    rw [hopened] at hout
    simp [closes, h] at hout

end FenceScan

theorem innerLines_newline (a b : String) : innerLines (a ++ "\n" ++ b) = innerLines a ++ innerLines b := by
  rw [innerLines, Text.parts_newline, List.map_append]
  rfl

/-- The last part of a text grows with it. -/
theorem parts_concat (cs : List Char) {c : Char} (hc : c ≠ '\n') :
    ∃ init last, Text.parts (String.ofList cs) = init ++ [last] ∧
      Text.parts (String.ofList (cs ++ [c])) = init ++ [last ++ [c]] := by
  obtain ⟨init, last, first, rest, hlast, hfirst, hparts⟩ :=
    Text.exists_parts_append (String.ofList cs) (String.ofList [c])
  have hline : Text.OneLine (String.ofList [c]) := by simpa [Text.OneLine] using Ne.symm hc
  rw [Text.parts_of_notMem hline, String.toList_ofList] at hfirst
  obtain ⟨rfl, rfl⟩ := List.cons.inj hfirst
  exact ⟨init, last, hlast, by rw [String.ofList_append, hparts]⟩

namespace FenceScan

/-- Whitespace behind the last fence changes nothing. -/
theorem run_innerLines_trimEnd (s : FenceScan) (cs : List Char)
    (hout : (s.run (innerLines (String.ofList cs))).opened = none) :
    (s.run (innerLines (String.ofList (trimEnd cs)))).opened = none ∧
      (s.run (innerLines (String.ofList (trimEnd cs)))).found =
        (s.run (innerLines (String.ofList cs))).found := by
  induction cs using List.reverseRecOn with
  | nil => exact ⟨hout, rfl⟩
  | append_singleton cs c ih =>
    by_cases hc : isWhitespace c = true
    · have hshort : (s.run (innerLines (String.ofList cs))).opened = none ∧
          (s.run (innerLines (String.ofList cs))).found =
            (s.run (innerLines (String.ofList (cs ++ [c])))).found := by
        -- a newline adds an empty line, and any other blank makes the last line longer
        by_cases hnewline : c = '\n'
        · subst hnewline
          have hlines : innerLines (String.ofList (cs ++ ['\n'])) =
              innerLines (String.ofList cs) ++ [""] := by
            rw [show String.ofList (cs ++ ['\n']) = String.ofList cs ++ "\n" ++ "" by simp,
              innerLines_newline]
            rfl
          rw [hlines, run_append] at hout ⊢
          obtain ⟨hopened, hfound⟩ := outside_of_step backtickRun_empty hout
          exact ⟨hopened, hfound.symm⟩
        · obtain ⟨init, last, hlast, hlonger⟩ := parts_concat cs hnewline
          have hsame : backtickRun (Text.chomp (String.ofList (last ++ [c]))) =
              backtickRun (Text.chomp (String.ofList last)) := by
            rw [backtickRun_chomp, backtickRun_chomp, backtickRun_concat hc]
          rw [innerLines, hlonger, List.map_append, run_append, List.map_singleton] at hout
          rw [innerLines, innerLines, hlast, hlonger, List.map_append, List.map_append, run_append,
            run_append, List.map_singleton, List.map_singleton]
          have hstep := step_congr hsame hout
          rw [run_cons, run_cons, run_nil, run_nil, Function.comp_apply, Function.comp_apply, hstep]
          exact ⟨hout, rfl⟩
      have htrim : trimEnd (cs ++ [c]) = trimEnd cs := List.rdropWhile_concat_pos _ _ _ hc
      rw [htrim, ← hshort.2]
      exact ih hshort.1
    · have htrim : trimEnd (cs ++ [c]) = cs ++ [c] := List.rdropWhile_concat_neg _ _ _ hc
      rw [htrim]
      exact ⟨hout, rfl⟩

/-- The lines of a text as if more lines followed. -/
theorem fences_eq_innerLines {text : String} (hout : (start.run (innerLines text)).opened = none) :
    fences text = (start.run (innerLines text)).found := by
  rw [fences_eq, Text.lines_eq]
  rw [innerLines] at hout ⊢
  obtain hnil | ⟨init, last, hlast⟩ := List.eq_nil_or_concat (Text.parts text)
  · exact absurd hnil (Text.parts_ne_nil _)
  · rw [List.concat_eq_append] at hlast
    rw [hlast, List.map_append, run_append, List.map_singleton, Function.comp_apply] at hout
    rw [hlast, Text.ended, List.dropLast_concat, List.getLast?_concat, List.map_append, run_append,
      run_append, List.map_singleton, Function.comp_apply]
    by_cases hempty : String.ofList last = ""
    · rw [hempty] at hout
      have hdropped : ((some last).map String.ofList).toList.filter (· ≠ "") = [] := by simp [hempty]
      rw [hdropped, hempty, run_nil]
      exact (outside_of_step backtickRun_empty hout).2.symm
    · have hstep := step_congr (backtickRun_chomp (String.ofList last)) hout
      have hkept : ((some last).map String.ofList).toList.filter (· ≠ "") = [String.ofList last] := by
        simp [hempty]
      rw [hkept]
      exact congrArg found hstep

end FenceScan

/-- A line outside the fences, or a fence from its first line to its last. -/
inductive Part
  | text (line : String) (hline : backtickRun line = none)
  | fence (first : String) (ticks : ℕ) (info : String) (code : List String) (last : String)
      (hopen : backtickRun first = some (ticks, info)) (hcode : ∀ l ∈ code, closes ticks l = false)
      (hclose : closes ticks last = true)

namespace Part

def lines : Part → List String
  | text line _ => [line]
  | fence first _ _ code last _ _ _ => first :: (code ++ [last])

/-- The fence of a part that starts at a line. -/
def found (i : ℕ) : Part → List Fence
  | text _ _ => []
  | fence _ _ info code _ _ _ _ => [⟨i, i + 1 + code.length, cellRuntime info, "\n".intercalate code⟩]

def linesOf (parts : List Part) : List String := parts.flatMap lines

def foundFrom (i : ℕ) : List Part → List Fence
  | [] => []
  | p :: parts => p.found i ++ foundFrom (i + p.lines.length) parts

theorem foundFrom_append (i : ℕ) (a b : List Part) :
    foundFrom i (a ++ b) = foundFrom i a ++ foundFrom (i + (linesOf a).length) b := by
  induction a generalizing i with
  | nil => rfl
  | cons p a ih =>
    rw [List.cons_append, foundFrom, foundFrom, ih, List.append_assoc, linesOf, linesOf,
      List.flatMap_cons, List.length_append, Nat.add_assoc]

theorem run_lines (p : Part) (found : List Fence) (i : ℕ) :
    FenceScan.run ⟨found, none, i⟩ p.lines = ⟨found ++ p.found i, none, i + p.lines.length⟩ := by
  cases p with
  | text line hline =>
    rw [lines, FenceScan.run_cons, FenceScan.step_text hline, Part.found, List.append_nil]
    rfl
  | fence first ticks info code last hopen hcode hclose =>
    rw [lines, FenceScan.run_fence hopen hcode hclose, Part.found]
    simp only [FenceScan.mk.injEq, List.length_cons, List.length_append, List.length_nil, true_and]
    omega

theorem run_linesOf (parts : List Part) (found : List Fence) (i : ℕ) :
    FenceScan.run ⟨found, none, i⟩ (linesOf parts) =
      ⟨found ++ foundFrom i parts, none, i + (linesOf parts).length⟩ := by
  induction parts generalizing found i with
  | nil => simp [linesOf, foundFrom, FenceScan.run_nil]
  | cons p parts ih =>
    rw [linesOf, List.flatMap_cons, FenceScan.run_append, run_lines, ← linesOf, ih, foundFrom,
      List.append_assoc, List.length_append, Nat.add_assoc]

/-- Lines that leave no fence open are made of parts. -/
theorem exists_linesOf {found : List Fence} {i : ℕ} {lines : List String}
    (hclosed : (FenceScan.run ⟨found, none, i⟩ lines).opened = none) :
    ∃ parts, linesOf parts = lines := by
  -- on the number of lines: a part may be a whole fence
  induction hn : lines.length using Nat.strong_induction_on generalizing found i lines with
  | _ n ih =>
    cases lines with
    | nil => exact ⟨[], rfl⟩
    | cons line rest =>
      subst hn
      cases hline : backtickRun line with
      | none =>
        rw [FenceScan.run_cons, FenceScan.step_text hline] at hclosed
        obtain ⟨parts, rfl⟩ := ih rest.length (by simp) hclosed rfl
        exact ⟨text line hline :: parts, rfl⟩
      | some mark =>
        obtain ⟨ticks, info⟩ := mark
        have hparts := List.takeWhile_append_dropWhile (p := fun l => !closes ticks l) (l := rest)
        have hcode : ∀ l ∈ rest.takeWhile (fun l => !closes ticks l), closes ticks l = false := by
          intro l hl
          simpa using List.mem_takeWhile_imp hl
        cases hdrop : rest.dropWhile fun l => !closes ticks l with
        | nil =>
          -- nothing closes the fence, so the lines leave it open
          rw [hdrop, List.append_nil] at hparts
          rw [hparts] at hcode
          rw [FenceScan.run_cons, FenceScan.step_opening hline,
            @FenceScan.run_code ⟨i, ticks, info, []⟩ _ hcode] at hclosed
          cases hclosed
        | cons last after =>
          have hclose : closes ticks last = true := by
            have hhead := List.head?_dropWhile_not (fun l => !closes ticks l) rest
            simpa [hdrop] using hhead
          rw [hdrop] at hparts
          let first := fence line ticks info _ last hline hcode hclose
          have hlines : line :: rest = first.lines ++ after := by
            show _ = line :: (rest.takeWhile (fun l => !closes ticks l) ++ [last]) ++ after
            rw [List.cons_append, List.append_assoc, List.singleton_append, hparts]
          rw [hlines, FenceScan.run_append, run_lines] at hclosed
          obtain ⟨parts, hafter⟩ := ih after.length (length_lt_of_dropWhile hdrop) hclosed rfl
          refine ⟨first :: parts, ?_⟩
          rw [hlines, linesOf, List.flatMap_cons, ← linesOf, hafter]

end Part

theorem trimChars_decomp (cs : List Char) : ∃ a b, cs = a ++ trimChars cs ++ b ∧
    (∀ c ∈ a, isWhitespace c = true) ∧ ∀ c ∈ b, isWhitespace c = true := by
  refine ⟨cs.takeWhile isWhitespace, (cs.dropWhile isWhitespace).rtakeWhile isWhitespace, ?_, ?_, ?_⟩
  · rw [trimChars, List.append_assoc, List.rdropWhile_append_rtakeWhile, List.takeWhile_append_dropWhile]
  · exact fun c hc => List.mem_takeWhile_imp hc
  · exact fun c hc => List.mem_rtakeWhile_imp hc

theorem dropWhile_of_all {α : Type*} {p : α → Bool} {xs ys : List α} (h : ∀ x ∈ xs, p x = true) :
    (xs ++ ys).dropWhile p = ys.dropWhile p := by
  have hnil : xs.dropWhile p = [] := by rwa [List.dropWhile_eq_nil_iff]
  rw [List.dropWhile_append, hnil]
  rfl

/-- A word between whitespace. -/
theorem trimChars_word {a word b : List Char} (ha : ∀ c ∈ a, isWhitespace c = true)
    (hb : ∀ c ∈ b, isWhitespace c = true) (hne : word ≠ [])
    (hword : ∀ c ∈ word, isWhitespace c = false) : trimChars (a ++ word ++ b) = word := by
  have hfirst : (word ++ b).dropWhile isWhitespace = word ++ b := by
    cases word with
    | nil => exact absurd rfl hne
    | cons c word =>
      rw [List.cons_append, List.dropWhile_cons_of_neg]
      simpa using hword c List.mem_cons_self
  have hlast : word.rdropWhile isWhitespace = word := by
    rw [List.rdropWhile_eq_self_iff]
    intro hl
    simpa using hword _ (List.getLast_mem hl)
  rw [trimChars, List.append_assoc, dropWhile_of_all ha, hfirst]
  clear hfirst
  induction b using List.reverseRecOn with
  | nil => rw [List.append_nil, hlast]
  | append_singleton b c ih =>
    rw [List.forall_mem_append, List.forall_mem_singleton] at hb
    rw [← List.append_assoc, List.rdropWhile_concat_pos _ _ _ hb.2, ih hb.1]

theorem drop_takeWhile_length {α : Type*} (p : α → Bool) (xs : List α) :
    xs.drop (xs.takeWhile p).length = xs.dropWhile p := by
  induction xs with
  | nil => rfl
  | cons x xs ih =>
    rw [List.takeWhile_cons, List.dropWhile_cons]
    split_ifs
    · exact ih
    · rfl

theorem backtickRun_indented {ws rest : List Char} {ticks : ℕ} (hws : ∀ c ∈ ws, isWhitespace c = true)
    (hticks : 3 ≤ ticks) (hrest : rest.head? ≠ some '`') :
    backtickRun (String.ofList (ws ++ (backticks ticks ++ rest))) =
      some (ticks, trim (String.ofList rest)) := by
  have hrun := backtickRun_backticks hticks hrest
  have htrim : trimStart (String.ofList (ws ++ (backticks ticks ++ rest))) =
      trimStart (String.ofList (backticks ticks ++ rest)) := by
    rw [trimStart, trimStart, String.toList_ofList, String.toList_ofList, dropWhile_of_all hws]
  unfold backtickRun at hrun ⊢
  rw [htrim]
  exact hrun

/-- The characters of an opening line. -/
theorem decomp_of_backtickRun {line info : String} {ticks : ℕ} (h : backtickRun line = some (ticks, info)) :
    3 ≤ ticks ∧ ∃ ws rest, line.toList = ws ++ (backticks ticks ++ rest) ∧
      (∀ c ∈ ws, isWhitespace c = true) ∧ rest.head? ≠ some '`' ∧ info = trim (String.ofList rest) := by
  unfold backtickRun trimStart at h
  simp only [String.toList_ofList] at h
  split_ifs at h with hticks
  · obtain ⟨rfl, rfl⟩ := Prod.mk.inj (Option.some.inj h)
    refine ⟨hticks, line.toList.takeWhile isWhitespace,
      (line.toList.dropWhile isWhitespace).dropWhile (· = '`'), ?_, ?_, ?_, ?_⟩
    · have hrun : backticks ((line.toList.dropWhile isWhitespace).takeWhile (· = '`')).length =
          (line.toList.dropWhile isWhitespace).takeWhile (· = '`') := by
        symm
        apply List.eq_replicate_of_mem
        intro c hc
        simpa using List.mem_takeWhile_imp hc
      rw [hrun, List.takeWhile_append_dropWhile, List.takeWhile_append_dropWhile]
    · exact fun c hc => List.mem_takeWhile_imp hc
    · intro hhead
      have hnot := List.head?_dropWhile_not (· = '`') (line.toList.dropWhile isWhitespace)
      rw [hhead] at hnot
      simp at hnot
    · rw [drop_takeWhile_length]

/-- A word that makes no cell of a fence. -/
structure Plain (info : String) : Prop where
  nonempty : info ≠ ""
  spaces : ∀ c ∈ info.toList, isWhitespace c = false
  bang : info.toList.head? ≠ some '!'
  backtick : info.toList.head? ≠ some '`'

theorem Plain.cellRuntime {info : String} (h : Plain info) : cellRuntime info = none := by
  have hstrip : stripPrefix info "!" = none := by
    rw [stripPrefix, if_neg]
    have hbang := h.bang
    rw [show "!".toList = ['!'] by decide]
    cases hinfo : info.toList with
    | nil => simp
    | cons c cs =>
      rw [hinfo, List.head?_cons] at hbang
      intro hpre
      rw [List.isPrefixOf_cons_cons, Bool.and_eq_true, beq_iff_eq] at hpre
      exact hbang (congrArg some hpre.1.symm)
  rw [Chat.cellRuntime, hstrip]

theorem Plain.trim {info : String} (h : Plain info) : trim info = info := by
  have hne : info.toList ≠ [] := fun hnil => h.nonempty (by rw [← String.toList_inj, hnil]; rfl)
  have hword := trimChars_word (a := []) (b := []) (by simp) (by simp) hne h.spaces
  rw [List.nil_append, List.append_nil] at hword
  rw [Chat.trim, hword, String.ofList_toList]

theorem eq_of_cellRuntime {info runtime : String} (h : cellRuntime info = some runtime) :
    info.toList = '!' :: runtime.toList ∧ runtime ≠ "" ∧ ∀ c ∈ runtime.toList, isWhitespace c = false := by
  unfold cellRuntime stripPrefix at h
  rw [show "!".toList = ['!'] by decide] at h
  split_ifs at h with hstart
  · dsimp only at h
    obtain ⟨rest, hrest⟩ := List.isPrefixOf_iff_prefix.mp hstart
    rw [← hrest] at h ⊢
    split_ifs at h with hok
    obtain rfl := Option.some.inj h
    simp only [List.drop_left, String.toList_ofList, Bool.not_eq_true', List.any_eq_false] at hok ⊢
    exact ⟨rfl, hok.1, fun c hc => by simpa using hok.2 c hc⟩

/-- An opening line without its first `!`. -/
theorem backtickRun_erase {line info runtime : String} {ticks : ℕ}
    (h : backtickRun line = some (ticks, info)) (hcell : cellRuntime info = some runtime)
    (hplain : Plain runtime) :
    backtickRun (withoutBang line) = some (ticks, runtime) := by
  obtain ⟨hticks, ws, rest, hline, hws, -, rfl⟩ := decomp_of_backtickRun h
  obtain ⟨hinfo, -, -⟩ := eq_of_cellRuntime hcell
  obtain ⟨a, b, hrest, ha, hb⟩ := trimChars_decomp rest
  rw [Chat.trim, String.toList_ofList, String.toList_ofList] at hinfo
  have hnot : ∀ x : List Char, (∀ c ∈ x, isWhitespace c = true) → '!' ∉ x := by
    intro x hx hmem
    exact absurd (hx _ hmem) (by decide)
  have hbackticks : '!' ∉ backticks ticks := fun hmem =>
    absurd (List.eq_of_mem_replicate hmem) (by decide)
  have herase : line.toList.erase '!' = ws ++ (backticks ticks ++ (a ++ runtime.toList ++ b)) := by
    rw [hline, hrest, hinfo, List.erase_append_right _ (hnot ws hws), List.erase_append_right _ hbackticks,
      List.append_assoc, List.erase_append_right _ (hnot a ha), List.cons_append, List.erase_cons_head,
      List.append_assoc]
  have hne : runtime.toList ≠ [] := fun hnil => hplain.nonempty (by rw [← String.toList_inj, hnil]; rfl)
  have hhead : (a ++ runtime.toList ++ b).head? ≠ some '`' := by
    rw [List.append_assoc]
    cases a with
    | nil =>
      rw [List.nil_append, List.head?_append_of_ne_nil _ hne]
      exact hplain.backtick
    | cons c a =>
      rw [List.forall_mem_cons] at ha
      rintro hc
      obtain rfl := Option.some.inj hc
      exact absurd ha.1 (by decide)
  rw [withoutBang, herase, backtickRun_indented hws hticks hhead, Chat.trim, String.toList_ofList,
    trimChars_word ha hb hne hplain.spaces, String.ofList_toList]

end Ralph.Chat
