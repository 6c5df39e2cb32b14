import Ralph.Chat.FenceParts

namespace Ralph.Chat
open ChatMemory

def chompLines (code : String) : String := "\n".intercalate (innerLines code)

/-- The fence as it stands in the text that is sent. -/
def Fence.sent (fence : Fence) : Fence :=
  { fence with runtime := none, code := chompLines fence.code }

theorem innerLines_intercalate {items : List String} (hne : items ≠ [])
    (h : ∀ item ∈ items, Text.OneLine item) :
    innerLines ("\n".intercalate items) = items.map Text.chomp := by
  rw [innerLines, Text.parts_intercalate hne h, List.map_map]
  apply List.map_congr_left
  intro item _
  rw [Function.comp_apply, Function.comp_apply, String.ofList_toList]

theorem chompLines_intercalate {items : List String} (h : ∀ item ∈ items, Text.OneLine item) :
    chompLines ("\n".intercalate items) = "\n".intercalate (items.map Text.chomp) := by
  cases items with
  | nil => decide
  | cons item items => rw [chompLines, innerLines_intercalate (List.cons_ne_nil _ _) h]

namespace Part

/-- The lines of a part as they are displayed. -/
def shown : Part → List String
  | text line _ => [line]
  | fence first _ info code last _ _ _ =>
    (if (cellRuntime info).isSome then withoutBang first else first) ::
      (code ++ [last])

def shownOf (parts : List Part) : List String := parts.flatMap shown

theorem length_shown (p : Part) : p.shown.length = p.lines.length := by cases p <;> rfl

theorem modify_length (before : List String) (line : String) (after : List String)
    (f : String → String) : (before ++ line :: after).modify before.length f = before ++ f line :: after := by
  induction before with
  | nil => rfl
  | cons l before ih => rw [List.cons_append, List.length_cons, List.modify_succ_cons, ih, List.cons_append]

/-- The opening lines of the cells. -/
def openings (found : List Fence) : List ℕ :=
  (found.filter fun fence => fence.runtime.isSome).map Fence.openLine

/-- Each opening line is changed once, at its own index. -/
theorem modify_openings (before : List String) (parts : List Part) :
    (openings (foundFrom before.length parts)).foldl (fun shown line => shown.modify line withoutBang)
      (before ++ linesOf parts) = before ++ shownOf parts := by
  induction parts generalizing before with
  | nil => rfl
  | cons p parts ih =>
    have hfirst : (openings (p.found before.length)).foldl
        (fun shown line => shown.modify line withoutBang) (before ++ (p.lines ++ linesOf parts)) =
          before ++ (p.shown ++ linesOf parts) := by
      cases p with
      | text line hline => rfl
      | fence first ticks info code last hopen hcode hclose =>
        rw [lines, shown, found, List.cons_append, List.cons_append]
        cases hcell : cellRuntime info with
        | none => rfl
        | some runtime => exact modify_length before first _ withoutBang
    have hlater := ih (before ++ p.shown)
    rw [List.length_append, length_shown, List.append_assoc, List.append_assoc] at hlater
    rw [openings] at hfirst
    rw [foundFrom, openings, List.filter_append, List.map_append, List.foldl_append, linesOf, shownOf,
      List.flatMap_cons, List.flatMap_cons, ← linesOf, ← shownOf, hfirst]
    exact hlater

/-- A displayed part is a part again, and its fence no cell. -/
theorem exists_sent (p : Part) (hlines : ∀ line ∈ p.lines, Text.OneLine line)
    (hplain : ∀ fence ∈ p.found 0, ∀ runtime, fence.runtime = some runtime → Plain runtime) :
    ∃ q : Part, q.lines = p.shown.map Text.chomp ∧ ∀ i, q.found i = (p.found i).map Fence.sent := by
  cases p with
  | text line hline => exact ⟨text (Text.chomp line) (by rwa [backtickRun_chomp]), rfl, fun _ => rfl⟩
  | fence first ticks info code last hopen hcode hclose =>
    have hcode' : ∀ l ∈ code.map Text.chomp, closes ticks l = false := by
      rw [List.forall_mem_map]
      intro l hl
      rw [closes_chomp]
      exact hcode l hl
    have hclose' : closes ticks (Text.chomp last) = true := by rwa [closes_chomp]
    have hbody : chompLines ("\n".intercalate code) = "\n".intercalate (code.map Text.chomp) := by
      rw [lines, List.forall_mem_cons, List.forall_mem_append] at hlines
      exact chompLines_intercalate hlines.2.1
    cases hcell : cellRuntime info with
    | none =>
      have hopen' := (backtickRun_chomp first).trans hopen
      refine ⟨fence (Text.chomp first) ticks info (code.map Text.chomp) (Text.chomp last)
        hopen' hcode' hclose', ?_, ?_⟩
      · simp [lines, shown, hcell]
      · simp [found, hcell, Fence.sent, hbody]
    | some runtime =>
      rw [found, List.forall_mem_singleton] at hplain
      have hruntime : Plain runtime := hplain runtime hcell
      have hopen' := (backtickRun_chomp _).trans (backtickRun_erase hopen hcell hruntime)
      refine ⟨fence (Text.chomp (withoutBang first)) ticks runtime
        (code.map Text.chomp) (Text.chomp last) hopen' hcode' hclose', ?_, ?_⟩
      · simp [lines, shown, hcell]
      · simp [found, hruntime.cellRuntime, Fence.sent, hbody]

theorem oneLine_shown {p : Part} (h : ∀ line ∈ p.lines, Text.OneLine line) :
    ∀ line ∈ p.shown, Text.OneLine line := by
  cases p with
  | text line hline => exact h
  | fence first ticks info code last hopen hcode hclose =>
    rw [lines, List.forall_mem_cons] at h
    rw [shown, List.forall_mem_cons]
    refine ⟨?_, h.2⟩
    split_ifs
    · intro hmem
      rw [withoutBang, String.toList_ofList] at hmem
      exact h.1 (List.mem_of_mem_erase hmem)
    · exact h.1

theorem found_shift (p : Part) (i : ℕ) :
    (p.found i).map (·.runtime) = (p.found 0).map (·.runtime) := by cases p <;> rfl

theorem exists_info {parts : List Part} {i : ℕ} {fence : Fence} (h : fence ∈ foundFrom i parts) :
    ∃ info, fence.runtime = cellRuntime info := by
  induction parts generalizing i with
  | nil => cases h
  | cons p parts ih =>
    rw [foundFrom, List.mem_append] at h
    obtain h | h := h
    · cases p with
      | text line hline => cases h
      | fence first ticks info code last hopen hcode hclose =>
        obtain rfl := List.mem_singleton.mp h
        exact ⟨info, rfl⟩
    · exact ih h

/-- The displayed parts of a text that has no other cells than plain ones. -/
theorem exists_sentOf (parts : List Part) (i : ℕ) (hlines : ∀ line ∈ linesOf parts, Text.OneLine line)
    (hplain : ∀ runtime, some runtime ∈ (foundFrom i parts).map (·.runtime) → Plain runtime) :
    ∃ sent, linesOf sent = (shownOf parts).map Text.chomp ∧
      foundFrom i sent = (foundFrom i parts).map Fence.sent := by
  induction parts generalizing i with
  | nil => exact ⟨[], rfl, rfl⟩
  | cons p parts ih =>
    rw [linesOf, List.flatMap_cons, List.forall_mem_append] at hlines
    rw [foundFrom, List.map_append, found_shift] at hplain
    obtain ⟨rest, hrest, hfound⟩ := ih (i + p.lines.length) hlines.2
      fun runtime h => hplain runtime (List.mem_append_right _ h)
    obtain ⟨q, hq, hqfound⟩ := p.exists_sent hlines.1 fun fence hfence runtime h =>
      hplain runtime (List.mem_append_left _ (List.mem_map.mpr ⟨fence, hfence, h⟩))
    have hlen : q.lines.length = p.lines.length := by rw [hq, List.length_map, length_shown]
    refine ⟨q :: rest, ?_, ?_⟩
    · rw [linesOf, shownOf, List.flatMap_cons, List.flatMap_cons, List.map_append, hq, ← linesOf, hrest,
        ← shownOf]
    · rw [foundFrom, foundFrom, hqfound, hlen, hfound, List.map_append]

end Part

/-- No fence of the message lacks its last line. -/
def AllClosed (message : String) : Prop := (FenceScan.start.run (Text.lines message)).opened = none

instance (message : String) : Decidable (AllClosed message) := inferInstanceAs (Decidable (_ = none))

theorem innerLines_empty : innerLines "" = [""] := by decide

theorem fences_of_lines {message : String} {parts : List Part}
    (h : Part.linesOf parts = Text.lines message) : fences message = Part.foundFrom 0 parts := by
  rw [FenceScan.fences_eq, ← h, FenceScan.start, Part.run_linesOf, List.nil_append]

/-- The lines that are displayed, and the empty ones that follow them. -/
theorem exists_innerLines_display (message : String) {parts : List Part}
    (hparts : Part.linesOf parts = Text.lines message) :
    ∃ k, innerLines (displayMessage message) =
      (Part.shownOf parts).map Text.chomp ++ List.replicate k "" := by
  have hfences := fences_of_lines hparts
  have hshown := Part.modify_openings [] parts
  rw [List.nil_append, List.nil_append, List.length_nil, ← hfences, Part.openings, hparts] at hshown
  have hlines : ∀ line ∈ Part.shownOf parts, Text.OneLine line := by
    intro line hline
    obtain ⟨p, hp, hmem⟩ := List.mem_flatMap.mp hline
    apply Part.oneLine_shown _ _ hmem
    intro l hl
    apply @Text.oneLine_of_mem_lines message
    rw [← hparts]
    exact List.mem_flatMap.mpr ⟨p, hp, hl⟩
  have hbody : ∃ k, innerLines ("\n".intercalate (Part.shownOf parts)) =
      (Part.shownOf parts).map Text.chomp ++ List.replicate k "" := by
    by_cases hnil : Part.shownOf parts = []
    · exact ⟨1, by rw [hnil]; exact innerLines_empty⟩
    · exact ⟨0, by rw [innerLines_intercalate hnil hlines, List.replicate_zero, List.append_nil]⟩
  obtain ⟨k, hk⟩ := hbody
  unfold displayMessage
  dsimp only
  rw [hshown]
  split_ifs
  · refine ⟨k + 1, ?_⟩
    have hnewline := innerLines_newline ("\n".intercalate (Part.shownOf parts)) ""
    rw [String.append_empty] at hnewline
    rw [hnewline, hk, innerLines_empty, List.append_assoc, List.replicate_succ']
  · exact ⟨k, by rw [String.append_empty, hk]⟩

theorem exists_info {message : String} (hclosed : AllClosed message) {fence : Fence}
    (h : fence ∈ fences message) : ∃ info, fence.runtime = cellRuntime info := by
  obtain ⟨parts, hparts⟩ := Part.exists_linesOf hclosed
  rw [fences_of_lines hparts] at h
  exact Part.exists_info h

/-- The message of a user as it is sent: the same fences, and none of them a cell. -/
theorem exists_sent_message {message : String} (hclosed : AllClosed message)
    (hplain : ∀ fence ∈ fences message, ∀ runtime, fence.runtime = some runtime → Plain runtime) :
    ∃ sent, Part.linesOf sent =
        innerLines (String.ofList (trimEnd (displayMessage message).toList)) ∧
      Part.foundFrom 0 sent = (fences message).map Fence.sent := by
  obtain ⟨parts, hparts⟩ := Part.exists_linesOf hclosed
  have hfences := fences_of_lines hparts
  have hlines : ∀ line ∈ Part.linesOf parts, Text.OneLine line := by
    rw [hparts]
    exact fun line => Text.oneLine_of_mem_lines
  obtain ⟨shown, hshown, hfound⟩ := Part.exists_sentOf parts 0 hlines fun runtime h => by
    rw [← hfences] at h
    obtain ⟨fence, hfence, heq⟩ := List.mem_map.mp h
    exact hplain fence hfence runtime heq
  obtain ⟨k, hdisplay⟩ := exists_innerLines_display message hparts
  -- the scan of what is displayed, whole
  have hscan : FenceScan.start.run (innerLines (displayMessage message)) =
      FenceScan.run ⟨(fences message).map Fence.sent, none, (Part.linesOf shown).length⟩
        (List.replicate k "") := by
    rw [hdisplay, ← hshown, FenceScan.run_append, FenceScan.start, Part.run_linesOf, List.nil_append,
      hfound, Nat.zero_add, hfences]
  have hblank : ∀ (found : List Fence) (i : ℕ),
      FenceScan.run ⟨found, none, i⟩ (List.replicate k "") = ⟨found, none, i + k⟩ := by
    clear hdisplay hscan
    induction k with
    | zero => exact fun _ _ => rfl
    | succ k ih =>
      intro found i
      rw [List.replicate_succ, FenceScan.run_cons, FenceScan.step_text backtickRun_empty, ih,
        Nat.add_assoc, Nat.add_comm 1]
  rw [hblank] at hscan
  -- and without the whitespace at its end
  obtain ⟨hopened, htrimmed⟩ := FenceScan.run_innerLines_trimEnd FenceScan.start
    (displayMessage message).toList (by rw [String.ofList_toList, hscan])
  rw [String.ofList_toList, hscan] at htrimmed
  obtain ⟨sent, hsent⟩ := Part.exists_linesOf hopened
  refine ⟨sent, hsent, ?_⟩
  rw [← hsent, FenceScan.start, Part.run_linesOf, List.nil_append] at htrimmed
  exact htrimmed

/-- The text is whole lines and one fence for each code, none of them a cell. -/
def Blocks (codes : List String) (text : String) : Prop :=
  ∃ parts, Part.linesOf parts = innerLines text ∧ ∀ i,
    (Part.foundFrom i parts).map (·.code) = codes ∧
      ∀ fence ∈ Part.foundFrom i parts, fence.runtime = none

theorem Blocks.newline {a b : List String} {x y : String} (hx : Blocks a x) (hy : Blocks b y) :
    Blocks (a ++ b) (x ++ "\n" ++ y) := by
  obtain ⟨xs, hxs, hxfound⟩ := hx
  obtain ⟨ys, hys, hyfound⟩ := hy
  refine ⟨xs ++ ys, ?_, ?_⟩
  · rw [innerLines_newline, ← hxs, ← hys, Part.linesOf, List.flatMap_append]
    rfl
  · intro i
    rw [Part.foundFrom_append, List.map_append, (hxfound i).1, (hyfound _).1, List.forall_mem_append]
    exact ⟨rfl, (hxfound i).2, (hyfound _).2⟩

theorem Blocks.line {line : String} (hline : Text.OneLine line) (h : backtickRun line = none) :
    Blocks [] line := by
  refine ⟨[.text (Text.chomp line) ((backtickRun_chomp line).trans h)], ?_, ?_⟩
  · rw [innerLines, Text.parts_of_notMem hline, List.map_singleton, Function.comp_apply,
      String.ofList_toList]
    rfl
  · exact fun i => ⟨rfl, by simp [Part.foundFrom, Part.found]⟩

/-- No line of the body has as many backticks as the fence around it. -/
theorem closes_trimNewline {body : String} {ticks : ℕ}
    (h : (((Text.lines body).filterMap backtickRun).map Prod.fst).foldl max 0 < ticks) :
    ∀ l ∈ innerLines (trimNewline body), closes ticks l = false := by
  have hbody : ∀ l ∈ innerLines body, closes ticks l = false := by
    apply closes_innerLines
    intro l hl
    by_contra hclosed
    have hcloses := Bool.eq_true_of_not_eq_false hclosed
    rw [closes, Option.any_eq_true] at hcloses
    obtain ⟨mark, hmark, hticks⟩ := hcloses
    rw [Bool.and_eq_true, decide_eq_true_iff] at hticks
    have hmem := List.mem_map_of_mem (f := Prod.fst) (List.mem_filterMap.mpr ⟨l, hl, hmark⟩)
    exact absurd (le_foldl_max hmem 0) (not_le.mpr (h.trans_le hticks.1))
  intro l hl
  apply hbody
  -- the lines that are dropped are the last ones
  rw [trimNewline] at hl
  obtain ⟨text, rfl⟩ : ∃ cs, body = String.ofList cs := ⟨body.toList, (String.ofList_toList).symm⟩
  rw [String.toList_ofList] at hl
  clear h hbody
  induction text using List.reverseRecOn with
  | nil => exact hl
  | append_singleton cs c ih =>
    by_cases hc : c = '\n'
    · subst hc
      rw [List.rdropWhile_concat_pos _ _ _ (by simp)] at hl
      have htext : String.ofList (cs ++ ['\n']) = String.ofList cs ++ "\n" ++ "" := by simp
      rw [htext, innerLines_newline]
      exact List.mem_append_left _ (ih hl)
    · rw [List.rdropWhile_concat_neg _ _ _ (by simpa using hc)] at hl
      exact hl

theorem Blocks.fenced {info : String} (hinfo : Plain info) (body : String) :
    Blocks [chompLines (trimNewline body)] (fenced info body) := by
  let n := max ((((Text.lines body).filterMap backtickRun).map Prod.fst).foldl max 0 + 1) 3
  have hn : 3 ≤ n := le_max_right _ 3
  have hcode : ∀ l ∈ innerLines (trimNewline body), closes n l = false :=
    closes_trimNewline (lt_of_lt_of_le (Nat.lt_succ_self _) (le_max_left _ _))
  have htext : Chat.fenced info body = String.ofList (backticks n) ++ info ++ "\n" ++ trimNewline body ++
      "\n" ++ String.ofList (backticks n) := by
    rw [← String.toList_inj]
    simp [Chat.fenced, fenceFor, n, backticks]
  have hopen : backtickRun (String.ofList (backticks n) ++ info) = some (n, info) := by
    have hrun := backtickRun_backticks hn hinfo.backtick
    rw [String.ofList_append, String.ofList_toList, hinfo.trim] at hrun
    exact hrun
  have hfirst : Text.OneLine (String.ofList (backticks n) ++ info) := by
    apply (bare_backticks hn).newline.append
    intro hmem
    exact absurd (hinfo.spaces _ hmem) (by decide)
  have hlines : innerLines (String.ofList (backticks n) ++ info) =
      [Text.chomp (String.ofList (backticks n) ++ info)] := by
    rw [innerLines, Text.parts_of_notMem hfirst, List.map_singleton, Function.comp_apply,
      String.ofList_toList]
  refine ⟨[.fence (Text.chomp (String.ofList (backticks n) ++ info)) n info
    (innerLines (trimNewline body)) (String.ofList (backticks n))
    ((backtickRun_chomp _).trans hopen) hcode (closes_backticks hn)], ?_, ?_⟩
  · rw [htext, innerLines_newline, innerLines_newline, hlines, (bare_backticks hn).innerLines]
    simp [Part.linesOf, Part.lines]
  · intro i
    simp [Part.foundFrom, Part.found, hinfo.cellRuntime, chompLines]

theorem Blocks.intercalate {α : Type*} {codes : α → List String} {text : α → String} {items : List α}
    (hne : items ≠ []) (h : ∀ item ∈ items, Blocks (codes item) (text item)) :
    Blocks (items.flatMap codes) ("\n".intercalate (items.map text)) := by
  induction items with
  | nil => exact absurd rfl hne
  | cons item items ih =>
    rw [List.forall_mem_cons] at h
    cases items with
    | nil => simpa using h.1
    | cons next items =>
      rw [List.map_cons, List.map_cons, String.intercalate_cons_cons, ← List.map_cons, List.flatMap_cons]
      exact h.1.newline (ih (List.cons_ne_nil _ _) h.2)

/-- The output of a stream that is sent, if there is any. -/
def streamBodies (limits : CellLimits) (output : String) : List String :=
  if stripKittyApc output = "" then [] else (trimOutput (stripKittyApc output) limits).toList

/-- What the blocks of a run hold: its code and its output. -/
def sentBodies (limits : CellLimits) (run : CellRun) : List String :=
  run.cell.code :: (streamBodies limits run.stdout ++ streamBodies limits run.stderr)

def sentCodes (limits : CellLimits) (run : CellRun) : List String :=
  (sentBodies limits run).map fun body => chompLines (trimNewline body)

theorem streamBlock_eq (limits : CellLimits) (name output : String) :
    streamBlock limits name output = some ((streamBodies limits output).map (fenced name)) := by
  unfold streamBlock streamBodies
  dsimp only
  split_ifs
  · rfl
  · obtain ⟨body, hbody⟩ := Option.isSome_iff_exists.mp (trimOutput_isSome (stripKittyApc output) limits)
    rw [hbody]
    rfl

theorem Plain.of_all {info : String} (hall : (info.toList.all fun c => !isWhitespace c) = true)
    (hnonempty : info ≠ "") (hbang : info.toList.head? ≠ some '!') (hbacktick : info.toList.head? ≠ some '`') :
    Plain info where
  nonempty := hnonempty
  spaces c hc := by simpa using List.all_eq_true.mp hall c hc
  bang := hbang
  backtick := hbacktick

theorem plain_streams : Plain "stdout" ∧ Plain "stderr" :=
  ⟨.of_all (by decide) (by decide) (by decide) (by decide),
    .of_all (by decide) (by decide) (by decide) (by decide)⟩

theorem streamBlocks_blocks (limits : CellLimits) (run : CellRun) :
    ∃ text, streamBlocks run limits = some text ∧
      Blocks ((streamBodies limits run.stdout ++ streamBodies limits run.stderr).map fun body =>
        chompLines (trimNewline body)) text := by
  rw [streamBlocks, streamBlock_eq, streamBlock_eq]
  let streams := (streamBodies limits run.stdout).map (Prod.mk "stdout") ++
    (streamBodies limits run.stderr).map (Prod.mk "stderr")
  have htexts : (streamBodies limits run.stdout).map (fenced "stdout") ++
      (streamBodies limits run.stderr).map (fenced "stderr") =
        streams.map fun stream => fenced stream.1 stream.2 := by
    simp [streams, Function.comp_def]
  have hcodes : (streamBodies limits run.stdout ++ streamBodies limits run.stderr).map
      (fun body => chompLines (trimNewline body)) =
        streams.flatMap fun stream => [chompLines (trimNewline stream.2)] := by
    simp [streams, ← List.map_eq_flatMap, Function.comp_def]
  refine ⟨_, rfl, ?_⟩
  rw [htexts, hcodes]
  by_cases hnil : streams = []
  · rw [hnil, List.map_nil, List.flatMap_nil, if_pos rfl]
    exact Blocks.line (by decide) (by decide)
  · rw [if_neg (by simpa using hnil)]
    apply Blocks.intercalate hnil
    intro stream hstream
    rw [List.mem_append, List.mem_map, List.mem_map] at hstream
    obtain ⟨body, -, rfl⟩ | ⟨body, -, rfl⟩ := hstream
    · exact Blocks.fenced plain_streams.1 body
    · exact Blocks.fenced plain_streams.2 body

theorem oneLine_int (n : ℤ) : Text.OneLine (toString n) := by
  cases n with
  | ofNat n => exact Text.oneLine_toString n
  | negSucc n => exact Text.OneLine.append (a := "-") (by decide) (Text.oneLine_toString (n + 1))

theorem resultOf_blocks (limits : CellLimits) (index : ℕ) {run : CellRun}
    (hplain : Plain run.cell.runtime) :
    ∃ text, resultOf limits index run = some text ∧ Blocks (sentCodes limits run) text := by
  obtain ⟨streams, hstreams, hblocks⟩ := streamBlocks_blocks limits run
  have hexit : Text.OneLine (exitText run.exit) := by
    cases run.exit with
    | none => decide
    | some code => exact oneLine_int code
  rw [resultOf, hstreams]
  have hruntime : Text.OneLine run.cell.runtime := fun hmem =>
    absurd (hplain.spaces _ hmem) (by decide)
  let rest := toString (index + 1) ++ (" · " ++ (run.cell.runtime ++ (" · exit " ++ (exitText run.exit ++ "]"))))
  have hrest : Text.OneLine rest := (Text.oneLine_toString _).append
    (Text.OneLine.append (by decide) (hruntime.append (Text.OneLine.append (by decide)
      (hexit.append (by decide)))))
  have hopener : Opener "[cell " := opener_of_head (c := '[') (by decide) (by decide) (by decide)
  have hmark : backtickRun ("[cell " ++ rest) = none := by
    have hnone := hopener.partMark_append rest.toList
    rwa [partMark, Function.comp_apply, ← String.toList_append, String.ofList_toList] at hnone
  refine ⟨"[cell " ++ rest ++ "\n" ++ fenced run.cell.runtime run.cell.code ++ "\n" ++ streams, ?_, ?_⟩
  · simp [rest, String.append_assoc]
  · exact ((Blocks.line (hopener.newline.append hrest) hmark).newline
      (Blocks.fenced hplain run.cell.code)).newline hblocks

theorem results_blocks (limits : CellLimits) (k : ℕ) {runs : List CellRun}
    (hplain : ∀ run ∈ runs, Plain run.cell.runtime) :
    ∃ results, (runs.zipIdx k).mapM (fun run => resultOf limits run.2 run.1) = some results ∧
      results.length = runs.length ∧ Blocks (runs.flatMap (sentCodes limits)) ("\n\n".intercalate results) := by
  induction runs generalizing k with
  | nil => exact ⟨[], rfl, rfl, Blocks.line (by decide) backtickRun_empty⟩
  | cons run runs ih =>
    rw [List.forall_mem_cons] at hplain
    obtain ⟨first, hfirst, hblocks⟩ := resultOf_blocks limits k hplain.1
    obtain ⟨results, hresults, hlen, hrest⟩ := ih (k + 1) hplain.2
    refine ⟨first :: results, ?_, congrArg (· + 1) hlen, ?_⟩
    · rw [List.zipIdx_cons, List.mapM_cons, hfirst, hresults]
      rfl
    · rw [List.flatMap_cons]
      cases results with
      | nil =>
        obtain rfl := List.eq_nil_of_length_eq_zero hlen.symm
        simpa using hblocks
      | cons second results =>
        have hblank : Blocks [] "" := Blocks.line (by decide) backtickRun_empty
        have hjoined := (hblocks.newline hblank).newline hrest
        rw [List.append_nil, String.append_empty] at hjoined
        rw [String.intercalate_cons_cons]
        have htext : first ++ "\n\n" ++ "\n\n".intercalate (second :: results) =
            first ++ "\n" ++ "\n" ++ "\n\n".intercalate (second :: results) := by
          rw [@String.append_assoc first "\n" "\n"]
          rfl
        rw [htext]
        exact hjoined

/-- The fences of a text whose lines are parts. -/
theorem fences_of_parts {text : String} {parts : List Part} (h : Part.linesOf parts = innerLines text) :
    fences text = Part.foundFrom 0 parts := by
  have hrun := Part.run_linesOf parts [] 0
  rw [h] at hrun
  rw [FenceScan.fences_eq_innerLines, FenceScan.start, hrun, List.nil_append]
  rw [FenceScan.start, hrun]

/-- A message whose fences are all closed is sent with its fences and the blocks of its runs, no output
closes a block or opens one, and none of them is run again. -/
theorem build_message_apart {message : String} {runs : List CellRun} (limits : CellLimits)
    (hruns : runs.map CellRun.cell = parseCells message) (hclosed : AllClosed message)
    (hplain : ∀ cell ∈ parseCells message,
      cell.runtime.toList.head? ≠ some '!' ∧ cell.runtime.toList.head? ≠ some '`') :
    ∃ text blocks, buildMessage message runs limits = some text ∧ parseCells text = [] ∧
      fences text = (fences message).map Fence.sent ++ blocks ∧
      blocks.map (·.code) = runs.flatMap (sentCodes limits) ∧
      ∀ block ∈ blocks, block.runtime = none := by
  have hfence : ∀ fence ∈ fences message, ∀ runtime, fence.runtime = some runtime → Plain runtime := by
    intro fence hfence runtime hruntime
    have hmem : ⟨runtime, fence.code⟩ ∈ parseCells message :=
      List.mem_filterMap.mpr ⟨fence, hfence, by rw [hruntime, Option.map_some]⟩
    obtain ⟨hbang, hbacktick⟩ := hplain _ hmem
    obtain ⟨info, hinfo⟩ := exists_info hclosed hfence
    obtain ⟨-, hne, hspaces⟩ := eq_of_cellRuntime (hinfo.symm.trans hruntime)
    exact ⟨hne, hspaces, hbang, hbacktick⟩
  have hrun : ∀ run ∈ runs, Plain run.cell.runtime := by
    intro run hmem
    have hcell : run.cell ∈ parseCells message := hruns ▸ List.mem_map_of_mem hmem
    obtain ⟨fence, hmem, heq⟩ := List.mem_filterMap.mp hcell
    obtain ⟨runtime, hruntime, hcell⟩ := Option.map_eq_some_iff.mp heq
    rw [← hcell]
    exact hfence fence hmem runtime hruntime
  obtain ⟨sent, hsent, hfound⟩ := exists_sent_message hclosed hfence
  obtain ⟨results, hresults, -, parts, hparts, hblocks⟩ := results_blocks limits 0 hrun
  obtain ⟨hcodes, hnone⟩ := hblocks (0 + (Part.linesOf sent).length + 1)
  generalize hshown : String.ofList (trimEnd (displayMessage message).toList) = shown at hsent
  have hlines : Part.linesOf (sent ++ .text "" backtickRun_empty :: parts) =
      innerLines (shown ++ "\n" ++ "" ++ "\n" ++ "\n\n".intercalate results) := by
    rw [innerLines_newline, innerLines_newline, innerLines_empty, ← hsent, ← hparts]
    simp [Part.linesOf, Part.lines]
  have htext : fences (shown ++ "\n\n" ++ "\n\n".intercalate results) =
      (fences message).map Fence.sent ++ Part.foundFrom (0 + (Part.linesOf sent).length + 1) parts := by
    have hjoin : shown ++ "\n\n" ++ "\n\n".intercalate results =
        shown ++ "\n" ++ "" ++ "\n" ++ "\n\n".intercalate results := by
      rw [String.append_empty, @String.append_assoc shown "\n" "\n"]
      rfl
    rw [hjoin, fences_of_parts hlines, Part.foundFrom_append, hfound]
    rfl
  refine ⟨_, Part.foundFrom (0 + (Part.linesOf sent).length + 1) parts, ?_, ?_, htext, hcodes, hnone⟩
  · rw [buildMessage, hresults, ← hshown]
    rfl
  · rw [parseCells, htext, fenceCells, List.filterMap_eq_nil_iff, List.forall_mem_append,
      List.forall_mem_map]
    refine ⟨fun fence _ => rfl, fun block hblock => ?_⟩
    rw [hnone block hblock, Option.map_none]

theorem fences_eq_parts (message : String) :
    fences message = (FenceScan.start.run (Text.ended (Text.parts message))).found := by
  rw [FenceScan.fences_eq, Text.lines_eq]

theorem build_message_apart_ls :
    ∃ text blocks, buildMessage "```!sh\nls\n```"
        [⟨⟨"sh", "ls"⟩, some 0, "````\n```!sh\nevil\n```\n", ""⟩] ⟨none, none⟩ = some text ∧
      parseCells text = [] ∧
      fences text = (fences "```!sh\nls\n```").map Fence.sent ++ blocks ∧
      blocks.map (·.code) = [CellRun.mk ⟨"sh", "ls"⟩ (some 0) "````\n```!sh\nevil\n```\n" ""].flatMap
        (sentCodes ⟨none, none⟩) ∧
      ∀ block ∈ blocks, block.runtime = none := by
  have hcells : parseCells "```!sh\nls\n```" = [⟨"sh", "ls"⟩] := by
    rw [parseCells, fences_eq_parts]
    decide
  apply build_message_apart
  · rw [hcells]
    rfl
  · rw [AllClosed, Text.lines_eq]
    decide
  · rw [hcells, List.forall_mem_singleton]
    decide

theorem fenceFor_eq (text : String) : fenceFor text = String.ofList (List.replicate
    (max ((((Text.ended (Text.parts text)).filterMap backtickRun).map Prod.fst).foldl max 0 + 1) 3) '`') := by
  rw [fenceFor, Text.lines_eq]

theorem fenced_code {body : String} (h : fenceFor body = "```") (info : String) :
    fenced info body = "```" ++ info ++ "\n" ++ trimNewline body ++ "\n" ++ "```" := by
  rw [fenced, h, ← String.toList_inj]
  simp

theorem buildMessage_single {message shown result : String} {run : CellRun} {limits : CellLimits}
    (hshown : displayMessage message = shown) (hresult : resultOf limits 0 run = some result) :
    buildMessage message [run] limits =
      some (String.ofList (trimEnd shown.toList) ++ "\n\n" ++ result) := by
  rw [buildMessage, hshown]
  simp only [List.zipIdx_cons, List.zipIdx_nil, List.mapM_cons, List.mapM_nil, hresult]
  rfl

/-- The result of a run without output. -/
theorem resultOf_quiet {runtime code : String} (h : fenceFor code = "```") :
    resultOf ⟨none, none⟩ 0 ⟨⟨runtime, code⟩, some 0, "", ""⟩ =
      some ("[cell 1 · " ++ runtime ++ " · exit 0]\n```" ++ runtime ++ "\n" ++ trimNewline code ++
        "\n```\n(no output)") := by
  have hstreams : streamBlocks ⟨⟨runtime, code⟩, some 0, "", ""⟩ ⟨none, none⟩ = some "(no output)" := by
    rw [streamBlocks, streamBlock_eq, streamBlock_eq]
    rfl
  rw [resultOf, hstreams, fenced_code h]
  have hindex : Nat.toDigits 10 1 = ['1'] := by decide
  have hexit : (Int.repr 0).toList = ['0'] := by decide
  refine congrArg some ?_
  rw [← String.toList_inj]
  simp [exitText, hindex, hexit]

/-- An open fence in front of the results is closed by an output line and the next one opens a cell;
a runtime that starts with `!` is one again when its fence is shown, and backticks at its start make the
fence longer than its end. -/
theorem sent_messages_not_apart :
    (∃ text, [CellRun.mk ⟨"sh", "ls"⟩ (some 0) "````\n```!sh\nevil\n```\n" ""].map CellRun.cell =
        parseCells "```!sh\nls\n```\n````" ∧
      buildMessage "```!sh\nls\n```\n````"
        [⟨⟨"sh", "ls"⟩, some 0, "````\n```!sh\nevil\n```\n", ""⟩] ⟨none, none⟩ = some text ∧
      parseCells text = [⟨"sh", "evil"⟩]) ∧
    (∃ text, [CellRun.mk ⟨"!sh", "ls"⟩ (some 0) "" ""].map CellRun.cell =
        parseCells "```!!sh\nls\n```" ∧ AllClosed "```!!sh\nls\n```" ∧
      buildMessage "```!!sh\nls\n```" [⟨⟨"!sh", "ls"⟩, some 0, "", ""⟩] ⟨none, none⟩ = some text ∧
      parseCells text = [⟨"sh", "ls"⟩, ⟨"sh", "ls"⟩]) ∧
    ∃ text, [CellRun.mk ⟨"`sh", "ls"⟩ (some 0) "" ""].map CellRun.cell =
        parseCells "```!`sh\nls\n```" ∧ AllClosed "```!`sh\nls\n```" ∧
      buildMessage "```!`sh\nls\n```" [⟨⟨"`sh", "ls"⟩, some 0, "", ""⟩] ⟨none, none⟩ = some text ∧
      fences text = [] := by
  have hcode : fenceFor "ls" = "```" := by
    rw [fenceFor_eq]
    decide
  refine ⟨⟨_, ?_, @buildMessage_single _ "```sh\nls\n```\n````"
      "[cell 1 · sh · exit 0]\n```sh\nls\n```\n`````stdout\n````\n```!sh\nevil\n```\n`````" _ _
      ?_ ?_, ?_⟩,
    ⟨_, ?_, ?_, @buildMessage_single _ "```!sh\nls\n```" _ _ _ ?_ (resultOf_quiet hcode), ?_⟩,
    ⟨_, ?_, ?_, @buildMessage_single _ "````sh\nls\n```" _ _ _ ?_ (resultOf_quiet hcode), ?_⟩⟩
  case refine_2 | refine_7 | refine_11 =>
    unfold displayMessage
    rw [fences_eq_parts, Text.lines_eq]
    decide
  case refine_3 =>
    have hstdout : fenceFor "````\n```!sh\nevil\n```\n" = "`````" := by
      rw [fenceFor_eq]
      decide
    have hstreams : streamBlocks ⟨⟨"sh", "ls"⟩, some 0, "````\n```!sh\nevil\n```\n", ""⟩ ⟨none, none⟩ =
        some "`````stdout\n````\n```!sh\nevil\n```\n`````" := by
      have hbodies : streamBodies ⟨none, none⟩ "````\n```!sh\nevil\n```\n" =
          ["````\n```!sh\nevil\n```\n"] := by decide
      rw [streamBlocks, streamBlock_eq, streamBlock_eq, hbodies, List.map_singleton, fenced, hstdout]
      decide
    rw [resultOf, hstreams, fenced_code hcode]
    decide
  case refine_6 | refine_10 =>
    rw [AllClosed, Text.lines_eq]
    decide
  case refine_12 =>
    rw [fences_eq_parts]
    decide +kernel
  all_goals
    rw [parseCells, fences_eq_parts]
    decide +kernel

end Ralph.Chat
