import Ralph.Chat.FenceScan
import Ralph.LossyLines

namespace Ralph.Chat
open ChatMemory

/-- The backticks of a fence. -/
def backticks (n : ℕ) : List Char := List.replicate n '`'

theorem backtickRun_backticks {n : ℕ} (h : 3 ≤ n) {info : List Char} (hinfo : info.head? ≠ some '`') :
    backtickRun (String.ofList (backticks n ++ info)) = some (n, trim (String.ofList info)) := by
  obtain ⟨k, rfl⟩ : ∃ k, n = k + 1 := ⟨n - 1, by omega⟩
  have hblank : isWhitespace '`' = false := by decide
  have hdrop : (backticks (k + 1) ++ info).dropWhile isWhitespace = backticks (k + 1) ++ info := by
    rw [backticks, List.replicate_succ, List.cons_append, List.dropWhile_cons_of_neg (by simp [hblank])]
  have htake : (backticks (k + 1) ++ info).takeWhile (· = '`') = backticks (k + 1) := by
    rw [List.takeWhile_append_of_pos]
    · cases info with
      | nil => simp
      | cons c cs =>
        rw [List.takeWhile_cons_of_neg, List.append_nil]
        simpa using hinfo
    · intro c hc
      simp [List.eq_of_mem_replicate hc]
  have hlen : (backticks (k + 1)).length = k + 1 := List.length_replicate
  unfold backtickRun trimStart
  simp only [String.toList_ofList, hdrop, htake, hlen, if_pos h]
  rw [List.drop_left' hlen]

theorem closes_backticks {n : ℕ} (h : 3 ≤ n) : closes n (String.ofList (backticks n)) = true := by
  have hrun : backtickRun (String.ofList (backticks n ++ [])) = some (n, trim (String.ofList [])) :=
    backtickRun_backticks h (by simp)
  rw [List.append_nil] at hrun
  rw [closes, hrun]
  simp [trim, trimChars]

theorem closes_chomp (ticks : ℕ) (line : String) : closes ticks (Text.chomp line) = closes ticks line := by
  rw [closes, closes, backtickRun_chomp]

theorem closes_empty (ticks : ℕ) : closes ticks "" = false := by
  simp [closes, backtickRun, trimStart]

theorem le_foldl_max {xs : List ℕ} {x : ℕ} (h : x ∈ xs) (m : ℕ) : x ≤ xs.foldl max m :=
  (List.max?_eq_some_iff.mp (List.max?_cons' : (m :: xs).max? = some (xs.foldl max m))).2 x (List.mem_cons_of_mem m h)

/-- The lines of a text that more lines follow. -/
def innerLines (text : String) : List String := (Text.parts text).map (Text.chomp ∘ String.ofList)

theorem lines_append_line (a b : String) :
    Text.lines (a ++ "\n" ++ b) = innerLines a ++ Text.lines b := by
  rw [LossyLines.lines_newline_append, LossyLines.lines_newline]
  rfl

/-- What closes no line of a text closes none with more lines behind it. -/
theorem closes_innerLines {ticks : ℕ} {text : String}
    (h : ∀ l ∈ Text.lines text, closes ticks l = false) :
    ∀ l ∈ innerLines text, closes ticks l = false := by
  rw [Text.lines_eq] at h
  intro l hl
  obtain ⟨p, hp, rfl⟩ := List.mem_map.mp hl
  rw [Function.comp_apply, closes_chomp]
  generalize Text.parts text = ps at h hp
  induction ps with
  | nil => cases hp
  | cons q ps ih =>
    cases ps with
    | nil =>
      obtain rfl := List.mem_singleton.mp hp
      by_cases hempty : String.ofList p = ""
      · rw [hempty]
        exact closes_empty ticks
      · exact h _ (by simp [Text.ended, hempty])
    | cons r ps =>
      rw [Text.ended_cons_cons, List.forall_mem_cons] at h
      obtain rfl | hp := List.mem_cons.mp hp
      · rw [← closes_chomp]
        exact h.1
      · exact ih h.2 hp

/-- Only as many backticks close a line as it starts with. -/
theorem le_of_closes {ticks : ℕ} {line : String} (h : closes ticks line = true) :
    ticks ≤ ((trimStart line).toList.takeWhile (· = '`')).length := by
  unfold closes backtickRun at h
  dsimp only at h
  split_ifs at h
  · rw [Option.any_some, Bool.and_eq_true, decide_eq_true_iff] at h
    exact h.1
  · cases h

/-- A fence that is longer than the backticks of every line is closed by none of them. -/
theorem closes_of_longest {ticks : ℕ} {text : String}
    (h : ((Text.lines text).map fun line =>
      ((trimStart line).toList.takeWhile (· = '`')).length).foldl max 0 < ticks) :
    ∀ l ∈ innerLines text, closes ticks l = false := by
  apply closes_innerLines
  intro l hl
  by_contra hclosed
  have hle := le_of_closes (Bool.eq_true_of_not_eq_false hclosed)
  have hmem := List.mem_map_of_mem (f := fun line : String =>
    ((trimStart line).toList.takeWhile (· = '`')).length) hl
  exact absurd (le_foldl_max hmem 0) (not_le.mpr (h.trans_le hle))

/-- A line of its own that the reader finds unchanged. -/
structure Bare (line : String) : Prop where
  newline : Text.OneLine line
  chomp : Text.chomp line = line
  nonempty : line ≠ ""

theorem Bare.innerLines {line : String} (h : Bare line) : innerLines line = [line] := by
  rw [Chat.innerLines, Text.parts_of_notMem h.newline, List.map_singleton, Function.comp_apply,
    String.ofList_toList, h.chomp]

theorem Bare.lines {line : String} (h : Bare line) : Text.lines line = [line] := by
  rw [Text.lines_eq, Text.parts_of_notMem h.newline]
  simp [Text.ended, h.nonempty]

theorem bare_of_getLast? {line : String} {c : Char} (hline : Text.OneLine line)
    (hlast : line.toList.getLast? = some c) (hc : c ≠ '\r') : Bare line := by
  refine ⟨hline, Text.chomp_of_getLast? hlast hc, ?_⟩
  rintro rfl
  cases hlast

theorem bare_backticks {n : ℕ} (h : 3 ≤ n) : Bare (String.ofList (backticks n)) := by
  obtain ⟨k, rfl⟩ : ∃ k, n = k + 1 := ⟨n - 1, by omega⟩
  apply @bare_of_getLast? _ '`'
  · rw [Text.OneLine, String.toList_ofList]
    exact fun hmem => absurd (List.eq_of_mem_replicate hmem) (by decide)
  · rw [String.toList_ofList, backticks, List.replicate_succ', List.getLast?_concat]
  · decide

/-- The lines of a block: its fence stands alone on the last one. -/
theorem lines_block {n : ℕ} (hn : 3 ≤ n) {first : String} (hfirst : Bare first) (body : String) :
    Text.lines (first ++ "\n" ++ body ++ "\n" ++ String.ofList (backticks n)) =
      first :: (innerLines body ++ [String.ofList (backticks n)]) := by
  rw [lines_append_line, (bare_backticks hn).lines]
  have hhead : innerLines (first ++ "\n" ++ body) = first :: innerLines body := by
    have hparts := Text.parts_newline first body
    rw [innerLines, hparts, List.map_append]
    show innerLines first ++ innerLines body = _
    rw [hfirst.innerLines, List.singleton_append]
  rw [hhead, List.cons_append]

/-- The text with every CR LF as LF. -/
def unixLines : List Char → List Char
  | '\r' :: '\n' :: cs => '\n' :: unixLines cs
  | c :: cs => c :: unixLines cs
  | [] => []

theorem unixLines_of_notMem {p : List Char} (h : '\n' ∉ p) : unixLines p = p := by
  induction p with
  | nil => rfl
  | cons c p ih =>
    rw [List.mem_cons, not_or] at h
    have hne : ∀ cs, ¬(c = '\r' ∧ p = '\n' :: cs) := by
      rintro cs ⟨-, rfl⟩
      exact h.2 List.mem_cons_self
    rw [unixLines, ih h.2]
    intro cs hc hp
    exact hne cs ⟨hc, hp⟩

theorem unixLines_line {p : List Char} (h : '\n' ∉ p) (rest : List Char) :
    unixLines (p ++ '\n' :: rest) = (Text.chomp (String.ofList p)).toList ++ '\n' :: unixLines rest := by
  induction p with
  | nil => simp [unixLines, Text.chomp]
  | cons c p ih =>
    rw [List.mem_cons, not_or] at h
    cases p with
    | nil =>
      by_cases hc : c = '\r'
      · simp [hc, unixLines, Text.chomp, Text.pop]
      · have hchomp : Text.chomp (String.ofList [c]) = String.ofList [c] :=
          Text.chomp_of_getLast? (by rw [String.toList_ofList]; rfl) hc
        rw [hchomp, List.cons_append, unixLines, List.nil_append, unixLines]
        · simp
        · simp
        · exact fun cs hr => absurd hr hc
    | cons d p =>
      have hd : d ≠ '\n' := fun hd => h.2 (hd ▸ List.mem_cons_self)
      have hchomp : (Text.chomp (String.ofList (c :: d :: p))).toList =
          c :: (Text.chomp (String.ofList (d :: p))).toList := by
        unfold Text.chomp Text.pop
        simp only [String.toList_ofList, List.getLast?_cons_cons, List.dropLast_cons_cons]
        split_ifs <;> simp
      rw [hchomp, List.cons_append, unixLines, ih h.2, List.cons_append]
      intro cs _ hcs
      exact hd (List.cons.inj hcs).1

/-- The lines of a text that does not end in a carriage return. -/
theorem intercalate_innerLines {text : String} (h : text.toList.getLast? ≠ some '\r') :
    "\n".intercalate (innerLines text) = String.ofList (unixLines text.toList) := by
  have htext : text.toList = ['\n'].intercalate (Text.parts text) :=
    (List.intercalate_splitOn '\n').symm
  have hparts := Text.notMem_parts text
  have hne := Text.parts_ne_nil text
  rw [htext] at h ⊢
  rw [innerLines]
  generalize Text.parts text = ps at h hparts hne
  induction ps with
  | nil => exact absurd rfl hne
  | cons p ps ih =>
    rw [List.forall_mem_cons] at hparts
    cases ps with
    | nil =>
      rw [List.intercalate_singleton] at h ⊢
      have hchomp : Text.chomp (String.ofList p) = String.ofList p := by
        rw [Text.chomp, String.toList_ofList, if_neg h]
      rw [unixLines_of_notMem hparts.1, List.map_singleton, Function.comp_apply, hchomp]
      rfl
    | cons q ps =>
      rw [List.intercalate_cons_cons] at h ⊢
      have hrest : (['\n'].intercalate (q :: ps)).getLast? ≠ some '\r' := by
        intro hlast
        apply h
        rw [List.getLast?_append, hlast]
        rfl
      rw [List.map_cons, List.map_cons, String.intercalate_cons_cons, ← List.map_cons,
        ih hrest hparts.2 (List.cons_ne_nil _ _), List.append_assoc, List.singleton_append,
        unixLines_line hparts.1, ← String.toList_inj]
      simp

theorem getLast?_trimNewlines (body : String) : (trimNewlines body).toList.getLast? ≠ some '\r' := by
  intro hlast
  rw [trimNewlines, String.toList_ofList] at hlast
  obtain ⟨init, hinit⟩ := List.getLast?_eq_some_iff.mp hlast
  have hne : (body.toList.rdropWhile fun c => c = '\n' || c = '\r') ≠ [] := by
    rw [hinit]
    simp
  have hnot := List.rdropWhile_last_not (fun c => c = '\n' || c = '\r') body.toList hne
  simp only [hinit, List.getLast_concat] at hnot
  exact hnot rfl

/-- A block with a fence that closes none of its lines is one fence. -/
theorem fences_block {n : ℕ} (hn : 3 ≤ n) {first info body : String} (hfirst : Bare first)
    (hinfo : backtickRun first = some (n, info)) (hcode : ∀ l ∈ innerLines body, closes n l = false) :
    fences (first ++ "\n" ++ body ++ "\n" ++ String.ofList (backticks n)) =
      [⟨0, 1 + (innerLines body).length, cellRuntime info, "\n".intercalate (innerLines body)⟩] := by
  rw [FenceScan.fences_eq, lines_block hn hfirst, FenceScan.start,
    FenceScan.run_fence hinfo hcode (closes_backticks hn)]
  simp

/-- The block of a body has a fence that is longer than every run of backticks in it. -/
theorem shellCell_eq (body : String) :
    ∃ n, 3 ≤ n ∧ (∀ l ∈ innerLines (trimNewlines body), closes n l = false) ∧
      shellCell body = String.ofList (backticks n) ++ "!shell" ++ "\n" ++ trimNewlines body ++ "\n" ++
        String.ofList (backticks n) := by
  let longest := ((Text.lines (trimNewlines body)).map fun line =>
    ((trimStart line).toList.takeWhile (· = '`')).length).foldl max 0
  refine ⟨max (longest + 1) 3, le_max_right _ 3, closes_of_longest ?_, ?_⟩
  · exact lt_of_lt_of_le (Nat.lt_succ_self _) (le_max_left _ _)
  · rw [← String.toList_inj]
    simp [shellCell, backticks, String.toList_append]
    rfl

theorem parseCells_shellCell (body : String) :
    parseCells (shellCell body) =
      [⟨"shell", String.ofList (unixLines (trimNewlines body).toList)⟩] := by
  obtain ⟨n, hn, hcode, hshell⟩ := shellCell_eq body
  have hfirst : Bare (String.ofList (backticks n) ++ "!shell") := by
    apply @bare_of_getLast? _ 'l'
    · exact (bare_backticks hn).newline.append (by decide)
    · rw [String.toList_append, List.getLast?_append]
      rfl
    · decide
  have hinfo : backtickRun (String.ofList (backticks n) ++ "!shell") = some (n, "!shell") := by
    have hline : String.ofList (backticks n) ++ "!shell" =
        String.ofList (backticks n ++ ['!', 's', 'h', 'e', 'l', 'l']) := by
      rw [String.ofList_append]
    have htrim : trim (String.ofList ['!', 's', 'h', 'e', 'l', 'l']) = "!shell" := by decide
    rw [hline, backtickRun_backticks hn (by simp), htrim]
  rw [parseCells, hshell, fences_block hn hfirst hinfo hcode,
    intercalate_innerLines (getLast?_trimNewlines body)]
  rfl

/-- However the body looks, its block is one shell cell with the body as its code. -/
theorem parse_shellCell :
    (∀ body, parseCells (shellCell body) =
      [⟨"shell", String.ofList (unixLines (trimNewlines body).toList)⟩]) ∧
    ∀ message body, bang message = .send body ∨ bang message = .local_ body →
      preparedCells message = [⟨"shell", String.ofList (unixLines (trimNewlines body).toList)⟩] := by
  refine ⟨parseCells_shellCell, ?_⟩
  rintro message body (h | h)
  · rw [preparedCells, expand, h, parseCells_shellCell]
  · rw [preparedCells, expand, h, parseCells_shellCell]

end Ralph.Chat
