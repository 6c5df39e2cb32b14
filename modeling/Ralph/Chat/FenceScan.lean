import Ralph.Chat.Cell

namespace Ralph.Chat

/-- A fence whose last line is still to come. -/
structure OpenFence where
  openLine : ℕ
  ticks : ℕ
  info : String
  code : List String
  deriving DecidableEq, Repr

/-- Where one pass over the lines stands: outside every fence, or inside the one that is open. -/
structure FenceScan where
  found : List Fence
  opened : Option OpenFence
  line : ℕ
  deriving DecidableEq, Repr

def OpenFence.close (o : OpenFence) (line : ℕ) : Fence :=
  ⟨o.openLine, line, cellRuntime o.info, "\n".intercalate o.code⟩

namespace FenceScan

def step (s : FenceScan) (line : String) : FenceScan :=
  match s.opened with
  | none => ⟨s.found, (backtickRun line).map fun (ticks, info) => ⟨s.line, ticks, info, []⟩, s.line + 1⟩
  | some o =>
    if closes o.ticks line then ⟨s.found ++ [o.close s.line], none, s.line + 1⟩
    else ⟨s.found, some { o with code := o.code ++ [line] }, s.line + 1⟩

def run (s : FenceScan) (lines : List String) : FenceScan := lines.foldl step s

def start : FenceScan := ⟨[], none, 0⟩

theorem run_nil (s : FenceScan) : s.run [] = s := rfl

theorem run_cons (s : FenceScan) (line : String) (lines : List String) :
    s.run (line :: lines) = (s.step line).run lines := rfl

theorem run_append (s : FenceScan) (a b : List String) : s.run (a ++ b) = (s.run a).run b := by
  rw [run, run, run, List.foldl_append]

theorem step_text {line : String} (h : backtickRun line = none) (found : List Fence) (i : ℕ) :
    step ⟨found, none, i⟩ line = ⟨found, none, i + 1⟩ := by
  simp only [step, h, Option.map_none]

theorem step_opening {line info : String} {ticks : ℕ} (h : backtickRun line = some (ticks, info))
    (found : List Fence) (i : ℕ) :
    step ⟨found, none, i⟩ line = ⟨found, some ⟨i, ticks, info, []⟩, i + 1⟩ := by
  simp only [step, h, Option.map_some]

theorem run_code {o : OpenFence} {code : List String} (h : ∀ l ∈ code, closes o.ticks l = false)
    (found : List Fence) (i : ℕ) :
    run ⟨found, some o, i⟩ code = ⟨found, some { o with code := o.code ++ code }, i + code.length⟩ := by
  induction code generalizing o i with
  | nil => simp [run]
  | cons line code ih =>
    rw [List.forall_mem_cons] at h
    have hstep : step ⟨found, some o, i⟩ line =
        ⟨found, some { o with code := o.code ++ [line] }, i + 1⟩ := by
      simp only [step, h.1, Bool.false_eq_true, if_false]
    have hrest := @ih { o with code := o.code ++ [line] } h.2 (i + 1)
    rw [run_cons, hstep, hrest, List.length_cons]
    simp only [List.append_assoc, List.singleton_append, FenceScan.mk.injEq, true_and]
    omega

/-- A whole fence, from its first line to the one that closes it. -/
theorem run_fence {first last info : String} {ticks : ℕ} {code : List String}
    (hopen : backtickRun first = some (ticks, info)) (hcode : ∀ l ∈ code, closes ticks l = false)
    (hclose : closes ticks last = true) (found : List Fence) (i : ℕ) :
    run ⟨found, none, i⟩ (first :: (code ++ [last])) =
      ⟨found ++ [⟨i, i + 1 + code.length, cellRuntime info, "\n".intercalate code⟩], none,
        i + code.length + 2⟩ := by
  rw [run_cons, step_opening hopen, run_append, run_code hcode]
  simp only [run, List.foldl_cons, List.foldl_nil, step, hclose, if_true, OpenFence.close,
    List.nil_append, FenceScan.mk.injEq, true_and]
  omega

/-- The search for a closing line at each opening line finds what one pass over the lines finds. -/
theorem found_run (found : List Fence) (i : ℕ) (lines : List String) :
    (run ⟨found, none, i⟩ lines).found = found ++ fencesFrom i lines := by
  -- on the number of lines: a fence takes all up to its end
  induction hn : lines.length using Nat.strong_induction_on generalizing found i lines with
  | _ n ih =>
    cases lines with
    | nil => simp [run, fencesFrom]
    | cons line rest =>
      subst hn
      cases hline : backtickRun line with
      | none =>
        rw [run_cons, step_text hline, ih rest.length (by simp) _ _ _ rfl, fencesFrom, hline]
      | some mark =>
        obtain ⟨ticks, info⟩ := mark
        have hparts := List.takeWhile_append_dropWhile (p := fun l => !closes ticks l) (l := rest)
        have hcode : ∀ l ∈ rest.takeWhile (fun l => !closes ticks l), closes ticks l = false := by
          intro l hl
          simpa using List.mem_takeWhile_imp hl
        rw [fencesFrom, hline]
        dsimp only
        split
        · next hdrop =>
          -- nothing closes the fence, so the pass ends inside it
          rw [hdrop, List.append_nil] at hparts
          rw [hparts] at hcode
          rw [run_cons, step_opening hline, @run_code ⟨i, ticks, info, []⟩ _ hcode]
          exact (List.append_nil found).symm
        · next last after hdrop =>
          have hclose : closes ticks last = true := by
            have hhead := List.head?_dropWhile_not (fun l => !closes ticks l) rest
            simpa [hdrop] using hhead
          rw [hdrop] at hparts
          have hlines : line :: rest =
              line :: (rest.takeWhile (fun l => !closes ticks l) ++ [last]) ++ after := by
            rw [List.cons_append, List.append_assoc, List.singleton_append, hparts]
          rw [hlines, run_append, run_fence hline hcode hclose,
            ih after.length (length_lt_of_dropWhile hdrop) _ _ _ rfl, List.append_assoc]
          rfl

theorem fences_eq (message : String) : fences message = (start.run (Text.lines message)).found := by
  rw [start, found_run, List.nil_append]
  rfl

end FenceScan

end Ralph.Chat
