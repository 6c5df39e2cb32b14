import Mathlib.Data.List.Induction

namespace Ralph.Machine

variable {σ ι ω : Type*} (step : σ → ι → σ × List ω)

/-- The state of a component after the calls made on it. -/
def after (s : σ) (calls : List ι) : σ := calls.foldl (fun s c => (step s c).1) s

/-- All that it gave out, in order. -/
def outputs (s : σ) : List ι → List ω
  | [] => []
  | c :: calls => (step s c).2 ++ outputs (step s c).1 calls

/-- The calls and what each of them gave out, in order. -/
def trace (s : σ) : List ι → List (ι ⊕ ω)
  | [] => []
  | c :: calls => .inl c :: (step s c).2.map .inr ++ trace (step s c).1 calls

@[simp] theorem after_nil (s : σ) : after step s [] = s := rfl

@[simp] theorem after_cons (s : σ) (c : ι) (calls : List ι) :
    after step s (c :: calls) = after step (step s c).1 calls := rfl

@[simp] theorem outputs_nil (s : σ) : outputs step s [] = [] := rfl

@[simp] theorem trace_nil (s : σ) : trace step s [] = [] := rfl

theorem after_append (s : σ) (calls more : List ι) :
    after step s (calls ++ more) = after step (after step s calls) more := by
  simp [after]

theorem outputs_append (s : σ) (calls more : List ι) :
    outputs step s (calls ++ more) = outputs step s calls ++ outputs step (after step s calls) more := by
  induction calls generalizing s with
  | nil => rfl
  | cons c calls ih => simp [outputs, ih]

theorem trace_append (s : σ) (calls more : List ι) :
    trace step s (calls ++ more) = trace step s calls ++ trace step (after step s calls) more := by
  induction calls generalizing s with
  | nil => rfl
  | cons c calls ih => simp [trace, ih]

theorem after_concat (s : σ) (calls : List ι) (c : ι) :
    after step s (calls ++ [c]) = (step (after step s calls) c).1 := by
  simp [after_append]

theorem outputs_concat (s : σ) (calls : List ι) (c : ι) :
    outputs step s (calls ++ [c]) = outputs step s calls ++ (step (after step s calls) c).2 := by
  simp [outputs_append, outputs]

theorem trace_concat (s : σ) (calls : List ι) (c : ι) :
    trace step s (calls ++ [c]) =
      trace step s calls ++ .inl c :: (step (after step s calls) c).2.map .inr := by
  simp [trace_append, trace]

variable {step} {s : σ}

/-- What every call keeps holds after any calls. -/
theorem invariant {I : σ → Prop} (init : I s) (keep : ∀ s c, I s → I (step s c).1) (calls : List ι) :
    I (after step s calls) := by
  induction calls using List.reverseRecOn with
  | nil => exact init
  | append_singleton calls c ih =>
    rw [after_concat]
    exact keep _ _ ih

end Ralph.Machine
