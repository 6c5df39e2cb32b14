import Ralph.Interleaving

namespace Ralph

/-- A program that reaches the outside only through operations; `Res o` is what `o` answers. -/
inductive Program (Op : Type) (Res : Op → Type) (α : Type) where
  | done (a : α)
  | call (o : Op) (next : Res o → Program Op Res α)

namespace Program

variable {Op : Type} {Res : Op → Type} {α β : Type}

def bind (p : Program Op Res α) (f : α → Program Op Res β) : Program Op Res β :=
  match p with
  | done a => f a
  | call o next => call o fun r => (next r).bind f

instance : Monad (Program Op Res) where
  pure := done
  bind := bind

/-- One operation. -/
def op (o : Op) : Program Op Res (Res o) := call o done

/-- One program for each item, in order. -/
def each (f : β → Program Op Res Unit) : List β → Program Op Res Unit
  | [] => done ()
  | item :: items => f item >>= fun _ => each f items

section Eval

variable {σ : Type*} (perform : (o : Op) → σ → Res o × σ)

def eval : Program Op Res α → σ → α × σ
  | done a, s => (a, s)
  | call o next, s => (next (perform o s).1).eval (perform o s).2

@[simp] theorem eval_done (a : α) (s : σ) :
    eval perform (done a : Program Op Res α) s = (a, s) := rfl

@[simp] theorem eval_pure (a : α) (s : σ) :
    eval perform (pure a : Program Op Res α) s = (a, s) := rfl

@[simp] theorem eval_op (o : Op) (s : σ) :
    eval perform (op o : Program Op Res _) s = perform o s := rfl

@[simp] theorem eval_bind (p : Program Op Res α) (f : α → Program Op Res β) (s : σ) :
    eval perform (p >>= f) s =
      eval perform (f (eval perform p s).1) (eval perform p s).2 := by
  induction p generalizing s with
  | done a => rfl
  | call o next ih => exact ih _ _

theorem eval_andThen {ε : Type} (p : ExceptT ε (Program Op Res) α)
    (f : α → ExceptT ε (Program Op Res) β) (s : σ) :
    eval perform (p >>= f).run s =
      match eval perform p.run s with
      | (.ok a, s') => eval perform (f a).run s'
      | (.error e, s') => (.error e, s') := by
  rw [show (p >>= f).run = p.run >>= fun r => ExceptT.bindCont f r from rfl, eval_bind]
  rcases eval perform p.run s with ⟨r, s'⟩
  cases r <;> rfl

@[simp] theorem eval_lift {ε : Type} (p : Program Op Res α) (s : σ) :
    eval perform (ExceptT.lift p : ExceptT ε (Program Op Res) α).run s =
      (.ok (eval perform p s).1, (eval perform p s).2) := by
  induction p generalizing s with
  | done a => rfl
  | call o next ih => exact ih _ _

theorem eval_map_ok {ε : Type} (f : α → β) (p : ExceptT ε (Program Op Res) α) (s : σ) :
    eval perform (f <$> p).run s = ((eval perform p.run s).1.map f, (eval perform p.run s).2) := by
  change eval perform (ExceptT.map f p).run s = _
  induction p generalizing s with
  | done r => cases r <;> rfl
  | call o next ih => exact ih _ _

end Eval

section Logic

variable {σ : Type*} (exec : (o : Op) → σ → Res o → σ → Prop) (inv : σ → Prop)
  (rely guar : σ → σ → Prop)

/-- The program does its next operation. -/
def Moves (s : σ) (p : Program Op Res α) (s' : σ) (p' : Program Op Res α) : Prop :=
  ∃ o next r, p = call o next ∧ exec o s r s' ∧ p' = next r

/-- From this state, as long as the others do what `rely` says, every operation of the program
keeps the invariant and does what `guar` says, and its answer has the property `Q`. -/
def Holds : Program Op Res α → (α → σ → Prop) → σ → Prop
  | done a, Q, s => ∀ s', rely s s' → inv s' → Q a s'
  | call o next, Q, s => ∀ s', rely s s' → inv s' → ∀ r s'', exec o s' r s'' →
      inv s'' ∧ guar s' s'' ∧ Holds (next r) Q s''

variable {exec inv rely guar} {Q Q' : α → σ → Prop} {s s' : σ}

theorem Holds.stable (trans : ∀ s s' s'', rely s s' → rely s' s'' → rely s s'')
    {p : Program Op Res α} (h : Holds exec inv rely guar p Q s) (hr : rely s s') :
    Holds exec inv rely guar p Q s' := by
  cases p with
  | done a => exact fun t ht => h t (trans _ _ _ hr ht)
  | call o next => exact fun t ht => h t (trans _ _ _ hr ht)

theorem Holds.of_later (refl : ∀ s, rely s s) {p : Program Op Res α}
    (h : ∀ s', rely s s' → inv s' → Holds exec inv rely guar p Q s') :
    Holds exec inv rely guar p Q s := by
  cases p with
  | done a => exact fun t ht hi => h t ht hi t (refl t) hi
  | call o next => exact fun t ht hi => h t ht hi t (refl t) hi

theorem Holds.mono {p : Program Op Res α} (h : Holds exec inv rely guar p Q s)
    (hq : ∀ a s', Q a s' → Q' a s') : Holds exec inv rely guar p Q' s := by
  induction p generalizing s with
  | done a => exact fun t ht hi => hq a t (h t ht hi)
  | call o next ih =>
    intro t ht hi r u hu
    obtain ⟨hinv, hguar, hnext⟩ := h t ht hi r u hu
    exact ⟨hinv, hguar, ih r hnext⟩

/-- What holds of the answer goes on to hold. -/
theorem Holds.later (trans : ∀ s s' s'', rely s s' → rely s' s'' → rely s s'')
    {p : Program Op Res α} (h : Holds exec inv rely guar p Q s) :
    Holds exec inv rely guar p (fun a s' => ∀ s'', rely s' s'' → inv s'' → Q a s'') s := by
  induction p generalizing s with
  | done a => exact fun t ht _ u hu hi => h u (trans _ _ _ ht hu) hi
  | call o next ih =>
    intro t ht hi r u hu
    obtain ⟨hinv, hguar, hnext⟩ := h t ht hi r u hu
    exact ⟨hinv, hguar, ih r hnext⟩

theorem Holds.imp_guar {guar' : σ → σ → Prop} (hg : ∀ s s', guar s s' → guar' s s')
    {p : Program Op Res α} (h : Holds exec inv rely guar p Q s) :
    Holds exec inv rely guar' p Q s := by
  induction p generalizing s with
  | done a => exact h
  | call o next ih =>
    intro t ht hi r u hu
    obtain ⟨hinv, hguar, hnext⟩ := h t ht hi r u hu
    exact ⟨hinv, hg t u hguar, ih r hnext⟩

theorem Holds.bind (refl : ∀ s, rely s s) {p : Program Op Res β} {f : β → Program Op Res α}
    (h : Holds exec inv rely guar p (fun b => Holds exec inv rely guar (f b) Q) s) :
    Holds exec inv rely guar (p >>= f) Q s := by
  induction p generalizing s with
  | done b => exact Holds.of_later refl h
  | call o next ih =>
    intro t ht hi r u hu
    obtain ⟨hinv, hguar, hnext⟩ := h t ht hi r u hu
    exact ⟨hinv, hguar, ih r hnext⟩

/-- In a program that can fail, what follows runs after a success only. -/
theorem Holds.andThen {ε : Type} (refl : ∀ s, rely s s) {p : ExceptT ε (Program Op Res) β}
    {f : β → ExceptT ε (Program Op Res) α} {Q : Except ε α → σ → Prop}
    (h : Holds exec inv rely guar p.run
      (fun r s => match r with
        | .ok b => Holds exec inv rely guar (f b).run Q s
        | .error e => Holds exec inv rely guar (Program.done (.error e)) Q s) s) :
    Holds exec inv rely guar (p >>= f).run Q s := by
  apply Holds.bind refl (f := fun r => ExceptT.bindCont f r)
  apply h.mono
  intro r s' hr
  cases r <;> exact hr

theorem Holds.lift {ε : Type} {p : Program Op Res α}
    {Q : Except ε α → σ → Prop} (h : Holds exec inv rely guar p (fun a => Q (.ok a)) s) :
    Holds exec inv rely guar (ExceptT.lift p : ExceptT ε (Program Op Res) α).run Q s := by
  induction p generalizing s with
  | done a => exact h
  | call o next ih =>
    intro t ht hi r u hu
    obtain ⟨hinv, hguar, hnext⟩ := h t ht hi r u hu
    exact ⟨hinv, hguar, ih r hnext⟩

theorem Holds.map_ok {ε : Type} {f : β → α} {p : ExceptT ε (Program Op Res) β}
    {Q : Except ε α → σ → Prop}
    (h : Holds exec inv rely guar p.run (fun r => Q (r.map f)) s) :
    Holds exec inv rely guar (f <$> p).run Q s := by
  change Holds exec inv rely guar (ExceptT.map f p).run Q s
  induction p generalizing s with
  | done r => cases r <;> exact h
  | call o next ih =>
    intro t ht hi r u hu
    obtain ⟨hinv, hguar, hnext⟩ := h t ht hi r u hu
    exact ⟨hinv, hguar, ih r hnext⟩

/-- A loop: what holds with these items left holds with none left at the end. -/
theorem Holds.each (refl : ∀ s, rely s s) {f : β → Program Op Res Unit} {J : List β → σ → Prop}
    (stable : ∀ {items s s'}, rely s s' → J items s → J items s')
    (body : ∀ {item items s}, J (item :: items) s →
      Holds exec inv rely guar (f item) (fun _ s' => J items s') s)
    {items : List β} (h : J items s) :
    Holds exec inv rely guar (Program.each f items) (fun _ s' => J [] s') s := by
  induction items generalizing s with
  | nil => exact fun t ht _ => stable ht h
  | cons item items ih => exact Holds.bind refl ((body h).mono fun _ _ => ih)

theorem Holds.done {a : α} (h : ∀ s', rely s s' → inv s' → Q a s') :
    Holds exec inv rely guar (done a : Program Op Res α) Q s := h

/-- What is left of a finished program. -/
theorem Holds.result (refl : ∀ s, rely s s) {a : α} (hi : inv s)
    (h : Holds exec inv rely guar (Program.done a : Program Op Res α) Q s) : Q a s :=
  h s (refl s) hi

end Logic

section Parties

variable {ι σ : Type*} {exec : (o : Op) → σ → Res o → σ → Prop} {inv : σ → Prop}
  {rely : ι → σ → σ → Prop} {outside : σ → σ → Prop} {Q : ι → α → σ → Prop}

variable (exec inv rely outside) in
/-- Programs that guarantee to each other what the others rely on keep their promises in any
interleaving. -/
theorem protocol (trans : ∀ i s s' s'', rely i s s' → rely i s' s'' → rely i s s'')
    (env : ∀ {s s'}, inv s → outside s s' → inv s' ∧ ∀ j, rely j s s')
    (refl : ∀ i s, rely i s s) :
    Interleaving.Protocol (Moves exec (α := α)) outside inv
      (fun i s p => Holds exec inv (rely i) (fun s s' => ∀ j, j ≠ i → rely j s s') p (Q i) s)
      rely where
  stable := by
    intro i s s' p hr _ h
    exact h.stable (trans i) hr
  move := by
    rintro i s p s' p' hinv h ⟨o, next, r, rfl, hexec, rfl⟩
    obtain ⟨hinv', hguar, hnext⟩ := h s (refl i s) hinv r s' hexec
    exact ⟨hinv', hnext, hguar⟩
  outside := env

end Parties

section Alone

variable {σ : Type*} {exec : (o : Op) → σ → Res o → σ → Prop} {inv : σ → Prop}
  {rely guar outside : σ → σ → Prop} {Q : α → σ → Prop}

/-- One program beside the outside: what it promised holds when it is done. -/
theorem Holds.run (refl : ∀ s, rely s s) (trans : ∀ s s' s'', rely s s' → rely s' s'' → rely s s'')
    (env : ∀ {s s'}, inv s → outside s s' → inv s' ∧ rely s s') {p : Program Op Res α} {s : σ}
    (hinv : inv s) (h : Holds exec inv rely guar p Q s)
    {w : Interleaving.World Unit σ (Program Op Res α)}
    (hrun : Interleaving.Run (Moves exec) outside ⟨s, fun _ => p⟩ w) {a : α}
    (hdone : w.party () = Program.done a) : inv w.shared ∧ Q a w.shared := by
  have hprotocol := protocol exec inv (fun _ => rely) outside (Q := fun (_ : Unit) => Q)
    (fun _ => trans) (fun hi ho => ⟨(env hi ho).1, fun _ => (env hi ho).2⟩) (fun _ => refl)
  have hown : ∀ i : Unit, Holds exec inv rely (fun s s' => ∀ j, j ≠ i → rely s s') p Q s := by
    intro i
    exact h.imp_guar fun _ _ _ j hj => absurd rfl hj
  obtain ⟨hinv', hall⟩ := hprotocol.run (w := ⟨s, fun _ => p⟩) hinv hown hrun
  have hq := hall ()
  rw [hdone] at hq
  exact ⟨hinv', Holds.result refl hinv' hq⟩

end Alone

section Steps

variable {σ : Type*} {exec : (o : Op) → σ → Res o → σ → Prop} {s s' s'' : σ}

variable (exec) in
def Steps : σ × Program Op Res α → σ × Program Op Res α → Prop :=
  Relation.ReflTransGen fun x y => Moves exec x.1 x.2 y.1 y.2

variable (exec) in
/-- The program can go from one state to the other and end there. -/
def Runs (s : σ) (p : Program Op Res α) (s' : σ) (a : α) : Prop := Steps exec (s, p) (s', done a)

theorem Runs.done {a : α} : Runs exec s (Program.done a) s a := Relation.ReflTransGen.refl

theorem Runs.op {o : Op} {r : Res o} (h : exec o s r s') : Runs exec s (op o) s' r :=
  Relation.ReflTransGen.single ⟨o, _, r, rfl, h, rfl⟩

theorem Steps.mono {exec' : (o : Op) → σ → Res o → σ → Prop}
    (himp : ∀ o s r s', exec o s r s' → exec' o s r s') {x y : σ × Program Op Res α}
    (h : Steps exec x y) : Steps exec' x y :=
  Relation.ReflTransGen.mono (fun _ _ ⟨o, next, r, hcall, hexec, hnext⟩ =>
    ⟨o, next, r, hcall, himp _ _ _ _ hexec, hnext⟩) _ _ h

/-- The steps of a program are those of any longer program that begins with it. -/
theorem Steps.longer {p q : Program Op Res β} (f : β → Program Op Res α)
    (h : Steps exec (s, p) (s', q)) : Steps exec (s, p.bind f) (s', q.bind f) := by
  let g (x : σ × Program Op Res β) : σ × Program Op Res α := (x.1, x.2.bind f)
  have hstep : ∀ x y : σ × Program Op Res β, Moves exec x.1 x.2 y.1 y.2 →
      Moves exec (g x).1 (g x).2 (g y).1 (g y).2 := by
    rintro ⟨t, p⟩ ⟨t', q⟩ ⟨o, next, r, rfl, hexec, rfl⟩
    exact ⟨o, fun r => (next r).bind f, r, rfl, hexec, rfl⟩
  exact Relation.ReflTransGen.lift g hstep (s, p) (s', q) h

theorem Runs.first {p : Program Op Res β} {f : β → Program Op Res α} {b : β}
    (h : Runs exec s p s' b) : Steps exec (s, p >>= f) (s', f b) := Steps.longer f h

theorem Runs.bind {p : Program Op Res β} {f : β → Program Op Res α} {b : β} {a : α}
    (h : Runs exec s p s' b) (hrest : Runs exec s' (f b) s'' a) : Runs exec s (p >>= f) s'' a :=
  h.first.trans hrest

theorem Runs.andThen {ε : Type} {p : ExceptT ε (Program Op Res) β}
    {f : β → ExceptT ε (Program Op Res) α} {b : β} {r : Except ε α}
    (h : Runs exec s p.run s' (.ok b)) (hrest : Runs exec s' (f b).run s'' r) :
    Runs exec s (p >>= f).run s'' r :=
  Runs.bind (f := fun r => ExceptT.bindCont f r) h hrest

theorem Runs.map_ok {ε : Type} {p : ExceptT ε (Program Op Res) β} {f : β → α} {b : β}
    (h : Runs exec s p.run s' (.ok b)) : Runs exec s (f <$> p).run s' (.ok (f b)) := by
  change Runs exec s (ExceptT.map f p).run s' (.ok (f b))
  exact Runs.bind h Runs.done

/-- Side by side with others that stand still. -/
theorem Steps.run {ι : Type*} [DecidableEq ι] {outside : σ → σ → Prop} {p q : Program Op Res α}
    (h : Steps exec (s, p) (s', q)) {party : ι → Program Op Res α} (i : ι) (hp : party i = p) :
    Interleaving.Run (Moves exec) outside ⟨s, party⟩ ⟨s', Function.update party i q⟩ := by
  generalize hx : (s, p) = x at h
  generalize hy : (s', q) = y at h
  induction h generalizing s' q with
  | refl =>
    cases hx
    cases hy
    rw [← hp, Function.update_eq_self]
  | @tail z y _ hmove ih =>
    cases hy
    have hstep : Interleaving.Step (Moves exec) outside ⟨z.1, Function.update party i z.2⟩
        ⟨s', Function.update (Function.update party i z.2) i q⟩ :=
      .move (w := ⟨z.1, Function.update party i z.2⟩) i (by simpa using hmove)
    rw [Function.update_idem] at hstep
    exact (ih rfl).tail hstep

end Steps

end Program

end Ralph
