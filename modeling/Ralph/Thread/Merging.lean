import Ralph.Thread.Commands

namespace Ralph.Thread
open ChatMemory Worker

def Json.IsMerged (J : Json) (text : Bytes) : Prop :=
  ∃ m, J.threadMeta text = .ok m ∧ m.merged.isSome = true

/-- Who has the thread's chat claim. -/
inductive Holder (ι : Type)
  | chat
  | command (i : ι)

/-- What the processes share: `thread.json` and the claim; beside them every text that the file had,
and the reports that reached main's inbox. -/
structure Shared (ι : Type) where
  file : Option Bytes
  holder : Option (Holder ι)
  versions : List Bytes
  posted : List Report

variable {ι : Type}

namespace Shared

def written (s : Shared ι) (text : Bytes) : Shared ι :=
  { s with file := some text, versions := s.versions ++ [text] }

/-- Before any command, with or without a chat that has the thread open. -/
def start (file : Option Bytes) (chat : Bool) : Shared ι :=
  ⟨file, if chat then some .chat else none, file.toList, []⟩

end Shared

/-- One operation. A write can stop in the middle, and every operation on a file can fail. -/
def Does (o : Op ι) (s : Shared ι) (r : o.Answer) (s' : Shared ι) : Prop :=
  match o with
  | .isFile => s' = s ∧ r = s.file.isSome
  | .readMeta => s' = s ∧ ((∃ e, r = .error e) ∨ ∃ text, s.file = some text ∧ r = .ok text)
  | .live => s' = s
  | .claim me => (s.holder = none ∧ r = .ok (.ok ()) ∧ s' = { s with holder := some (.command me) }) ∨
      s' = s ∧ ((∃ e, r = .error e) ∨ s.holder ≠ none ∧ ∃ pid, r = .ok (.error pid))
  | .now => s' = s
  | .load => s' = s
  | .curate _ => s' = s
  | .mainLen => s' = s
  | .checkPath => s' = s
  | .truncateMeta => (r = .ok () ∧ s' = s.written []) ∨ s' = s ∧ ∃ e, r = .error e
  | .writeMeta text => (r = .ok () ∧ s' = s.written text) ∨
      -- a failed write leaves the front of the text
      ∃ e k, r = .error e ∧ k < text.length ∧ s' = s.written (text.take k)
  | .post report => (r = .ok () ∧ s' = { s with posted := s.posted ++ [report] }) ∨
      s' = s ∧ ∃ e, r = .error e
  | .release me => s.holder = some (.command me) ∧ s' = { s with holder := none }

/-- A chat opens the thread or closes it. -/
inductive Chats : Shared ι → Shared ι → Prop
  | open_ {s : Shared ι} (free : s.holder = none) : Chats s { s with holder := some .chat }
  | close {s : Shared ι} (held : s.holder = some .chat) : Chats s { s with holder := none }

/-- Whoever is granted the claim finds a thread that is not merged. -/
def ClaimsOpen (t : ThreadDir) (o : Op ι) (s s' : Shared ι) : Prop :=
  ∀ me, o = .claim me → s'.holder = some (.command me) →
    ∀ text, s.file = some text → ¬ t.json.IsMerged text

/-- An operation that meets the condition. -/
def Timely (t : ThreadDir) (o : Op ι) (s : Shared ι) (r : o.Answer) (s' : Shared ι) : Prop :=
  Does o s r s' ∧ ClaimsOpen t o s s'

/-- No text that says merged is replaced by one that does not, and at most one report was posted. -/
def StaysMerged (t : ThreadDir) (s : Shared ι) : Prop :=
  s.versions.Pairwise (fun a b => t.json.IsMerged a → t.json.IsMerged b) ∧ s.posted.length ≤ 1

/-- `thread.json` is merged. -/
def FileMerged (t : ThreadDir) (s : Shared ι) : Prop := ∃ text, s.file = some text ∧ t.json.IsMerged text

structure Sound (t : ThreadDir) (s : Shared ι) : Prop where
  last : s.versions.getLast? = s.file
  kept : s.versions.Pairwise (fun a b => t.json.IsMerged a → t.json.IsMerged b)
  posted : s.posted = [] ∨ s.posted.length = 1 ∧ FileMerged t s

def Held (i : ι) (s : Shared ι) : Prop := s.holder = some (.command i)

/-- What a process relies on: nobody touches the thread while it has the claim, and nobody takes
the claim for it. -/
def Respects (i : ι) (s s' : Shared ι) : Prop :=
  (Held i s → s'.holder = s.holder ∧ s'.file = s.file ∧ s'.posted = s.posted) ∧
    (¬ Held i s → ¬ Held i s')

variable {t : ThreadDir} {i j : ι} {s s' s'' : Shared ι}

theorem Respects.refl (i : ι) (s : Shared ι) : Respects i s s :=
  ⟨fun _ => ⟨rfl, rfl, rfl⟩, id⟩

theorem Respects.trans (h : Respects i s s') (h' : Respects i s' s'') : Respects i s s'' := by
  refine ⟨fun hs => ?_, fun hs => h'.2 (h.2 hs)⟩
  obtain ⟨hholder, hfile, hposted⟩ := h.1 hs
  obtain ⟨hholder', hfile', hposted'⟩ := h'.1 (hholder.trans hs)
  exact ⟨hholder'.trans hholder, hfile'.trans hfile, hposted'.trans hposted⟩

/-- Whoever has the claim disturbs no one. -/
theorem Held.respects (h : Held i s) (h' : Held i s') (hij : j ≠ i) : Respects j s s' := by
  have hne : ∀ {u : Shared ι}, Held i u → ¬ Held j u := by
    intro u hi hj
    rw [Held, hi] at hj
    cases hj
    exact hij rfl
  exact ⟨fun hj => absurd hj (hne h), fun _ => hne h'⟩

theorem Sound.chats (h : Sound t s) (hs : Chats s s') : Sound t s' ∧ ∀ j, Respects j s s' := by
  cases hs with
  | open_ free =>
    refine ⟨⟨h.last, h.kept, h.posted⟩, fun j => ⟨fun hj => ?_, fun _ => nofun⟩⟩
    rw [Held, free] at hj
    cases hj
  | close held =>
    refine ⟨⟨h.last, h.kept, h.posted⟩, fun j => ⟨fun hj => ?_, fun _ => nofun⟩⟩
    rw [Held, held] at hj
    cases hj

/-- While the file is not merged, none of its earlier texts was. -/
theorem Sound.written (h : Sound t s) (hfile : ¬ FileMerged t s) (text : Bytes) :
    Sound t (s.written text) := by
  have hnone : ∀ a ∈ s.versions, ¬ t.json.IsMerged a := by
    intro a ha hmerged
    have hne : s.versions ≠ [] := List.ne_nil_of_mem ha
    have hlast : s.versions.getLast? = some (s.versions.getLast hne) := List.getLast?_eq_some_getLast hne
    apply hfile
    refine ⟨s.versions.getLast hne, h.last ▸ hlast, ?_⟩
    have hsplit := List.dropLast_append_getLast hne
    have hkept := h.kept
    rw [← hsplit, List.pairwise_append] at hkept
    rw [← hsplit, List.mem_append, List.mem_singleton] at ha
    rcases ha with ha | rfl
    · exact hkept.2.2 a ha _ (List.mem_singleton_self _) hmerged
    · exact hmerged
  refine ⟨List.getLast?_concat, ?_, Or.inl (h.posted.resolve_right fun hp => hfile hp.2)⟩
  rw [Shared.written, List.pairwise_append]
  refine ⟨h.kept, List.pairwise_singleton _ _, ?_⟩
  intro a ha b _ hmerged
  exact absurd hmerged (hnone a ha)

/-- A command of the process `i` beside all others. -/
abbrev Keeps (t : ThreadDir) (i : ι) {α : Type} (p : Program (Op ι) Op.Answer α)
    (Q : α → Shared ι → Prop) (s : Shared ι) : Prop :=
  Program.Holds (Timely t) (Sound t) (Respects i) (fun s s' => ∀ j, j ≠ i → Respects j s s') p Q s

/-- A program that changes nothing. -/
def Idle (t : ThreadDir) (i : ι) {α : Type} (p : Program (Op ι) Op.Answer α) : Prop :=
  ∀ (s : Shared ι) (Q : α → Shared ι → Prop), (∀ r s', Respects i s s' → Q r s') → Keeps t i p Q s

theorem Idle.op {o : Op ι} (h : ∀ s r s', Does o s r s' → s' = s) : Idle t i (Program.op o) := by
  intro s Q hq u hu hsound r v hdoes
  obtain rfl := h u r v hdoes.1
  exact ⟨hsound, fun j _ => Respects.refl j v, fun w hw _ => hq r w (hu.trans hw)⟩

theorem Idle.done {α : Type} (a : α) : Idle t i (Program.done a) := fun _ _ hq s' hs _ => hq a s' hs

theorem Idle.bind {α β : Type} {p : Program (Op ι) Op.Answer β} {f : β → Program (Op ι) Op.Answer α}
    (hp : Idle t i p) (hf : ∀ b, Idle t i (f b)) : Idle t i (p >>= f) := by
  intro s Q hq
  apply Program.Holds.bind (Respects.refl i)
  apply hp
  intro b u hu
  apply hf
  intro r v hv
  exact hq r v (hu.trans hv)

theorem Idle.andThen {α β : Type} {p : Io ι β} {f : β → Io ι α} (hp : Idle t i p.run)
    (hf : ∀ b, Idle t i (f b).run) : Idle t i (p >>= f).run := by
  apply Idle.bind (f := fun r => ExceptT.bindCont f r) hp
  intro r
  cases r with
  | ok b => exact hf b
  | error e => exact Idle.done _

theorem Idle.lift {α : Type} {p : Program (Op ι) Op.Answer α} (hp : Idle t i p) :
    Idle t i (ExceptT.lift p : Io ι α).run := by
  intro s Q hq
  exact Program.Holds.lift (hp s _ fun r u hu => hq _ u hu)

theorem Idle.ask {α : Type} {p : Program (Op ι) Op.Answer (Except String α)} (hp : Idle t i p)
    (context : String → String) : Idle t i (ask p context).run := by
  apply hp.bind
  intro r
  cases r <;> exact Idle.done _

theorem Idle.check (r : Except String Unit) : Idle t i (ThreadDir.check r : Io ι Unit).run := Idle.done _

theorem readMeta_idle : Idle t i t.readMeta := by
  apply Idle.bind (Idle.op (o := .readMeta) fun s r s' h => h.1)
  intro r
  cases r <;> exact Idle.done _

theorem knownMeta_idle : Idle t i t.knownMeta.run := by
  apply Idle.andThen (Idle.op (o := .isFile) fun s r s' h => h.1).lift
  intro found
  cases found
  · exact Idle.done _
  · exact readMeta_idle.ask _

theorem guard_idle (verb : Guarded) (running : List String) : Idle t i (t.guard verb running).run := by
  apply Idle.andThen (Idle.op (o := .live) fun s r s' h => h).lift
  intro records
  exact Idle.check _

theorem digestLoop_idle (prompt : String) (left : ℕ) (asked last : String) :
    Idle t i (t.digestLoop prompt left asked last).run := by
  induction left generalizing asked last with
  | zero => exact Idle.done _
  | succ left ih =>
    apply Idle.andThen (Idle.op (o := .curate asked) fun s r s' h => h)
    intro reply
    cases checkDigest t.name reply with
    | ok digest => exact Idle.done _
    | error e => exact ih _ _

theorem mergeReport_idle (m : ThreadMeta) (entries : List Entry) (tree : Tree) (at_ : String) :
    Idle t i (t.mergeReport m entries tree at_).run := by
  apply Idle.andThen ((digestLoop_idle _ _ _ _).ask _)
  intro digest
  exact Idle.done _

theorem viewReporter_idle (m : ThreadMeta) (entries : List Entry) (tree : Tree) (at_ : String) :
    Idle t i (t.viewReporter m entries tree at_).run := by
  apply Idle.andThen (Idle.done _)
  intro block
  exact Idle.done _

/-- The state of a command that has the claim of a thread that is not merged. -/
def Free (t : ThreadDir) (i : ι) (s : Shared ι) : Prop := Held i s ∧ ¬ FileMerged t s ∧ s.posted = []

theorem Respects.held (h : Respects i s s') (hs : Held i s) : Held i s' := (h.1 hs).1.trans hs

theorem Respects.free (h : Respects i s s') (hs : Free t i s) : Free t i s' := by
  obtain ⟨hheld, hfile, hposted⟩ := hs
  obtain ⟨-, hfile', hposted'⟩ := h.1 hheld
  refine ⟨h.held hheld, ?_, hposted'.trans hposted⟩
  rw [FileMerged, hfile']
  exact hfile

/-- What is written is a text of the file, whatever it says; the report of a merge comes after it. -/
theorem writeMeta_keeps (hlawful : t.json.Lawful) (m : ThreadMeta) (hs : Free t i s) :
    Keeps t i (t.writeMeta m) (fun r s' => Held i s' ∧ s'.posted = [] ∧
      (r = .ok () → s'.file = some (t.json.metaText m))) s := by
  apply Program.Holds.andThen (Respects.refl i)
  apply Idle.op (o := .checkPath) fun s r s' h => h
  intro r u hu
  have hfree := hu.free hs
  cases r with
  | error e =>
    intro v hv _
    exact ⟨hv.held hfree.1, (hv.free hfree).2.2, nofun⟩
  | ok =>
    rintro v hv hsound r w ⟨hdoes, -⟩
    have hfree := hv.free hfree
    rcases hdoes with ⟨rfl, rfl⟩ | ⟨rfl, e, rfl⟩
    swap
    · refine ⟨hsound, fun j _ => Respects.refl j w, fun x hx _ => ?_⟩
      exact ⟨hx.held hfree.1, (hx.free hfree).2.2, nofun⟩
    · refine ⟨hsound.written hfree.2.1 [], fun j hj => hfree.1.respects hfree.1 hj, ?_⟩
      have hempty : Free t i (v.written []) := by
        obtain ⟨e, hparse⟩ := hlawful.empty
        refine ⟨hfree.1, ?_, hfree.2.2⟩
        rintro ⟨text, hfile, m, hmeta, -⟩
        cases hfile
        rw [hparse] at hmeta
        cases hmeta
      rintro x hx hsound r y ⟨hdoes, -⟩
      have hfree := hx.free hempty
      rcases hdoes with ⟨rfl, rfl⟩ | ⟨e, k, rfl, -, rfl⟩
      · refine ⟨hsound.written hfree.2.1 _, fun j hj => hfree.1.respects hfree.1 hj, fun z hz _ => ?_⟩
        obtain ⟨-, hfile, hposted⟩ := hz.1 hfree.1
        exact ⟨hz.held hfree.1, hposted.trans hfree.2.2, fun _ => hfile⟩
      · refine ⟨hsound.written hfree.2.1 _, fun j hj => hfree.1.respects hfree.1 hj, fun z hz _ => ?_⟩
        obtain ⟨-, -, hposted⟩ := hz.1 hfree.1
        exact ⟨hz.held hfree.1, hposted.trans hfree.2.2, nofun⟩

theorem ask_write_keeps (hlawful : t.json.Lawful) (m : ThreadMeta) (context : String → String)
    (hs : Free t i s) :
    Keeps t i (ask (t.writeMeta m) context).run (fun r s' => Held i s' ∧ s'.posted = [] ∧
      (r = .ok () → s'.file = some (t.json.metaText m))) s := by
  apply Program.Holds.bind (Respects.refl i)
  apply (writeMeta_keeps hlawful m hs).mono
  rintro r u ⟨hheld, hposted, hfile⟩
  cases r with
  | ok =>
    intro v hv _
    obtain ⟨-, hfile', hposted'⟩ := hv.1 hheld
    exact ⟨hv.held hheld, hposted'.trans hposted, fun _ => hfile'.trans (hfile rfl)⟩
  | error e =>
    intro v hv _
    exact ⟨hv.held hheld, (hv.1 hheld).2.2.trans hposted, nofun⟩

/-- The claim is granted in a state where the body starts, and the body gives it back. -/
theorem claimClosed_keeps {α : Type} {body : Io ι α} (hs : ¬ Held i s)
    (hbody : ∀ u, Free t i u → Keeps t i body.run (fun _ v => Held i v) u) :
    Keeps t i (t.claimClosed i body).run (fun _ s' => ¬ Held i s') s := by
  rintro u hu hsound r v ⟨hdoes, hopen⟩
  have hu' := hu.2 hs
  rcases hdoes with ⟨hnone, rfl, rfl⟩ | ⟨rfl, hr⟩
  · have hfree : Free t i { u with holder := some (.command i) } := by
      have hfile : ¬ FileMerged t u := by
        rintro ⟨text, htext, hmerged⟩
        exact hopen i rfl rfl text htext hmerged
      exact ⟨rfl, hfile, hsound.posted.resolve_right fun hp => hfile hp.2⟩
    have hothers : ∀ {w : Shared ι} (holder : Option (Holder ι)), (∀ j, j ≠ i → holder ≠ some (.command j)) →
        (∀ j, j ≠ i → ¬ Held j w) → ∀ j, j ≠ i → Respects j w { w with holder := holder } :=
      fun holder hnew hold j hj => ⟨fun hheld => absurd hheld (hold j hj), fun _ => hnew j hj⟩
    refine ⟨⟨hsound.last, hsound.kept, hsound.posted⟩, hothers _ ?_ ?_, ?_⟩
    · rintro j hj heq
      cases heq
      exact hj rfl
    · rintro j - hheld
      rw [Held, hnone] at hheld
      cases hheld
    · show Keeps t i (body.run >>= fun r => Program.op (.release i) >>= fun _ => pure r) _ _
      apply Program.Holds.bind (Respects.refl i)
      apply (hbody _ hfree).mono
      rintro r w hw x hx hsound' - y ⟨⟨hheld, rfl⟩, -⟩
      refine ⟨⟨hsound'.last, hsound'.kept, hsound'.posted⟩, hothers none (fun _ _ => nofun) ?_, ?_⟩
      · intro j hj hheld'
        rw [Held, hheld] at hheld'
        cases hheld'
        exact hj rfl
      · exact fun z hz _ => hz.2 nofun
  · refine ⟨hsound, fun j _ => Respects.refl j v, ?_⟩
    rcases hr with ⟨e, rfl⟩ | ⟨-, pid, rfl⟩
    · exact fun w hw _ => hw.2 hu'
    · exact fun w hw _ => hw.2 hu'

theorem Idle.then_free {α β : Type} {p : Io ι β} {f : β → Io ι α} (hp : Idle t i p.run)
    (hf : ∀ b u, Free t i u → Keeps t i (f b).run (fun _ v => Held i v) u) (hs : Free t i s) :
    Keeps t i (p >>= f).run (fun _ v => Held i v) s := by
  apply Program.Holds.andThen (Respects.refl i)
  apply hp
  intro r u hu
  cases r with
  | ok b => exact hf b u (hu.free hs)
  | error e => exact fun v hv _ => hv.held (hu.held hs.1)

theorem Idle.then_claim {α β : Type} {p : Io ι β} {f : β → Io ι α} (hp : Idle t i p.run)
    (hf : ∀ b u, ¬ Held i u → Keeps t i (f b).run (fun _ v => ¬ Held i v) u) (hs : ¬ Held i s) :
    Keeps t i (p >>= f).run (fun _ v => ¬ Held i v) s := by
  apply Program.Holds.andThen (Respects.refl i)
  apply hp
  intro r u hu
  cases r with
  | ok b => exact hf b u (hu.2 hs)
  | error e => exact fun v hv _ => hv.2 (hu.2 hs)

/-- The one write of `park`, `revive` and `pull`. -/
theorem write_keeps (hlawful : t.json.Lawful) (m : ThreadMeta) (context : String → String)
    (hs : Free t i s) : Keeps t i (ask (t.writeMeta m) context).run (fun _ v => Held i v) s :=
  (ask_write_keeps hlawful m context hs).mono fun _ _ h => h.1

/-- The report of a merge comes after the write, and is the first one. -/
theorem post_keeps {m : ThreadMeta} (hlawful : t.json.Lawful) (hm : m.merged.isSome = true) (report : Report)
    (context : String → String) (hheld : Held i s) (hposted : s.posted = [])
    (hfile : s.file = some (t.json.metaText m)) :
    Keeps t i (ask (Program.op (Op.post report)) context).run (fun _ v => Held i v) s := by
  rintro u hu hsound r v ⟨hdoes, -⟩
  obtain ⟨-, hfile', hposted'⟩ := hu.1 hheld
  have hheld' := hu.held hheld
  have hmerged : FileMerged t u := ⟨_, hfile'.trans hfile, m, hlawful.meta_text m, hm⟩
  rcases hdoes with ⟨rfl, rfl⟩ | ⟨rfl, e, rfl⟩
  · refine ⟨⟨hsound.last, hsound.kept, Or.inr ⟨?_, hmerged⟩⟩, fun j hj => hheld'.respects hheld' hj, ?_⟩
    · rw [hposted', hposted]
      rfl
    · exact fun w hw _ => hw.held hheld'
  · exact ⟨hsound, fun j _ => Respects.refl j v, fun w hw _ => hw.held hheld'⟩

theorem mergeWith_keeps (hlawful : t.json.Lawful) (running : List String) {report : ThreadDir.Reporter ι}
    (hreport : ∀ m entries tree at_, Idle t i (report m entries tree at_).run) (hs : ¬ Held i s) :
    Keeps t i (t.mergeWith i running report).run (fun _ v => ¬ Held i v) s := by
  refine knownMeta_idle.then_claim (fun m u hu => ?_) hs
  refine (Idle.check _).then_claim (fun _ u hu => ?_) hu
  refine (guard_idle _ _).then_claim (fun _ u hu => ?_) hu
  refine claimClosed_keeps hu fun u hu => ?_
  refine ((Idle.op (o := .load) fun s r s' h => h).ask _).then_free (fun memory u hu => ?_) hu
  refine (Idle.op (o := .now) fun s r s' h => h).lift.then_free (fun at_ u hu => ?_) hu
  refine (hreport _ _ _ _).then_free (fun report u hu => ?_) hu
  apply Program.Holds.andThen (Respects.refl i)
  apply (ask_write_keeps hlawful _ _ hu).mono
  rintro r v ⟨hheld, hposted, hfile⟩
  cases r with
  | error e => exact fun w hw _ => hw.held hheld
  | ok =>
    apply Program.Holds.andThen (Respects.refl i)
    apply (post_keeps hlawful rfl report _ hheld hposted (hfile rfl)).mono
    intro r w hw
    cases r <;> exact fun x hx _ => hx.held hw

theorem Command.run_keeps (hlawful : t.json.Lawful) (c : Command) (hs : ¬ Held i s) :
    Keeps t i (c.run t i).run (fun _ v => ¬ Held i v) s := by
  cases c with
  | merge running => exact mergeWith_keeps hlawful running mergeReport_idle hs
  | view running => exact mergeWith_keeps hlawful running viewReporter_idle hs
  | park running =>
    apply Program.Holds.map_ok
    refine knownMeta_idle.then_claim (fun m u hu => ?_) hs
    refine (Idle.check _).then_claim (fun _ u hu => ?_) hu
    refine (guard_idle _ _).then_claim (fun _ u hu => ?_) hu
    refine claimClosed_keeps hu fun u hu => ?_
    refine (Idle.op (o := .now) fun s r s' h => h).lift.then_free (fun at_ u hu => ?_) hu
    exact write_keeps hlawful _ _ hu
  | revive =>
    apply Program.Holds.map_ok
    refine knownMeta_idle.then_claim (fun m u hu => ?_) hs
    refine (Idle.check _).then_claim (fun _ u hu => ?_) hu
    refine claimClosed_keeps hu fun u hu => ?_
    exact write_keeps hlawful _ _ hu
  | pull =>
    refine knownMeta_idle.then_claim (fun m u hu => ?_) hs
    refine (Idle.check _).then_claim (fun _ u hu => ?_) hu
    refine claimClosed_keeps hu fun u hu => ?_
    refine ((Idle.op (o := .mainLen) fun s r s' h => h).ask _).then_free (fun stop u hu => ?_) hu
    by_cases hstop : stop ≠ m.base
    · rw [if_pos hstop]
      apply Program.Holds.andThen (Respects.refl i)
      apply (write_keeps hlawful _ _ hu).mono
      intro r v hv
      cases r <;> exact fun w hw _ => hw.held hv
    · rw [if_neg hstop]
      exact fun v hv _ => hv.held hu.1

theorem commands_keeps (hlawful : t.json.Lawful) (cs : List Command) (hs : ¬ Held i s) :
    Keeps t i (commands t i cs) (fun _ v => ¬ Held i v) s := by
  induction cs generalizing s with
  | nil => exact fun u hu _ => hu.2 hs
  | cons c cs ih =>
    apply Program.Holds.bind (Respects.refl i)
    apply (c.run_keeps hlawful hs).mono
    intro r u hu
    apply Program.Holds.bind (Respects.refl i)
    apply (ih hu).mono
    exact fun rs v hv w hw _ => hw.2 hv

theorem sound_start (t : ThreadDir) (file : Option Bytes) (chat : Bool) :
    Sound t (Shared.start file chat : Shared ι) := by
  refine ⟨?_, ?_, Or.inl rfl⟩
  · cases file <;> rfl
  · cases file with
    | none => exact List.Pairwise.nil
    | some text => exact List.pairwise_singleton _ _

theorem not_held_start (file : Option Bytes) (chat : Bool) (i : ι) :
    ¬ Held i (Shared.start file chat) := by
  cases chat <;> exact nofun

/-- As long as whoever is granted the claim finds a thread that is not merged, in any interleaving
of any commands of any processes. -/
theorem merged_thread_stays_merged [DecidableEq ι] (hlawful : t.json.Lawful) {file : Option Bytes}
    {chat : Bool} {cs : ι → List Command}
    {w : Interleaving.World ι (Shared ι) (Program (Op ι) Op.Answer (List (Except String String)))}
    (hrun : Interleaving.Run (Program.Moves (Timely t)) Chats
      ⟨Shared.start file chat, fun i => commands t i (cs i)⟩ w) : StaysMerged t w.shared := by
  have hprotocol := Program.protocol (Timely t) (Sound t) Respects Chats
    (Q := fun (i : ι) (_ : List (Except String String)) v => ¬ Held i v)
    (fun _ _ _ _ h h' => h.trans h') (fun h hs => h.chats hs) Respects.refl
  obtain ⟨hsound, -⟩ := hprotocol.run (sound_start t file chat)
    (fun i => commands_keeps hlawful (cs i) (not_held_start file chat i)) hrun
  refine ⟨hsound.kept, ?_⟩
  rcases hsound.posted with hnone | ⟨hone, -⟩
  · rw [hnone]
    exact Nat.zero_le 1
  · exact le_of_eq hone

section Runs

variable {m : ThreadMeta} {me : ι}

theorem Does.timely {o : Op ι} {r : o.Answer} (h : Does o s r s') (ho : ∀ me, o ≠ .claim me) :
    Timely t o s r s' := ⟨h, fun me heq => absurd heq (ho me)⟩

theorem op_runs {o : Op ι} {r : o.Answer} (h : Does o s r s') (ho : ∀ me, o ≠ .claim me) :
    Program.Runs (Timely t) s (Program.op o) s' r := .op (h.timely ho)

theorem lift_runs {α : Type} {p : Program (Op ι) Op.Answer α} {a : α}
    (h : Program.Runs (Timely t) s p s' a) :
    Program.Runs (Timely t) s (ExceptT.lift p : Io ι α).run s' (.ok a) := Program.Runs.bind h .done

theorem ask_runs {α : Type} {p : Program (Op ι) Op.Answer (Except String α)} {a : α}
    (h : Program.Runs (Timely t) s p s' (.ok a)) (context : String → String) :
    Program.Runs (Timely t) s (ask p context).run s' (.ok a) := Program.Runs.bind h .done

theorem check_runs {u : Except String Unit} (h : u = .ok ()) :
    Program.Runs (Timely t) s (ThreadDir.check u : Io ι Unit).run s (.ok ()) := by
  rw [h]
  exact .done

theorem knownMeta_runs (hlawful : t.json.Lawful) (hfile : s.file = some (t.json.metaText m)) :
    Program.Runs (Timely t) s t.knownMeta.run s (.ok m) := by
  have hisFile : Does (.isFile : Op ι) s true s := ⟨rfl, by rw [hfile]; rfl⟩
  have hread : Does (.readMeta : Op ι) s (.ok (t.json.metaText m)) s := ⟨rfl, .inr ⟨_, hfile, rfl⟩⟩
  have hmeta : Program.Runs (Timely t) s t.readMeta s (.ok m) := by
    refine Program.Runs.bind (op_runs hread fun _ => nofun) ?_
    simp only [hlawful.meta_text]
    exact .done
  refine Program.Runs.andThen (lift_runs (op_runs hisFile fun _ => nofun)) ?_
  exact ask_runs hmeta _

theorem writeMeta_runs (m : ThreadMeta) :
    Program.Runs (Timely t) s (t.writeMeta m) ((s.written []).written (t.json.metaText m)) (.ok ()) := by
  have hpath : Does (.checkPath : Op ι) s (.ok ()) s := rfl
  have htruncate : Does (.truncateMeta : Op ι) s (.ok ()) (s.written []) := .inl ⟨rfl, rfl⟩
  have hwrite : Does (.writeMeta (t.json.metaText m) : Op ι) (s.written []) (.ok ())
      ((s.written []).written (t.json.metaText m)) := .inl ⟨rfl, rfl⟩
  refine Program.Runs.andThen (op_runs hpath fun _ => nofun) ?_
  refine Program.Runs.andThen (op_runs htruncate fun _ => nofun) ?_
  exact op_runs hwrite fun _ => nofun

theorem claimClosed_runs {α : Type} {body : Io ι α} {r : Except String α} {v : Shared ι}
    (hfree : s.holder = none) (hopen : ¬ FileMerged t s) (hheld : Held me v)
    (hbody : Program.Runs (Timely t) { s with holder := some (.command me) } body.run v r) :
    Program.Runs (Timely t) s (t.claimClosed me body).run { v with holder := none } r := by
  have hclaim : Timely t (.claim me) s (.ok (.ok ())) { s with holder := some (.command me) } := by
    refine ⟨.inl ⟨hfree, rfl, rfl⟩, ?_⟩
    rintro - - - text hfile hmerged
    exact hopen ⟨text, hfile, hmerged⟩
  have hrelease : Does (.release me) v () { v with holder := none } := ⟨hheld, rfl⟩
  refine Program.Runs.bind (.op hclaim) ?_
  refine Program.Runs.bind hbody ?_
  exact Program.Runs.bind (op_runs hrelease fun _ => nofun) .done

theorem digestLoop_runs {prompt reply digest : String} (h : checkDigest t.name reply = .ok digest)
    (asked last : String) (left : ℕ) :
    Program.Runs (Timely t) s (t.digestLoop prompt (left + 1) asked last : Io ι String).run s (.ok digest) := by
  have hcurate : Does (.curate asked : Op ι) s (.ok reply) s := rfl
  refine Program.Runs.andThen (op_runs hcurate fun _ => nofun) ?_
  simp only [h]
  exact .done

theorem not_fileMerged (hlawful : t.json.Lawful) (hfile : s.file = some (t.json.metaText m))
    (hopen : m.merged = none) : ¬ FileMerged t s := by
  rintro ⟨text, htext, m', hmeta, hmerged⟩
  rw [hfile, Option.some.injEq] at htext
  rw [← htext, hlawful.meta_text, Except.ok.injEq] at hmeta
  rw [← hmeta, hopen] at hmerged
  cases hmerged

/-- A merge can stop after it has read the record, and go on from whatever the others left. -/
theorem mergeThread_steps (hlawful : t.json.Lawful) {reply digest : String}
    (hdigest : checkDigest t.name reply = .ok digest) (hfile : s.file = some (t.json.metaText m))
    (hopen : m.merged = none) (at_ : String) :
    ∃ rest, Program.Steps (Timely t) (s, (t.mergeThread me []).run) (s, rest) ∧
      ∀ u : Shared ι, u.holder = none → ¬ FileMerged t u → Program.Runs (Timely t) u rest
        ⟨some (t.json.metaText { m with merged := some ⟨at_, digest⟩, parked := none }), none,
          u.versions ++ [[]] ++ [t.json.metaText { m with merged := some ⟨at_, digest⟩, parked := none }],
          u.posted ++ [mergedReport t.name digest at_]⟩
        (.ok (chatMessage [mergedReport t.name digest at_])) := by
  refine ⟨_, Program.Runs.first (knownMeta_runs hlawful hfile), fun u hfree hunmerged => ?_⟩
  have hguard : Program.Runs (Timely t) u (t.guard .merge [] : Io ι Unit).run u (.ok ()) := by
    have hlive : Does (.live : Op ι) u (0 : ℕ) u := rfl
    exact Program.Runs.andThen (lift_runs (op_runs hlive fun _ => nofun)) (check_runs rfl)
  have hload : ∀ u : Shared ι, Does (.load : Op ι) u (.ok ([], Tree.empty)) u := fun _ => rfl
  have hnow : ∀ u : Shared ι, Does (.now : Op ι) u at_ u := fun _ => rfl
  have hpost : ∀ u : Shared ι, Does (.post (mergedReport t.name digest at_) : Op ι) u (.ok ())
      { u with posted := u.posted ++ [mergedReport t.name digest at_] } := fun _ => .inl ⟨rfl, rfl⟩
  have hreport : ∀ u : Shared ι, Program.Runs (Timely t) u (t.mergeReport m [] Tree.empty at_).run u
      (.ok (mergedReport t.name digest at_)) := fun _ =>
    Program.Runs.andThen (ask_runs (digestLoop_runs hdigest _ _ _) _) .done
  refine Program.Runs.andThen (check_runs (by rw [mergedCheck, hopen])) ?_
  refine Program.Runs.andThen hguard ?_
  refine claimClosed_runs (v := ⟨some (t.json.metaText { m with merged := some ⟨at_, digest⟩, parked := none }),
    some (.command me), u.versions ++ [[]] ++
      [t.json.metaText { m with merged := some ⟨at_, digest⟩, parked := none }],
    u.posted ++ [mergedReport t.name digest at_]⟩) hfree hunmerged rfl ?_
  refine Program.Runs.andThen (ask_runs (op_runs (hload _) fun _ => nofun) _) ?_
  refine Program.Runs.andThen (lift_runs (op_runs (hnow _) fun _ => nofun)) ?_
  refine Program.Runs.andThen (hreport _) ?_
  refine Program.Runs.andThen (ask_runs (writeMeta_runs _) _) ?_
  exact Program.Runs.andThen (ask_runs (op_runs (hpost _) fun _ => nofun) _) .done

/-- A pull can stop there too. Where the thread has been merged since, its claim is not timely. -/
theorem pullThread_steps (hlawful : t.json.Lawful) (hfile : s.file = some (t.json.metaText m))
    (hopen : m.merged = none) (stop : ℕ) (hstop : stop ≠ m.base) :
    ∃ rest, Program.Steps (Timely t) (s, (t.pullThread me).run) (s, rest) ∧
      ∀ u v : Shared ι, u.holder = none →
        v = ⟨some (t.json.metaText { m with base := stop }), none,
          u.versions ++ [[]] ++ [t.json.metaText { m with base := stop }], u.posted⟩ →
        Program.Runs Does u rest v (.ok (pullMessage t.name m.base stop)) ∧
          (¬ FileMerged t u →
            Program.Runs (Timely t) u rest v (.ok (pullMessage t.name m.base stop))) := by
  refine ⟨_, Program.Runs.first (knownMeta_runs hlawful hfile), ?_⟩
  rintro u v hfree rfl
  have hdoes : ∀ {α : Type} {x y : Shared ι × Program (Op ι) Op.Answer α}, Program.Steps (Timely t) x y →
      Program.Steps Does x y := fun h => h.mono fun _ _ _ _ h => h.1
  have hcheck : Program.Runs (Timely t) u (ThreadDir.check (mergedCheck t.name m) : Io ι Unit).run u (.ok ()) :=
    check_runs (by rw [mergedCheck, hopen])
  have hclaim : Does (.claim me) u (.ok (.ok ())) { u with holder := some (.command me) } := .inl ⟨hfree, rfl, rfl⟩
  have hmain : ∀ u : Shared ι, Does (.mainLen : Op ι) u (.ok stop) u := fun _ => rfl
  let held : Shared ι := ⟨some (t.json.metaText { m with base := stop }), some (.command me),
    u.versions ++ [[]] ++ [t.json.metaText { m with base := stop }], u.posted⟩
  have hrelease : Does (.release me) held () { held with holder := none } := ⟨rfl, rfl⟩
  have hbody : Program.Runs (Timely t) { u with holder := some (.command me) } (do
      let failed := fun e => s!"could not pull thread {t.name.name}: {e}"
      let stop ← ask (Program.op Op.mainLen) failed
      if stop ≠ m.base then
        ask (t.writeMeta { m with base := stop }) failed
      pure (pullMessage t.name m.base stop) : Io ι String).run held
      (.ok (pullMessage t.name m.base stop)) := by
    refine Program.Runs.andThen (ask_runs (op_runs (hmain _) fun _ => nofun) _) ?_
    rw [if_pos hstop]
    exact Program.Runs.andThen (ask_runs (writeMeta_runs _) _) .done
  constructor
  · refine Program.Runs.andThen (hdoes hcheck) ?_
    refine Program.Runs.bind (.op hclaim) ?_
    exact Program.Runs.bind (hdoes hbody) (Program.Runs.bind (.op hrelease) .done)
  · intro hunmerged
    exact Program.Runs.andThen hcheck (claimClosed_runs (v := held) hfree hunmerged rfl hbody)

end Runs

def demoThread : ThreadDir := ⟨compactJson, ⟨"auth", by decide +kernel⟩, ".ralph/threads/auth"⟩
def demoMeta : ThreadMeta := ⟨4, "2025-01-01T00:00:00Z", none, none⟩
def demoDigest : String := "Tokens are kept in memory, see #auth:0-1."
def demoTime : String := "2025-01-02T00:00:00Z"
def demoMerged : ThreadMeta := { demoMeta with merged := some ⟨demoTime, demoDigest⟩ }

/-- The state with these texts, and the merge report or none. -/
def demoState (texts : List Bytes) (posted : List Report) : Shared ι :=
  ⟨texts.getLast?, none, texts, posted⟩

theorem demo_merge (me : ι) : ∃ rest, Program.Steps (Timely demoThread)
      (Shared.start (some (metaBytes demoMeta)) false, (demoThread.mergeThread me []).run)
      (Shared.start (some (metaBytes demoMeta)) false, rest) ∧
    ∀ u : Shared ι, u.holder = none → ¬ FileMerged demoThread u →
      Program.Runs (Timely demoThread) u rest
        ⟨some (metaBytes demoMerged), none, u.versions ++ [[]] ++ [metaBytes demoMerged],
          u.posted ++ [mergedReport demoThread.name demoDigest demoTime]⟩
        (.ok (chatMessage [mergedReport demoThread.name demoDigest demoTime])) := by
  have hdigest : checkDigest demoThread.name demoDigest = .ok demoDigest := by decide +kernel
  exact mergeThread_steps compactJson_lawful hdigest rfl rfl demoTime

def demoPulled : ThreadMeta := { demoMeta with base := 9 }

theorem demo_pull (me : ι) : ∃ rest, Program.Steps (Timely demoThread)
      (Shared.start (some (metaBytes demoMeta)) false, (demoThread.pullThread me).run)
      (Shared.start (some (metaBytes demoMeta)) false, rest) ∧
    ∀ u v : Shared ι, u.holder = none →
      v = ⟨some (metaBytes demoPulled), none, u.versions ++ [[]] ++ [metaBytes demoPulled], u.posted⟩ →
      Program.Runs Does u rest v (.ok (pullMessage demoThread.name demoMeta.base 9)) ∧
        (¬ FileMerged demoThread u →
          Program.Runs (Timely demoThread) u rest v (.ok (pullMessage demoThread.name demoMeta.base 9))) :=
  pullThread_steps compactJson_lawful rfl rfl 9 (by decide)

/-- A pull and a merge read the record, then the pull writes its own, then the merge. -/
theorem demo_stays_merged : StaysMerged demoThread
    (demoState [metaBytes demoMeta, [], metaBytes demoPulled, [], metaBytes demoMerged]
      [mergedReport demoThread.name demoDigest demoTime] : Shared Bool) := by
  obtain ⟨pulling, hpull, hpulled⟩ := demo_pull false
  obtain ⟨merging, hmerge, hmerged⟩ := demo_merge true
  have hwritten := (hpulled (Shared.start (some (metaBytes demoMeta)) false)
    (demoState [metaBytes demoMeta, [], metaBytes demoPulled] []) rfl rfl).2
    (not_fileMerged compactJson_lawful rfl rfl)
  have hlast := hmerged (demoState [metaBytes demoMeta, [], metaBytes demoPulled] []) rfl
    (not_fileMerged (m := demoPulled) compactJson_lawful rfl rfl)
  have hpullSteps : Program.Steps (Timely demoThread) (Shared.start (some (metaBytes demoMeta)) false,
      commands demoThread false [.pull]) (Shared.start (some (metaBytes demoMeta)) false, _) :=
    Program.Steps.longer _ hpull
  have hmergeSteps : Program.Steps (Timely demoThread) (Shared.start (some (metaBytes demoMeta)) false,
      commands demoThread true [.merge []]) (Shared.start (some (metaBytes demoMeta)) false, _) :=
    Program.Steps.longer _ hmerge
  have hpullRest : Program.Steps (Timely demoThread) (Shared.start (some (metaBytes demoMeta)) false,
      pulling >>= fun r => commands demoThread false [] >>= fun rs => pure (r :: rs))
      (demoState [metaBytes demoMeta, [], metaBytes demoPulled] [], .done _) :=
    Program.Runs.bind hwritten .done
  have hmergeRest : Program.Steps (Timely demoThread) (demoState [metaBytes demoMeta, [], metaBytes demoPulled] [],
      merging >>= fun r => commands demoThread true [] >>= fun rs => pure (r :: rs))
      (demoState [metaBytes demoMeta, [], metaBytes demoPulled, [], metaBytes demoMerged]
        [mergedReport demoThread.name demoDigest demoTime], .done _) :=
    Program.Runs.bind hlast .done
  have hrun : Interleaving.Run (Program.Moves (Timely demoThread)) Chats
      ⟨Shared.start (some (metaBytes demoMeta)) false,
        fun b : Bool => commands demoThread b (if b then [.merge []] else [.pull])⟩ ⟨demoState _ _, _⟩ :=
    (((hpullSteps.run false rfl).trans (hmergeSteps.run true rfl)).trans
      (hpullRest.run false rfl)).trans (hmergeRest.run true rfl)
  exact merged_thread_stays_merged compactJson_lawful hrun

/-- A pull that read the record before the merge wrote its own, and got the claim after it. -/
theorem pull_unmerges : ¬ ∀ w, Interleaving.Run (Program.Moves Does) Chats
    ⟨Shared.start (some (metaBytes demoMeta)) false,
      fun b : Bool => commands demoThread b (if b then [.merge []] else [.pull])⟩ w →
    StaysMerged demoThread w.shared := by
  obtain ⟨rest, hfirst, hlate⟩ := demo_pull false
  obtain ⟨merging, hbegun, hended⟩ := demo_merge true
  have hdoes : ∀ {x y : Shared Bool × Program (Op Bool) Op.Answer (Except String String)},
      Program.Steps (Timely demoThread) x y → Program.Steps Does x y := fun h => h.mono fun _ _ _ _ h => h.1
  have hcheck : Program.Steps Does (Shared.start (some (metaBytes demoMeta)) false,
      commands demoThread false [.pull]) (Shared.start (some (metaBytes demoMeta)) false, _) :=
    Program.Steps.longer _ (hdoes hfirst)
  have hmerge : Program.Steps Does (Shared.start (some (metaBytes demoMeta)) false,
      commands demoThread true [.merge []])
      (demoState [metaBytes demoMeta, [], metaBytes demoMerged]
        [mergedReport demoThread.name demoDigest demoTime], .done _) :=
    Program.Runs.bind ((hdoes hbegun).trans (hdoes (hended (Shared.start (some (metaBytes demoMeta)) false) rfl
      (not_fileMerged (m := demoMeta) compactJson_lawful rfl rfl)))) .done
  have hpull : Program.Steps Does (demoState [metaBytes demoMeta, [], metaBytes demoMerged]
        [mergedReport demoThread.name demoDigest demoTime],
        rest >>= fun r => commands demoThread false [] >>= fun rs => pure (r :: rs))
      (demoState [metaBytes demoMeta, [], metaBytes demoMerged, [], metaBytes demoPulled]
        [mergedReport demoThread.name demoDigest demoTime], .done _) :=
    Program.Runs.bind (hlate (demoState [metaBytes demoMeta, [], metaBytes demoMerged]
      [mergedReport demoThread.name demoDigest demoTime]) _ rfl rfl).1 .done
  have hmerged : compactJson.IsMerged (metaBytes demoMerged) :=
    ⟨demoMerged, compactJson_lawful.meta_text demoMerged, rfl⟩
  have hpulled : ¬ compactJson.IsMerged (metaBytes demoPulled) := by
    rintro ⟨m, hparse, hm⟩
    rw [show compactJson.threadMeta (metaBytes demoPulled) = .ok demoPulled from
      compactJson_lawful.meta_text demoPulled, Except.ok.injEq] at hparse
    rw [← hparse] at hm
    cases hm
  intro h
  obtain ⟨hpair, -⟩ := h _ (((hcheck.run false rfl).trans (hmerge.run true rfl)).trans (hpull.run false rfl))
  rw [show (demoState [metaBytes demoMeta, [], metaBytes demoMerged, [], metaBytes demoPulled]
    [mergedReport demoThread.name demoDigest demoTime] : Shared Bool).versions =
      [metaBytes demoMeta, [], metaBytes demoMerged, [], metaBytes demoPulled] from rfl] at hpair
  simp only [List.pairwise_cons, List.mem_cons] at hpair
  exact hpulled (hpair.2.2.1 _ (by simp) hmerged)

end Ralph.Thread
