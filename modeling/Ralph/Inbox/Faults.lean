import Ralph.Inbox.Disk

namespace Ralph

namespace Inbox
open Worker

/-- One file operation that returns an error, and how much of its bytes it wrote before. -/
structure Fault where
  op : Op
  message : String
  written : ℕ

/-- The answer of an operation that works. -/
def Disk.succeed (now : String) (d : Disk) : (o : Op) → o.Answer × Disk
  | .readLedger => (match d.ledger with
    | some bytes => .ok bytes
    | none => .error .notFound, d)
  | .readDir => (.ok d.folder.keys, d)
  | .readMessage name => (match d.folder.lookup name with
    | some bytes => .ok bytes
    | none => .error .notFound, d)
  | .now => (now, d)
  | .appendDropLog line => (.ok (), { d with dropLog := d.dropLog ++ line })
  | .writeTemp bytes => (.ok (), { d with temp := some bytes })
  | .renameTemp => match d.temp with
    | some bytes => (.ok (), { d with ledger := some bytes, temp := none })
    | none => (.error .notFound, d)
  | .removeMessage name =>
    (if name ∈ d.folder then .ok () else .error .notFound, { d with folder := d.folder.erase name })
  | .warn _ => ((), d)

/-- The answer of an operation that fails: a write may stop in the middle. -/
def Disk.fail (now : String) (f : Fault) (d : Disk) : (o : Op) → o.Answer × Disk
  | .readLedger => (.error (.other f.message), d)
  | .readDir => (.error (.other f.message), d)
  | .readMessage _ => (.error (.other f.message), d)
  | .now => (now, d)
  | .appendDropLog line =>
    (.error (.other f.message), { d with dropLog := d.dropLog ++ line.take f.written })
  | .writeTemp bytes => (.error (.other f.message), { d with temp := some (bytes.take f.written) })
  | .renameTemp => (.error (.other f.message), d)
  | .removeMessage _ => (.error (.other f.message), d)
  | .warn _ => ((), d)

def Fault.hits (fault : Option Fault) (o : Op) : Prop := ∃ f, fault = some f ∧ f.op = o

def perform (now : String) (fault : Option Fault) (o : Op) (d : Disk) : o.Answer × Disk :=
  match fault with
  | some f => if f.op = o then d.fail now f o else d.succeed now o
  | none => d.succeed now o

variable (inbox : Inbox) (now : String) (fault : Option Fault)

/-- The ledger is JSON, or there is none. -/
def Readable (d : Disk) : Prop :=
  ∀ bytes, d.ledger = some bytes → ∃ stored, inbox.json.ledger bytes = .ok stored

/-- What a `drain` of all reports hands over when nothing goes wrong. -/
def drained (d : Disk) : List Report :=
  match (Program.eval (perform now none) (inbox.drain .all).run d).1 with
  | .ok reports => reports
  | .error _ => []

/-- The ledger as a call sees it: the entries of the file and behind them the arrivals. -/
def queue (d : Disk) : Ledger :=
  ⟨(inbox.ledgerOf d).entries ++ inbox.news (inbox.ledgerOf d) d.sortedMessages⟩

variable {inbox now fault} {d : Disk}

theorem coe_queue : ((inbox.queue d).entries : Multiset Entry) = inbox.unread d := by
  rw [queue, ← Multiset.coe_add, unread, news, ← Multiset.filter_coe, ← Multiset.filterMap_coe,
    d.coe_sortedMessages]
  rfl

theorem perform_of_not_hits {o : Op} (h : ¬ Fault.hits fault o) :
    perform now fault o d = d.succeed now o := by
  cases fault with
  | none => rfl
  | some f => exact if_neg fun heq => h ⟨f, rfl, heq⟩

variable (now d) in
theorem perform_of_hits {o : Op} (h : Fault.hits fault o) :
    ∃ f, fault = some f ∧ perform now fault o d = d.fail now f o := by
  obtain ⟨f, rfl, rfl⟩ := h
  exact ⟨f, rfl, if_pos rfl⟩

variable (inbox now fault d) in
theorem loadLedger_eval :
    ∃ r, Program.eval (perform now fault) inbox.loadLedger.run d = (r, d) ∧
      (r = .ok (inbox.ledgerOf d) ∧ inbox.Readable d ∨
        ∃ e, r = .error e ∧ (Fault.hits fault .readLedger ∨ ¬ inbox.Readable d)) := by
  rw [loadLedger, ExceptT.run_mk, Program.eval_bind, Program.eval_op]
  by_cases hf : Fault.hits fault .readLedger
  · obtain ⟨f, -, hp⟩ := perform_of_hits now d hf
    rw [hp]
    exact ⟨_, rfl, .inr ⟨_, rfl, .inl hf⟩⟩
  · rw [perform_of_not_hits hf]
    cases hledger : d.ledger with
    | none =>
      refine ⟨.ok ⟨[]⟩, by simp [Disk.succeed, hledger], .inl ⟨by simp [ledgerOf, hledger], ?_⟩⟩
      simp [Readable, hledger]
    | some bytes =>
      cases hread : inbox.json.ledger bytes with
      | ok stored =>
        refine ⟨.ok (.ofStored stored), by simp [Disk.succeed, hledger, hread],
          .inl ⟨by simp [ledgerOf, hledger, hread], ?_⟩⟩
        simp [Readable, hledger, hread]
      | error e =>
        refine ⟨.error (.other e), by simp [Disk.succeed, hledger, hread], .inr ⟨_, rfl, .inr ?_⟩⟩
        simp [Readable, hledger, hread]

variable (now fault d) in
theorem pending_eval :
    ∃ r, Program.eval (perform now fault) pending.run d = (r, d) ∧
      (r = .ok (d.sortedMessages.map Prod.fst) ∨ ∃ e, r = .error e ∧ Fault.hits fault .readDir) := by
  rw [pending, ExceptT.run_mk, Program.eval_bind, Program.eval_op]
  by_cases hf : Fault.hits fault .readDir
  · obtain ⟨f, -, hp⟩ := perform_of_hits now d hf
    rw [hp]
    exact ⟨_, rfl, .inr ⟨_, rfl, hf⟩⟩
  · rw [perform_of_not_hits hf]
    refine ⟨_, rfl, .inl ?_⟩
    exact congrArg Except.ok (Disk.sort_names (List.Perm.refl _))

variable (inbox now fault d) in
theorem readMessages_eval (ms : List File) (hms : ∀ m ∈ ms, m ∈ d.messages) :
    ∃ r, Program.eval (perform now fault) (inbox.readMessages (ms.map Prod.fst)).run d = (r, d) ∧
      (r = .ok (inbox.wellFormed ms) ∨ ∃ e name, r = .error e ∧ Fault.hits fault (.readMessage name)) := by
  induction ms with
  | nil => exact ⟨_, rfl, .inl rfl⟩
  | cons m ms ih =>
    rw [List.forall_mem_cons] at hms
    rw [List.map_cons, readMessages, Program.eval_andThen, ExceptT.run_mk, Program.eval_op]
    by_cases hf : Fault.hits fault (.readMessage m.1)
    · obtain ⟨f, -, hp⟩ := perform_of_hits now d hf
      rw [hp]
      exact ⟨_, rfl, .inr ⟨_, m.1, rfl, hf⟩⟩
    · rw [perform_of_not_hits hf, wellFormed_cons]
      obtain ⟨r, heval, hr⟩ := ih hms.2
      simp only [Disk.succeed, (Disk.mem_messages.mp hms.1).1]
      cases hread : inbox.json.report m.2 with
      | ok report =>
        simp only [Program.eval_andThen, heval]
        rcases hr with rfl | ⟨e, name, rfl, hhits⟩
        · exact ⟨_, rfl, .inl rfl⟩
        · exact ⟨_, rfl, .inr ⟨e, name, rfl, hhits⟩⟩
      | error e =>
        have hwarn : ∀ text, perform now fault (.warn text) d = ((), d) := by
          intro text
          cases fault with
          | none => rfl
          | some f => rw [perform]; split <;> rfl
        simp only [Program.eval_andThen, Program.eval_lift, Program.eval_op, hwarn, heval]
        exact ⟨r, rfl, hr⟩

variable (inbox now fault d) in
theorem saveLedger_eval (l : Ledger) :
    ∃ r d', Program.eval (perform now fault) (inbox.saveLedger l).run d = (r, d') ∧
      d'.folder = d.folder ∧ (r = .ok () ∧ d'.ledger = some (inbox.json.ledgerText l) ∨
        ∃ e, r = .error e ∧ d'.ledger = d.ledger ∧
          (Fault.hits fault (.writeTemp (inbox.json.ledgerText l)) ∨ Fault.hits fault .renameTemp)) := by
  rw [saveLedger, Program.eval_andThen, ExceptT.run_mk, Program.eval_op]
  by_cases hwrite : Fault.hits fault (.writeTemp (inbox.json.ledgerText l))
  · obtain ⟨f, -, hp⟩ := perform_of_hits now d hwrite
    rw [hp]
    exact ⟨_, _, rfl, rfl, .inr ⟨_, rfl, rfl, .inl hwrite⟩⟩
  · rw [perform_of_not_hits hwrite]
    simp only [Disk.succeed, ExceptT.run_mk, Program.eval_op]
    by_cases hrename : Fault.hits fault .renameTemp
    · obtain ⟨f, -, hp⟩ := perform_of_hits now
        { d with temp := some (inbox.json.ledgerText l) } hrename
      rw [hp]
      exact ⟨_, _, rfl, rfl, .inr ⟨_, rfl, rfl, .inr hrename⟩⟩
    · rw [perform_of_not_hits hrename]
      exact ⟨_, _, rfl, rfl, .inl ⟨rfl, rfl⟩⟩

variable (now fault d) in
theorem removeIfPresent_eval (name : String) :
    ∃ r d', Program.eval (perform now fault) (removeIfPresent name).run d = (r, d') ∧
      d'.ledger = d.ledger ∧
      (r = .ok () ∧ ¬ Fault.hits fault (.removeMessage name) ∧
          (d'.messages = d.messages.filter fun m => m.1 ≠ name) ∨
        ∃ e, r = .error e ∧ Fault.hits fault (.removeMessage name) ∧ d'.messages = d.messages) := by
  rw [removeIfPresent, ExceptT.run_mk, Program.eval_bind, Program.eval_op]
  by_cases hf : Fault.hits fault (.removeMessage name)
  · obtain ⟨f, -, hp⟩ := perform_of_hits now d hf
    rw [hp]
    exact ⟨_, d, rfl, rfl, .inr ⟨_, rfl, hf, rfl⟩⟩
  · rw [perform_of_not_hits hf]
    have herase := Disk.messages_erase (d := d) (e := { d with folder := d.folder.erase name }) rfl
    refine ⟨.ok (), { d with folder := d.folder.erase name }, ?_, rfl, .inl ⟨rfl, hf, herase⟩⟩
    by_cases hname : name ∈ d.folder
    · simp [Disk.succeed, hname]
    · simp [Disk.succeed, hname]

variable (now fault d) in
/-- The removals go through the files in order: those before the fault are gone. -/
theorem removeMessages_eval (names : List String) :
    ∃ r d', Program.eval (perform now fault) (removeMessages names).run d = (r, d') ∧
      d'.ledger = d.ledger ∧
      (r = .ok () ∧ (∀ name ∈ names, ¬ Fault.hits fault (.removeMessage name)) ∧
          (d'.messages = d.messages.filter fun m => m.1 ∉ names) ∨
        ∃ e before name after, r = .error e ∧ names = before ++ name :: after ∧
          Fault.hits fault (.removeMessage name) ∧
          d'.messages = d.messages.filter fun m => m.1 ∉ before) := by
  induction names generalizing d with
  | nil => exact ⟨_, _, rfl, rfl, .inl ⟨rfl, nofun, by simp⟩⟩
  | cons name names ih =>
    rw [removeMessages, Program.eval_andThen]
    obtain ⟨r, d₁, heval, hledger, hr⟩ := removeIfPresent_eval now fault d name
    rw [heval]
    rcases hr with ⟨rfl, hf, hmessages⟩ | ⟨e, rfl, hf, hmessages⟩
    · have hboth : ∀ (before : List String) (m : File),
          m.1 ∉ before ∧ m.1 ≠ name ↔ m.1 ∉ name :: before := by
        intro before m
        rw [List.mem_cons, not_or, and_comm]
      obtain ⟨r, d', heval', hledger', hr⟩ := ih d₁
      refine ⟨r, d', heval', hledger'.trans hledger, ?_⟩
      rcases hr with ⟨rfl, hclean, hmessages'⟩ | ⟨e, before, name', after, rfl, rfl, hhits, hmessages'⟩
      · refine .inl ⟨rfl, List.forall_mem_cons.mpr ⟨hf, hclean⟩, ?_⟩
        rw [hmessages', hmessages, Multiset.filter_filter]
        simp only [hboth]
      · refine .inr ⟨e, name :: before, name', after, rfl, rfl, hhits, ?_⟩
        rw [hmessages', hmessages, Multiset.filter_filter]
        simp only [hboth]
    · exact ⟨_, d₁, rfl, hledger, .inr ⟨e, [], name, names, rfl, rfl, hf, by simpa using hmessages⟩⟩

theorem ingest_eq_queue :
    (inbox.ledgerOf d).ingest (inbox.wellFormed d.sortedMessages) = inbox.queue d :=
  congrArg Ledger.mk (inbox.ingest_wellFormed _ d.sorted_sortedMessages)

/-- How a `sync` ends that wants to answer `value` and to leave `left`. -/
inductive Ends (inbox : Inbox) (fault : Option Fault) (d : Disk) {T : Type} (value : T)
    (left : Ledger) : Except Failure T → Disk → Prop
  | unsaved {e : Failure} {d' : Disk} (ledger : d'.ledger = d.ledger) (folder : d'.folder = d.folder)
      (why : inbox.Readable d → ∃ o, Fault.hits fault o ∧ ∀ name, o ≠ .removeMessage name) :
      Ends inbox fault d value left (.error e) d'
  | stopped {e : Failure} {d' : Disk} (name : String) (hits : Fault.hits fault (.removeMessage name))
      (readable : inbox.Readable d ∧ inbox.Readable d') (ledger : inbox.ledgerOf d' = left)
      (messages : d'.messages = d.messages.filter fun m => name ≤ m.1) :
      Ends inbox fault d value left (.error e) d'
  | done {d' : Disk} (readable : inbox.Readable d ∧ inbox.Readable d') (ledger : inbox.ledgerOf d' = left)
      (messages : d'.messages = 0)
      (clean : ∀ m ∈ d.messages, ¬ Fault.hits fault (.removeMessage m.1)) : Ends inbox fault d value left (.ok value) d'

theorem finish_ends {T : Type} {value : T} {left : Ledger} {d₂ : Disk}
    (hreadable : inbox.Readable d ∧ inbox.Readable d₂) (hledger : inbox.ledgerOf d₂ = left)
    (hfolder : d₂.folder = d.folder) :
    ∃ r d', Program.eval (perform now fault)
        (do removeMessages (d.sortedMessages.map Prod.fst); pure value : Io T).run d₂ = (r, d') ∧
      Ends inbox fault d value left r d' := by
  have hmessages : d₂.messages = d.messages := by rw [Disk.messages, hfolder, ← Disk.messages]
  obtain ⟨r, d', heval, hsame, hr⟩ := removeMessages_eval now fault d₂
    (d.sortedMessages.map Prod.fst)
  have hreadable' : inbox.Readable d' := by
    rw [Readable, hsame]
    exact hreadable.2
  have hledger' : inbox.ledgerOf d' = left := by rw [ledgerOf, hsame, ← ledgerOf, hledger]
  have hnames : ∀ m ∈ d.messages, m.1 ∈ d.sortedMessages.map Prod.fst := by
    intro m hm
    rw [← d.coe_sortedMessages] at hm
    exact List.mem_map_of_mem hm
  rw [Program.eval_andThen, heval]
  rw [hmessages] at hr
  rcases hr with ⟨rfl, hclean, hgone⟩ | ⟨e, before, name, after, rfl, hsplit, hhits, hgone⟩
  · refine ⟨_, _, rfl, .done ⟨hreadable.1, hreadable'⟩ hledger' ?_ fun m hm => hclean m.1 (hnames m hm)⟩
    rw [hgone, Multiset.filter_eq_nil]
    exact fun m hm => not_not_intro (hnames m hm)
  · refine ⟨_, _, rfl, .stopped name hhits ⟨hreadable.1, hreadable'⟩ hledger' ?_⟩
    rw [hgone]
    have hsorted := d.sorted_sortedMessages
    rw [hsplit, List.pairwise_append, List.pairwise_cons] at hsorted
    apply Multiset.filter_congr
    intro m hm
    have hmem := hnames m hm
    rw [hsplit, List.mem_append, List.mem_cons] at hmem
    constructor
    · intro hbefore
      rcases hmem with hmem | heq | hmem
      · exact absurd hmem hbefore
      · exact le_of_eq heq.symm
      · exact le_of_lt (hsorted.2.1.1 m.1 hmem)
    · intro hle hbefore
      exact absurd (hsorted.2.2 m.1 hbefore name List.mem_cons_self) (not_lt_of_ge hle)

theorem sync_ends {T : Type} {act : Ledger → Program Op Op.Answer (T × Bool × Ledger)} {value : T}
    {changed : Bool} {left : Ledger} {d₁ : Disk} (hlawful : inbox.json.Lawful)
    (hact : Program.eval (perform now fault) (act (inbox.queue d)) d = ((value, changed, left), d₁))
    (hledger : d₁.ledger = d.ledger) (hfolder : d₁.folder = d.folder)
    (hchanged : changed = false → left = inbox.queue d) :
    ∃ r d', Program.eval (perform now fault) (inbox.sync act).run d = (r, d') ∧
      Ends inbox fault d value left r d' := by
  rw [sync, Program.eval_andThen]
  obtain ⟨r, heval, hr⟩ := loadLedger_eval inbox now fault d
  rw [heval]
  rcases hr with ⟨rfl, hreadable⟩ | ⟨e, rfl, hwhy⟩
  swap
  · exact ⟨_, _, rfl, .unsaved rfl rfl fun h => ⟨_, hwhy.resolve_right (not_not_intro h), nofun⟩⟩
  simp only [Program.eval_andThen]
  obtain ⟨r, heval, hr⟩ := pending_eval now fault d
  rw [heval]
  rcases hr with rfl | ⟨e, rfl, hhits⟩
  swap
  · exact ⟨_, _, rfl, .unsaved rfl rfl fun _ => ⟨_, hhits, nofun⟩⟩
  obtain ⟨r, heval, hr⟩ := readMessages_eval inbox now fault d d.sortedMessages
    fun m hm => d.coe_sortedMessages ▸ hm
  simp only [heval]
  rcases hr with rfl | ⟨e, name, rfl, hhits⟩
  swap
  · exact ⟨_, _, rfl, .unsaved rfl rfl fun _ => ⟨_, hhits, nofun⟩⟩
  simp only [Program.eval_lift, ingest_eq_queue, hact]
  -- the ledger is saved when it changed or took a message in
  by_cases hsave : (!(d.sortedMessages.map Prod.fst).isEmpty || changed) = true
  · rw [if_pos hsave, Program.eval_andThen]
    obtain ⟨r, d₂, heval, hfolder₂, hr⟩ :=
      saveLedger_eval inbox now fault d₁ left
    rw [heval]
    rcases hr with ⟨rfl, hsaved⟩ | ⟨e, rfl, hsame, hhits⟩
    · apply finish_ends ⟨hreadable, ?_⟩ ?_ (hfolder₂.trans hfolder)
      · intro bytes hbytes
        rw [hsaved] at hbytes
        cases hbytes
        exact ⟨_, hlawful.ledger_text left⟩
      · rw [ledgerOf, hsaved]
        simp only [hlawful.ledger_text, Ledger.ofStored_stored]
    · refine ⟨_, _, rfl, .unsaved (hsame.trans hledger) (hfolder₂.trans hfolder) fun _ => ?_⟩
      rcases hhits with hhits | hhits
      · exact ⟨_, hhits, nofun⟩
      · exact ⟨_, hhits, nofun⟩
  · rw [if_neg hsave]
    have hnone : d.sortedMessages = [] ∧ changed = false := by simpa using hsave
    apply finish_ends ⟨hreadable, ?_⟩ ?_ hfolder
    · rw [Readable, hledger]
      exact hreadable
    · rw [ledgerOf, hledger, ← ledgerOf, hchanged hnone.2, queue, hnone.1]
      exact congrArg Ledger.mk (List.append_nil _).symm

theorem Fault.hits_unique {o o' : Op} (h : Fault.hits fault o) (h' : Fault.hits fault o') : o = o' := by
  obtain ⟨f, rfl, rfl⟩ := h
  obtain ⟨f', hf, rfl⟩ := h'
  cases hf
  rfl

theorem unfaulted (o : Op) : ¬ Fault.hits none o := by
  rintro ⟨f, h, -⟩
  cases h

variable (inbox now fault d) in
theorem drain_ends (hlawful : inbox.json.Lawful) (selection : Selection) :
    ∃ r d', Program.eval (perform now fault) (inbox.drain selection).run d = (r, d') ∧
      Ends inbox fault d ((selection.taken (inbox.queue d)).map Entry.report)
        (selection.left (inbox.queue d)) r d' := by
  let reports := (selection.taken (inbox.queue d)).map Entry.report
  have hact : Program.eval (perform now fault)
      ((fun ledger : Ledger =>
        let taken := ledger.take selection
        (pure (taken.1, !taken.1.isEmpty, taken.2) : Program Op Op.Answer _)) (inbox.queue d)) d =
      ((reports, !reports.isEmpty, selection.left (inbox.queue d)), d) := by
    simp only [selection.take_eq]
    rfl
  apply sync_ends hlawful hact rfl rfl
  intro hnone
  apply selection.left_of_nothing_taken
  rw [selection.take_eq]
  have hempty : reports.isEmpty = true := by simpa using hnone
  exact hempty

variable (now fault d) in
theorem dropReport_ends (hlawful : inbox.json.Lawful) (position : Position) :
    ∃ r d', Program.eval (perform now fault) (inbox.sync (dropFrom position)).run d = (r, d') ∧
      (Ends inbox fault d (.ok ((inbox.queue d).get position) : Except Failure (Option Entry))
          ((inbox.queue d).remove position).2 r d' ∨
        ∃ e line, Fault.hits fault (.appendDropLog line) ∧
          Ends inbox fault d (.error e : Except Failure (Option Entry)) (inbox.queue d) r d') := by
  cases hget : (inbox.queue d).get position with
  | none =>
    have hact : Program.eval (perform now fault) (dropFrom position (inbox.queue d)) d =
        ((.ok none, false, inbox.queue d), d) := by
      simp only [dropFrom, hget]
      rfl
    obtain ⟨r, d', heval, hends⟩ := sync_ends hlawful hact rfl rfl fun _ => rfl
    refine ⟨r, d', heval, .inl ?_⟩
    rw [(inbox.queue d).remove_of_get_eq_none hget]
    exact hends
  | some entry =>
    let line := dropLogLine entry now ++ [0x0A]
    have hnow : (perform now fault .now d).1 = now ∧ (perform now fault .now d).2 = d := by
      cases fault with
      | none => exact ⟨rfl, rfl⟩
      | some f => rw [perform]; split <;> exact ⟨rfl, rfl⟩
    -- the log comes first: without its line the report stays
    by_cases hf : Fault.hits fault (.appendDropLog line)
    · obtain ⟨f, -, hp⟩ := perform_of_hits now d hf
      have hact : Program.eval (perform now fault) (dropFrom position (inbox.queue d)) d =
          ((.error (.other f.message), false, inbox.queue d),
            { d with dropLog := d.dropLog ++ line.take f.written }) := by
        simp only [dropFrom, hget, Program.eval_bind, Program.eval_op, appendLine]
        rw [hnow.1, hnow.2, hp]
        rfl
      obtain ⟨r, d', heval, hends⟩ := sync_ends hlawful hact rfl rfl fun _ => rfl
      exact ⟨r, d', heval, .inr ⟨_, line, hf, hends⟩⟩
    · have hact : Program.eval (perform now fault) (dropFrom position (inbox.queue d)) d =
          ((.ok (some entry), true, ((inbox.queue d).remove position).2),
            { d with dropLog := d.dropLog ++ line }) := by
        simp only [dropFrom, hget, Program.eval_bind, Program.eval_op, appendLine]
        rw [hnow.1, hnow.2, perform_of_not_hits hf]
        rfl
      obtain ⟨r, d', heval, hends⟩ := sync_ends hlawful hact rfl rfl nofun
      exact ⟨r, d', heval, .inl hends⟩

theorem drained_of_readable (hlawful : inbox.json.Lawful) (h : inbox.Readable d) :
    (inbox.drained now d : Multiset Report) = (inbox.unread d).map Entry.report := by
  obtain ⟨r, d', heval, hends⟩ := drain_ends inbox now none d hlawful .all
  rw [drained, heval]
  cases hends with
  | unsaved ledger folder why =>
    obtain ⟨o, hhits, -⟩ := why h
    exact absurd hhits (unfaulted o)
  | stopped name hits => exact absurd hits (unfaulted _)
  | done =>
    rw [← coe_queue, Multiset.map_coe]
    rfl

theorem drained_of_not_readable (h : ¬ inbox.Readable d) (hlawful : inbox.json.Lawful) :
    inbox.drained now d = [] := by
  obtain ⟨r, d', heval, hends⟩ := drain_ends inbox now none d hlawful .all
  rw [drained, heval]
  cases hends with
  | unsaved => rfl
  | stopped => rfl
  | done readable => exact absurd readable.1 h

/-- What a failed call has left behind. -/
inductive Failed (inbox : Inbox) (fault : Option Fault) (d : Disk) (left : Ledger) : Disk → Prop
  | unsaved {d' : Disk} (ledger : d'.ledger = d.ledger) (folder : d'.folder = d.folder)
      (why : inbox.Readable d → ∃ o, Fault.hits fault o ∧ ∀ name, o ≠ .removeMessage name) :
      Failed inbox fault d left d'
  | stopped {d' : Disk} (name : String) (hits : Fault.hits fault (.removeMessage name))
      (readable : inbox.Readable d ∧ inbox.Readable d') (ledger : inbox.ledgerOf d' = left)
      (messages : d'.messages = d.messages.filter fun m => name ≤ m.1) : Failed inbox fault d left d'
  | unlogged {d' : Disk} (line : Bytes) (hits : Fault.hits fault (.appendDropLog line))
      (readable : inbox.Readable d ∧ inbox.Readable d') (ledger : inbox.ledgerOf d' = inbox.queue d)
      (messages : d'.messages = 0) : Failed inbox fault d left d'

theorem Ends.failed {T : Type} {value : T} {left : Ledger} {e : Failure} {d' : Disk}
    (h : Ends inbox fault d value left (.error e) d') : Failed inbox fault d left d' := by
  cases h with
  | unsaved ledger folder why => exact .unsaved ledger folder why
  | stopped name hits readable ledger messages => exact .stopped name hits readable ledger messages

variable (now fault d) in
theorem peek_ends {T : Type} (hlawful : inbox.json.Lawful) (value : Ledger → T) :
    ∃ r d', Program.eval (perform now fault)
        (inbox.sync fun ledger => pure (value ledger, false, ledger)).run d = (r, d') ∧
      Ends inbox fault d (value (inbox.queue d)) (inbox.queue d) r d' :=
  sync_ends hlawful rfl rfl rfl fun _ => rfl

theorem Call.failed (hlawful : inbox.json.Lawful) (call : Call) {e : Failure} {d' : Disk}
    (h : Program.eval (perform now fault) (call.run inbox).run d = (.error e, d')) :
    Failed inbox fault d (call.left (inbox.queue d)) d' := by
  have hinner : ∀ {T : Type} {f : T → Value} {p : Io T} {r : Except Failure T} {d₁ : Disk},
      Program.eval (perform now fault) p.run d = (r, d₁) →
      Program.eval (perform now fault) (f <$> p).run d = (.error e, d') → r = .error e ∧ d₁ = d' := by
    intro T f p r d₁ heval hmap
    rw [Program.eval_map_ok, heval] at hmap
    cases r with
    | ok v => cases hmap
    | error e' =>
      cases hmap
      exact ⟨rfl, rfl⟩
  cases call with
  | peek =>
    obtain ⟨r, d₁, heval, hends⟩ := peek_ends now fault d hlawful Ledger.reports
    obtain ⟨rfl, rfl⟩ := hinner heval h
    exact hends.failed
  | drain selection =>
    obtain ⟨r, d₁, heval, hends⟩ := drain_ends inbox now fault d hlawful selection
    obtain ⟨rfl, rfl⟩ := hinner heval h
    exact hends.failed
  | dropReport position =>
    obtain ⟨r, d₁, heval, hends⟩ := dropReport_ends now fault d hlawful position
    have houter : Program.eval (perform now fault) (inbox.dropReport position).run d =
        (r.bind id, d₁) := by
      rw [Inbox.dropReport, Program.eval_andThen, heval]
      cases r <;> rfl
    obtain ⟨hr, rfl⟩ := hinner houter h
    -- the log of dropped reports can fail too, with the rest of the call done
    rcases hends with hends | ⟨e', line, hhits, hends⟩
    · cases hends with
      | unsaved ledger folder why => exact .unsaved ledger folder why
      | stopped name hits readable ledger messages => exact .stopped name hits readable ledger messages
      | done => cases hr
    · cases hends with
      | unsaved ledger folder why => exact .unsaved ledger folder why
      | stopped name hits => cases Fault.hits_unique hits hhits
      | done readable ledger messages => exact .unlogged line hhits readable ledger messages
  | ledger =>
    obtain ⟨r, d₁, heval, hends⟩ := peek_ends now fault d hlawful id
    obtain ⟨rfl, rfl⟩ := hinner heval h
    exact hends.failed

variable (inbox) in
/-- The reports of the files from `name` on that a ledger does not know. -/
def filed (d : Disk) (name : String) (l : Ledger) : Multiset Entry :=
  ((d.messages.filter fun m => name ≤ m.1).filterMap inbox.arrival).filter fun e => e.source ∉ l.sources

variable (inbox) in
/-- The removal of a message file fails after the ledger was saved without the taken reports, and
not each of them has a file among those that are still there. -/
def Loses (call : Call) (f : Fault) (d : Disk) : Prop :=
  inbox.Readable d ∧ ∃ name, f.op = .removeMessage name ∧
    ¬ ((call.taken (inbox.queue d)).map Entry.report : Multiset Report) ≤
      (inbox.filed d name (call.left (inbox.queue d))).map Entry.report

/-- What was unread before a failed call can still be drained, unless the removal that failed had
a taken report behind it. -/
theorem failed_call_keeps_reports_iff (hlawful : inbox.json.Lawful) {call : Call} {f : Fault}
    {e : Failure} {d' : Disk}
    (h : Program.eval (perform now (some f)) (call.run inbox).run d = (.error e, d')) :
    (inbox.drained now d : Multiset Report) ≤ inbox.drained now d' ↔ ¬ inbox.Loses call f d := by
  have hop : ∀ {o : Op}, Fault.hits (some f) o → f.op = o := by
    rintro o ⟨f', hf, ho⟩
    cases hf
    exact ho
  have hloses : ∀ {o : Op}, Fault.hits (some f) o → (∀ name, o ≠ .removeMessage name) →
      ¬ inbox.Loses call f d := by
    rintro o hhits hne ⟨-, name, hname, -⟩
    exact hne name ((hop hhits).symm.trans hname)
  have hqueue : ((call.taken (inbox.queue d)).map Entry.report : Multiset Report) +
      (call.left (inbox.queue d)).entries.map Entry.report = (inbox.unread d).map Entry.report := by
    rw [← coe_queue, Multiset.map_coe, Multiset.coe_add, ← List.map_append, Multiset.coe_eq_coe]
    exact (call.taken_append_left_perm _).map _
  cases call.failed hlawful h with
  | unsaved ledger folder why =>
    have hmessages : d'.messages = d.messages := by rw [Disk.messages, folder, ← Disk.messages]
    by_cases hreadable : inbox.Readable d
    · obtain ⟨o, hhits, hne⟩ := why hreadable
      have hreadable' : inbox.Readable d' := by rwa [Readable, ledger]
      apply iff_of_true _ (hloses hhits hne)
      rw [drained_of_readable hlawful hreadable, drained_of_readable hlawful hreadable', unread, unread,
        waiting, waiting, ledgerOf, ledgerOf, ledger, hmessages]
    · apply iff_of_true
      · rw [drained_of_not_readable hreadable hlawful]
        exact Multiset.zero_le _
      · exact fun hloses => hreadable hloses.1
  | stopped name hits readable ledger messages =>
    have hwaiting : inbox.waiting d' = inbox.filed d name (call.left (inbox.queue d)) := by
      rw [waiting, messages, ledger]
      rfl
    rw [drained_of_readable hlawful readable.1, drained_of_readable hlawful readable.2, ← hqueue, unread,
      hwaiting, ledger, Multiset.map_add, Multiset.map_coe, add_comm, Multiset.add_le_add_iff_left]
    constructor
    · rintro hle ⟨-, name', hname', hnot⟩
      cases (hop hits).symm.trans hname'
      exact hnot hle
    · intro hkeeps
      by_contra hnot
      exact hkeeps ⟨readable.1, name, hop hits, hnot⟩
  | unlogged line hits readable ledger messages =>
    have hline : ∀ name, Op.appendDropLog line ≠ .removeMessage name := by
      rintro name ⟨⟩
    apply iff_of_true _ (hloses hits hline)
    have hwaiting : inbox.waiting d' = 0 := by
      rw [waiting, messages]
      rfl
    have hunread : inbox.unread d' = inbox.unread d := by
      rw [unread, hwaiting, ledger, coe_queue, add_zero]
    rw [drained_of_readable hlawful readable.1, drained_of_readable hlawful readable.2, hunread]

/-- For a drain of one report in the ledger and one in the folder, whose file cannot be removed. -/
def lossInbox : Inbox := ⟨".ralph/inbox", compactJson⟩

def oldReport : Report := ⟨"GUZ-1", "2026-01-10T00:00:00Z", "done", "first"⟩

def newReport : Report := ⟨"GUZ-2", "2026-01-10T00:00:01Z", "done", "second"⟩

def lossName : String := inboxFileName newReport 1

def lossDisk : Disk :=
  ⟨some (ledgerBytes ⟨[⟨inboxFileName oldReport 0, oldReport⟩]⟩), none,
    AList.singleton lossName (reportBytes newReport), []⟩

def lossFault : Fault := ⟨.removeMessage lossName, "Permission denied (os error 13)", 0⟩

theorem lossDisk_ledgerOf : lossInbox.ledgerOf lossDisk = ⟨[⟨inboxFileName oldReport 0, oldReport⟩]⟩ := by
  simp only [ledgerOf, lossDisk, lossInbox]
  rw [show ledgerBytes _ = compactJson.ledgerText _ from rfl, compactJson_lawful.ledger_text]
  exact Ledger.ofStored_stored _

theorem lossDisk_readable : lossInbox.Readable lossDisk := by
  rintro bytes hbytes
  cases hbytes
  exact ⟨_, compactJson_lawful.ledger_text _⟩

theorem lossDisk_messages : lossDisk.messages = {(lossName, reportBytes newReport)} := by
  have hmessage : isMessage lossName = true := by decide +kernel
  rw [Disk.messages, Folder.files, lossDisk, AList.singleton_entries, List.map_singleton,
    List.filter_cons_of_pos (by simpa using hmessage)]
  rfl

theorem lossDrain_stops (now : String) :
    ∃ e d', Program.eval (perform now (some lossFault)) ((Call.drain .all).run lossInbox).run lossDisk =
        (.error e, d') ∧ lossInbox.Readable d' ∧ lossInbox.ledgerOf d' = ⟨[]⟩ ∧
      d'.messages ≤ lossDisk.messages := by
  have hhits : Fault.hits (some lossFault) (.removeMessage lossName) := ⟨lossFault, rfl, rfl⟩
  obtain ⟨r, d', heval, hends⟩ := drain_ends lossInbox now (some lossFault) lossDisk
    compactJson_lawful .all
  cases hends with
  | unsaved ledger folder why =>
    obtain ⟨o, ho, hne⟩ := why lossDisk_readable
    exact absurd (Fault.hits_unique ho hhits) (hne lossName)
  | @stopped e d' name hits readable ledger messages =>
    refine ⟨e, d', ?_, readable.2, ledger, messages ▸ Multiset.filter_le _ _⟩
    rw [Call.run, Program.eval_map_ok, heval]
    rfl
  | done readable ledger messages clean =>
    refine absurd hhits (clean (lossName, reportBytes newReport) ?_)
    rw [lossDisk_messages]
    exact Multiset.mem_singleton_self _

theorem failed_drain_loses_report :
    ¬ ∀ (now : String) (call : Call) (f : Fault) (e : Failure) (d' : Disk),
      Program.eval (perform now (some f)) (call.run lossInbox).run lossDisk = (.error e, d') →
      (lossInbox.drained now lossDisk : Multiset Report) ≤ lossInbox.drained now d' := by
  intro hclaim
  obtain ⟨e, d', heval, hreadable, hledger, hmessages⟩ := lossDrain_stops "2026-01-10T00:00:02Z"
  have hle := hclaim _ _ _ _ _ heval
  rw [drained_of_readable compactJson_lawful lossDisk_readable,
    drained_of_readable compactJson_lawful hreadable] at hle
  have hold : oldReport ∈ (lossInbox.unread lossDisk).map Entry.report := by
    rw [unread, lossDisk_ledgerOf, Multiset.map_add]
    exact Multiset.mem_add.mpr (Or.inl (Multiset.mem_coe.mpr List.mem_cons_self))
  obtain ⟨entry, hentry, hreport⟩ := Multiset.mem_map.mp (Multiset.mem_of_le hle hold)
  rw [unread, hledger] at hentry
  have hwaiting : entry ∈ lossInbox.waiting d' := (Multiset.mem_add.mp hentry).resolve_left nofun
  obtain ⟨m, hm, harrival⟩ := (Multiset.mem_filterMap _ _).mp (Multiset.mem_filter.mp hwaiting).1
  have hfile := Multiset.mem_of_le hmessages hm
  rw [lossDisk_messages, Multiset.mem_singleton] at hfile
  rw [hfile, arrival, show lossInbox.json.report (reportBytes newReport) = .ok newReport from
    compactJson_lawful.report_text newReport] at harrival
  cases harrival
  exact absurd hreport (by decide)

theorem failed_drain_keeps_iff :
    ∃ e d', Program.eval (perform "" (some lossFault)) ((Call.drain .all).run lossInbox).run lossDisk =
        (.error e, d') ∧
      ((lossInbox.drained "" lossDisk : Multiset Report) ≤ lossInbox.drained "" d' ↔
        ¬ lossInbox.Loses (.drain .all) lossFault lossDisk) := by
  obtain ⟨e, d', heval, -⟩ := lossDrain_stops ""
  exact ⟨e, d', heval, failed_call_keeps_reports_iff compactJson_lawful heval⟩

end Inbox

end Ralph
