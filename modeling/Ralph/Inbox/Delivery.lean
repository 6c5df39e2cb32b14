import Ralph.Inbox.Disk

namespace Ralph

namespace Inbox

/-- The disk, and the messages that were posted so far. -/
structure Shared where
  disk : Disk
  posted : List File

/-- The names that a disk already uses for messages. -/
def usedNames (inbox : Inbox) (d : Disk) : List String := d.folder.keys ++ (inbox.ledgerOf d).sources

/-- One operation of a call that succeeds; the ledger's text is JSON when it is read. -/
def Succeeds (inbox : Inbox) (o : Op) (s : Shared) (r : o.Answer) (s' : Shared) : Prop :=
  match o with
  | .readLedger => s' = s ∧ match s.disk.ledger with
    | some bytes => r = .ok bytes ∧ ∃ stored, inbox.json.ledger bytes = .ok stored
    | none => r = .error .notFound
  | .readDir => s' = s ∧ ((∃ names, r = .ok names ∧ names.Perm s.disk.folder.keys) ∨
      r = .error .notFound ∧ s.disk.folder.keys = [])
  | .readMessage name => s' = s ∧ ∃ bytes, r = .ok bytes ∧ s.disk.folder.lookup name = some bytes
  | .now => s' = s
  | .appendDropLog line =>
    r = .ok () ∧ s' = { s with disk := { s.disk with dropLog := s.disk.dropLog ++ line } }
  | .writeTemp bytes => r = .ok () ∧ s' = { s with disk := { s.disk with temp := some bytes } }
  | .renameTemp => r = .ok () ∧ ∃ bytes, s.disk.temp = some bytes ∧
      s' = { s with disk := { s.disk with ledger := some bytes, temp := none } }
  | .removeMessage name =>
    r = .ok () ∧ s' = { s with disk := { s.disk with folder := s.disk.folder.erase name } }
  | .warn _ => s' = s

/-- The workers: a file is written under a name that no call reads, and a rename posts it under a
message name that was never used. -/
inductive Posting (used : List String) : Shared → Shared → Prop
  | write {s : Shared} (name : String) (bytes : Bytes) (hidden : isMessage name = false) :
      Posting used s { s with disk := { s.disk with folder := s.disk.folder.insert name bytes } }
  | rename {s : Shared} (tmp name : String) (bytes : Bytes) (hidden : isMessage tmp = false)
      (file : s.disk.folder.lookup tmp = some bytes) (message : isMessage name = true)
      (unused : name ∉ used) (fresh : name ∉ s.posted.map Prod.fst) :
      Posting used s ⟨{ s.disk with folder := (s.disk.folder.erase tmp).insert name bytes },
        s.posted ++ [(name, bytes)]⟩

theorem isMessage_inboxFileName (report : Worker.Report) (seq : ℕ) :
    isMessage (Worker.inboxFileName report seq) = true := by
  rw [isMessage, Bool.and_eq_true, List.isSuffixOf_iff_suffix]
  simp only [Worker.inboxFileName, String.toList_append, String.toList_ofList]
  refine ⟨List.suffix_append _ _, ?_⟩
  cases hstamp : report.at_.toList.filter Char.isDigit with
  | nil => rfl
  | cons c cs =>
    have hdigit : c.isDigit = true :=
      (List.mem_filter.mp (hstamp ▸ List.mem_cons_self : c ∈ report.at_.toList.filter Char.isDigit)).2
    simp only [List.cons_append, List.head?_cons, bne_iff_ne, ne_eq, Option.some.injEq]
    rintro rfl
    exact absurd hdigit (by decide)

theorem isMessage_hidden (name : String) : isMessage ("." ++ name) = false := by
  rw [isMessage, String.toList_append, Bool.and_eq_false_iff]
  exact Or.inr rfl

/-- `Inbox::post`: the report is written beside its name and renamed to it. -/
def post (inbox : Inbox) (report : Worker.Report) (seq : ℕ) (s : Shared) : Shared :=
  let name := Worker.inboxFileName report seq
  let bytes := inbox.json.reportText report
  ⟨{ s.disk with folder := ((s.disk.folder.insert ("." ++ name) bytes).erase ("." ++ name)).insert name bytes },
    s.posted ++ [(name, bytes)]⟩

theorem post_posting (inbox : Inbox) {used : List String} (report : Worker.Report) (seq : ℕ) (s : Shared)
    (hunused : Worker.inboxFileName report seq ∉ used)
    (hfresh : Worker.inboxFileName report seq ∉ s.posted.map Prod.fst) :
    Relation.ReflTransGen (Posting used) s (inbox.post report seq s) := by
  have hmessage := isMessage_inboxFileName report seq
  unfold post
  generalize Worker.inboxFileName report seq = name at hunused hfresh hmessage ⊢
  generalize inbox.json.reportText report = bytes
  have hwrite : Posting used s _ := .write ("." ++ name) bytes (isMessage_hidden name)
  exact (Relation.ReflTransGen.single hwrite).tail (.rename ("." ++ name) name bytes
    (isMessage_hidden name) (AList.lookup_insert _) hmessage hunused hfresh)

/-- What is known of the names in any state. -/
structure Known (used : List String) (s : Shared) : Prop where
  nodup : (s.posted.map Prod.fst).Nodup
  unused : ∀ name ∈ s.posted.map Prod.fst, name ∉ used
  folder : ∀ m ∈ s.disk.messages, m.1 ∈ used ∨ m.1 ∈ s.posted.map Prod.fst

/-- What posts leave as it is, and what they add. -/
def Grows (s s' : Shared) : Prop :=
  s'.disk.ledger = s.disk.ledger ∧ s'.disk.temp = s.disk.temp ∧
    ∃ more : List File, s'.posted = s.posted ++ more ∧ s'.disk.messages = s.disk.messages + ↑more

variable {inbox : Inbox} {used : List String} {s s' s'' : Shared}

theorem Grows.refl (s : Shared) : Grows s s := ⟨rfl, rfl, [], by simp, by simp⟩

theorem Grows.trans (h : Grows s s') (h' : Grows s' s'') : Grows s s'' := by
  obtain ⟨hledger, htemp, more, hposted, hmessages⟩ := h
  obtain ⟨hledger', htemp', more', hposted', hmessages'⟩ := h'
  refine ⟨hledger'.trans hledger, htemp'.trans htemp, more ++ more', ?_, ?_⟩
  · rw [hposted', hposted, List.append_assoc]
  · rw [hmessages', hmessages, add_assoc, Multiset.coe_add]

/-- Names known before a post are not posted. -/
theorem Known.notMem_more (hk : Known used s') {more : List File}
    (hposted : s'.posted = s.posted ++ more) {name : String}
    (hname : name ∈ used ∨ name ∈ s.posted.map Prod.fst) : name ∉ more.map Prod.fst := by
  intro hmem
  have hnodup := hk.nodup
  rw [hposted, List.map_append] at hnodup
  rcases hname with hused | hold
  · exact hk.unused name (by rw [hposted, List.map_append]; exact List.mem_append_right _ hmem) hused
  · exact (List.nodup_append.mp hnodup).2.2 name hold name hmem rfl

theorem Known.posting (hk : Known used s) (h : Posting used s s') : Known used s' ∧ Grows s s' := by
  cases h with
  | write name bytes hidden =>
    have hsame := Disk.messages_insert_hidden (d := s.disk)
      (e := { s.disk with folder := s.disk.folder.insert name bytes }) hidden rfl
    refine ⟨⟨hk.nodup, hk.unused, ?_⟩, rfl, rfl, [], by simp, by simpa using hsame⟩
    intro m hm
    exact hk.folder m (hsame ▸ hm)
  | rename tmp name bytes hidden file message unused fresh =>
    let d : Disk := { s.disk with folder := s.disk.folder.erase tmp }
    have hd : d.messages = s.disk.messages := Disk.messages_erase_hidden hidden rfl
    have hname : ∀ m ∈ d.messages, m.1 ≠ name := by
      rintro m hm rfl
      exact (hk.folder m (hd ▸ hm)).elim unused fresh
    have hmore := Disk.messages_insert (e := { d with folder := d.folder.insert name bytes })
      hname message rfl
    rw [hd] at hmore
    refine ⟨⟨?_, ?_, ?_⟩, rfl, rfl, [(name, bytes)], rfl, hmore⟩
    · rw [List.map_append, List.nodup_append]
      refine ⟨hk.nodup, by simp, ?_⟩
      rintro a ha b hb rfl
      have hb : a = name := by simpa using hb
      exact fresh (hb ▸ ha)
    · intro a ha
      rw [List.map_append, List.mem_append, List.map_singleton, List.mem_singleton] at ha
      rcases ha with ha | rfl
      · exact hk.unused a ha
      · exact unused
    · intro m hm
      rw [hmore, Multiset.mem_add, Multiset.mem_singleton] at hm
      rw [List.map_append, List.mem_append]
      rcases hm with hm | rfl
      · exact (hk.folder m hm).imp id Or.inl
      · exact Or.inr (Or.inr List.mem_cons_self)

/-- A call beside the workers' posts. -/
abbrev Goes (inbox : Inbox) (used : List String) {α : Type} (p : Program Op Op.Answer α)
    (Q : α → Shared → Prop) (s : Shared) : Prop :=
  Program.Holds (Succeeds inbox) (Known used) Grows (fun _ _ => True) p Q s

theorem Known.of_posted (hk : Known used s) (hposted : s'.posted = s.posted)
    (hmessages : ∀ m ∈ s'.disk.messages, m ∈ s.disk.messages) : Known used s' := by
  refine ⟨hposted ▸ hk.nodup, hposted ▸ hk.unused, ?_⟩
  intro m hm
  rw [hposted]
  exact hk.folder m (hmessages m hm)

theorem removeMessages_goes {names : List String} {Q : Except Failure Unit → Shared → Prop}
    (hnames : ∀ name ∈ names, name ∈ used ∨ name ∈ s.posted.map Prod.fst)
    (h : ∀ s' more, Known used s' → s'.disk.ledger = s.disk.ledger → s'.posted = s.posted ++ more →
      s'.disk.messages = (s.disk.messages.filter fun m => m.1 ∉ names) + ↑more → Q (.ok ()) s') :
    Goes inbox used (removeMessages names).run Q s := by
  induction names generalizing s with
  | nil =>
    rintro t ⟨hledger, -, more, hposted, hmessages⟩ hk
    exact h t more hk hledger hposted (by simpa using hmessages)
  | cons name names ih =>
    rintro t ⟨hledger, -, more, hposted, hmessages⟩ hk r u ⟨rfl, rfl⟩
    have herase := Disk.messages_erase (d := t.disk)
      (e := { t.disk with folder := t.disk.folder.erase name }) rfl
    have hmore : ∀ m ∈ (more : Multiset File), m.1 ∉ name :: names := by
      intro m hm hmem
      exact hk.notMem_more hposted (hnames m.1 hmem) (List.mem_map_of_mem hm)
    refine ⟨hk.of_posted rfl fun m hm => ?_, trivial, ih ?_ ?_⟩
    · rw [herase] at hm
      exact (Multiset.mem_filter.mp hm).1
    · intro n hn
      rw [hposted, List.map_append, List.mem_append]
      exact (hnames n (List.mem_cons_of_mem _ hn)).imp id Or.inl
    · intro w more' hk' hledger' hposted' hmessages'
      apply h w (more ++ more') hk' (hledger'.trans hledger)
      · rw [hposted', hposted, List.append_assoc]
      · have hboth : ∀ m : File, m.1 ∉ names ∧ m.1 ≠ name ↔ m.1 ∉ name :: names := by
          intro m
          rw [List.mem_cons, not_or, and_comm]
        rw [hmessages', herase, hmessages, Multiset.filter_filter]
        simp only [hboth]
        rw [Multiset.filter_add, Multiset.filter_eq_self.mpr hmore, add_assoc, Multiset.coe_add]

/-- Files that are there when the reads begin stay there. -/
theorem readMessages_goes {ms : List File}
    {Q : Except Failure (List (String × Worker.Report)) → Shared → Prop}
    (hms : ∀ m ∈ ms, m ∈ s.disk.messages)
    (h : ∀ s', Grows s s' → Q (.ok (inbox.wellFormed ms)) s') :
    Goes inbox used (inbox.readMessages (ms.map Prod.fst)).run Q s := by
  induction ms generalizing s Q with
  | nil => exact fun t ht _ => h t ht
  | cons m ms ih =>
    rintro t ht hk r u ⟨rfl, bytes, rfl, hbytes⟩
    rw [List.forall_mem_cons] at hms
    have hmem : ∀ m ∈ s.disk.messages, m ∈ u.disk.messages := by
      obtain ⟨-, -, more, -, hmessages⟩ := ht
      intro m hm
      rw [hmessages]
      exact Multiset.mem_add.mpr (Or.inl hm)
    have hm : bytes = m.2 := by
      rw [(Disk.mem_messages.mp (hmem m hms.1)).1] at hbytes
      exact (Option.some.inj hbytes).symm
    refine ⟨hk, trivial, ?_⟩
    rw [wellFormed_cons, ← hm] at h
    have hrest : ∀ a ∈ ms, a ∈ u.disk.messages := fun a ha => hmem a (hms.2 a ha)
    dsimp only [Program.bind, ExceptT.bindCont]
    cases hreport : inbox.json.report bytes with
    | ok report =>
      rw [hreport] at h
      apply Program.Holds.andThen Grows.refl
      apply ih hrest
      intro v hv w hw _
      exact h w (ht.trans (hv.trans hw))
    | error e =>
      rw [hreport] at h
      rintro v hv hk' - w rfl
      refine ⟨hk', trivial, ih (fun a ha => ?_) fun x hx => h x (ht.trans (hv.trans hx))⟩
      obtain ⟨-, -, more, -, hmessages⟩ := hv
      rw [hmessages]
      exact Multiset.mem_add.mpr (Or.inl (hrest a ha))

theorem pending_goes {Q : Except Failure (List String) → Shared → Prop}
    (h : ∀ t s', Known used t → Grows s t → Grows t s' →
      Q (.ok (t.disk.sortedMessages.map Prod.fst)) s') :
    Goes inbox used pending.run Q s := by
  rintro t ht hk r u ⟨rfl, hr⟩
  refine ⟨hk, trivial, ?_⟩
  rcases hr with ⟨names, rfl, hnames⟩ | ⟨rfl, hempty⟩
  · intro v hv _
    rw [Disk.sort_names hnames]
    exact h u v hk ht hv
  · have hnil : u.disk.sortedMessages.map Prod.fst = [] := by
      rw [← Disk.sort_names (List.Perm.of_eq hempty.symm)]
      simp
    intro v hv _
    rw [← hnil]
    exact h u v hk ht hv

theorem loadLedger_goes {Q : Except Failure Ledger → Shared → Prop}
    (h : ∀ s', Grows s s' → Q (.ok (inbox.ledgerOf s'.disk)) s') :
    Goes inbox used inbox.loadLedger.run Q s := by
  rintro t ht hk r u ⟨rfl, hr⟩
  refine ⟨hk, trivial, ?_⟩
  cases hledger : u.disk.ledger with
  | none =>
    rw [hledger] at hr
    subst hr
    intro v hv _
    have hl : inbox.ledgerOf v.disk = ⟨[]⟩ := by
      rw [ledgerOf, hv.1, hledger]
    rw [← hl]
    exact h v (ht.trans hv)
  | some bytes =>
    rw [hledger] at hr
    obtain ⟨rfl, stored, hstored⟩ := hr
    have hnext : Goes inbox used (pure (.ok (.ofStored stored))) Q u := by
      intro v hv _
      have hl : inbox.ledgerOf v.disk = .ofStored stored := by
        rw [ledgerOf, hv.1, hledger]
        simp only [hstored]
      rw [← hl]
      exact h v (ht.trans hv)
    dsimp only [Program.bind]
    rw [hstored]
    exact hnext

theorem saveLedger_goes {l : Ledger} {Q : Except Failure Unit → Shared → Prop}
    (h : ∀ s' more, s'.disk.ledger = some (inbox.json.ledgerText l) → s'.posted = s.posted ++ more →
      s'.disk.messages = s.disk.messages + ↑more → Q (.ok ()) s') :
    Goes inbox used (inbox.saveLedger l).run Q s := by
  rintro t ht hk r u ⟨rfl, rfl⟩
  refine ⟨hk.of_posted rfl fun m hm => hm, trivial, ?_⟩
  rintro v hv hk' r w ⟨rfl, bytes, hbytes, rfl⟩
  refine ⟨hk'.of_posted rfl fun m hm => hm, trivial, ?_⟩
  obtain ⟨-, -, more, hposted, hmessages⟩ := ht
  obtain ⟨-, htemp, more', hposted', hmessages'⟩ := hv
  have hwritten : bytes = inbox.json.ledgerText l := Option.some.inj (hbytes.symm.trans htemp)
  rintro x ⟨hledger, -, more'', hposted'', hmessages''⟩ -
  apply h x (more ++ more' ++ more'') (hledger.trans (congrArg some hwritten))
  · rw [hposted'', hposted', hposted, List.append_assoc, List.append_assoc, List.append_assoc]
  · have hw : v.disk.messages = s.disk.messages + ↑more + ↑more' := by
      rw [hmessages', ← hmessages]
      rfl
    rw [hmessages'', ← Multiset.coe_add, ← Multiset.coe_add, ← add_assoc, ← add_assoc, ← hw]
    rfl

/-- Every source of the ledger is a name that was used. -/
def Tracked (used : List String) (l : Ledger) (s : Shared) : Prop :=
  ∀ name ∈ l.sources, name ∈ used ∨ name ∈ s.posted.map Prod.fst

theorem Tracked.more {l : Ledger} (h : Tracked used l s) {more : List File}
    (hposted : s'.posted = s.posted ++ more) : Tracked used l s' := by
  intro name hname
  rw [hposted, List.map_append, List.mem_append]
  exact (h name hname).imp id Or.inl

theorem arrivals_unknown {l : Ledger} (hl : Tracked used l s) (hk : Known used s')
    {more : List File} (hposted : s'.posted = s.posted ++ more) :
    ((more : Multiset File).filterMap inbox.arrival).filter (fun e => e.source ∉ l.sources) =
      (more : Multiset File).filterMap inbox.arrival := by
  rw [Multiset.filter_eq_self]
  intro e he hmem
  exact hk.notMem_more hposted (hl e.source hmem) (inbox.mem_arrivals_source he)

/-- A sync finds what was waiting when it began and what was posted until it listed the folder. -/
theorem coe_news {ms more : List File} (hl : Tracked used (inbox.ledgerOf s.disk) s)
    (hk : Known used s') (hposted : s'.posted = s.posted ++ more)
    (hms : (ms : Multiset File) = s.disk.messages + ↑more) :
    (inbox.news (inbox.ledgerOf s.disk) ms : Multiset Entry) =
      inbox.waiting s.disk + (more : Multiset File).filterMap inbox.arrival := by
  rw [news, ← Multiset.filter_coe, ← Multiset.filterMap_coe, hms, Multiset.filterMap_add,
    Multiset.filter_add, arrivals_unknown hl hk hposted]
  rfl

theorem tracked_append_news {ms : List File} {l : Ledger} (hl : Tracked used l s)
    (hk : Known used s) (hms : (ms : Multiset File) = s.disk.messages) :
    Tracked used ⟨l.entries ++ inbox.news l ms⟩ s := by
  intro name hname
  rw [Ledger.sources, List.map_append, List.mem_append] at hname
  rcases hname with hold | hnew
  · exact hl name hold
  · obtain ⟨e, he, rfl⟩ := List.mem_map.mp hnew
    have hmem : e ∈ (ms : Multiset File).filterMap inbox.arrival := (List.mem_filter.mp he).1
    obtain ⟨m, hm, hsource⟩ := Multiset.mem_map.mp (inbox.mem_arrivals_source hmem)
    rw [← hsource]
    exact hk.folder m (hms ▸ hm)

/-- What `act` answers, and that it does nothing else that a report depends on. -/
def Acts (inbox : Inbox) (used : List String) {T : Type}
    (act : Ledger → Program Op Op.Answer (T × Bool × Ledger)) (value : Ledger → T)
    (left : Ledger → Ledger) : Prop :=
  ∀ (l : Ledger) (s : Shared) (Q : T × Bool × Ledger → Shared → Prop),
    (∀ s' changed, Grows s s' → (changed = false → left l = l) → Q (value l, changed, left l) s') →
    Goes inbox used (act l) Q s

/-- The ledger of a call is on disk, and its messages are still there beside later posts. -/
structure Saved (inbox : Inbox) (found : Shared) (l : Ledger) (more : List File) (s : Shared) : Prop where
  ledger : inbox.ledgerOf s.disk = l
  posted : s.posted = found.posted ++ more
  messages : s.disk.messages = found.disk.messages + ↑more

/-- The messages found are removed, and what was posted since is kept. -/
theorem filter_removed {found : Shared} {ms more rest : List File} (hfound : Known used found)
    (hms : (ms : Multiset File) = found.disk.messages) (hk : Known used s)
    (hposted : s.posted = found.posted ++ (more ++ rest)) :
    (found.disk.messages + ↑more).filter (fun m => m.1 ∉ ms.map Prod.fst) = more := by
  have hgone : found.disk.messages.filter (fun m => m.1 ∉ ms.map Prod.fst) = 0 := by
    rw [← hms, Multiset.filter_eq_nil]
    intro m hm
    exact not_not_intro (List.mem_map_of_mem hm)
  have hkept : (more : Multiset File).filter (fun m => m.1 ∉ ms.map Prod.fst) = more := by
    rw [Multiset.filter_eq_self]
    intro m hm hmem
    obtain ⟨m', hm', hname⟩ := List.mem_map.mp hmem
    apply hk.notMem_more hposted (hfound.folder m' (hms ▸ hm'))
    rw [hname]
    exact List.mem_map_of_mem (List.mem_append_left _ hm)
  rw [Multiset.filter_add, hgone, hkept, zero_add]

/-- The end of a sync: its messages go, and the ones that are left were posted since. -/
theorem removal_goes {T : Type} {found : Shared} {ms more : List File} {l : Ledger} {x : T}
    {Q : Except Failure T → Shared → Prop} (hfound : Known used found)
    (hms : (ms : Multiset File) = found.disk.messages) (hl : Tracked used l found)
    (h : ∀ s' rest, s'.posted = found.posted ++ rest → inbox.ledgerOf s'.disk = l →
      inbox.waiting s'.disk = (rest : Multiset File).filterMap inbox.arrival → Q (.ok x) s')
    (hs : Saved inbox found l more s) :
    Goes inbox used (do removeMessages (ms.map Prod.fst); pure x : Io T).run Q s := by
  apply Program.Holds.andThen Grows.refl
  apply removeMessages_goes
  · intro name hname
    obtain ⟨m, hm, rfl⟩ := List.mem_map.mp hname
    rw [hs.posted, List.map_append, List.mem_append]
    exact (hfound.folder m (hms ▸ hm)).imp id Or.inl
  · rintro z rest - hledger hposted hmessages a ⟨hledger', -, rest', hposted', hmessages'⟩ hk
    have hall : a.posted = found.posted ++ (more ++ (rest ++ rest')) := by
      rw [hposted', hposted, hs.posted]
      simp
    have hla : inbox.ledgerOf a.disk = l := by
      rw [ledgerOf, hledger', hledger, ← ledgerOf, hs.ledger]
    have hleft : a.disk.messages = ↑(more ++ (rest ++ rest')) := by
      rw [hmessages', hmessages, hs.messages, filter_removed hfound hms hk hall, add_assoc,
        Multiset.coe_add, Multiset.coe_add]
    apply h a _ hall hla
    rw [waiting, hla, hleft]
    exact arrivals_unknown hl hk hall

/-- A sync saves its ledger unless it found nothing and changed nothing. -/
theorem saving_goes {T : Type} {found : Shared} {ms more : List File} {l : Ledger} {x : T} {changed : Bool}
    {Q : Except Failure T → Shared → Prop} (hlawful : inbox.json.Lawful)
    (hposted : s.posted = found.posted ++ more) (hmessages : s.disk.messages = found.disk.messages + ↑more)
    (hsame : ms = [] → changed = false → inbox.ledgerOf s.disk = l)
    (h : ∀ y more, Saved inbox found l more y →
      Goes inbox used (do removeMessages (ms.map Prod.fst); pure x : Io T).run Q y) :
    Goes inbox used (do
      if !(ms.map Prod.fst).isEmpty || changed then
        inbox.saveLedger l
      removeMessages (ms.map Prod.fst)
      pure x : Io T).run Q s := by
  by_cases hsave : (!(ms.map Prod.fst).isEmpty || changed) = true
  · rw [if_pos hsave]
    apply Program.Holds.andThen Grows.refl
    apply saveLedger_goes
    intro y rest hledger hposted' hmessages'
    apply h y (more ++ rest)
    refine ⟨?_, ?_, ?_⟩
    · rw [ledgerOf, hledger]
      simp only [hlawful.ledger_text, Ledger.ofStored_stored]
    · rw [hposted', hposted, List.append_assoc]
    · rw [hmessages', hmessages, add_assoc, Multiset.coe_add]
  · rw [if_neg hsave]
    have hnone : ms = [] ∧ changed = false := by simpa using hsave
    exact h s more ⟨hsame hnone.1 hnone.2, hposted, hmessages⟩

theorem sync_goes {T : Type} {act : Ledger → Program Op Op.Answer (T × Bool × Ledger)}
    {value : Ledger → T} {left : Ledger → Ledger} {Q : Except Failure T → Shared → Prop}
    (hlawful : inbox.json.Lawful) (hact : Acts inbox used act value left)
    (hsub : ∀ l, (left l).sources ⊆ l.sources) (hl : Tracked used (inbox.ledgerOf s.disk) s)
    (h : ∀ s' arrivals more, s'.posted = s.posted ++ more →
      (arrivals.map Entry.source).Pairwise (· < ·) →
      inbox.ledgerOf s'.disk = left ⟨(inbox.ledgerOf s.disk).entries ++ arrivals⟩ →
      (arrivals : Multiset Entry) + inbox.waiting s'.disk =
        inbox.waiting s.disk + (more : Multiset File).filterMap inbox.arrival →
      Tracked used (inbox.ledgerOf s'.disk) s' →
      Q (.ok (value ⟨(inbox.ledgerOf s.disk).entries ++ arrivals⟩)) s') :
    Goes inbox used (inbox.sync act).run Q s := by
  apply Program.Holds.andThen Grows.refl
  apply loadLedger_goes
  intro t ht
  have hledger : inbox.ledgerOf t.disk = inbox.ledgerOf s.disk := by rw [ledgerOf, ht.1, ← ledgerOf]
  apply Program.Holds.andThen Grows.refl
  apply pending_goes
  intro u v hku hu hv
  have hms := u.disk.coe_sortedMessages
  have hsorted := u.disk.sorted_sortedMessages
  generalize u.disk.sortedMessages = ms at hms hsorted ⊢
  apply Program.Holds.andThen Grows.refl
  apply readMessages_goes
  · obtain ⟨-, -, more, -, hmessages⟩ := hv
    intro m hm
    rw [hmessages, ← hms]
    exact Multiset.mem_add.mpr (Or.inl hm)
  intro w hw
  have hl' : (inbox.ledgerOf t.disk).ingest (inbox.wellFormed ms) =
      ⟨(inbox.ledgerOf s.disk).entries ++ inbox.news (inbox.ledgerOf s.disk) ms⟩ := by
    rw [hledger]
    exact congrArg Ledger.mk (inbox.ingest_wellFormed _ hsorted)
  apply Program.Holds.andThen Grows.refl
  apply Program.Holds.lift
  apply hact
  intro x changed hx hchanged
  rw [hl'] at hchanged ⊢
  obtain ⟨-, -, more, hposted, hmessages⟩ := ht.trans hu
  obtain ⟨hledger', -, more', hposted', hmessages'⟩ := (hv.trans hw).trans hx
  have htracked : Tracked used (left ⟨(inbox.ledgerOf s.disk).entries ++ inbox.news (inbox.ledgerOf s.disk) ms⟩) u :=
    fun name hname => tracked_append_news (hl.more hposted) hku hms name (hsub _ hname)
  show Goes inbox used (do
    if !(ms.map Prod.fst).isEmpty || changed then
      inbox.saveLedger (left _)
    removeMessages (ms.map Prod.fst)
    pure (value _) : Io T).run Q x
  apply saving_goes hlawful hposted' hmessages'
  · intro hnil hunchanged
    have hsame : inbox.ledgerOf x.disk = inbox.ledgerOf s.disk := by
      rw [ledgerOf, hledger', hu.1, ← ledgerOf, hledger]
    rw [hchanged hunchanged, hsame, hnil]
    exact congrArg Ledger.mk (List.append_nil _).symm
  intro y saved hy
  apply removal_goes hku hms htracked ?_ hy
  intro a rest hrest hla hwaiting
  apply h a _ (more ++ rest)
  · rw [hrest, hposted, List.append_assoc]
  · exact inbox.sorted_news _ hsorted
  · exact hla
  · rw [coe_news hl hku hposted (hms.trans hmessages), hwaiting, add_assoc, ← Multiset.coe_add,
      Multiset.filterMap_add]
  · rw [hla]
    exact htracked.more hrest

theorem pure_acts {T : Type} {value : Ledger → T} {changed : Ledger → Bool} {left : Ledger → Ledger}
    (hleft : ∀ l, changed l = false → left l = l) :
    Acts inbox used (fun l => pure (value l, changed l, left l)) value left := by
  intro l s Q h t ht _
  exact h t (changed l) ht (hleft l)

theorem dropFrom_acts (position : Position) :
    Acts inbox used (dropFrom position) (fun l => .ok (l.get position))
      (fun l => (l.remove position).2) := by
  intro l s Q h
  rw [dropFrom]
  cases hget : l.get position with
  | none =>
    have hleft := l.remove_of_get_eq_none hget
    intro t ht _
    have hq := h t false ht fun _ => hleft
    simp only [hget, hleft] at hq
    exact hq
  | some entry =>
    rintro t ht hk now u rfl
    refine ⟨hk, trivial, ?_⟩
    rintro v hv hk' r w ⟨rfl, rfl⟩
    refine ⟨hk'.of_posted rfl fun m hm => hm, trivial, ?_⟩
    intro x hx _
    have hq := h x true ((ht.trans hv).trans hx) nofun
    simp only [hget] at hq
    exact hq

/-- The result of a call, as a whole: it acts on what the ledger had and behind that the new
arrivals in the order of their names, and no report is lost or added on the way. -/
structure Delivers (inbox : Inbox) (used : List String) (call : Call) (s : Shared)
    (r : Except Failure Value) (s' : Shared) : Prop where
  exists_arrivals : ∃ (arrivals : List Entry) (more : List File),
    r = .ok (call.value ⟨(inbox.ledgerOf s.disk).entries ++ arrivals⟩) ∧
    inbox.ledgerOf s'.disk = call.left ⟨(inbox.ledgerOf s.disk).entries ++ arrivals⟩ ∧
    (arrivals.map Entry.source).Pairwise (· < ·) ∧ s'.posted = s.posted ++ more ∧
    (arrivals : Multiset Entry) + inbox.waiting s'.disk =
      inbox.waiting s.disk + (more : Multiset File).filterMap inbox.arrival
  tracked : Tracked used (inbox.ledgerOf s'.disk) s'

theorem delivers_of_sync {T : Type} {c : Call} {f : Except Failure T → Except Failure Value}
    {act : Ledger → Program Op Op.Answer (T × Bool × Ledger)} {value : Ledger → T}
    (hlawful : inbox.json.Lawful) (hact : Acts inbox used act value c.left)
    (hvalue : ∀ l, f (.ok (value l)) = .ok (c.value l))
    (hl : Tracked used (inbox.ledgerOf s.disk) s) :
    Goes inbox used (inbox.sync act).run (fun r => Delivers inbox used c s (f r)) s := by
  apply sync_goes hlawful hact ?_ hl
  · intro s' arrivals more hposted hsorted hledger hcount htracked
    exact ⟨⟨arrivals, more, hvalue _, hledger, hsorted, hposted, hcount⟩, htracked⟩
  · intro l
    have hsub : (c.left l).entries ⊆ l.entries :=
      fun e he => (c.taken_append_left_perm l).subset (List.mem_append_right _ he)
    exact List.map_subset _ hsub

theorem Call.run_goes (hlawful : inbox.json.Lawful) (call : Call)
    (hl : Tracked used (inbox.ledgerOf s.disk) s) :
    Goes inbox used (call.run inbox).run (Delivers inbox used call s) s := by
  cases call with
  | peek =>
    apply Program.Holds.map_ok
    exact delivers_of_sync hlawful (pure_acts fun _ _ => rfl) (fun _ => rfl) hl
  | drain selection =>
    have hleft : ∀ l, (!(l.take selection).1.isEmpty) = false → selection.left l = l :=
      fun l hempty => selection.left_of_nothing_taken (by simpa using hempty)
    have hvalue : ∀ l, (Value.reports (l.take selection).1) = (Call.drain selection).value l := by
      intro l
      rw [selection.take_eq]
      rfl
    apply Program.Holds.map_ok
    exact delivers_of_sync hlawful (pure_acts hleft) (fun l => congrArg Except.ok (hvalue l)) hl
  | dropReport position =>
    apply Program.Holds.map_ok
    apply Program.Holds.andThen Grows.refl
    have hsync := delivers_of_sync (c := .dropReport position)
      (f := fun r => (r.bind id).map Value.dropped) hlawful (dropFrom_acts position)
      (fun _ => rfl) hl
    apply (hsync.later fun (a b c : Shared) (hab : Grows a b) (hbc : Grows b c) => hab.trans hbc).mono
    intro r s' h
    cases r <;> exact h
  | ledger =>
    apply Program.Holds.map_ok
    exact delivers_of_sync hlawful (pure_acts fun _ _ => rfl) (fun _ => rfl) hl

/-- What one call saw: the entries that were in the ledger before it, and the new ones. -/
structure Sync where
  call : Call
  older : List Entry
  arrivals : List Entry

namespace Sync

def ledger (y : Sync) : Ledger := ⟨y.older ++ y.arrivals⟩

def taken (y : Sync) : List Entry := y.call.taken y.ledger

def value (y : Sync) : Value := y.call.value y.ledger

/-- Each call finds the ledger that the call before it left. -/
def Linked : List Entry → List Sync → List Entry → Prop
  | l, [], l' => l = l'
  | l, y :: ys, l' => y.older = l ∧ Linked (y.call.left y.ledger).entries ys l'

theorem Linked.perm {ys : List Sync} {l l' : List Entry} (h : Linked l ys l') :
    (ys.flatMap taken ++ l').Perm (l ++ ys.flatMap arrivals) := by
  induction ys generalizing l with
  | nil => exact List.Perm.of_eq (by rw [Linked] at h; simp [h])
  | cons y ys ih =>
    obtain ⟨hold, hrest⟩ := h
    have hcall : (y.taken ++ (y.call.left y.ledger).entries).Perm (l ++ y.arrivals) := by
      rw [← hold]
      exact y.call.taken_append_left_perm y.ledger
    rw [List.flatMap_cons, List.flatMap_cons, List.append_assoc, ← List.append_assoc l]
    refine ((ih hrest).append_left y.taken).trans ?_
    rw [← List.append_assoc]
    exact hcall.append_right _

end Sync

/-- What a finished session has done: it was one call after the other on a queue of entries. -/
structure Session (inbox : Inbox) (calls : List Call) (s : Shared)
    (rs : List (Except Failure Value)) (ys : List Sync) (s' : Shared) : Prop where
  calls_eq : ys.map Sync.call = calls
  results : rs = ys.map fun y => .ok y.value
  linked : Sync.Linked (inbox.ledgerOf s.disk).entries ys (inbox.ledgerOf s'.disk).entries
  sorted : ∀ y ∈ ys, (y.arrivals.map Entry.source).Pairwise (· < ·)
  conserved : ∃ more : List File, s'.posted = s.posted ++ more ∧
    (ys.flatMap Sync.arrivals : Multiset Entry) + inbox.waiting s'.disk =
      inbox.waiting s.disk + (more : Multiset File).filterMap inbox.arrival

theorem session_goes (hlawful : inbox.json.Lawful) (calls : List Call)
    (hl : Tracked used (inbox.ledgerOf s.disk) s) :
    Goes inbox used (session inbox calls) (fun rs s' => ∃ ys, Session inbox calls s rs ys s') s := by
  have trans : ∀ a b c : Shared, Grows a b → Grows b c → Grows a c := fun _ _ _ => Grows.trans
  induction calls generalizing s with
  | nil =>
    rintro t ⟨hledger, -, more, hposted, hmessages⟩ hk
    have hsame : inbox.ledgerOf t.disk = inbox.ledgerOf s.disk := by
      rw [ledgerOf, hledger, ← ledgerOf]
    refine ⟨[], rfl, rfl, congrArg Ledger.entries hsame.symm, nofun, more, hposted, ?_⟩
    rw [waiting, hsame, hmessages, Multiset.filterMap_add, Multiset.filter_add,
      arrivals_unknown hl hk hposted]
    exact zero_add _
  | cons call calls ih =>
    apply Program.Holds.bind Grows.refl
    apply (call.run_goes hlawful hl).mono
    rintro r t ⟨⟨arrivals, more, rfl, hledger, hsorted, hposted, hcount⟩, htracked⟩
    apply Program.Holds.bind Grows.refl
    apply ((ih htracked).later trans).mono
    rintro rs u hrest v hv hk
    obtain ⟨ys, hcalls, rfl, hlinked, hsorted', more', hposted', hcount'⟩ := hrest v hv hk
    let y : Sync := ⟨call, (inbox.ledgerOf s.disk).entries, arrivals⟩
    refine ⟨y :: ys, by rw [List.map_cons, hcalls], rfl, ⟨rfl, ?_⟩, ?_, more ++ more', ?_, ?_⟩
    · have hleft : (call.left y.ledger).entries = (inbox.ledgerOf t.disk).entries :=
        congrArg Ledger.entries hledger.symm
      rw [hleft]
      exact hlinked
    · exact List.forall_mem_cons.mpr ⟨hsorted, hsorted'⟩
    · rw [hposted', hposted, List.append_assoc]
    · rw [List.flatMap_cons, ← Multiset.coe_add, ← Multiset.coe_add, Multiset.filterMap_add,
        ← add_assoc, ← hcount, add_assoc, hcount']
      exact (add_assoc _ _ _).symm

theorem Known.start (inbox : Inbox) (d : Disk) : Known (inbox.usedNames d) ⟨d, []⟩ := by
  refine ⟨List.nodup_nil, nofun, ?_⟩
  intro m hm
  left
  have hkey : m.1 ∈ d.folder.keys := by
    rw [← Folder.map_files]
    exact List.mem_map_of_mem (Folder.mem_files.mpr (Disk.mem_messages.mp hm).1)
  exact List.mem_append_left _ hkey

theorem source_mem_usedNames {d : Disk} {e : Entry} (he : e ∈ inbox.unread d) :
    e.source ∈ inbox.usedNames d := by
  rcases Multiset.mem_add.mp he with hledger | hwaiting
  · exact List.mem_append_right _ (List.mem_map_of_mem hledger)
  · obtain ⟨m, hm, hsource⟩ := Multiset.mem_map.mp
      (inbox.mem_arrivals_source (Multiset.mem_filter.mp hwaiting).1)
    rw [← hsource]
    exact ((Known.start inbox d).folder m hm).resolve_right nofun

theorem count_posted {posted : List File} (hnodup : (posted.map Prod.fst).Nodup) {m : File}
    (hm : m ∈ posted) {e : Entry} (he : inbox.arrival m = some e) :
    (posted.filterMap inbox.arrival).count e = 1 := by
  have hsources := hnodup.sublist (inbox.wellFormed_names_sublist posted)
  rw [wellFormed, List.map_map] at hsources
  exact List.count_eq_one_of_mem hsources.of_map (List.mem_filterMap.mpr ⟨m, hm, he⟩)

/-- Beside any posts, and from any ledger and folder: the calls work one after the other on a
queue whose new entries come last and in the order of their names; and every well-formed report
that was posted was handed over once, or waits once. -/
theorem reports_delivered_once (hlawful : inbox.json.Lawful) {d : Disk} {calls : List Call}
    {rs : List (Except Failure Value)}
    {w : Interleaving.World Unit Shared (Program Op Op.Answer (List (Except Failure Value)))}
    (hrun : Interleaving.Run (Program.Moves (Succeeds inbox)) (Posting (inbox.usedNames d))
      ⟨⟨d, []⟩, fun _ => session inbox calls⟩ w) (hdone : w.party () = .done rs) :
    ∃ ys : List Sync, ys.map Sync.call = calls ∧ rs = ys.map (fun y => .ok y.value) ∧
      Sync.Linked (inbox.ledgerOf d).entries ys (inbox.ledgerOf w.shared.disk).entries ∧
      (∀ y ∈ ys, (y.arrivals.map Entry.source).Pairwise (· < ·)) ∧
      (ys.flatMap Sync.taken : Multiset Entry) + inbox.unread w.shared.disk =
        inbox.unread d + w.shared.posted.filterMap inbox.arrival ∧
      ∀ m ∈ w.shared.posted, ∀ e, inbox.arrival m = some e →
        (ys.flatMap Sync.taken).count e + (inbox.unread w.shared.disk).count e = 1 := by
  have hl : Tracked (inbox.usedNames d) (inbox.ledgerOf d) ⟨d, []⟩ :=
    fun name hname => Or.inl (List.mem_append_right _ hname)
  obtain ⟨hk, ys, hcalls, hrs, hlinked, hsorted, more, hposted, hcount⟩ := Program.Holds.run
    Grows.refl (fun _ _ _ => Grows.trans) Known.posting (Known.start inbox d)
    (session_goes hlawful calls hl) hrun hdone
  have hmore : more = w.shared.posted := hposted.symm
  have hqueue : (ys.flatMap Sync.taken : Multiset Entry) + (inbox.ledgerOf w.shared.disk).entries =
      (inbox.ledgerOf d).entries + ys.flatMap Sync.arrivals := by
    rw [Multiset.coe_add, Multiset.coe_add, Multiset.coe_eq_coe]
    exact hlinked.perm
  have hsum : (ys.flatMap Sync.taken : Multiset Entry) + inbox.unread w.shared.disk =
      inbox.unread d + w.shared.posted.filterMap inbox.arrival := by
    rw [unread, ← add_assoc, hqueue, add_assoc, hcount, ← hmore, Multiset.filterMap_coe, ← add_assoc]
    rfl
  refine ⟨ys, hcalls, hrs, hlinked, hsorted, hsum, ?_⟩
  intro m hm e he
  have hcounts := congrArg (Multiset.count e) hsum
  have hold : Multiset.count e (inbox.unread d) = 0 := by
    rw [Multiset.count_eq_zero]
    intro hmem
    have hused := source_mem_usedNames hmem
    rw [inbox.source_of_arrival he] at hused
    exact hk.unused m.1 (List.mem_map_of_mem hm) hused
  rw [Multiset.count_add, Multiset.count_add, hold, zero_add, Multiset.coe_count, Multiset.coe_count,
    count_posted hk.nodup hm he] at hcounts
  exact hcounts

def demo : Inbox := ⟨".ralph/inbox", compactJson⟩

def demoReport : Worker.Report := ⟨"GUZ-1", "2026-01-10T00:00:00Z", "done", "tests pass"⟩

def demoName : String := Worker.inboxFileName demoReport 1

def demoDisk : Disk := ⟨none, none, ∅, []⟩

def demoFile : File := (demoName, reportBytes demoReport)

/-- The report is posted, and nothing has read it yet. -/
def demoPosted : Shared := ⟨⟨none, none, AList.singleton demoName (reportBytes demoReport), []⟩, [demoFile]⟩

theorem demo_file (name : String) (bytes : Bytes) :
    (AList.singleton name bytes : Folder).lookup name = some bytes := by
  rw [← AList.insert_empty]
  exact AList.lookup_insert _

def demoDrained : Shared := ⟨⟨some (ledgerBytes ⟨[]⟩), none, ∅, []⟩, [demoFile]⟩

theorem demo_runs : Program.Runs (Succeeds demo) demoPosted (session demo [.drain .all]) demoDrained
    [.ok (.reports [demoReport])] := by
  have hread : demo.json.report (reportBytes demoReport) = .ok demoReport :=
    compactJson_lawful.report_text demoReport
  have hpending : Program.Runs (Succeeds demo) demoPosted pending.run demoPosted (.ok [demoName]) := by
    refine Program.Runs.bind (.op ⟨rfl, .inl ⟨[demoName], rfl, List.Perm.refl _⟩⟩) ?_
    have hsort : ([demoName].filter isMessage).mergeSort (· ≤ ·) = [demoName] := by
      rw [List.filter_cons_of_pos (by decide +kernel)]
      simp
    simp only [hsort]
    exact .done
  have hmessages : Program.Runs (Succeeds demo) demoPosted (demo.readMessages [demoName]).run demoPosted
      (.ok [(demoName, demoReport)]) := by
    refine Program.Runs.andThen (.op ⟨rfl, _, rfl, demo_file _ _⟩) ?_
    simp only [hread]
    exact .done
  refine Program.Runs.bind (Program.Runs.map_ok ?_) .done
  refine Program.Runs.andThen (b := ⟨[]⟩) (.bind (.op ⟨rfl, rfl⟩) .done) ?_
  refine Program.Runs.andThen hpending ?_
  refine Program.Runs.andThen hmessages ?_
  refine Program.Runs.andThen .done ?_
  refine Program.Runs.andThen (.andThen (.op ⟨rfl, rfl⟩) (.op ⟨rfl, _, rfl, rfl⟩)) ?_
  refine Program.Runs.andThen (.andThen (.bind (.op ⟨rfl, rfl⟩) .done) .done) ?_
  exact .done

def demoWorld : Interleaving.World Unit Shared (Program Op Op.Answer (List (Except Failure Value))) :=
  ⟨demoDrained, Function.update (fun _ => session demo [.drain .all]) ()
    (.done [.ok (.reports [demoReport])])⟩

/-- The report is posted, and then drained. -/
theorem demo_run : Interleaving.Run (Program.Moves (Succeeds demo)) (Posting (demo.usedNames demoDisk))
    ⟨⟨demoDisk, []⟩, fun _ => session demo [.drain .all]⟩ demoWorld := by
  have hwrite : Posting (demo.usedNames demoDisk) ⟨demoDisk, []⟩
      ⟨⟨none, none, AList.singleton ("." ++ demoName) (reportBytes demoReport), []⟩, []⟩ :=
    .write ("." ++ demoName) (reportBytes demoReport) (isMessage_hidden _)
  have hrename : Posting (demo.usedNames demoDisk)
      ⟨⟨none, none, AList.singleton ("." ++ demoName) (reportBytes demoReport), []⟩, []⟩ demoPosted :=
    .rename ("." ++ demoName) demoName (reportBytes demoReport) (isMessage_hidden _)
      (demo_file _ _) (isMessage_inboxFileName _ _) (by decide +kernel) (by decide +kernel)
  refine Relation.ReflTransGen.head (.outside hwrite) (Relation.ReflTransGen.head (.outside hrename) ?_)
  exact demo_runs.run () rfl

theorem demo_delivered :
    ∃ ys : List Sync, ys.map Sync.call = [.drain .all] ∧
      [.ok (.reports [demoReport])] = ys.map (fun y => (.ok y.value : Except Failure Value)) ∧
      Sync.Linked (demo.ledgerOf demoDisk).entries ys (demo.ledgerOf demoDrained.disk).entries ∧
      (∀ y ∈ ys, (y.arrivals.map Entry.source).Pairwise (· < ·)) ∧
      (ys.flatMap Sync.taken : Multiset Entry) + demo.unread demoDrained.disk =
        demo.unread demoDisk + demoDrained.posted.filterMap demo.arrival ∧
      ∀ m ∈ demoDrained.posted, ∀ e, demo.arrival m = some e →
        (ys.flatMap Sync.taken).count e + (demo.unread demoDrained.disk).count e = 1 :=
  reports_delivered_once compactJson_lawful demo_run rfl

end Inbox

end Ralph
