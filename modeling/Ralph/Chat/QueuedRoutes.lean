import Ralph.Chat.Leading
import Ralph.Chat.Queue

namespace Ralph.Chat
open ChatMemory

/-- What a route sends or runs, with the test of `prepare` for a leading `!`. -/
inductive Act
  | message (text : String)
  | cell (body : String)
  | other (route : Route)

def Route.act : Route → Act
  | .send message =>
    match bang message with
    | .plain => .message message
    | .send body | .local_ body => .cell body
  | route => .other route

/-- A cell, a switch or a thread command. -/
def Act.runsAlone : Act → Bool
  | .cell _ | .other (.shell _) | .other (.switch _ _) | .other (.threadOp _ _) => true
  | _ => false

/-- What one line does. -/
def lineAct (unread : ℕ) (empty : EmptySubmit) (targets : Finset String) (line : String) : Act :=
  (routeInput line unread empty targets).act

/-- What the queue does, one batch after the other. -/
def queueActs (unread : ℕ) (empty : EmptySubmit) (targets : Finset String) (entries : List String) : List Act :=
  (batches entries).map (lineAct unread empty targets)

/-- A line without the first `@` of `@@`. -/
def unescaped (line : String) : String :=
  match parseDirect line with
  | some (.escaped rest) => rest
  | _ => line

/-- The worker that a line goes to. -/
def addressee (line : String) : Option String :=
  match parseDirect line with
  | some (.message direct) => some direct.id
  | _ => none

theorem trim_trim (line : String) : trim (trim line) = trim line := by
  have hidem : ∀ cs : List Char, trimChars (trimChars cs) = trimChars cs := by
    intro cs
    have hfront : (trimChars cs).dropWhile isWhitespace = trimChars cs := by
      cases hcs : trimChars cs with
      | nil => rfl
      | cons c rest =>
        have hpre : c :: rest <+: cs.dropWhile isWhitespace := hcs ▸ List.rdropWhile_prefix _ _
        obtain ⟨t, ht⟩ := hpre
        have hhead := List.head?_dropWhile_not isWhitespace cs
        rw [← ht] at hhead
        rw [List.dropWhile_cons_of_neg (by simpa using hhead)]
    rw [trimChars, hfront, trimChars, List.rdropWhile_idempotent]
  rw [trim, trim, String.toList_ofList, hidem]

theorem hasText_joined {entries : List String} (h : ∃ e ∈ entries, HasText e) : HasText (joined entries) := by
  obtain ⟨e, he, htext⟩ := h
  obtain ⟨c, hc, hblank⟩ := hasText_iff.mp htext
  rw [hasText_iff]
  refine ⟨c, ?_, hblank⟩
  induction entries with
  | nil => cases he
  | cons first rest ih =>
    by_cases hrest : rest = []
    · subst hrest
      rw [List.mem_singleton] at he
      rwa [joined_singleton, ← he]
    · rw [joined_cons hrest, String.toList_append, String.toList_append, List.mem_append,
        List.mem_append]
      rcases List.mem_cons.mp he with rfl | he
      · exact Or.inl (Or.inl hc)
      · exact Or.inr (ih he)

/-- The text of the first entry, and behind a blank that of the others. -/
theorem trim_joined {first : String} {rest : List String} (hfirst : HasText first) (hrest : rest ≠ [])
    (htext : ∀ e ∈ rest, HasText e) :
    ∃ s, GoesOn s ∧ trim (joined (first :: rest)) = trim first ++ String.ofList s := by
  obtain ⟨e, he⟩ := List.exists_mem_of_ne_nil rest hrest
  obtain ⟨d, hd, hblank⟩ := hasText_iff.mp (hasText_joined ⟨e, he, htext e he⟩)
  let more := joinText.toList ++ (joined rest).toList
  have hmore : ∃ c ∈ more, isWhitespace c = false := ⟨d, List.mem_append_right _ hd, hblank⟩
  obtain ⟨w, hw, hfront⟩ := dropWhile_eq_trimChars_append first.toList
  have hback : more.rdropWhile isWhitespace =
      joinText.toList ++ (joined rest).toList.rdropWhile isWhitespace :=
    rdropWhile_append_of_text ⟨d, hd, hblank⟩ _
  refine ⟨w ++ more.rdropWhile isWhitespace, ⟨?_, ?_⟩, ?_⟩
  · rw [hback]
    cases w with
    | nil => exact ⟨_, _, rfl, by decide⟩
    | cons c w => exact ⟨c, _, rfl, hw c List.mem_cons_self⟩
  · obtain ⟨c, hc, hblank⟩ := exists_text_rdropWhile hmore
    exact ⟨c, List.mem_append_right _ hc, hblank⟩
  · rw [joined_cons hrest, trim, String.append_assoc, String.toList_append, String.toList_append,
      trimChars_append (hasText_iff.mp hfirst) hmore, hfront, trim, String.ofList_append,
      String.ofList_append, String.ofList_append, String.append_assoc]

section Append

variable {s : List Char} {targets : Finset String} {a line line' m : String}

theorem inboxRoute_ne_send (a m : String) : inboxRoute a ≠ .send m := by
  have hpos : ∀ (route : Inbox.Position → Route) n, (∀ p, route p ≠ .send m) →
      ((parsePosition n).map route).getD .inboxUsage ≠ .send m := by
    intro route n hroute
    cases parsePosition n with
    | none => simp
    | some p => exact hroute p
  unfold inboxRoute
  split
  all_goals first
    | exact hpos _ _ (fun _ => nofun)
    | exact nofun

theorem inboxRoute_runsAlone (a : String) : ((inboxRoute a).act).runsAlone = false := by
  have hpos : ∀ (route : Inbox.Position → Route) n, (∀ p, ((route p).act).runsAlone = false) →
      ((((parsePosition n).map route).getD .inboxUsage).act).runsAlone = false := by
    intro route n hroute
    cases parsePosition n with
    | none => rfl
    | some p => exact hroute p
  unfold inboxRoute
  split
  all_goals first
    | exact hpos _ _ (fun _ => rfl)
    | rfl

theorem parseCostsArgs_append {words more : List String} (hmore : more ≠ [])
    (h : parseCostsArgs words = none) : parseCostsArgs (words ++ more) = none := by
  have hlong (rest : List String) (hrest : rest ≠ []) : ∃ w w' rest', rest ++ more = w :: w' :: rest' := by
    obtain ⟨w, rest, rfl⟩ := List.exists_cons_of_ne_nil hrest
    obtain ⟨w', rest', hw'⟩ := List.exists_cons_of_ne_nil (List.append_ne_nil_of_right_ne_nil rest hmore)
    exact ⟨w, w', rest', by rw [List.cons_append, hw']⟩
  cases words with
  | nil => simp [parseCostsArgs] at h
  | cons first rest =>
    simp only [parseCostsArgs, List.cons_append] at h ⊢
    cases hview : parseView first with
    | none =>
      obtain ⟨w, w', rest', hwords⟩ := hlong (first :: rest) (List.cons_ne_nil _ _)
      rw [List.cons_append] at hwords
      simp only [hwords]
    | some view =>
      simp only [hview] at h ⊢
      have hrest : rest ≠ [] := by
        rintro rfl
        cases h
      obtain ⟨w, w', rest', hwords⟩ := hlong rest hrest
      rw [hwords]

theorem workersRoute_append (hs : GoesOn s) (h : workersRoute a line = .send m) :
    workersRoute (a ++ String.ofList s) line' = .send line' := by
  have hmore := splitWhitespace_ne_nil hs.text
  unfold workersRoute at h ⊢
  rw [splitWhitespace_append hs]
  cases hwords : splitWhitespace a with
  | nil =>
    rw [hwords] at h
    cases h
  | cons first rest =>
    simp only [hwords, List.cons_append] at h ⊢
    by_cases hcosts : first = "costs"
    · rw [if_pos hcosts] at h ⊢
      cases hargs : parseCostsArgs rest with
      | none => rw [parseCostsArgs_append hmore hargs]
      | some costs =>
        rw [hargs] at h
        cases h
    · rw [if_neg hcosts, if_neg (by simp [hmore])]

theorem holdRoute_append (hs : GoesOn s) (h : holdRoute a line targets = .send m) :
    holdRoute (a ++ String.ofList s) line' targets = .send line' := by
  have hparse : ∀ b, ∃ filter, HoldFilter.parse b = some filter := by
    intro b
    unfold HoldFilter.parse
    simp only
    split <;> exact ⟨_, rfl⟩
  obtain ⟨filter, hfilter⟩ := hparse a
  obtain ⟨filter', hfilter'⟩ := hparse (a ++ String.ofList s)
  have hlisted : (!(splitWhitespace a)[1]?.isSome || (splitWhitespace a).all (· ∈ targets)) = false := by
    by_contra hlisted
    rw [Bool.not_eq_false] at hlisted
    simp only [holdRoute, hfilter] at h
    rw [hlisted] at h
    cases h
  have hlisted' : (!(splitWhitespace (a ++ String.ofList s))[1]?.isSome ||
      (splitWhitespace (a ++ String.ofList s)).all (· ∈ targets)) = false := by
    rw [Bool.or_eq_false_iff, Bool.not_eq_false', splitWhitespace_append hs] at *
    refine ⟨?_, ?_⟩
    · obtain ⟨w, hw⟩ := Option.isSome_iff_exists.mp hlisted.1
      rw [List.getElem?_append_left (List.getElem?_eq_some_iff.mp hw).1, hw]
      rfl
    · rw [List.all_append, hlisted.2, Bool.false_and]
  simp only [holdRoute, hfilter', hlisted']
  rfl

theorem threadArg_append (hs : GoesOn s) (h : threadArg a = none) (ha : HasText a) :
    threadArg (a ++ String.ofList s) = none := by
  have hmore := splitWhitespace_ne_nil hs.text
  have hwords := splitWhitespace_ne_nil_iff.mpr ha
  unfold threadArg at h ⊢
  rw [splitWhitespace_append hs]
  split at h
  next word hword =>
    rw [hword]
    split
    next => simp_all
    next => rfl
  next hword =>
    split
    next word hlong =>
      rcases List.append_eq_singleton_iff.mp hlong with ⟨hnil, -⟩ | ⟨-, hnil⟩
      · exact absurd hnil hwords
      · exact absurd hnil hmore
    next => rfl

theorem parseMerge_append (hs : GoesOn s) (h : parseMerge a = none) (ha : HasText a)
    (hflag : ¬ ∃ word, splitWhitespace a = [word] ∧ isViewFlag word = true) :
    parseMerge (a ++ String.ofList s) = none := by
  have hwords := splitWhitespace_ne_nil_iff.mpr ha
  unfold parseMerge at h ⊢
  rw [splitWhitespace_append hs]
  simp only [List.partition_eq_filter_filter, List.filter_append] at h ⊢
  generalize splitWhitespace (String.ofList s) = more
  generalize splitWhitespace a = words at h hflag hwords
  have hflags : (words.filter isViewFlag).length ≤
      (words.filter isViewFlag ++ more.filter isViewFlag).length := by
    rw [List.length_append]
    omega
  split
  next word hword =>
    rcases List.append_eq_singleton_iff.mp hword with ⟨hnone, -⟩ | ⟨hone, -⟩
    · -- Nothing but flags before, and not one alone.
      have hall : words.filter isViewFlag = words := by
        rw [List.filter_eq_self]
        intro w hw
        have hnot := List.filter_eq_nil_iff.mp hnone w hw
        simpa using hnot
      rw [if_neg]
      intro hle
      have hlen : (words.filter isViewFlag).length ≤ 1 := hflags.trans hle
      rw [hall] at hlen
      obtain ⟨w, rfl⟩ := List.length_eq_one_iff.mp
        (le_antisymm hlen (List.length_pos_of_ne_nil hwords))
      exact hflag ⟨w, rfl, by simpa using hall⟩
    · rw [hone] at h
      simp only at h
      split_ifs at h with hle
      · rw [Option.map_eq_none_iff.mp h, Option.map_none]
        exact ite_self _
      · rw [if_neg fun hle' => hle (hflags.trans hle')]
  next => rfl

theorem parseThreadOp_append {c : Command} (hs : GoesOn s) (h : parseThreadOp c a = none)
    (hflag : ¬ (c = .merge ∧ ∃ word, splitWhitespace a = [word] ∧ isViewFlag word = true)) :
    parseThreadOp c (a ++ String.ofList s) = none := by
  have hlong : trim (a ++ String.ofList s) ≠ "" := by
    apply splitWhitespace_ne_nil_iff.mp
    rw [splitWhitespace_append hs]
    exact List.append_ne_nil_of_right_ne_nil _ (splitWhitespace_ne_nil hs.text)
  unfold parseThreadOp at h ⊢
  rw [if_neg hlong]
  by_cases ha : trim a = ""
  · rw [if_pos ha] at h
    cases c <;> first | rfl | cases h
  · rw [if_neg ha] at h
    cases c with
    | pull | park =>
      rw [Option.map_eq_none_iff, Option.map_eq_none_iff] at h
      simp only [threadArg_append hs h ha, Option.map_none]
    | merge =>
      rw [Option.map_eq_none_iff] at h
      simp only [parseMerge_append hs h ha fun hword => hflag ⟨rfl, hword⟩, Option.map_none]
    | _ => rfl

/-- A command that takes its line for plain text sends the line. -/
theorem commandRoute_send {c : Command} (h : commandRoute c a line targets = .send m) : m = line := by
  cases c with
  | workers =>
    rw [commandRoute, workersRoute] at h
    split at h
    next => cases h
    next first rest =>
      split_ifs at h
      · split at h <;> cases h
        rfl
      · cases h
        rfl
  | hold =>
    rw [commandRoute, holdRoute] at h
    split at h <;> cases h
    rfl
  | inbox => exact absurd h (inboxRoute_ne_send _ _)
  | threads | pull | park | merge =>
    simp only [commandRoute] at h
    split at h <;> cases h
    rfl
  | _ => simp [commandRoute] at h

theorem commandRoute_append {c : Command} (hs : GoesOn s) (h : commandRoute c a line targets = .send m)
    (hflag : ¬ (c = .merge ∧ ∃ word, splitWhitespace a = [word] ∧ isViewFlag word = true)) :
    commandRoute c (a ++ String.ofList s) line' targets = .send line' := by
  cases c with
  | workers => exact workersRoute_append hs h
  | hold => exact holdRoute_append hs h
  | inbox => exact absurd h (inboxRoute_ne_send _ _)
  | threads | pull | park | merge =>
    simp only [commandRoute] at h ⊢
    split at h
    next hop => rw [parseThreadOp_append hs hop hflag]
    next => cases h
  | _ => simp [commandRoute] at h

theorem startsWith_append (hs : GoesOn s) {p : Char → Bool} (hp : ∀ c, isWhitespace c = true → p c = false)
    (r : String) : startsWith (r ++ String.ofList s) p = startsWith r p := by
  obtain ⟨c, t, rfl, hc⟩ := hs.blank
  rw [startsWith, startsWith, String.toList_append, String.toList_ofList]
  cases r.toList with
  | nil => simp [hp c hc]
  | cons d r => rfl

theorem takeWhile_append (hs : GoesOn s) (r : List Char) :
    (r ++ s).takeWhile (fun c => !isWhitespace c) = r.takeWhile fun c => !isWhitespace c := by
  obtain ⟨c, t, rfl, hc⟩ := hs.blank
  induction r with
  | nil => simp [hc]
  | cons d r ih => simp [List.takeWhile_cons, ih]

/-- A longer line is a message to the same worker, escaped, or neither, like the line. -/
theorem parseDirect_append (hs : GoesOn s) (hlong : trim line' = trim line ++ String.ofList s) :
    (parseDirect line = none → parseDirect line' = none) ∧
      (∀ rest, parseDirect line = some (.escaped rest) →
        parseDirect line' = some (.escaped (rest ++ String.ofList s))) ∧
      ∀ direct, parseDirect line = some (.message direct) →
        ∃ text, parseDirect line' = some (.message ⟨direct.id, text⟩) := by
  have hblank : isWhitespace '@' = false := by decide
  have hat : ∀ c, isWhitespace c = true → (fun c => Decidable.decide (c = '@')) c = false := by
    intro c hc
    rw [decide_eq_false_iff_not]
    rintro rfl
    rw [hblank] at hc
    cases hc
  rw [parseDirect, parseDirect, hlong, stripPrefix_append (not_blank_of_all (by decide)) hs]
  cases stripPrefix (trim line) "@" with
  | none => exact ⟨fun _ => rfl, nofun, nofun⟩
  | some rest =>
    simp only [Option.map_some, startsWith_append hs hat, String.toList_append, String.toList_ofList,
      takeWhile_append hs]
    split_ifs with hescaped hid
    · refine ⟨nofun, ?_, nofun⟩
      rintro _ ⟨⟩
      rfl
    · exact ⟨fun _ => rfl, nofun, nofun⟩
    · refine ⟨nofun, nofun, ?_⟩
      rintro _ ⟨⟩
      exact ⟨_, rfl⟩

theorem addressee_append (hs : GoesOn s) (hlong : trim line' = trim line ++ String.ofList s) :
    addressee line' = addressee line := by
  obtain ⟨hnone, hescaped, hmessage⟩ := parseDirect_append hs hlong
  cases h : parseDirect line with
  | none => rw [addressee, addressee, hnone h, h]
  | some direct =>
    cases direct with
    | escaped rest => rw [addressee, addressee, hescaped rest h, h]
    | message direct =>
      obtain ⟨text, htext⟩ := hmessage direct h
      rw [addressee, addressee, htext, h]

end Append

/-- A lone `!` or `!!`. -/
def IsBareBang (line : String) : Prop := trim line = "!" ∨ trim line = "!!"

/-- `/merge` with a flag and no name. -/
def IsBareMerge (line : String) : Prop :=
  ∃ args word, Command.merge.args (trim line) = some args ∧ splitWhitespace args = [word] ∧
    isViewFlag word = true

theorem bang_eq_plain_of_head {line : String} (h : line.toList.head? ≠ some '!') : bang line = .plain := by
  have hstrip : stripPrefix line "!" = none := by
    rw [stripPrefix, if_neg]
    rw [List.isPrefixOf_iff_prefix]
    rintro ⟨t, ht⟩
    rw [← ht] at h
    exact h rfl
  rw [bang, hstrip]

theorem act_eq_message {route : Route} {m : String} (h : route.act = .message m) :
    route = .send m ∧ bang m = .plain := by
  unfold Route.act at h
  split at h
  next message =>
    split at h
    next hbang =>
      cases h
      exact ⟨rfl, hbang⟩
    next => cases h
    next => cases h
  next => cases h

theorem act_send {m : String} (h : bang m = .plain) : (Route.send m).act = .message m := by
  rw [Route.act, h]

theorem head_of_leading {line args : String} {c : Command} (h : Command.leading line = some (c, args)) :
    line.toList.head? = some '/' := by
  obtain ⟨hline, -⟩ := Command.args_eq_some (Command.leading_eq_some.mp h)
  have hname : c.name.toList.head? = some '/' := by cases c <;> decide
  obtain ⟨cs, hcs⟩ := List.head?_eq_some_iff.mp hname
  rw [hline, hcs]
  rfl

/-- A trimmed text does not end with blanks. -/
theorem eq_nil_of_blank {line : String} (front : List Char) {back : List Char} (h : (trim line).toList = front ++ back)
    (hback : ∀ c ∈ back, isWhitespace c = true) : back = [] := by
  by_contra hne
  rw [trim, String.toList_ofList, trimChars] at h
  have hlast := List.rdropWhile_last_not isWhitespace (line.toList.dropWhile isWhitespace)
  have hends : front ++ back ≠ [] := List.append_ne_nil_of_right_ne_nil _ hne
  have hmem := hback _ (List.getLast_mem hne)
  simp only [h] at hlast
  apply hlast hends
  rwa [List.getLast_append_of_ne_nil _ hne]

/-- A line that begins with `!` and runs nothing has nothing more. -/
theorem isBareBang_of_plain {line : String} (h : bang (trim line) = .plain)
    (hhead : (trim line).toList.head? = some '!') : IsBareBang line := by
  obtain ⟨cs, hcs⟩ := List.head?_eq_some_iff.mp hhead
  have hblank : ∀ text : String, ¬ HasText text → ∀ c ∈ text.toList, isWhitespace c = true := by
    intro text htext c hc
    rw [hasText_iff] at htext
    by_contra hnot
    exact htext ⟨c, hc, by simpa using hnot⟩
  have hstrip : stripPrefix (trim line) "!" = some (String.ofList cs) :=
    stripPrefix_eq_some_iff.mpr (by rw [hcs, String.toList_ofList]; simp)
  rw [bang, hstrip] at h
  cases hsecond : stripPrefix (String.ofList cs) "!" with
  | none =>
    simp only [hsecond] at h
    have hempty : ¬ HasText (String.ofList cs) := by
      intro htext
      rw [if_pos (show trim (String.ofList cs) ≠ "" from htext)] at h
      cases h
    have hnil := hblank _ hempty
    rw [String.toList_ofList] at hnil
    have hcs' := eq_nil_of_blank ['!'] hcs hnil
    exact .inl (by rw [← String.toList_inj, hcs, hcs']; rfl)
  | some body =>
    simp only [hsecond] at h
    have hempty : ¬ HasText body := by
      intro htext
      rw [if_pos (show trim body ≠ "" from htext)] at h
      cases h
    rw [stripPrefix_eq_some_iff, String.toList_ofList] at hsecond
    rw [hsecond] at hcs
    have hbody := eq_nil_of_blank ['!', '!'] hcs (hblank _ hempty)
    exact .inr (by rw [← String.toList_inj, hcs, hbody]; rfl)

theorem parseDirect_eq_none_of_head {line : String} (h : (trim line).toList.head? ≠ some '@') :
    parseDirect line = none := by
  have hstrip : stripPrefix (trim line) "@" = none := by
    rw [stripPrefix, if_neg]
    rw [List.isPrefixOf_iff_prefix]
    rintro ⟨t, ht⟩
    rw [← ht] at h
    exact h rfl
  rw [parseDirect, hstrip]

theorem parseDirect_trim (line : String) : parseDirect (trim line) = parseDirect line := by
  rw [parseDirect, parseDirect, trim_trim]

theorem unescaped_of_none {line : String} (h : parseDirect line = none) :
    unescaped (trim line) = trim line := by
  rw [unescaped, parseDirect_trim, h]

theorem head_of_escaped {line rest : String} (h : parseDirect line = some (.escaped rest)) :
    rest.toList.head? = some '@' := by
  rw [parseDirect] at h
  split at h
  next => cases h
  next =>
    split_ifs at h with hat
    · cases h
      rw [startsWith] at hat
      cases hhead : rest.toList.head? with
      | none =>
        rw [hhead] at hat
        cases hat
      | some c =>
        rw [hhead] at hat
        simpa using hat
    · simp only at h
      split_ifs at h
      cases h

section Run

variable (unread : ℕ) (empty : EmptySubmit) (targets : Finset String)

/-- What one line leads to, a longer line with the same beginning leads to as well. -/
structure ReadsAs (first line : String) : Prop where
  command : (Command.leading (trim line)).map Prod.fst = (Command.leading (trim first)).map Prod.fst
  worker : addressee line = addressee first
  plain : ∀ m, lineAct unread empty targets first = .message m → ¬ IsBareBang first → ¬ IsBareMerge first →
    lineAct unread empty targets line = .message (unescaped (trim line))

variable {unread empty targets} {s : List Char} {first line : String}

theorem not_mid_turn (h : (routeInput first unread empty targets).runsMidTurn = false) :
    Command.help.args (trim first) = none ∧ Command.config.args (trim first) = none := by
  have hnone : ∀ c : Command, (∀ a l, (commandRoute c a l targets).runsMidTurn = true) →
      c.args (trim first) = none := by
    intro c hc
    cases hargs : c.args (trim first) with
    | none => rfl
    | some a =>
      rw [routeInput, Command.leading_eq_some.mpr hargs] at h
      simp only [hc] at h
      cases h
  exact ⟨hnone .help fun _ _ => rfl, hnone .config fun _ _ => rfl⟩

/-- The text of a line that is sent as it is. -/
theorem message_eq (htext : HasText line) {m : String} (hm : lineAct unread empty targets line = .message m) :
    m = unescaped (trim line) := by
  obtain ⟨hroute, -⟩ := act_eq_message hm
  rw [routeInput] at hroute
  cases hlead : Command.leading (trim line) with
  | some p =>
    obtain ⟨c, a⟩ := p
    simp only [hlead] at hroute
    have hdirect : parseDirect line = none :=
      parseDirect_eq_none_of_head (by rw [head_of_leading hlead]; decide)
    rw [unescaped_of_none hdirect]
    exact commandRoute_send hroute
  | none =>
    simp only [hlead, plainRoute, parseDirect_trim] at hroute
    cases hdirect : parseDirect line with
    | none =>
      rw [unescaped_of_none hdirect]
      simp only [hdirect, if_neg htext] at hroute
      split at hroute <;> cases hroute
      rfl
    | some direct =>
      rw [hdirect] at hroute
      cases direct with
      | message direct => cases hroute
      | escaped rest =>
        cases hroute
        simp only [unescaped, parseDirect_trim, hdirect]

/-- Plain text that goes on is plain text. -/
theorem message_of_append (hs : GoesOn s) (hlong : trim line = trim first ++ String.ofList s)
    (hfirst : HasText first) (hlead : Command.leading (trim line) =
      (Command.leading (trim first)).map fun p => (p.1, p.2 ++ String.ofList s))
    {m : String} (hm : lineAct unread empty targets first = .message m) (hbang : ¬ IsBareBang first)
    (hmerge : ¬ IsBareMerge first) : ∃ m', lineAct unread empty targets line = .message m' := by
  obtain ⟨hroute, hplain⟩ := act_eq_message hm
  rw [routeInput] at hroute
  cases hc : Command.leading (trim first) with
  | some p =>
    obtain ⟨c, a⟩ := p
    rw [hc, Option.map_some] at hlead
    simp only [hc] at hroute
    -- only `merge` reads its argument as a flag, so any other command keeps its route
    have hflag : ¬ (c = .merge ∧ ∃ word, splitWhitespace a = [word] ∧ isViewFlag word = true) := by
      rintro ⟨rfl, word, hword, hview⟩
      exact hmerge ⟨a, word, Command.leading_eq_some.mp hc, hword, hview⟩
    have hhead := head_of_leading hlead
    have hsend : routeInput line unread empty targets = .send (trim line) := by
      simp only [routeInput, hlead, commandRoute_append hs hroute hflag]
    rw [lineAct, hsend]
    exact ⟨_, act_send (bang_eq_plain_of_head (by rw [hhead]; decide))⟩
  | none =>
    rw [hc, Option.map_none] at hlead
    simp only [hc, plainRoute, parseDirect_trim] at hroute
    have hline : lineAct unread empty targets line = (plainRoute (trim line) unread empty).act := by
      simp only [lineAct, routeInput, hlead]
    rw [hline, plainRoute, parseDirect_trim]
    obtain ⟨hnone, hescaped, -⟩ := parseDirect_append hs hlong
    cases hdirect : parseDirect first with
    | none =>
      have hempty : trim line ≠ "" := by
        rw [hlong]
        intro h
        exact hfirst (String.append_eq_empty_iff.mp h).1
      have hplain : bang (trim first) = .plain := by
        simp only [hdirect, if_neg hfirst] at hroute
        split at hroute <;> cases hroute
        exact hplain
      -- a bare bang alone would become a shell line
      have hhead : (trim line).toList.head? ≠ some '!' := by
        intro hhead
        have hne : (trim first).toList ≠ [] := by
          rwa [ne_eq, ← String.toList_empty, String.toList_inj]
        rw [hlong, String.toList_append, List.head?_append_of_ne_nil _ hne] at hhead
        exact hbang (isBareBang_of_plain hplain hhead)
      have hbang' := bang_eq_plain_of_head hhead
      rw [hnone hdirect]
      simp only [if_neg hempty, hbang']
      exact ⟨_, act_send hbang'⟩
    | some direct =>
      cases direct with
      | message direct =>
        rw [hdirect] at hroute
        cases hroute
      | escaped rest =>
        have hlonger := hescaped rest hdirect
        have hhead := head_of_escaped hlonger
        rw [hlonger]
        exact ⟨_, act_send (bang_eq_plain_of_head (by rw [hhead]; decide))⟩

/-- What is typed in one entry or in several reads as its first entry does. -/
theorem readsAs_joined {rest : List String} (hfirst : HasText first) (htext : ∀ e ∈ rest, HasText e)
    (hturn : (routeInput first unread empty targets).runsMidTurn = false) :
    ReadsAs unread empty targets first (joined (first :: rest)) := by
  by_cases hrest : rest = []
  · rw [hrest, joined_singleton]
    refine ⟨rfl, rfl, fun m hm _ _ => ?_⟩
    rw [hm, message_eq hfirst hm]
  · obtain ⟨s, hs, hlong⟩ := trim_joined hfirst hrest htext
    obtain ⟨hhelp, hconfig⟩ := not_mid_turn hturn
    have hlead := Command.leading_append hs hhelp hconfig
    rw [← hlong] at hlead
    refine ⟨?_, addressee_append hs hlong, fun m hm hbang hmerge => ?_⟩
    · rw [hlead, Option.map_map]
      rfl
    · obtain ⟨m', hm'⟩ := message_of_append hs hlong hfirst hlead hm hbang hmerge
      rw [hm', message_eq (hasText_joined ⟨first, List.mem_cons_self, hfirst⟩) hm']

theorem isCellCommand_eq {c : Command} {a : String} (h : c.args line = some a) :
    isCellCommand line = match c with
      | .thread | .main => true
      | .threads | .pull | .park | .merge => (parseThreadOp c a).isSome
      | _ => false := by
  have hargs : ∀ d : Command, d.args line = if d = c then some a else none := by
    intro d
    split_ifs with hd
    · rw [hd, h]
    · cases hargs : d.args line with
      | none => rfl
      | some b => exact absurd (Command.args_unique hargs h) hd
  cases c <;> simp [isCellCommand, hargs]

theorem commandRoute_runsAlone {c : Command} {a : String} (h : c.args line = some a) :
    ((commandRoute c a line targets).act).runsAlone = isCellCommand line := by
  have hbang : bang line = .plain :=
    bang_eq_plain_of_head (by rw [head_of_leading (Command.leading_eq_some.mpr h)]; decide)
  have hsend : ((Route.send line).act).runsAlone = false := by
    rw [act_send hbang]
    rfl
  rw [isCellCommand_eq h]
  cases c with
  | threads | pull | park | merge =>
    simp only [commandRoute]
    cases parseThreadOp _ a with
    | none => exact hsend
    | some op => rfl
  | workers =>
    rw [commandRoute, workersRoute]
    split
    next => rfl
    next =>
      split_ifs
      · split
        next => rfl
        next => exact hsend
      · rfl
      · exact hsend
  | hold =>
    rw [commandRoute, holdRoute]
    split
    next => rfl
    next => exact hsend
  | inbox => exact inboxRoute_runsAlone a
  | _ => rfl

/-- The test of the queue agrees with the router and the test for a cell. -/
theorem isCell_eq_runsAlone {entry : String} (htext : HasText entry) :
    isCell entry = (lineAct unread empty targets entry).runsAlone := by
  rw [isCell]
  cases hlead : Command.leading (trim entry) with
  | some p =>
    obtain ⟨c, a⟩ := p
    have hbang : bang (trim entry) = .plain :=
      bang_eq_plain_of_head (by rw [head_of_leading hlead]; decide)
    have hroute : routeInput entry unread empty targets = commandRoute c a (trim entry) targets := by
      simp only [routeInput, hlead]
    rw [lineAct, hroute, commandRoute_runsAlone (Command.leading_eq_some.mp hlead)]
    simp [hbang]
  | none =>
    have hcommand : isCellCommand (trim entry) = false := by
      have hargs : ∀ d : Command, d.args (trim entry) = none := by
        intro d
        cases hargs : d.args (trim entry) with
        | none => rfl
        | some b =>
          rw [← Command.leading_eq_some, hlead] at hargs
          cases hargs
      simp [isCellCommand, hargs]
    have hroute : routeInput entry unread empty targets = plainRoute (trim entry) unread empty := by
      simp only [routeInput, hlead]
    rw [hcommand, Bool.or_false, lineAct, hroute, plainRoute, parseDirect_trim]
    cases hdirect : parseDirect entry with
    | some direct =>
      have hbang : bang (trim entry) = .plain := by
        apply bang_eq_plain_of_head
        intro hhead
        rw [parseDirect_eq_none_of_head (by rw [hhead]; decide)] at hdirect
        cases hdirect
      cases direct with
      | message direct => simp [hbang, Route.act, Act.runsAlone]
      | escaped rest =>
        have hhead : rest.toList.head? ≠ some '!' := by
          rw [head_of_escaped hdirect]
          decide
        have hrest := bang_eq_plain_of_head hhead
        simp only [hbang, act_send hrest]
        rfl
    | none =>
      simp only [if_neg htext]
      cases hbang : bang (trim entry) with
      | plain =>
        simp only [act_send hbang]
        rfl
      | send body => simp [Route.act, hbang, Act.runsAlone]
      | local_ body => simp [Route.act, Act.runsAlone]

/-- The runs of the queue in typed order, each with what it leads to: an entry that runs alone is
one for itself, and the longest runs of the others read as their first entry. -/
theorem queued_entries_act {entries : List String}
    (h : ∀ e ∈ entries, HasText e ∧ (routeInput e unread empty targets).runsMidTurn = false) :
    queueActs unread empty targets entries =
        (runs entries).map (fun run => lineAct unread empty targets (joined run)) ∧
      (runs entries).flatten = entries ∧
      (∀ run ∈ runs entries, ∀ e ∈ run,
        (lineAct unread empty targets e).runsAlone = true → run = [e]) ∧
      (runs entries).IsChain (fun a b =>
        ∃ e, (e ∈ a ∨ e ∈ b) ∧ (lineAct unread empty targets e).runsAlone = true) ∧
      ∀ run ∈ runs entries, ∃ first rest, run = first :: rest ∧
        ReadsAs unread empty targets first (joined run) := by
  have hmem : ∀ run ∈ runs entries, ∀ e ∈ run,
      HasText e ∧ (routeInput e unread empty targets).runsMidTurn = false := by
    intro run hrun e he
    apply h
    rw [← List.flatten_splitBy (fun a b => !isCell a && !isCell b) entries]
    exact List.mem_flatten_of_mem hrun he
  have hcell : ∀ run ∈ runs entries, ∀ e ∈ run,
      isCell e = (lineAct unread empty targets e).runsAlone :=
    fun run hrun e he => isCell_eq_runsAlone (hmem run hrun e he).1
  refine ⟨?_, List.flatten_splitBy _ _, fun run hrun e he halone => ?_, ?_, fun run hrun => ?_⟩
  · rw [queueActs, batches_eq, List.map_map]
    rfl
  · apply (isCell_of_mem_runs hrun he).resolve_right
    rw [hcell run hrun e he, halone]
    decide
  · refine List.IsChain.imp_of_mem_imp ?_ (isChain_runs entries)
    rintro a b ha hb ⟨e, he, hcelle⟩
    refine ⟨e, he, ?_⟩
    rcases he with he | he
    · rw [← hcell a ha e he, hcelle]
    · rw [← hcell b hb e he, hcelle]
  · cases run with
    | nil => exact absurd rfl (List.ne_nil_of_mem_splitBy hrun)
    | cons first rest =>
      have hfirst := hmem _ hrun first List.mem_cons_self
      exact ⟨first, rest, rfl, readsAs_joined hfirst.1
        (fun e he => (hmem _ hrun e (List.mem_cons_of_mem _ he)).1) hfirst.2⟩

end Run

/-- A queue with a cell between plain lines, and one with a command before a plain line. -/
theorem demo_queue_acts :
    queueActs 0 .inbox ∅ ["fix the test", "!ls", "run it", "then stop"] =
        (runs ["fix the test", "!ls", "run it", "then stop"]).map
          (fun run => lineAct 0 .inbox ∅ (joined run)) ∧
      (runs ["fix the test", "!ls", "run it", "then stop"]).flatten =
        ["fix the test", "!ls", "run it", "then stop"] := by
  have hentries : ∀ e ∈ ["fix the test", "!ls", "run it", "then stop"],
      HasText e ∧ (routeInput e 0 .inbox ∅).runsMidTurn = false := by decide +kernel
  obtain ⟨hacts, hflat, -⟩ := queued_entries_act hentries
  exact ⟨hacts, hflat⟩

/-- An entry that is plain text by itself. -/
def IsPlain (unread : ℕ) (empty : EmptySubmit) (targets : Finset String) (entry : String) : Bool :=
  match lineAct unread empty targets entry with
  | .message _ => true
  | _ => false

/-- Each command and each cell by itself, and between them the plain entries in one message. -/
def ownActs (unread : ℕ) (empty : EmptySubmit) (targets : Finset String) (entries : List String) : List Act :=
  let plain := IsPlain unread empty targets
  (entries.splitBy fun a b => plain a && plain b).map fun run =>
    if run.all plain then .message (joined run) else lineAct unread empty targets (joined run)

/-- The line behind a `/nudge` becomes the text of the nudge. -/
theorem nudge_takes_next_entry : ¬ ∀ entries : List String,
    (∀ e ∈ entries, HasText e ∧ (routeInput e 0 .inbox ∅).runsMidTurn = false) →
    queueActs 0 .inbox ∅ entries = ownActs 0 .inbox ∅ entries := by
  intro h
  have hacts := congrArg List.length (h ["/nudge GUZ-1", "fix the test"] (by decide +kernel))
  rw [queueActs, batches_eq, List.length_map, List.length_map, ownActs, List.length_map] at hacts
  revert hacts
  decide +kernel

end Ralph.Chat
