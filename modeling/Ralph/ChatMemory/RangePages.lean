import Ralph.ChatMemory.ArchiveReads

namespace Ralph.ChatMemory
open Fallible

/-- A shown block: `count` characters of `text`, the view of an entry. -/
structure Part where
  slice : Slice
  text : String
  count : ℕ

namespace Part

def render (p : Part) : String := p.slice.block p.text p.count

/-- The text part of a block, with its entry's id. -/
def shown (p : Part) : ℕ × List Char :=
  (p.slice.index, (p.text.toList.drop p.slice.offset).take p.count)

end Part

/-- Puts one text part before joined ones: a part of the same entry joins the first of them. -/
def joinPart (part : ℕ × List Char) : List (ℕ × List Char) → List (ℕ × List Char)
  | [] => [part]
  | next :: rest =>
    if next.1 = part.1 then (part.1, part.2 ++ next.2) :: rest else part :: next :: rest

/-- Text parts joined per entry. -/
def joinParts (parts : List (ℕ × List Char)) : List (ℕ × List Char) := parts.foldr joinPart []

theorem joinParts_append (xs ys : List (ℕ × List Char)) :
    joinParts (xs ++ ys) = xs.foldr joinPart (joinParts ys) := List.foldr_append

theorem joinPart_joinPart (i : ℕ) (a b : List Char) (rest : List (ℕ × List Char)) :
    joinPart (i, a) (joinPart (i, b) rest) = joinPart (i, a ++ b) rest := by
  cases rest with
  | nil => simp [joinPart]
  | cons next rest =>
    by_cases h : next.1 = i <;> simp [joinPart, h]

/-- Parts of different entries stay as they are. -/
theorem joinParts_of_pairwise {parts : List (ℕ × List Char)}
    (h : parts.Pairwise fun a b => a.1 < b.1) : joinParts parts = parts := by
  induction parts with
  | nil => rfl
  | cons part parts ih =>
    rw [List.pairwise_cons] at h
    have hrest := ih h.2
    rw [joinParts] at hrest ⊢
    rw [List.foldr_cons, hrest]
    cases parts with
    | nil => rfl
    | cons next rest =>
      have hlt := h.1 next (by simp)
      rw [joinPart, if_neg (by omega)]

namespace Cursor

/-- What a traversal from the cursor on still has to show. -/
def rest (text : ℕ → String) (c : Cursor) : List (ℕ × List Char) :=
  if c.next < c.stop then
    (c.next, (text c.next).toList.drop c.offset) ::
      (List.range' (c.next + 1) (c.stop - (c.next + 1))).map fun i => (i, (text i).toList)
  else []

/-- The cursor stands inside an entry's text, or before it. -/
def Inside (text : ℕ → String) (c : Cursor) : Prop :=
  c.offset = 0 ∨ c.offset < (text c.next).length

/-- Strictly earlier in the chat. -/
def Before (c d : Cursor) : Prop := c.next < d.next ∨ (c.next = d.next ∧ c.offset < d.offset)

theorem Before.trans {c d e : Cursor} (h : c.Before d) (h' : d.Before e) : c.Before e := by
  unfold Before at *
  omega

/-- The characters left to show, and one more for each entry. -/
def weight (text : ℕ → String) (c : Cursor) : ℕ :=
  ((c.rest text).map fun part => part.2.length + 1).sum

theorem rest_nextEntry {text : ℕ → String} {c : Cursor} (hlt : c.next < c.stop) :
    c.rest text = (c.next, (text c.next).toList.drop c.offset) ::
      (Page.nextEntry c).rest text := by
  rw [rest, if_pos hlt, rest]
  simp only [Page.nextEntry, List.drop_zero]
  congr 1
  split_ifs with h
  · have hlen : c.stop - (c.next + 1) = (c.stop - (c.next + 1 + 1)) + 1 := by omega
    rw [hlen, List.range'_succ, List.map_cons]
  · rw [show c.stop - (c.next + 1) = 0 by omega]
    rfl

/-- Showing a first part of an entry moves its characters from what is left to what is shown. -/
theorem joinParts_rest_offset {text : ℕ → String} {c : Cursor} (hlt : c.next < c.stop) (count : ℕ) :
    joinParts ((c.next, ((text c.next).toList.drop c.offset).take count) ::
        ({ c with offset := c.offset + count } : Cursor).rest text) =
      joinParts (c.rest text) := by
  rw [rest, rest, if_pos hlt, if_pos (by exact hlt)]
  simp only [joinParts, List.foldr_cons]
  rw [joinPart_joinPart, ← List.drop_drop, List.take_append_drop]

end Cursor

/-- The text that a read in `mode` shows for each entry. -/
def viewOf (entries : List Entry) (tree : Tree) (mode : Mode) (i : ℕ) : String :=
  viewText entries[i]! tree i mode

/-- A block shows characters of the view of its entry. -/
def Part.Of (entries : List Entry) (text : ℕ → String) (p : Part) : Prop :=
  entries[p.slice.index]? = some p.slice.entry ∧ p.text = text p.slice.index ∧
    p.slice.total = p.text.length

/-- Going from cursor `c` to cursor `d` shows `parts`. -/
structure Shows (entries : List Entry) (text : ℕ → String) (c d : Cursor) (parts : List Part) :
    Prop where
  stop : d.stop = c.stop
  mode : d.mode = c.mode
  inside : d.Inside text
  partsOf : ∀ p ∈ parts, p.Of entries text
  joined : joinParts (parts.map Part.shown ++ d.rest text) = joinParts (c.rest text)
  weight : d.weight text + parts.length ≤ c.weight text
  moved : (parts = [] ∧ d = c) ∨ (parts ≠ [] ∧ c.Before d)

section Shows
variable {entries : List Entry} {text : ℕ → String} {c d e : Cursor} {parts : List Part}

theorem Shows.refl (h : c.Inside text) : Shows entries text c c [] where
  stop := rfl
  mode := rfl
  inside := h
  partsOf := by simp
  joined := rfl
  weight := le_rfl
  moved := .inl ⟨rfl, rfl⟩

theorem Shows.snoc {p : Part} (h : Shows entries text c d parts)
    (h' : Shows entries text d e [p]) : Shows entries text c e (parts ++ [p]) where
  stop := h'.stop.trans h.stop
  mode := h'.mode.trans h.mode
  inside := h'.inside
  partsOf := by
    intro q hq
    rcases List.mem_append.mp hq with hq | hq
    · exact h.partsOf q hq
    · exact h'.partsOf q hq
  joined := by
    rw [List.map_append, List.append_assoc, joinParts_append, h'.joined, ← joinParts_append,
      h.joined]
  weight := by
    have hc := h.weight
    have hd := h'.weight
    simp only [List.length_append, List.length_singleton] at hd ⊢
    omega
  moved := by
    have hlast : d.Before e := by
      rcases h'.moved with ⟨hnil, -⟩ | ⟨-, hmoved⟩
      · simp at hnil
      · exact hmoved
    refine .inr ⟨by simp, ?_⟩
    rcases h.moved with ⟨-, rfl⟩ | ⟨-, hmoved⟩
    · exact hlast
    · exact hmoved.trans hlast

/-- The part of the entry at a cursor that a page shows next. -/
def partAt (entry : Entry) (text : String) (c : Cursor) (count : ℕ) : Part :=
  ⟨⟨c.next, entry, text.length, c.offset⟩, text, count⟩

theorem partAt_of {entry : Entry} (hentry : entries[c.next]? = some entry) (count : ℕ) :
    (partAt entry (text c.next) c count).Of entries text := ⟨hentry, rfl, rfl⟩

theorem shows_whole {entry : Entry} (hentry : entries[c.next]? = some entry)
    (hlt : c.next < c.stop) :
    Shows entries text c (Page.nextEntry c)
      [partAt entry (text c.next) c ((text c.next).length - c.offset)] where
  stop := rfl
  mode := rfl
  inside := .inl rfl
  partsOf := by simpa using partAt_of hentry _
  joined := by
    rw [Cursor.rest_nextEntry hlt, List.map_singleton, List.singleton_append, Part.shown]
    simp only [partAt]
    rw [List.take_of_length_le]
    rw [List.length_drop, String.length_toList]
  weight := by
    simp only [Cursor.weight]
    rw [Cursor.rest_nextEntry hlt]
    simp only [List.map_cons, List.sum_cons, List.length_singleton]
    omega
  moved := .inr ⟨by simp, .inl (Nat.lt_succ_self _)⟩

theorem shows_part {entry : Entry} (hentry : entries[c.next]? = some entry)
    (hlt : c.next < c.stop) {count : ℕ} (hpos : 0 < count)
    (hcount : c.offset + count < (text c.next).length) :
    Shows entries text c { c with offset := c.offset + count }
      [partAt entry (text c.next) c count] where
  stop := rfl
  mode := rfl
  inside := .inr hcount
  partsOf := by simpa using partAt_of hentry count
  joined := Cursor.joinParts_rest_offset hlt count
  weight := by
    simp only [Cursor.weight, Cursor.rest, if_pos hlt, List.map_cons, List.sum_cons,
      List.length_drop, List.length_singleton]
    rw [String.length] at hcount
    omega
  moved := .inr ⟨by simp, .inr ⟨rfl, Nat.lt_add_of_pos_right hpos⟩⟩

end Shows

theorem Slice.fitting_le (room used : ℕ) (cs : List Char) : fitting room used cs ≤ cs.length := by
  induction cs generalizing used with
  | nil => exact le_rfl
  | cons c cs ih =>
    rw [fitting]
    split_ifs
    · exact Nat.succ_le_succ (ih _)
    · exact Nat.zero_le _

theorem shows_showPart {entries : List Entry} {text : ℕ → String} {entry : Entry} {p : Page}
    (hentry : entries[p.cursor.next]? = some entry) (hlt : p.cursor.next < p.cursor.stop)
    {count : ℕ} (hpos : 0 < count) (hcount : count ≤ (text p.cursor.next).length - p.cursor.offset) :
    Shows entries text p.cursor (p.showPart ⟨p.cursor.next, entry, (text p.cursor.next).length,
      p.cursor.offset⟩ (text p.cursor.next) count).cursor
      [partAt entry (text p.cursor.next) p.cursor count] := by
  simp only [Page.showPart]
  split_ifs with hall
  · rw [hall]
    exact shows_whole hentry hlt
  · exact shows_part hentry hlt hpos (by omega)

/-- What one round does: it shows the rest of the entry and goes on, or shows a part of it and
ends the page, or ends a page that holds a block already. -/
theorem roundOf_cases {entries : List Entry} {text : ℕ → String} {entry : Entry} {p : Page}
    (hentry : entries[p.cursor.next]? = some entry) (hlt : p.cursor.next < p.cursor.stop)
    (hinside : p.cursor.Inside text) :
    (∃ (q : Page) (part : Part), Page.roundOf entry (text p.cursor.next) p = .inl q ∧
        q.blocks = p.blocks ++ [part.render] ∧ Shows entries text p.cursor q.cursor [part]) ∨
    (∃ (q : Page) (part : Part), Page.roundOf entry (text p.cursor.next) p = .inr q.finish ∧
        q.blocks = p.blocks ++ [part.render] ∧ Shows entries text p.cursor q.cursor [part]) ∨
    (Page.roundOf entry (text p.cursor.next) p = .inr p.finish ∧ p.blocks ≠ []) := by
  unfold Page.roundOf
  simp only
  rw [if_neg (by unfold Cursor.Inside at hinside; omega)]
  split_ifs with hwhole hbreak hfit
  · exact .inl ⟨_, partAt entry (text p.cursor.next) p.cursor _, rfl, rfl, shows_whole hentry hlt⟩
  · exact .inr (.inr ⟨rfl, hbreak.2⟩)
  · -- no character fits: the first block of a page still shows one
    refine .inr (.inl ⟨_, partAt entry (text p.cursor.next) p.cursor 1, rfl, rfl,
      shows_showPart hentry hlt one_pos ?_⟩)
    have hfirst : p.blocks = [] := by
      by_contra hne
      exact hbreak ⟨hfit, hne⟩
    rw [not_or, not_and] at hwhole
    exact Nat.one_le_iff_ne_zero.mpr (hwhole.2 hfirst)
  · refine .inr (.inl ⟨_, partAt entry (text p.cursor.next) p.cursor _, rfl, rfl,
      shows_showPart hentry hlt (Nat.pos_of_ne_zero hfit) ?_⟩)
    rw [← String.length_toList, ← List.length_drop]
    exact Slice.fitting_le _ 0 _

/-- Appended entries do not change a round over an earlier one. -/
theorem round_grown {entries grown : List Entry} (hgrown : entries <+: grown) (tree : Tree)
    (mode : Mode) {p : Page} (hlt : p.cursor.next < p.cursor.stop)
    (hstop : p.cursor.stop ≤ entries.length) :
    ∃ entry, entries[p.cursor.next]? = some entry ∧
      Page.round (Window.full grown) tree mode p =
        Page.roundOf entry (viewOf entries tree mode p.cursor.next) p := by
  obtain ⟨more, rfl⟩ := hgrown
  have hlen : p.cursor.next < entries.length := by omega
  refine ⟨entries[p.cursor.next], List.getElem?_eq_getElem hlen, ?_⟩
  rw [Page.round, if_pos hlt, Window.get_full, List.getElem?_append_left hlen,
    List.getElem?_eq_getElem hlen, viewOf, getElem!_pos entries _ hlen]

/-- The page that a read over a grown log ends with, from a cursor into the old one. -/
theorem run_shows {entries grown : List Entry} (hgrown : entries <+: grown) (tree : Tree)
    (mode : Mode) {c : Cursor} (budget : ℕ) (hlt : c.next < c.stop) (hstop : c.stop ≤ entries.length)
    (hinside : c.Inside (viewOf entries tree mode)) :
    ∃ (d : Cursor) (parts : List Part),
      (Page.body (Window.full grown) tree mode).run ⟨c, budget, []⟩ =
        .ok (.page ⟨parts.map Part.render, if d.next < d.stop then some d else none⟩) ∧
      Shows entries (viewOf entries tree mode) c d parts ∧ parts ≠ [] := by
  -- each round keeps what was shown in front of the cursor
  refine (Page.body (Window.full grown) tree mode).run_of_invariant
    (I := fun p => ∃ parts, p.blocks = parts.map Part.render ∧
      Shows entries (viewOf entries tree mode) c p.cursor parts)
    (Q := fun r => ∃ (d : Cursor) (parts : List Part),
      r = .ok (.page ⟨parts.map Part.render, if d.next < d.stop then some d else none⟩) ∧
      Shows entries (viewOf entries tree mode) c d parts ∧ parts ≠ [])
    ?_ ?_ ⟨[], rfl, Shows.refl hinside⟩
  · rintro p q ⟨parts, hblocks, hshows⟩ hq
    have hq' : Page.round (Window.full grown) tree mode p = .inl q := hq
    obtain ⟨hmore, -⟩ := Page.round_inl hq'
    obtain ⟨entry, hentry, hround⟩ := round_grown hgrown tree mode hmore
      (hshows.stop.trans_le hstop)
    rw [hround] at hq'
    rcases roundOf_cases hentry hmore hshows.inside with
      ⟨q', part, hr, hb, hpart⟩ | ⟨q', part, hr, -, -⟩ | ⟨hr, -⟩
    · obtain rfl : q' = q := Sum.inl.inj (hr.symm.trans hq')
      exact ⟨parts ++ [part], by simp [hb, hblocks], hshows.snoc hpart⟩
    · rw [hr] at hq'
      cases hq'
    · rw [hr] at hq'
      cases hq'
  -- the last round shows a part of an entry, or nothing more
  · rintro p r ⟨parts, hblocks, hshows⟩ hr
    have hr' : Page.round (Window.full grown) tree mode p = .inr r := hr
    by_cases hmore : p.cursor.next < p.cursor.stop
    · obtain ⟨entry, hentry, hround⟩ := round_grown hgrown tree mode hmore
        (hshows.stop.trans_le hstop)
      rw [hround] at hr'
      rcases roundOf_cases hentry hmore hshows.inside with
        ⟨q, part, hq, -, -⟩ | ⟨q, part, hq, hb, hpart⟩ | ⟨hq, hne⟩
      · rw [hq] at hr'
        cases hr'
      · refine ⟨q.cursor, parts ++ [part], ?_, hshows.snoc hpart, by simp⟩
        rw [← Sum.inr.inj (hq.symm.trans hr'), Page.finish, hb, hblocks]
        simp
      · refine ⟨p.cursor, parts, ?_, hshows, ?_⟩
        · rw [← Sum.inr.inj (hq.symm.trans hr'), Page.finish, hblocks]
        · rintro rfl
          exact hne hblocks
    · rw [Page.round, if_neg hmore] at hr'
      refine ⟨p.cursor, parts, ?_, hshows, ?_⟩
      · rw [← Sum.inr.inj hr', Page.finish, hblocks]
      · rintro rfl
        rcases hshows.moved with ⟨-, hcursor⟩ | ⟨hne, -⟩
        · exact hmore (hcursor ▸ hlt)
        · exact hne rfl

/-- The pages of a read whose cursors are passed back with the same request, the log being
`logs k` at call `k`; `none` when a call gives no page or the calls do not end within `fuel`. -/
def pagesFrom (logs : ℕ → List Entry) (tree : Tree) (request : RangeRequest) :
    (fuel k : ℕ) → Option Cursor → Option (List RangePage)
  | 0, _, _ => none
  | fuel + 1, k, cursor =>
    match readRange (Window.full (logs k)) tree { request with cursor := cursor } with
    | .ok (.page page) =>
      match page.next with
      | none => some [page]
      | some next => (pagesFrom logs tree request fuel (k + 1) (some next)).map (page :: ·)
    | _ => none

/-- A cursor that an earlier page of the request handed out passes the checks. -/
theorem checkRequest_cursor {request : RangeRequest} {len len' : ℕ} {c : Cursor}
    (hrange : request.from_ ≤ request.to_) (hlen : len ≤ len')
    (hbudget : budgetMin ≤ request.budget ∧ request.budget ≤ budgetMax)
    (hmode : c.mode = request.mode) (hfrom : request.from_ ≤ c.next) (hlt : c.next < c.stop)
    (hstop : c.stop = rangeLimit request.to_ len) :
    checkRequest { request with cursor := some c } len' = .ok c := by
  unfold rangeLimit at hstop
  have hvalid : validateCursor c ⟨request.from_, rangeLimit request.to_ len', len', request.mode⟩ =
      .ok () := by
    unfold validateCursor rangeLimit
    simp only
    rw [if_neg (by simp [hmode]), if_neg (by omega), if_neg (by omega)]
  unfold checkRequest
  simp only
  rw [if_neg (by omega), if_neg (by omega), if_neg (by simpa using hbudget), startCursor]
  simp only [hvalid, ok_bind, pure_eq_ok]

/-- What a whole traversal from `c` on hands out: no page is empty, every page moves the cursor
on, and the joined text parts are what was left to show. -/
structure Traversal (entries : List Entry) (text : ℕ → String) (c : Cursor) (ps : List RangePage)
    (parts : List Part) : Prop where
  nonempty : ∀ page ∈ ps, page.blocks ≠ []
  advances : (c :: ps.filterMap RangePage.next).IsChain Cursor.Before
  blocks : ps.flatMap RangePage.blocks = parts.map Part.render
  partsOf : ∀ p ∈ parts, p.Of entries text
  joined : joinParts (parts.map Part.shown) = joinParts (c.rest text)

/-- By induction on what is left to show: every page of a valid cursor leads to a next page with
less left, or ends the traversal. -/
theorem pagesFrom_traversal {logs : ℕ → List Entry} (hlogs : ∀ k, logs 0 <+: logs k) (tree : Tree)
    {request : RangeRequest} (hrange : request.from_ ≤ request.to_)
    (hbudget : budgetMin ≤ request.budget ∧ request.budget ≤ budgetMax) (k : ℕ)
    (cursor : Option Cursor) (c : Cursor)
    (hcheck : checkRequest { request with cursor := cursor } (logs k).length = .ok c)
    (hmode : c.mode = request.mode) (hfrom : request.from_ ≤ c.next) (hlt : c.next < c.stop)
    (hstop : c.stop = rangeLimit request.to_ (logs 0).length)
    (hinside : c.Inside (viewOf (logs 0) tree request.mode)) :
    ∃ fuel ps parts, pagesFrom logs tree request fuel k cursor = some ps ∧
      Traversal (logs 0) (viewOf (logs 0) tree request.mode) c ps parts := by
  -- on what the cursor has left to show
  induction hn : c.weight (viewOf (logs 0) tree request.mode) using Nat.strong_induction_on
    generalizing k cursor c with
  | _ n ih =>
    have hlen : c.stop ≤ (logs 0).length := hstop ▸ min_le_right _ _
    obtain ⟨d, parts, hrun, hshows, hne⟩ := run_shows (hlogs k) tree request.mode
      (request.budget * bytesPerToken) hlt hlen hinside
    have hread : readRange (Window.full (logs k)) tree { request with cursor := cursor } =
        .ok (.page ⟨parts.map Part.render, if d.next < d.stop then some d else none⟩) := by
      rw [readRange, Window.total_full, hcheck]
      exact hrun
    have hmoved : c.Before d := by
      rcases hshows.moved with ⟨hnil, -⟩ | ⟨-, hmoved⟩
      · exact absurd hnil hne
      · exact hmoved
    have hblocks : parts.map Part.render ≠ [] := by simpa using hne
    -- the last page has no cursor
    by_cases hmore : d.next < d.stop
    · have hweight : d.weight (viewOf (logs 0) tree request.mode) < n := by
        have hpos := List.length_pos_iff.mpr hne
        have := hshows.weight
        omega
      have hfrom' : request.from_ ≤ d.next := by
        unfold Cursor.Before at hmoved
        omega
      obtain ⟨fuel, ps, later, hpages, htraversal⟩ := ih _ hweight (k + 1) (some d) d
        (checkRequest_cursor hrange (hlogs (k + 1)).length_le hbudget (hshows.mode.trans hmode)
          hfrom' hmore (hshows.stop.trans hstop))
        (hshows.mode.trans hmode) hfrom' hmore (hshows.stop.trans hstop) hshows.inside rfl
      refine ⟨fuel + 1, ⟨parts.map Part.render, some d⟩ :: ps, parts ++ later, ?_, ?_⟩
      · simp only [pagesFrom, hread, if_pos hmore, hpages, Option.map_some]
      · refine ⟨?_, ?_, ?_, ?_, ?_⟩
        · rw [List.forall_mem_cons]
          exact ⟨hblocks, htraversal.nonempty⟩
        · rw [List.filterMap_cons, List.isChain_cons_cons]
          exact ⟨hmoved, htraversal.advances⟩
        · rw [List.flatMap_cons, htraversal.blocks, List.map_append]
        · intro p hp
          rcases List.mem_append.mp hp with hp | hp
          · exact hshows.partsOf p hp
          · exact htraversal.partsOf p hp
        · rw [List.map_append, joinParts_append, htraversal.joined, ← joinParts_append,
            hshows.joined]
    · have hrest : d.rest (viewOf (logs 0) tree request.mode) = [] := if_neg hmore
      refine ⟨1, [⟨parts.map Part.render, none⟩], parts, ?_, ?_⟩
      · simp only [pagesFrom, hread, if_neg hmore]
      · refine ⟨?_, ?_, ?_, hshows.partsOf, ?_⟩
        · simpa using hblocks
        · simp
        · simp
        · rw [← hshows.joined, hrest, List.append_nil]

/-- A cursor before an entry still has to show every entry from there on, each once. -/
theorem joinParts_rest_start (text : ℕ → String) (next stop : ℕ) (mode : Mode) (h : next < stop) :
    joinParts ((⟨next, 0, stop, mode⟩ : Cursor).rest text) =
      (List.range' next (stop - next)).map fun i => (i, (text i).toList) := by
  have hlen : stop - next = (stop - (next + 1)) + 1 := by omega
  rw [Cursor.rest, if_pos h]
  simp only [List.drop_zero]
  rw [hlen, List.range'_succ, List.map_cons, joinParts_of_pairwise]
  rw [← List.map_cons (f := fun i => (i, (text i).toList)), ← List.range'_succ, List.pairwise_map]
  exact List.pairwise_lt_range'

/-- Paging through a read loses and repeats nothing, also while the log grows. -/
theorem paging_complete (logs : ℕ → List Entry) (hgrow : ∀ k, logs k <+: logs (k + 1)) (tree : Tree)
    (request : RangeRequest) (hrange : request.from_ ≤ request.to_)
    (hfrom : request.from_ < (logs 0).length)
    (hbudget : budgetMin ≤ request.budget ∧ request.budget ≤ budgetMax) :
    ∃ (fuel : ℕ) (ps : List RangePage) (parts : List Part),
      pagesFrom logs tree request fuel 0 none = some ps ∧
      (∀ page ∈ ps, page.blocks ≠ []) ∧
      ((⟨request.from_, 0, rangeLimit request.to_ (logs 0).length, request.mode⟩ : Cursor) ::
        ps.filterMap RangePage.next).IsChain Cursor.Before ∧
      ps.flatMap RangePage.blocks = parts.map Part.render ∧
      (∀ p ∈ parts, p.Of (logs 0) (viewOf (logs 0) tree request.mode)) ∧
      joinParts (parts.map Part.shown) =
        (List.range' request.from_
          (min request.to_ ((logs 0).length - 1) + 1 - request.from_)).map
          fun i => (i, (viewOf (logs 0) tree request.mode i).toList) := by
  have hlogs : ∀ k, logs 0 <+: logs k := by
    intro k
    induction k with
    | zero => exact List.prefix_rfl
    | succ k ih => exact ih.trans (hgrow k)
  have hlimit : rangeLimit request.to_ (logs 0).length =
      min request.to_ ((logs 0).length - 1) + 1 := by
    unfold rangeLimit
    omega
  have hcheck : checkRequest { request with cursor := none } (logs 0).length =
      .ok ⟨request.from_, 0, rangeLimit request.to_ (logs 0).length, request.mode⟩ := by
    unfold checkRequest
    simp only
    rw [if_neg (by omega), if_neg (by omega), if_neg (by simpa using hbudget), startCursor]
  obtain ⟨fuel, ps, parts, hpages, h⟩ := pagesFrom_traversal hlogs tree hrange hbudget 0 none _
    hcheck rfl le_rfl (by simp only; omega) rfl (.inl rfl)
  refine ⟨fuel, ps, parts, hpages, h.nonempty, h.advances, h.blocks, h.partsOf, ?_⟩
  rw [h.joined, joinParts_rest_start _ _ _ _ (by omega), hlimit]

/-- A log of one entry that a second one joins after the first page. -/
theorem paging_complete_grown :
    ∃ (fuel : ℕ) (ps : List RangePage) (parts : List Part),
      pagesFrom (fun k => ⟨.user, "", "ab", false⟩ :: if k = 0 then [] else [Entry.placeholder]) Tree.empty
        ⟨0, 9, .raw, 1, none⟩ fuel 0 none = some ps ∧
      (∀ page ∈ ps, page.blocks ≠ []) ∧
      ((⟨0, 0, 1, .raw⟩ : Cursor) :: ps.filterMap RangePage.next).IsChain Cursor.Before ∧
      ps.flatMap RangePage.blocks = parts.map Part.render ∧
      (∀ p ∈ parts, p.Of [⟨.user, "", "ab", false⟩]
        (viewOf [⟨.user, "", "ab", false⟩] Tree.empty .raw)) ∧
      joinParts (parts.map Part.shown) = [(0, ['a', 'b'])] :=
  paging_complete (fun k => ⟨.user, "", "ab", false⟩ :: if k = 0 then [] else [Entry.placeholder])
    (fun k => by rcases k with _ | k <;> simp) Tree.empty
    ⟨0, 9, .raw, 1, none⟩ (by decide) (by decide) (by decide)

end Ralph.ChatMemory
