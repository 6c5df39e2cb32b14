import Ralph.Chunk.Directive

namespace Ralph.Chunk

/-- A tag that the scan from left to right meets outside the tags in front of it: the text between them,
its own text up to the first closing tag, and what it says. -/
structure Met where
  before : List Char
  source : List Char
  verb : String
  target : String
  payload : List Char

def Met.known (m : Met) : Bool := (normalizeVerb m.verb).isSome

section Scan

variable (isWord : Char → Bool)

/-- A tag of a known verb that nothing closes takes the rest of the text; one of an unknown verb is its
opening only. -/
def scan (cs : List Char) : List Met × List Char :=
  match _h : findOpen isWord cs with
  | none => ([], cs)
  | some o =>
    match _hclose : Text.splitOnceText (closingTag o.verb) o.after with
    | some (payload, rest) =>
      let (mets, last) := scan rest
      (⟨o.before, o.tag ++ payload ++ closingTag o.verb, o.verb, o.target, payload⟩ :: mets, last)
    | none =>
      if (normalizeVerb o.verb).isSome then ([⟨o.before, o.tag ++ o.after, o.verb, o.target, o.after⟩], [])
      else
        let (mets, last) := scan o.after
        (⟨o.before, o.tag, o.verb, o.target, []⟩ :: mets, last)
termination_by cs.length
decreasing_by
  · exact length_rest isWord _h _hclose
  · exact length_after isWord _h

theorem scan_eq (cs : List Char) : cs =
    (scan isWord cs).1.flatMap (fun m => m.before ++ m.source) ++ (scan isWord cs).2 := by
  fun_induction scan isWord cs with
  | case1 cs h => simp
  | case2 cs o h payload rest hclose mets last heq ih =>
    obtain ⟨hcs, -⟩ := findOpen_eq isWord h
    rw [heq] at ih
    rw [hcs, Text.eq_of_splitOnceText hclose, List.flatMap_cons]
    conv_lhs => rw [ih]
    simp
  | case3 cs o h hclose hknown =>
    obtain ⟨hcs, -⟩ := findOpen_eq isWord h
    rw [hcs]
    simp
  | case4 cs o h hclose hknown mets last heq ih =>
    obtain ⟨hcs, -⟩ := findOpen_eq isWord h
    rw [heq] at ih
    rw [hcs, List.flatMap_cons]
    conv_lhs => rw [ih]
    simp

theorem source_ne_nil (cs : List Char) : ∀ m ∈ (scan isWord cs).1, m.source ≠ [] := by
  fun_induction scan isWord cs with
  | case1 cs h => simp
  | case2 cs o h payload rest hclose mets last heq ih =>
    obtain ⟨-, hne⟩ := findOpen_eq isWord h
    rw [heq] at ih
    rw [List.forall_mem_cons]
    exact ⟨by simp [hne], ih⟩
  | case3 cs o h hclose hknown =>
    obtain ⟨-, hne⟩ := findOpen_eq isWord h
    rw [List.forall_mem_singleton]
    simp [hne]
  | case4 cs o h hclose hknown mets last heq ih =>
    obtain ⟨-, hne⟩ := findOpen_eq isWord h
    rw [heq] at ih
    rw [List.forall_mem_cons]
    exact ⟨hne, ih⟩

/-- What the code makes of a tag: nothing of one with an unknown verb. -/
def Met.chunks (m : Met) : List ParsedChunk :=
  match normalizeVerb m.verb with
  | some verb => proseBefore m.before ++ [directiveChunk m.payload verb m.target]
  | none => []

theorem run_splitBody (cs : List Char) (chunks : List ParsedChunk) :
    (splitBody isWord).run (chunks, cs) =
      (chunks ++ (scan isWord cs).1.flatMap Met.chunks, (scan isWord cs).2) := by
  fun_induction scan isWord cs generalizing chunks with
  | case1 cs h =>
    have hstep : (splitBody isWord).step (chunks, cs) = .inr (chunks, cs) := by simp only [splitBody, h]
    rw [(splitBody isWord).run_of_done hstep]
    simp
  | case2 cs o h payload rest hclose mets last heq ih =>
    rw [heq] at ih
    cases hverb : normalizeVerb o.verb with
    | none =>
      have hstep : (splitBody isWord).step (chunks, cs) = .inl (chunks, rest) := by
        simp only [splitBody, h, hclose, hverb]
      rw [(splitBody isWord).run_of_again hstep, ih]
      simp [Met.chunks, hverb]
    | some verb =>
      have hstep : (splitBody isWord).step (chunks, cs) =
          .inl (chunks ++ proseBefore o.before ++ [directiveChunk payload verb o.target], rest) := by
        simp only [splitBody, h, hclose, hverb]
      rw [(splitBody isWord).run_of_again hstep, ih]
      simp [Met.chunks, hverb]
  | case3 cs o h hclose hknown =>
    obtain ⟨verb, hverb⟩ := Option.isSome_iff_exists.mp hknown
    have hstep : (splitBody isWord).step (chunks, cs) =
        .inr (chunks ++ proseBefore o.before ++ [directiveChunk o.after verb o.target], []) := by
      simp only [splitBody, h, hclose, hverb]
    rw [(splitBody isWord).run_of_done hstep]
    simp [Met.chunks, hverb]
  | case4 cs o h hclose hknown mets last heq ih =>
    rw [heq] at ih
    have hverb : normalizeVerb o.verb = none := by simpa using hknown
    have hstep : (splitBody isWord).step (chunks, cs) = .inl (chunks, o.after) := by
      simp only [splitBody, h, hclose, hverb]
    rw [(splitBody isWord).run_of_again hstep, ih]
    simp [Met.chunks, hverb]

/-- A chunk and the text it was read from. -/
inductive Piece
  | prose (content : List Char)
  | directive (met : Met) (verb : DirectiveVerb) (h : normalizeVerb met.verb = some verb)

def Piece.source : Piece → List Char
  | prose content => content
  | directive met _ _ => met.source

def Piece.chunk : Piece → ParsedChunk
  | prose content => .prose (String.ofList content)
  | directive met verb _ => directiveChunk met.payload verb met.target

def Piece.met : Piece → Option Met
  | prose _ => none
  | directive met _ _ => some met

/-- The chunks put together are the text, the directives are the tags of known verbs, and everything else
is prose. -/
def NothingLost (text : String) : Prop :=
  ∃ pieces : List Piece, pieces.map Piece.chunk = splitTextAroundDirectives isWord text ∧
    pieces.flatMap Piece.source = text.toList ∧
    pieces.filterMap Piece.met = (scan isWord text.toList).1.filter Met.known

theorem split_eq (text : String) : splitTextAroundDirectives isWord text =
    let chunks := (scan isWord text.toList).1.flatMap Met.chunks ++ proseBefore (scan isWord text.toList).2
    if chunks = [] then [.prose text] else chunks := by
  rw [splitTextAroundDirectives, run_splitBody, List.nil_append]

/-- The pieces of tags of known verbs, with the prose in front of them. -/
theorem exists_pieces {mets : List Met} (h : ∀ m ∈ mets, m.known = true) (last : List Char) :
    ∃ pieces : List Piece, pieces.map Piece.chunk = mets.flatMap Met.chunks ++ proseBefore last ∧
      pieces.flatMap Piece.source = mets.flatMap (fun m => m.before ++ m.source) ++ last ∧
      pieces.filterMap Piece.met = mets := by
  have hprose : ∀ cs, ∃ pieces : List Piece, pieces.map Piece.chunk = proseBefore cs ∧
      pieces.flatMap Piece.source = cs ∧ pieces.filterMap Piece.met = [] := by
    intro cs
    by_cases hcs : cs = []
    · exact ⟨[], by simp [proseBefore, hcs], by simp [hcs], rfl⟩
    · exact ⟨[.prose cs], by simp [proseBefore, hcs, Piece.chunk], by simp [Piece.source], rfl⟩
  induction mets with
  | nil => exact hprose last
  | cons m mets ih =>
    rw [List.forall_mem_cons] at h
    obtain ⟨verb, hverb⟩ := Option.isSome_iff_exists.mp h.1
    obtain ⟨rest, hchunks, hsources, hmets⟩ := ih h.2
    obtain ⟨first, hfirst, hbefore, hnone⟩ := hprose m.before
    refine ⟨first ++ .directive m verb hverb :: rest, ?_, ?_, ?_⟩
    · rw [List.map_append, List.map_cons, hfirst, hchunks, List.flatMap_cons, Met.chunks, hverb]
      simp [Piece.chunk]
    · rw [List.flatMap_append, List.flatMap_cons, hbefore, hsources, List.flatMap_cons]
      simp [Piece.source]
    · rw [List.filterMap_append, List.filterMap_cons, hnone, hmets]
      rfl

def proseLength (chunk : ParsedChunk) : ℕ :=
  if chunk.chunkType = .prose then chunk.content.length else 0

theorem sum_proseBefore (cs : List Char) : ((proseBefore cs).map proseLength).sum = cs.length := by
  by_cases hcs : cs = [] <;> simp [proseBefore, hcs, proseLength, ParsedChunk.prose]

theorem sum_source (pieces : List Piece) : (pieces.flatMap Piece.source).length =
    ((pieces.map Piece.chunk).map proseLength).sum +
      ((pieces.filterMap Piece.met).map fun m => m.source.length).sum := by
  induction pieces with
  | nil => rfl
  | cons piece pieces ih =>
    rw [List.flatMap_cons, List.length_append, ih, List.map_cons, List.map_cons, List.sum_cons]
    cases piece with
    | prose content =>
      have hmet : (Piece.prose content :: pieces).filterMap Piece.met = pieces.filterMap Piece.met := rfl
      rw [hmet, ← Nat.add_assoc]
      simp [Piece.source, Piece.chunk, proseLength, ParsedChunk.prose]
    | directive met verb h =>
      have hmet : (Piece.directive met verb h :: pieces).filterMap Piece.met =
          met :: pieces.filterMap Piece.met := rfl
      rw [hmet, List.map_cons, List.sum_cons]
      simp only [Piece.source, Piece.chunk, proseLength, directiveChunk, ParsedChunk.directive, reduceCtorEq,
        if_false]
      omega

theorem sum_chunks (mets : List Met) : ((mets.flatMap Met.chunks).map proseLength).sum =
    ((mets.filter Met.known).map fun m => m.before.length).sum := by
  induction mets with
  | nil => rfl
  | cons m mets ih =>
    rw [List.flatMap_cons, List.map_append, List.sum_append, ih, Met.chunks]
    cases hverb : normalizeVerb m.verb with
    | none =>
      rw [List.filter_cons_of_neg (by simp [Met.known, hverb])]
      simp
    | some verb =>
      rw [List.filter_cons_of_pos (by simp [Met.known, hverb]), List.map_append, List.sum_append,
        sum_proseBefore, List.map_cons, List.sum_cons]
      simp [proseLength, directiveChunk, ParsedChunk.directive]

/-- Text is missing as soon as one tag is left out. -/
theorem sum_known_lt {mets : List Met} (hsource : ∀ m ∈ mets, m.source ≠ []) {m : Met} (hm : m ∈ mets)
    (hunknown : m.known = false) :
    ((mets.filter Met.known).map fun m => m.before.length + m.source.length).sum <
      (mets.map fun m => m.before.length + m.source.length).sum := by
  obtain ⟨a, b, rfl⟩ := List.append_of_mem hm
  have hpos := List.length_pos_iff.mpr (hsource m hm)
  have hle : ∀ ms : List Met, ((ms.filter Met.known).map fun m => m.before.length + m.source.length).sum ≤
      (ms.map fun m => m.before.length + m.source.length).sum := fun ms =>
    (List.filter_sublist.map _).sum_le_sum fun _ _ => Nat.zero_le _
  have ha := hle a
  have hb := hle b
  rw [List.filter_append, List.filter_cons_of_neg (by simp [hunknown]), List.map_append, List.map_append,
    List.sum_append, List.sum_append, List.map_cons, List.sum_cons]
  omega

/-- No text is lost exactly when the scan meets no tag of an unknown verb, or no tag of a known one and no
text behind the last tag. -/
theorem nothingLost_iff (text : String) : NothingLost isWord text ↔
    (∀ m ∈ (scan isWord text.toList).1, m.known = true) ∨
      (∀ m ∈ (scan isWord text.toList).1, m.known = false) ∧ (scan isWord text.toList).2 = [] := by
  have htext := scan_eq isWord text.toList
  have hsource := source_ne_nil isWord text.toList
  have hsplit := split_eq isWord text
  rw [NothingLost]
  generalize hmets : (scan isWord text.toList).1 = mets at *
  generalize hlast : (scan isWord text.toList).2 = last at *
  dsimp only at hsplit
  constructor
  · rintro ⟨pieces, hchunks, hpieces, hdirectives⟩
    by_cases hnone : mets.flatMap Met.chunks ++ proseBefore last = []
    · -- nothing was read off the text, so no tag has a known verb
      right
      obtain ⟨hmets, hbefore⟩ := List.append_eq_nil_iff.mp hnone
      rw [List.flatMap_eq_nil_iff] at hmets
      constructor
      · intro m hm
        have hchunk := hmets m hm
        unfold Met.chunks at hchunk
        split at hchunk
        · simp at hchunk
        · next hverb => simp [Met.known, hverb]
      · by_contra hne
        simp [proseBefore, hne] at hbefore
    · left
      rw [hsplit, if_neg hnone] at hchunks
      by_contra hunknown
      push Not at hunknown
      obtain ⟨m, hm, hfalse⟩ := hunknown
      have hlost := sum_known_lt hsource hm (by simpa using hfalse)
      have hlength := sum_source pieces
      rw [hpieces, hchunks, hdirectives, List.map_append, List.sum_append, sum_chunks, sum_proseBefore,
        htext, List.length_append, List.length_flatMap] at hlength
      have hsplitSum : ((mets.filter Met.known).map fun m => m.before.length + m.source.length).sum =
          ((mets.filter Met.known).map fun m => m.before.length).sum +
            ((mets.filter Met.known).map fun m => m.source.length).sum := List.sum_map_add
      simp only [List.length_append] at hlength
      omega
  · rintro (hknown | ⟨hunknown, hnil⟩)
    · obtain ⟨pieces, hchunks, hpieces, hdirectives⟩ := exists_pieces hknown last
      have hfilter : mets.filter Met.known = mets := List.filter_eq_self.mpr hknown
      by_cases hnone : mets.flatMap Met.chunks ++ proseBefore last = []
      · rw [if_pos hnone] at hsplit
        obtain rfl := List.map_eq_nil_iff.mp (hchunks.trans hnone)
        exact ⟨[.prose text.toList], by rw [hsplit]; simp [Piece.chunk], by simp [Piece.source],
          hdirectives.trans hfilter.symm⟩
      · rw [if_neg hnone] at hsplit
        exact ⟨pieces, hchunks.trans hsplit.symm, hpieces.trans htext.symm, hdirectives.trans hfilter.symm⟩
    · have hnone : mets.flatMap Met.chunks ++ proseBefore last = [] := by
        rw [List.append_eq_nil_iff, List.flatMap_eq_nil_iff]
        refine ⟨fun m hm => ?_, by simp [proseBefore, hnil]⟩
        have hverb : normalizeVerb m.verb = none := by simpa [Met.known] using hunknown m hm
        simp [Met.chunks, hverb]
      have hfilter : mets.filter Met.known = [] := by
        rw [List.filter_eq_nil_iff]
        exact fun m hm => by simp [hunknown m hm]
      rw [if_pos hnone] at hsplit
      exact ⟨[.prose text.toList], by rw [hsplit]; simp [Piece.chunk], by simp [Piece.source], hfilter.symm⟩

end Scan

/-- A tag of an unknown verb takes itself and the text in front of it out of the chunks. -/
theorem unknown_verb_loses_text :
    splitTextAroundDirectives Char.isAlphanum "a<ralph-x to=\"b\">c" = [.prose "c"] ∧
      ¬ NothingLost Char.isAlphanum "a<ralph-x to=\"b\">c" := by
  have hsplit : splitTextAroundDirectives Char.isAlphanum "a<ralph-x to=\"b\">c" = [.prose "c"] := by
    decide +kernel
  refine ⟨hsplit, ?_⟩
  rintro ⟨pieces, hchunks, hpieces, -⟩
  rw [hsplit] at hchunks
  obtain ⟨piece, rfl, hchunk⟩ := List.map_eq_singleton_iff.mp hchunks
  rw [List.flatMap_singleton] at hpieces
  cases piece with
  | prose content =>
    have hcontent : String.ofList content = "c" := congrArg ParsedChunk.content hchunk
    rw [Piece.source] at hpieces
    rw [hpieces, String.ofList_toList] at hcontent
    exact absurd hcontent (by decide)
  | directive met verb h =>
    have htype := congrArg ParsedChunk.chunkType hchunk
    simp [Piece.chunk, directiveChunk, ParsedChunk.directive, ParsedChunk.prose] at htype

end Ralph.Chunk
