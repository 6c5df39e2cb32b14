import Mathlib.Data.List.TakeWhile
import Ralph.Chunk.Basic
import Ralph.Loop
import Ralph.Text

namespace Ralph.Chunk
open ChatMemory

inductive DirectiveVerb
  | ask
  | comment
  deriving DecidableEq, Repr

def normalizeVerb (raw : String) : Option DirectiveVerb :=
  if raw ∈ ["ask", "tell", "say", "respond", "reply"] then some .ask
  else if raw ∈ ["comment", "note", "inform"] then some .comment
  else none

def DirectiveVerb.name : DirectiveVerb → String
  | ask => "ask"
  | comment => "comment"

/-- What follows a text that the characters start with. -/
def afterText (text : String) (cs : List Char) : Option (List Char) :=
  if text.toList.isPrefixOf cs then some (cs.drop text.length) else none

section Scan

-- The word characters of the pattern are a parameter.
variable (isWord : Char → Bool)

/-- A match of `<ralph-(\w+)\s+to="([^"]*)">` at the first character: the verb, the target and the rest. -/
def openTag (cs : List Char) : Option (List Char × List Char × List Char) :=
  (afterText "<ralph-" cs).bind fun cs =>
    let verb := cs.takeWhile isWord
    let cs := cs.dropWhile isWord
    if verb = [] ∨ cs.takeWhile isWhitespace = [] then none
    else (afterText "to=\"" (cs.dropWhile isWhitespace)).bind fun cs =>
      (afterText "\">" (cs.dropWhile (· ≠ '"'))).map fun after => (verb, cs.takeWhile (· ≠ '"'), after)

/-- The leftmost match in a text. -/
structure OpenTag where
  before : List Char
  tag : List Char
  verb : String
  target : String
  after : List Char

def findOpen : List Char → Option OpenTag
  | [] => none
  | c :: cs =>
    match openTag isWord (c :: cs) with
    | some (verb, target, after) =>
      some ⟨[], (c :: cs).take ((c :: cs).length - after.length), String.ofList verb, String.ofList target,
        after⟩
    | none => (findOpen cs).map fun o => { o with before := c :: o.before }

theorem eq_of_afterText {text : String} {cs rest : List Char} (h : afterText text cs = some rest) :
    cs = text.toList ++ rest := by
  unfold afterText at h
  split_ifs at h with hstart
  obtain ⟨tail, rfl⟩ := List.isPrefixOf_iff_prefix.mp hstart
  rw [← Option.some.inj h, ← String.length_toList, List.drop_left]

/-- The rest of a match is what is left of the text. -/
theorem openTag_suffix {cs verb target after : List Char}
    (h : openTag isWord cs = some (verb, target, after)) : ∃ tag, tag ≠ [] ∧ cs = tag ++ after := by
  obtain ⟨cs₁, h₁, h⟩ := Option.bind_eq_some_iff.mp h
  dsimp only at h
  split_ifs at h
  obtain ⟨cs₂, h₂, h⟩ := Option.bind_eq_some_iff.mp h
  obtain ⟨rest, h₃, heq⟩ := Option.map_eq_some_iff.mp h
  obtain ⟨-, -, rfl⟩ := by simpa using heq
  have hword := List.takeWhile_append_dropWhile (p := isWord) (l := cs₁)
  have hspace := List.takeWhile_append_dropWhile (p := isWhitespace) (l := cs₁.dropWhile isWord)
  have htarget := List.takeWhile_append_dropWhile (p := fun c => decide (c ≠ '"')) (l := cs₂)
  rw [eq_of_afterText h₂] at hspace
  rw [eq_of_afterText h₃] at htarget
  refine ⟨"<ralph-".toList ++ (cs₁.takeWhile isWord ++ ((cs₁.dropWhile isWord).takeWhile isWhitespace ++
    ("to=\"".toList ++ (cs₂.takeWhile (fun c => decide (c ≠ '"')) ++ "\">".toList)))), by simp, ?_⟩
  simp only [List.append_assoc]
  rw [htarget, hspace, hword]
  exact eq_of_afterText h₁

theorem findOpen_eq {cs : List Char} {o : OpenTag} (h : findOpen isWord cs = some o) :
    cs = o.before ++ o.tag ++ o.after ∧ o.tag ≠ [] := by
  induction cs generalizing o with
  | nil => cases h
  | cons c cs ih =>
    rw [findOpen] at h
    split at h
    · next verb target after hopen =>
      obtain ⟨tag, hne, htag⟩ := openTag_suffix isWord hopen
      obtain rfl := Option.some.inj h
      have hlen : (c :: cs).length - after.length = tag.length := by
        rw [htag, List.length_append, Nat.add_sub_cancel]
      have htake : (c :: cs).take ((c :: cs).length - after.length) = tag := by
        rw [hlen, htag, List.take_left]
      rw [htake]
      exact ⟨htag, hne⟩
    · obtain ⟨o', hopen, rfl⟩ := Option.map_eq_some_iff.mp h
      obtain ⟨hcs, hne⟩ := ih hopen
      exact ⟨congrArg (c :: ·) hcs, hne⟩

def closingTag (verb : String) : List Char := "</ralph-".toList ++ verb.toList ++ ">".toList

theorem length_after {cs : List Char} {o : OpenTag} (h : findOpen isWord cs = some o) :
    o.after.length < cs.length := by
  obtain ⟨hcs, hne⟩ := findOpen_eq isWord h
  have hpos := List.length_pos_iff.mpr hne
  rw [hcs, List.length_append, List.length_append]
  omega

theorem length_rest {cs payload rest : List Char} {o : OpenTag} (h : findOpen isWord cs = some o)
    (hclose : Text.splitOnceText (closingTag o.verb) o.after = some (payload, rest)) :
    rest.length < cs.length := by
  have hafter := length_after isWord h
  rw [Text.eq_of_splitOnceText hclose, List.length_append] at hafter
  omega

def proseBefore (before : List Char) : List ParsedChunk :=
  if before = [] then [] else [.prose (String.ofList before)]

def directiveChunk (payload : List Char) (verb : DirectiveVerb) (target : String) : ParsedChunk :=
  .directive (String.ofList payload) verb.name target

/-- The loop of `split_text_around_directives`: the chunks so far and the text from `search_start` on. -/
def splitBody : Loop.Body (List ParsedChunk × List Char) (List ParsedChunk × List Char) where
  step s :=
    match findOpen isWord s.2 with
    | none => .inr s
    | some o =>
      match Text.splitOnceText (closingTag o.verb) o.after, normalizeVerb o.verb with
      | some (payload, rest), some verb =>
        .inl (s.1 ++ proseBefore o.before ++ [directiveChunk payload verb o.target], rest)
      -- an unknown verb: the tag is left out, with the text in front of it
      | some (_, rest), none => .inl (s.1, rest)
      -- no closing tag: all that follows is the payload
      | none, some verb => .inr (s.1 ++ proseBefore o.before ++ [directiveChunk o.after verb o.target], [])
      | none, none => .inl (s.1, o.after)
  measure s := s.2.length
  decreases s s' hs := by
    split at hs
    · exact absurd hs (by simp)
    · next o hopen =>
      split at hs
      · next hclose _ => exact Sum.inl.inj hs ▸ length_rest isWord hopen hclose
      · next hclose _ => exact Sum.inl.inj hs ▸ length_rest isWord hopen hclose
      · exact absurd hs (by simp)
      · exact Sum.inl.inj hs ▸ length_after isWord hopen

def splitTextAroundDirectives (text : String) : List ParsedChunk :=
  let (chunks, rest) := (splitBody isWord).run ([], text.toList)
  let chunks := chunks ++ proseBefore rest
  if chunks = [] then [.prose text] else chunks

end Scan

end Ralph.Chunk
