import Ralph.Base64
import Ralph.Chat.CellOutput

namespace Ralph.Chat

/-- `slice::chunks`. -/
def chunks {α : Type*} (size : ℕ) (items : List α) : List (List α) :=
  if items = [] ∨ size = 0 then [] else items.take size :: chunks size (items.drop size)
termination_by items.length
decreasing_by
  simp only [List.length_drop]
  have hpos : 0 < items.length := List.length_pos_iff.2 (by tauto)
  omega

def chunkBytes : ℕ := 4096

/-- The inside of a chunk: its keys, whether more follow, a piece of the payload. -/
def chunkBody (keys : List Char) (more : Bool) (payload : List Char) : List Char :=
  keys ++ (if more then "m=1".toList else "m=0".toList) ++ ';' :: payload

section Encode

variable (b : Base64.Engine)

/-- The text is ASCII: its bytes are its characters. -/
def chunkBodies (payload : List UInt8) (firstKeys laterKeys : List Char) : List (List Char) :=
  let pieces := chunks chunkBytes (b.encode payload).toList
  pieces.zipIdx.map fun (piece, index) =>
    chunkBody (if index = 0 then firstKeys else laterKeys) (decide (index < pieces.length - 1)) piece

def apc (body : List Char) : List Char := apcStart ++ body ++ apcEnd

def encodeChunks (payload : List UInt8) (firstKeys laterKeys : List Char) : List (List Char) :=
  (chunkBodies b payload firstKeys laterKeys).map apc

structure KittyImage where
  keys : String
  payload : List UInt8

def apcKeys (keys : String) (cols rows : ℕ) : List Char :=
  ["a=T,", keys, "c=", toString cols, ",r=", toString rows, ",C=1,q=2,"].flatMap String.toList

def encodeApc (image : KittyImage) (cols rows : ℕ) : List Char :=
  (encodeChunks b image.payload (apcKeys image.keys cols rows) []).flatten

end Encode

/-- The terminal's side: whether more chunks follow, and the piece. -/
def readChunk (body : List Char) : Option (Bool × List Char) :=
  (Text.splitOnceText [';'] body).bind fun (control, payload) =>
    if "m=1".toList.isSuffixOf control then some (true, payload)
    else if "m=0".toList.isSuffixOf control then some (false, payload)
    else none

/-- The payload of the chunks up to the one that says it is the last. -/
def received : List (List Char) → Option (List Char)
  | [] => none
  | body :: rest =>
    match readChunk body with
    | some (true, payload) => (received rest).map (payload ++ ·)
    | some (false, payload) => if rest = [] then some payload else none
    | none => none

theorem splitOnceText_of_notMem {sep : List Char} {c : Char} {tail cs : List Char} (hsep : sep = c :: tail)
    (h : c ∉ cs) : Text.splitOnceText sep cs = none := by
  induction cs with
  | nil => rfl
  | cons d cs ih =>
    rw [List.mem_cons, not_or] at h
    have hpre : ¬ sep.isPrefixOf (d :: cs) = true := by
      rw [hsep, List.isPrefixOf_iff_prefix, List.cons_prefix_cons]
      exact fun hcons => h.1 hcons.1
    rw [Text.splitOnceText, if_neg hpre, ih h.2, Option.map_none]

/-- Behind a text without the separator the separator is found where it stands, when it cannot
overlap itself. -/
theorem splitOnceText_append (sep : List Char) {c : Char} {tail : List Char} (hsep : sep = c :: tail)
    (htail : c ∉ tail) {before : List Char} (hnone : Text.splitOnceText sep before = none) (after : List Char) :
    Text.splitOnceText sep (before ++ sep ++ after) = some (before, after) := by
  induction before with
  | nil =>
    subst hsep
    have hpre : (c :: tail).isPrefixOf (c :: (tail ++ after)) = true :=
      List.isPrefixOf_iff_prefix.2 ⟨after, rfl⟩
    change Text.splitOnceText (c :: tail) (c :: (tail ++ after)) = _
    rw [Text.splitOnceText, if_pos hpre]
    simp
  | cons d before ih =>
    rw [Text.splitOnceText] at hnone
    split_ifs at hnone with hpre
    have hpre' : ¬ sep.isPrefixOf (d :: (before ++ sep ++ after)) = true := by
      rw [List.isPrefixOf_iff_prefix] at hpre ⊢
      intro hlong
      have hshort : d :: before <+: d :: (before ++ sep ++ after) := ⟨sep ++ after, by simp⟩
      rcases List.prefix_or_prefix_of_prefix hlong hshort with hin | ⟨rest, hrest⟩
      · exact hpre hin
      · -- The separator would start again inside itself.
        have htwice : (d :: before) ++ rest <+: (d :: before) ++ (sep ++ after) := by
          rw [hrest]
          simpa using hlong
        rw [List.prefix_append_right_inj] at htwice
        cases rest with
        | nil => exact hpre (by rw [← hrest]; simp)
        | cons e rest =>
          have he : e = c := by
            rw [hsep] at htwice
            exact (List.cons_prefix_cons.1 htwice).1
          apply htail
          have htailmem : e ∈ before ++ e :: rest := by simp
          rw [hsep, List.cons_append] at hrest
          rw [← (List.cons.inj hrest).2, ← he]
          exact htailmem
    rw [List.cons_append, List.cons_append, Text.splitOnceText, if_neg hpre',
      ih (Option.map_eq_none_iff.1 hnone)]
    rfl

theorem flatten_chunks {α : Type*} {size : ℕ} (h : 0 < size) (items : List α) :
    (chunks size items).flatten = items := by
  induction hn : items.length using Nat.strong_induction_on generalizing items with
  | _ n ih =>
    rw [chunks]
    split_ifs with hend
    · rcases hend with rfl | hzero
      · rfl
      · omega
    · rw [not_or] at hend
      have hpos : 0 < items.length := List.length_pos_iff.2 hend.1
      rw [List.flatten_cons, ih _ (by simp; omega) (items.drop size) rfl, List.take_append_drop]

theorem length_chunks {α : Type*} {size : ℕ} (h : 0 < size) (items : List α) :
    (chunks size items).length = (items.length + size - 1) / size := by
  induction hn : items.length using Nat.strong_induction_on generalizing items with
  | _ n ih =>
    rw [chunks]
    split_ifs with hend
    · rcases hend with rfl | hzero
      · rw [← hn, List.length_nil, List.length_nil, Nat.div_eq_of_lt (by omega)]
      · omega
    · rw [not_or] at hend
      have hpos : 0 < items.length := List.length_pos_iff.2 hend.1
      rw [List.length_cons, ih _ (by simp; omega) (items.drop size) rfl, List.length_drop, hn]
      rcases Nat.le_total size n with hle | hle
      · rw [show n + size - 1 = n - size + size - 1 + size by omega, Nat.add_div_right _ h]
      · have hone : (n + size - 1) / size = 1 := Nat.div_eq_of_lt_le (by omega) (by omega)
        rw [Nat.sub_eq_zero_of_le hle, Nat.div_eq_of_lt (by omega), hone]

theorem mem_chunks {α : Type*} {size : ℕ} {items piece : List α} (h : piece ∈ chunks size items) :
    piece.length ≤ size ∧ ∀ x ∈ piece, x ∈ items := by
  induction hn : items.length using Nat.strong_induction_on generalizing items with
  | _ n ih =>
    rw [chunks] at h
    split_ifs at h with hend
    · cases h
    · rw [not_or] at hend
      have hpos : 0 < items.length := List.length_pos_iff.2 hend.1
      rcases List.mem_cons.1 h with rfl | h
      · exact ⟨List.length_take_le _ _, fun x hx => List.mem_of_mem_take hx⟩
      · obtain ⟨hlen, hmem⟩ := ih _ (by simp; omega) h rfl
        exact ⟨hlen, fun x hx => List.mem_of_mem_drop (hmem x hx)⟩

theorem esc_notMem_chunkBody {keys piece : List Char} (hkeys : esc ∉ keys) (hpiece : esc ∉ piece) (more : Bool) :
    esc ∉ chunkBody keys more piece := by
  have hflag : esc ∉ (if more then "m=1".toList else "m=0".toList) := by cases more <;> decide
  simp only [chunkBody, List.mem_append, List.mem_cons, not_or]
  exact ⟨⟨hkeys, hflag⟩, by decide, hpiece⟩

theorem length_chunkBodies (b : Base64.Engine) (payload : List UInt8)
    (firstKeys laterKeys : List Char) : (chunkBodies b payload firstKeys laterKeys).length =
      ((b.encode payload).toList.length + chunkBytes - 1) / chunkBytes := by
  rw [chunkBodies, List.length_map, List.length_zipIdx, length_chunks (by decide)]

theorem exists_mem_chunkBodies {b : Base64.Engine} {payload : List UInt8}
    {firstKeys laterKeys body : List Char} (h : body ∈ chunkBodies b payload firstKeys laterKeys) :
    ∃ keys more piece, body = chunkBody keys more piece ∧ (keys = firstKeys ∨ keys = laterKeys) ∧
      piece ∈ chunks chunkBytes (b.encode payload).toList := by
  obtain ⟨⟨piece, index⟩, hmem, rfl⟩ := List.mem_map.1 h
  obtain ⟨-, -, hpiece⟩ := List.mem_zipIdx hmem
  refine ⟨_, _, piece, rfl, ?_, hpiece ▸ List.getElem_mem _⟩
  split_ifs
  · exact .inl rfl
  · exact .inr rfl

theorem run_chunks {bodies : List (List Char)} (hbodies : ∀ body ∈ bodies, esc ∉ body)
    {after : List Char} (hafter : Text.splitOnceText apcStart after = none) (pieces : List ApcPiece) :
    apcBody.run (pieces, (bodies.map apc).flatten ++ after) =
      pieces ++ bodies.map (fun body => .apc (apc body)) ++ (if after = [] then [] else [.text after]) := by
  induction bodies generalizing pieces with
  | nil =>
    simp only [List.map_nil, List.flatten_nil, List.nil_append, List.append_nil]
    apply Loop.Body.run_of_done
    simp only [apcBody, hafter]
    split_ifs <;> simp
  | cons body bodies ih =>
    rw [List.forall_mem_cons] at hbodies
    have hsplit : (((body :: bodies).map apc).flatten ++ after) =
        [] ++ apcStart ++ (body ++ apcEnd ++ ((bodies.map apc).flatten ++ after)) := by
      simp [apc]
    have hstart := splitOnceText_append apcStart rfl (by decide)
      (show Text.splitOnceText apcStart [] = none from rfl) (body ++ apcEnd ++ ((bodies.map apc).flatten ++ after))
    have hend := splitOnceText_append apcEnd rfl (by decide)
      (splitOnceText_of_notMem rfl hbodies.1) ((bodies.map apc).flatten ++ after)
    have hstep : apcBody.step (pieces, ((body :: bodies).map apc).flatten ++ after) =
        .inl (pieces ++ [.apc (apc body)], (bodies.map apc).flatten ++ after) := by
      rw [hsplit]
      simp only [apcBody, hstart, hend]
      rfl
    rw [Loop.Body.run_of_again apcBody hstep, ih hbodies.2]
    simp

theorem splitApc_chunks {bodies : List (List Char)} (hne : bodies ≠ []) (hbodies : ∀ body ∈ bodies, esc ∉ body)
    {before after : List Char} (hbefore : Text.splitOnceText apcStart before = none)
    (hafter : Text.splitOnceText apcStart after = none) :
    splitApc (before ++ (bodies.map apc).flatten ++ after) =
      (if before = [] then [] else [.text before]) ++ bodies.map (fun body => .apc (apc body)) ++
        (if after = [] then [] else [.text after]) := by
  cases bodies with
  | nil => exact absurd rfl hne
  | cons body bodies =>
    rw [List.forall_mem_cons] at hbodies
    have hsplit : before ++ ((body :: bodies).map apc).flatten ++ after =
        before ++ apcStart ++ (body ++ apcEnd ++ ((bodies.map apc).flatten ++ after)) := by
      simp [apc]
    have hstart := splitOnceText_append apcStart rfl (by decide) hbefore
      (body ++ apcEnd ++ ((bodies.map apc).flatten ++ after))
    have hend := splitOnceText_append apcEnd rfl (by decide)
      (splitOnceText_of_notMem rfl hbodies.1) ((bodies.map apc).flatten ++ after)
    have hstep : apcBody.step ([], before ++ ((body :: bodies).map apc).flatten ++ after) =
        .inl ((if before = [] then [] else [.text before]) ++ [.apc (apc body)],
          (bodies.map apc).flatten ++ after) := by
      rw [hsplit]
      simp only [apcBody, hstart, hend]
      rfl
    rw [splitApc, Loop.Body.run_of_again apcBody hstep, run_chunks hbodies.2 hafter]
    simp

/-- Only the text around the sequences is left. -/
theorem stripKittyApc_chunks {bodies : List (List Char)} (hne : bodies ≠ [])
    (hbodies : ∀ body ∈ bodies, esc ∉ body) {before after : List Char}
    (hbefore : Text.splitOnceText apcStart before = none)
    (hafter : Text.splitOnceText apcStart after = none) :
    stripKittyApc (String.ofList (before ++ (bodies.map apc).flatten ++ after)) =
      String.ofList (before ++ after) := by
  rw [stripKittyApc, String.toList_ofList, splitApc_chunks hne hbodies hbefore hafter]
  congr 1
  rw [List.flatMap_append, List.flatMap_append, List.flatMap_map]
  have hnone : bodies.flatMap (fun _ => ([] : List Char)) = [] := by simp
  rw [hnone, List.append_nil]
  congr 1
  · split_ifs with h
    · rw [h]
      rfl
    · simp
  · split_ifs with h
    · rw [h]
      rfl
    · simp

theorem readChunk_chunkBody {keys : List Char} (hkeys : ';' ∉ keys) (more : Bool) (piece : List Char) :
    readChunk (chunkBody keys more piece) = some (more, piece) := by
  have hflag : ';' ∉ keys ++ (if more then "m=1".toList else "m=0".toList) := by
    rw [List.mem_append, not_or]
    exact ⟨hkeys, by cases more <;> decide⟩
  have hsplit := splitOnceText_append [';'] rfl List.not_mem_nil
    (splitOnceText_of_notMem rfl hflag) piece
  rw [List.append_assoc, List.singleton_append] at hsplit
  rw [readChunk, chunkBody, hsplit, Option.bind_some]
  cases more with
  | true => simp [List.isSuffixOf_iff_suffix]
  | false =>
    have hno : ¬ "m=1".toList <:+ keys ++ "m=0".toList := by
      rintro ⟨front, hfront⟩
      have hlast := congrArg List.getLast? hfront
      have hone : "m=1".toList.getLast? = some '1' := by decide
      have hzero : "m=0".toList.getLast? = some '0' := by decide
      rw [List.getLast?_append, List.getLast?_append, hone, hzero, Option.some_or, Option.some_or] at hlast
      exact absurd (Option.some.inj hlast) (by decide)
    simp only [Bool.false_eq_true, if_false, List.isSuffixOf_iff_suffix]
    rw [if_neg hno, if_pos (List.suffix_append _ _)]

/-- What the terminal puts together is the pieces, whatever keys they come with. -/
theorem received_pieces {pieces : List (List Char)} (hne : pieces ≠ []) {firstKeys laterKeys : List Char}
    (hfirst : ';' ∉ firstKeys) (hlater : ';' ∉ laterKeys) (start : ℕ) :
    received ((pieces.zipIdx start).map fun (piece, index) =>
        chunkBody (if index = 0 then firstKeys else laterKeys)
          (decide (index < start + pieces.length - 1)) piece) = some pieces.flatten := by
  have hkeys : ∀ index : ℕ, ';' ∉ (if index = 0 then firstKeys else laterKeys) := by
    intro index
    split_ifs <;> assumption
  induction pieces generalizing start with
  | nil => exact absurd rfl hne
  | cons piece pieces ih =>
    rw [List.zipIdx_cons, List.map_cons, received, readChunk_chunkBody (hkeys start)]
    cases pieces with
    | nil => simp
    | cons next rest =>
      have hmore : decide (start < start + (piece :: next :: rest).length - 1) = true := by simp
      have hrest := ih (List.cons_ne_nil _ _) (start + 1)
      rw [show start + 1 + (next :: rest).length - 1 = start + (piece :: next :: rest).length - 1 by
        simp only [List.length_cons]; omega] at hrest
      rw [hmore]
      dsimp only
      rw [hrest]
      rfl

theorem notMem_toString {c : Char} (hc : c.isDigit = false) (n : ℕ) : c ∉ (toString n).toList := by
  intro h
  rw [Text.isDigit_of_mem_toString h] at hc
  cases hc

theorem notMem_apcKeys {keys : String} {c : Char} (hkeys : c ∉ keys.toList) (hc : c = esc ∨ c = ';')
    (cols rows : ℕ) : c ∉ apcKeys keys cols rows := by
  have hdigit : c.isDigit = false := by rcases hc with rfl | rfl <;> decide
  have hfixed : ∀ part ∈ ["a=T,", "c=", ",r=", ",C=1,q=2,"], c ∉ part.toList := by
    rcases hc with rfl | rfl <;> simp [esc]
  intro h
  obtain ⟨part, hpart, hmem⟩ := List.mem_flatMap.1 h
  simp only [List.mem_cons, List.not_mem_nil, or_false] at hpart
  rcases hpart with rfl | rfl | rfl | rfl | rfl | rfl | rfl
  · exact hfixed _ (by simp) hmem
  · exact hkeys hmem
  · exact hfixed _ (by simp) hmem
  · exact notMem_toString hdigit cols hmem
  · exact hfixed _ (by simp) hmem
  · exact notMem_toString hdigit rows hmem
  · exact hfixed _ (by simp) hmem

/-- What a terminal takes: a payload, and keys that end neither the control part nor the sequence. -/
structure KittyImage.Sendable (image : KittyImage) : Prop where
  payload : image.payload ≠ []
  esc : esc ∉ image.keys.toList
  semicolon : ';' ∉ image.keys.toList

section Transmission

variable {b : Base64.Engine} {image : KittyImage} {cols rows : ℕ}

theorem pieces_ne_nil (hb : b.Lawful) (himage : image.Sendable) :
    chunks chunkBytes (b.encode image.payload).toList ≠ [] := by
  intro hnil
  have hflat := flatten_chunks (show 0 < chunkBytes by decide) (b.encode image.payload).toList
  rw [hnil] at hflat
  have htext : b.encode image.payload = b.encode [] := by
    rw [hb.encode_nil, ← String.toList_inj]
    exact hflat.symm
  exact himage.payload (hb.encode_injective htext)

theorem chunkBodies_ne_nil (hb : b.Lawful) (himage : image.Sendable) (firstKeys : List Char) :
    chunkBodies b image.payload firstKeys [] ≠ [] := by
  simpa [chunkBodies] using pieces_ne_nil hb himage

/-- The pieces are of the alphabet, the keys are numbers and fixed texts. -/
theorem esc_notMem_body (hb : b.Lawful) (himage : image.Sendable) {body : List Char}
    (h : body ∈ chunkBodies b image.payload (apcKeys image.keys cols rows) []) : esc ∉ body := by
  obtain ⟨used, more, piece, rfl, hused, hpiece⟩ := exists_mem_chunkBodies h
  refine esc_notMem_chunkBody ?_ ?_ more
  · rcases hused with rfl | rfl
    · exact notMem_apcKeys himage.esc (.inl rfl) cols rows
    · exact List.not_mem_nil
  · intro hesc
    have hmem := hb.mem_alphabet _ _ ((mem_chunks hpiece).2 _ hesc)
    revert hmem
    decide

theorem readChunk_body (himage : image.Sendable) {body : List Char}
    (h : body ∈ chunkBodies b image.payload (apcKeys image.keys cols rows) []) :
    ∃ more piece, readChunk body = some (more, piece) ∧ piece.length ≤ chunkBytes := by
  obtain ⟨used, more, piece, rfl, hused, hpiece⟩ := exists_mem_chunkBodies h
  refine ⟨more, piece, readChunk_chunkBody ?_ more piece, (mem_chunks hpiece).1⟩
  rcases hused with rfl | rfl
  · exact notMem_apcKeys himage.semicolon (.inr rfl) cols rows
  · exact List.not_mem_nil

theorem received_chunkBodies (hb : b.Lawful) (himage : image.Sendable) :
    received (chunkBodies b image.payload (apcKeys image.keys cols rows) []) =
      some (b.encode image.payload).toList := by
  have hall := received_pieces (pieces_ne_nil hb himage)
    (notMem_apcKeys himage.semicolon (.inr rfl) cols rows) List.not_mem_nil 0
  rw [flatten_chunks (by decide)] at hall
  simpa [chunkBodies] using hall

end Transmission

end Ralph.Chat
