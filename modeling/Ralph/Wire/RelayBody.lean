import Ralph.HttpChunks
import Ralph.Wire.Proxy

namespace Ralph.Wire
open HttpChunks (frame lastChunk sizeBytes crlf decode)

/-- What one read of the upstream gives; an empty block is its end. -/
inductive BodyRead
  | block (bytes : Bytes) (now : Moment)
  | interrupted
  | failed (error : String)
  deriving DecidableEq

/-- What the client got, and how many writes and flushes there were. -/
structure Client where
  got : Bytes := []
  writes : ℕ := 0

/-- Writes and flushes one after another up to the first that fails. A write that fails has sent some of
its bytes; `fate` says how many, and `none` that the write succeeds. A flush writes no bytes. -/
def writeAll (fate : ℕ → Option ℕ) : List Bytes → Client → Client × Bool
  | [], client => (client, true)
  | part :: parts, client =>
    match fate client.writes with
    | none => writeAll fate parts ⟨client.got ++ part, client.writes + 1⟩
    | some sent => (⟨client.got ++ part.take sent, client.writes + 1⟩, false)

def writeChunk (fate : ℕ → Option ℕ) (bytes : Bytes) : Client → Client × Bool :=
  writeAll fate [sizeBytes bytes.length ++ crlf, bytes, crlf, []]

def writeLast (fate : ℕ → Option ℕ) : Client → Client × Bool := writeAll fate [lastChunk, []]

/-- The body with what it takes of `bytes`, and whether something was left over. -/
def appendCapped (body bytes : Bytes) (limit : ℕ) : Bytes × Bool :=
  let kept := min (limit - body.length) bytes.length
  (body ++ bytes.take kept, decide (kept < bytes.length))

def clientDisconnected : String := "client disconnected"

def truncatedText : String := "response body truncated at " ++ toString maxBodyBytes ++ " bytes"

def upstreamFailed (error : String) : String := "upstream read failed: " ++ error

/-- `relay_body`; `none` while the upstream has neither ended nor failed. -/
def relayLoop (fate : ℕ → Option ℕ) : List BodyRead → Client → Capture → Bool → Option (Client × Capture)
  | [], _, _, _ => none
  | .interrupted :: reads, client, capture, truncated => relayLoop fate reads client capture truncated
  | .failed error :: _, client, capture, _ => some (client, { capture with error := some (upstreamFailed error) })
  -- an empty read is the end of the body
  | .block [] _ :: _, client, capture, truncated =>
    let (client, written) := writeLast fate client
    some (client, { capture with
      error :=
        if written = false then some clientDisconnected
        else if truncated then some truncatedText
        else capture.error })
  | .block (b :: bytes) now :: reads, client, capture, truncated =>
    let capture := { capture with firstByteAt := some (capture.firstByteAt.getD now) }
    match writeChunk fate (b :: bytes) client with
    | (client, false) => some (client, { capture with error := some clientDisconnected })
    | (client, true) =>
      let (body, cut) := appendCapped capture.body (b :: bytes) maxBodyBytes
      relayLoop fate reads client { capture with body } (truncated || cut)

def relayBody (fate : ℕ → Option ℕ) (reads : List BodyRead) (capture : Capture) : Option (Client × Capture) :=
  relayLoop fate reads {} capture false

/-- The blocks in front of the end or the failure of the upstream. -/
def blocksRead : List BodyRead → List Bytes
  | [] => []
  | .interrupted :: reads => blocksRead reads
  | .failed _ :: _ => []
  | .block [] _ :: _ => []
  | .block (b :: bytes) _ :: reads => (b :: bytes) :: blocksRead reads

/-- How the upstream stops: `none` at its end, else its error. -/
def stopOf : List BodyRead → Option (Option String)
  | [] => none
  | .interrupted :: reads => stopOf reads
  | .failed error :: _ => some (some error)
  | .block [] _ :: _ => some none
  | .block (_ :: _) _ :: reads => stopOf reads

/-- A write of the client has failed. -/
def Client.Gone (fate : ℕ → Option ℕ) (client : Client) : Prop := ∃ n < client.writes, (fate n).isSome = true

theorem blocksRead_ne_nil {reads : List BodyRead} {block : Bytes} (h : block ∈ blocksRead reads) : block ≠ [] := by
  induction reads using blocksRead.induct with
  | case1 => cases h
  | case2 reads ih => exact ih h
  | case3 => cases h
  | case4 => cases h
  | case5 b bytes now reads ih =>
    rw [blocksRead, List.mem_cons] at h
    rcases h with hhere | hlater
    · rw [hhere]
      exact List.cons_ne_nil _ _
    · exact ih hlater

/-- What a row of writes sends: all of it, or a part and one failure. -/
theorem writeAll_spec (fate : ℕ → Option ℕ) (parts : List Bytes) (client : Client)
    (hclient : ¬ client.Gone fate) :
    ∃ sent missing, parts.flatten = sent ++ missing ∧ (writeAll fate parts client).1.got = client.got ++ sent ∧
      ((writeAll fate parts client).2 = true → missing = []) ∧
      ((writeAll fate parts client).1.Gone fate ↔ (writeAll fate parts client).2 = false) := by
  induction parts generalizing client with
  | nil =>
    refine ⟨[], [], rfl, (List.append_nil _).symm, fun _ => rfl, ?_⟩
    simp only [writeAll, Bool.true_eq_false, iff_false]
    exact hclient
  | cons part parts ih =>
    cases hfate : fate client.writes with
    | none =>
      have hnext : ¬ Client.Gone fate ⟨client.got ++ part, client.writes + 1⟩ := by
        rintro ⟨n, hn, hfailed⟩
        rcases Nat.lt_succ_iff_lt_or_eq.mp hn with hlt | heq
        · exact hclient ⟨n, hlt, hfailed⟩
        · rw [heq, hfate] at hfailed
          cases hfailed
      obtain ⟨sent, missing, hparts, hgot, hwhole, hgone⟩ := ih ⟨client.got ++ part, client.writes + 1⟩ hnext
      refine ⟨part ++ sent, missing, ?_, ?_, ?_, ?_⟩
      · rw [List.flatten_cons, hparts, List.append_assoc]
      · simp only [writeAll, hfate, hgot, List.append_assoc]
      · simp only [writeAll, hfate]
        exact hwhole
      · simp only [writeAll, hfate]
        exact hgone
    | some sent =>
      refine ⟨part.take sent, part.drop sent ++ parts.flatten, ?_, ?_, ?_, ?_⟩
      · rw [List.flatten_cons, ← List.append_assoc, List.take_append_drop]
      · simp only [writeAll, hfate]
      · simp only [writeAll, hfate, Bool.false_eq_true, false_imp_iff]
      · simp only [writeAll, hfate, iff_true]
        exact ⟨client.writes, Nat.lt_succ_self _, by rw [hfate]; rfl⟩

theorem writeChunk_flatten (bytes : Bytes) : [sizeBytes bytes.length ++ crlf, bytes, crlf, []].flatten = frame bytes := by
  simp [frame]

theorem appendCapped_take (whole bytes : Bytes) (limit : ℕ) :
    appendCapped (whole.take limit) bytes limit =
      ((whole ++ bytes).take limit, decide (limit - whole.length < bytes.length)) := by
  rw [appendCapped]
  rcases Nat.le_total limit whole.length with hfull | hroom
  · have hkept : min (limit - (whole.take limit).length) bytes.length = 0 := by
      rw [List.length_take]
      omega
    have hnone : limit - whole.length = 0 := by omega
    rw [hkept, List.take_zero, List.append_nil, List.take_append_of_le_length hfull, hnone]
  · have hwhole : whole.take limit = whole := List.take_of_length_le hroom
    rw [hwhole, List.take_append, hwhole]
    congr 1
    · congr 1
      rcases Nat.le_total (limit - whole.length) bytes.length with hle | hle
      · rw [min_eq_left hle]
      · rw [min_eq_right hle, List.take_of_length_le (le_refl _), List.take_of_length_le hle]
    · rw [decide_eq_decide]
      omega

/-- The error of a relay whose client stayed. -/
def stoppedError (stop : Option String) (received : ℕ) : Option String :=
  match stop with
  | some error => some (upstreamFailed error)
  | none => if maxBodyBytes < received then some truncatedText else none

/-- What a relay leaves of the blocks of an upstream: `whole` came through, and `tail` is what the client got
behind them. -/
structure Relayed (fate : ℕ → Option ℕ) (blocks : List Bytes) (stop : Option String) (client : Client)
    (capture : Capture) (whole rest : List Bytes) (tail : Bytes) : Prop where
  blocks : blocks = whole ++ rest
  got : client.got = whole.flatMap frame ++ tail
  body : capture.body = whole.flatten.take maxBodyBytes
  gone : client.Gone fate → capture.error = some clientDisconnected ∧
    ((∃ block later missing, rest = block :: later ∧ frame block = tail ++ missing) ∨
      (stop = none ∧ rest = [] ∧ ∃ missing, lastChunk = tail ++ missing))
  through : ¬ client.Gone fate → rest = [] ∧ tail = (if stop = none then lastChunk else []) ∧
    capture.error = stoppedError stop whole.flatten.length

/-- The body ended: the last chunk is written. -/
theorem relayed_end {fate : ℕ → Option ℕ} {client client' : Client} {capture : Capture} {truncated written : Bool}
    {whole : List Bytes} (hclient : ¬ client.Gone fate) (hgot : client.got = whole.flatMap frame)
    (hbody : capture.body = whole.flatten.take maxBodyBytes) (herror : capture.error = none)
    (htruncated : truncated = decide (maxBodyBytes < whole.flatten.length))
    (hresult : writeLast fate client = (client', written)) :
    ∃ tail, Relayed fate whole none client' { capture with
      error :=
        if written = false then some clientDisconnected
        else if truncated then some truncatedText
        else capture.error } whole [] tail := by
  obtain ⟨sent, missing, hparts, hsent, hwhole, hgone⟩ := writeAll_spec fate [lastChunk, []] client hclient
  have hlast : lastChunk = sent ++ missing := hparts
  have hwrite : writeAll fate [lastChunk, []] client = (client', written) := hresult
  rw [hwrite] at hsent hwhole hgone
  refine ⟨sent, (List.append_nil _).symm, ?_, hbody, fun hleft => ⟨?_, .inr ⟨rfl, rfl, missing, hlast⟩⟩,
    fun hstays => ⟨rfl, ?_, ?_⟩⟩
  · rw [hsent, hgot]
  · exact if_pos (hgone.mp hleft)
  · have hwritten := Bool.eq_true_of_not_eq_false fun hfailed => hstays (hgone.mpr hfailed)
    rw [if_pos rfl, hlast, hwhole hwritten, List.append_nil]
  · have hwritten : ¬ written = false := fun hfailed => hstays (hgone.mpr hfailed)
    simp only [stoppedError, if_neg hwritten, herror, htruncated, decide_eq_true_eq]

/-- What a block leaves that is written as a chunk of its own: all of it, or the client is gone. -/
theorem writeChunk_spec {fate : ℕ → Option ℕ} {block : Bytes} {client client' : Client} {written : Bool}
    (hclient : ¬ client.Gone fate) (hresult : writeChunk fate block client = (client', written)) :
    ∃ sent missing, frame block = sent ++ missing ∧ client'.got = client.got ++ sent ∧
      (written = true → missing = []) ∧ (client'.Gone fate ↔ written = false) := by
  have hspec := writeAll_spec fate [sizeBytes block.length ++ crlf, block, crlf, []] client hclient
  rw [writeChunk_flatten block, show writeAll fate _ client = (client', written) from hresult] at hspec
  exact hspec

theorem relayLoop_relayed {fate : ℕ → Option ℕ} {reads : List BodyRead} {stop : Option String}
    (hstop : stopOf reads = some stop) {client : Client} {capture : Capture} {truncated : Bool} {whole : List Bytes}
    (hclient : ¬ client.Gone fate) (hgot : client.got = whole.flatMap frame)
    (hbody : capture.body = whole.flatten.take maxBodyBytes) (herror : capture.error = none)
    (htruncated : truncated = decide (maxBodyBytes < whole.flatten.length)) :
    ∃ client' capture' whole' rest tail, relayLoop fate reads client capture truncated = some (client', capture') ∧
      Relayed fate (whole ++ blocksRead reads) stop client' capture' whole' rest tail := by
  induction reads using blocksRead.induct generalizing client capture truncated whole with
  | case1 => cases hstop
  | case2 reads ih => exact ih hstop hclient hgot hbody herror htruncated
  -- the body broke off: nothing more is written, and the error is kept
  | case3 error reads =>
    refine ⟨client, _, whole, [], [], rfl, rfl, ?_, hbody, fun hgone => absurd hgone hclient, fun _ => ?_⟩
    · rw [List.append_nil, hgot]
    · rw [← Option.some.inj hstop]
      exact ⟨rfl, rfl, rfl⟩
  | case4 now reads =>
    obtain rfl : stop = none := (Option.some.inj hstop).symm
    rcases hresult : writeLast fate client with ⟨client', written⟩
    obtain ⟨tail, hrelayed⟩ := relayed_end hclient hgot hbody herror htruncated hresult
    rw [relayLoop, hresult, blocksRead, List.append_nil]
    exact ⟨client', _, whole, [], tail, rfl, hrelayed⟩
  | case5 b bytes now reads ih =>
    rw [relayLoop, blocksRead]
    rcases hresult : writeChunk fate (b :: bytes) client with ⟨client', written⟩
    obtain ⟨sent, missing, hparts, hsent, hwhole, hgone⟩ := writeChunk_spec hclient hresult
    cases written with
    -- the client is gone, and the rest of the body is not read
    | false =>
      refine ⟨client', _, whole, (b :: bytes) :: blocksRead reads, sent, rfl, rfl, ?_, hbody, fun _ => ⟨rfl, .inl ?_⟩,
        fun hstays => absurd (hgone.mpr rfl) hstays⟩
      · rw [hsent, hgot]
      · exact ⟨b :: bytes, blocksRead reads, missing, rfl, hparts⟩
    | true =>
      have hstays : ¬ client'.Gone fate := fun hleft => Bool.noConfusion (hgone.mp hleft)
      have hframe : frame (b :: bytes) = sent := by rw [hparts, hwhole rfl, List.append_nil]
      have hflatten : (whole ++ [b :: bytes]).flatten = whole.flatten ++ (b :: bytes) := by
        rw [List.flatten_append, List.flatten_singleton]
      have hcapped := appendCapped_take whole.flatten (b :: bytes) maxBodyBytes
      rw [← hbody] at hcapped
      dsimp only
      rw [hcapped]
      have hblocks : whole ++ (b :: bytes) :: blocksRead reads = whole ++ [b :: bytes] ++ blocksRead reads := by
        rw [List.append_assoc, List.singleton_append]
      rw [hblocks]
      refine ih hstop hstays ?_ ?_ herror ?_
      · rw [hsent, hgot, List.flatMap_append, List.flatMap_singleton, hframe]
      · rw [hflatten]
      · rw [htruncated, hflatten, List.length_append, ← Bool.decide_or, decide_eq_decide]
        omega

theorem lastChunk_eq_frame : lastChunk = frame [] := by decide

/-- What the client decodes. -/
theorem Relayed.decode {fate : ℕ → Option ℕ} {blocks : List Bytes} {stop : Option String} {client : Client}
    {capture : Capture} {whole rest : List Bytes} {tail : Bytes}
    (h : Relayed fate blocks stop client capture whole rest tail) (hblocks : ∀ block ∈ blocks, block ≠ []) :
    (decode client.got).payload <+: blocks.flatten ∧ ((decode client.got).ended = true → stop = none) ∧
      (¬ client.Gone fate → decode client.got = ⟨blocks.flatten, decide (stop = none), []⟩) := by
  have hwhole : ∀ block ∈ whole, block ≠ [] := fun block hblock =>
    hblocks block (h.blocks ▸ List.mem_append_left rest hblock)
  have hpre : whole.flatten <+: blocks.flatten := by
    rw [h.blocks, List.flatten_append]
    exact List.prefix_append _ _
  by_cases hgone : client.Gone fate
  · suffices hleft : (HttpChunks.decode client.got).payload <+: blocks.flatten ∧
        ((HttpChunks.decode client.got).ended = true → stop = none) from
      ⟨hleft.1, hleft.2, fun hstays => absurd hgone hstays⟩
    rw [h.got]
    rcases (h.gone hgone).2 with ⟨block, later, missing, hrest, hframe⟩ | ⟨hstop, -, missing, hlast⟩
    · by_cases hmissing : missing = []
      · -- the whole chunk came through, and the flush failed
        have hnext : ∀ other ∈ whole ++ [block], other ≠ [] := by
          intro other hother
          apply hblocks other
          rw [h.blocks, hrest, ← List.singleton_append, ← List.append_assoc]
          exact List.mem_append_left later hother
        have hgot : whole.flatMap frame ++ tail = (whole ++ [block]).flatMap frame := by
          rw [List.flatMap_append, List.flatMap_singleton, hframe, hmissing, List.append_nil]
        rw [hgot, HttpChunks.decode_whole hnext]
        refine ⟨⟨later.flatten, ?_⟩, fun hended => Bool.noConfusion hended⟩
        rw [h.blocks, hrest, ← List.flatten_append, List.append_assoc, List.singleton_append]
      · rw [HttpChunks.decode_cut hwhole hframe.symm hmissing]
        exact ⟨hpre, fun hended => Bool.noConfusion hended⟩
    · refine ⟨?_, fun _ => hstop⟩
      by_cases hmissing : missing = []
      · have htail : tail = lastChunk := by rw [hlast, hmissing, List.append_nil]
        rw [htail, HttpChunks.decode_ended hwhole]
        exact hpre
      · rw [HttpChunks.decode_cut hwhole (lastChunk_eq_frame ▸ hlast).symm hmissing]
        exact hpre
  · obtain ⟨hrest, htail, _⟩ := h.through hgone
    have hflatten : blocks.flatten = whole.flatten := by rw [h.blocks, hrest, List.append_nil]
    have hdecode : HttpChunks.decode client.got = ⟨blocks.flatten, decide (stop = none), []⟩ := by
      rw [h.got, htail, hflatten]
      by_cases hstop : stop = none
      · rw [if_pos hstop, HttpChunks.decode_ended hwhole, decide_eq_true hstop]
      · rw [if_neg hstop, List.append_nil, HttpChunks.decode_whole hwhole, decide_eq_false hstop]
    rw [hdecode]
    exact ⟨List.prefix_refl _, of_decide_eq_true, fun _ => rfl⟩

theorem Relayed.error_iff {fate : ℕ → Option ℕ} {blocks : List Bytes} {stop : Option String} {client : Client}
    {capture : Capture} {whole rest : List Bytes} {tail : Bytes}
    (h : Relayed fate blocks stop client capture whole rest tail) :
    capture.error.isSome = true ↔ client.Gone fate ∨ stop.isSome = true ∨ maxBodyBytes < whole.flatten.length := by
  by_cases hgone : client.Gone fate
  · rw [(h.gone hgone).1]
    simp only [Option.isSome_some, hgone, true_or]
  · rw [(h.through hgone).2.2]
    cases stop with
    | some error => exact ⟨fun _ => .inr (.inl rfl), fun _ => rfl⟩
    | none =>
      rw [stoppedError]
      split_ifs with hcut
      · exact ⟨fun _ => .inr (.inr hcut), fun _ => rfl⟩
      · simp only [Option.isSome_none, Bool.false_eq_true, hgone, hcut, or_self]

/-- What a relay leaves, whichever write fails. -/
theorem relay_body_passes (fate : ℕ → Option ℕ) (reads : List BodyRead) (capture : Capture) {stop : Option String}
    (hstop : stopOf reads = some stop) :
    ∃ client capture' whole rest tail,
      relayBody fate reads { capture with body := [], error := none } = some (client, capture') ∧
      blocksRead reads = whole ++ rest ∧ client.got = whole.flatMap frame ++ tail ∧
      (¬ client.Gone fate → rest = [] ∧
        decode client.got = ⟨(blocksRead reads).flatten, decide (stop = none), []⟩) ∧
      (decode client.got).payload <+: (blocksRead reads).flatten ∧
      ((decode client.got).ended = true → stop = none) ∧
      (client.Gone fate → (∃ block later missing, rest = block :: later ∧ frame block = tail ++ missing) ∨
        (stop = none ∧ rest = [] ∧ ∃ missing, lastChunk = tail ++ missing)) ∧
      capture'.body = whole.flatten.take maxBodyBytes ∧
      (capture'.error.isSome = true ↔ client.Gone fate ∨ stop.isSome = true ∨ maxBodyBytes < whole.flatten.length) ∧
      (client.Gone fate → capture'.error = some clientDisconnected) ∧
      (¬ client.Gone fate → capture'.error = stoppedError stop whole.flatten.length) := by
  have hstart : ¬ Client.Gone fate {} := by
    rintro ⟨n, hn, _⟩
    exact absurd hn (Nat.not_lt_zero n)
  obtain ⟨client, capture', whole, rest, tail, hrelay, hrelayed⟩ :=
    @relayLoop_relayed fate reads stop hstop {} { capture with body := [], error := none } false [] hstart rfl rfl rfl rfl
  rw [List.nil_append] at hrelayed
  obtain ⟨hpayload, hended, hwhole⟩ := hrelayed.decode fun block hblock => blocksRead_ne_nil hblock
  exact ⟨client, capture', whole, rest, tail, hrelay, hrelayed.blocks, hrelayed.got,
    fun hstays => ⟨(hrelayed.through hstays).1, hwhole hstays⟩, hpayload, hended, fun hgone => (hrelayed.gone hgone).2,
    hrelayed.body, hrelayed.error_iff, fun hgone => (hrelayed.gone hgone).1,
    fun hstays => (hrelayed.through hstays).2.2⟩

/-- The write of the second block sends one of its two bytes and fails. -/
theorem relay_body_passes_gone :
    let fate := fun n => if n = 5 then some 1 else none
    let reads := [.block [97] 5, .interrupted, .block [98, 99] 6, .block [] 7]
    ∃ client capture', relayBody fate reads {} = some (client, capture') ∧ client.Gone fate ∧
      capture'.error = some clientDisconnected ∧ capture'.body <+: [97, 98, 99] ∧
      (decode client.got).payload <+: [97, 98, 99] ∧
      ∃ whole rest tail, [[97], [98, 99]] = whole ++ rest ∧ client.got = whole.flatMap frame ++ tail ∧
        capture'.body = whole.flatten.take maxBodyBytes := by
  intro fate reads
  obtain ⟨client, capture', whole, rest, tail, hrelay, hblocks, hgot, -, hpayload, -, -, hbody, -, hgone, -⟩ :=
    @relay_body_passes fate reads {} none rfl
  have hwrites : client.writes = 6 := by
    have hclient := congrArg (Option.map fun result => result.1.writes) hrelay
    exact (Option.some.inj hclient).symm
  have hleft : client.Gone fate := ⟨5, by rw [hwrites]; decide, rfl⟩
  have hwhole : ([97, 98, 99] : Bytes) = whole.flatten ++ rest.flatten := by
    rw [← List.flatten_append, ← hblocks]
    rfl
  refine ⟨client, capture', hrelay, hleft, hgone hleft, ?_, hpayload, whole, rest, tail, hblocks, hgot, hbody⟩
  rw [hbody, hwhole]
  exact (List.take_prefix _ _).trans (List.prefix_append _ _)

/-- A client that goes away at once has decoded nothing of the block read. -/
theorem relay_body_lost : ∃ client capture',
    relayBody (fun _ => some 0) [.block [97] 5, .block [] 6] {} = some (client, capture') ∧
      stopOf [.block [97] 5, .block [] 6] = some none ∧ blocksRead [.block [97] 5, .block [] 6] = [[97]] ∧
      (decode client.got).payload = [] := by
  refine ⟨⟨[], 1⟩, _, rfl, rfl, rfl, ?_⟩
  decide

end Ralph.Wire
