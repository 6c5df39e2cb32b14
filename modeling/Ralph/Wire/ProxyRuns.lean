import Ralph.Base64
import Mathlib.Tactic
import Ralph.Wire.Proxy

namespace Ralph.Wire

variable {ι Amount : Type} {proxy : Proxy Amount}

/-- The finished record of a call, or the one that says that it was cut off. -/
def IsRecordOf (proxy : Proxy Amount) (call : OpenCall) (record : CallRecord Amount) : Prop :=
  (∃ body capture now, record = proxy.finished call body capture now) ∨
    ∃ body now, record = proxy.interrupted { call with requestBody := body } now

/-- Every call that was taken in is recorded exactly once, and none is open when the store has
stopped. -/
structure Recorded (proxy : Proxy Amount) (s : Shared ι Amount) : Prop where
  once : s.writing = false → ∀ call ∈ s.taken, ∃ record,
    s.file.filter (·.seq = call.seq) = [record] ∧ IsRecordOf proxy call record
  distinct : (s.file.map CallRecord.seq).Nodup
  closed : s.writing = false → s.open_ = []

def Main.rest : Main → List OpenCall
  | .closing rest => rest
  | _ => []

/-- `close_open` has taken the open calls out. -/
def Main.hasTaken : Main → Bool
  | .closing _ | .stopped => true
  | _ => false

/-- A call goes among the open ones before `close_open` takes them, and the counter does not wrap. -/
def InTime : Op ι Amount → Shared ι Amount → Prop
  | .insert _, s => s.main.hasTaken = false
  | .number _, s => s.numbers.length < 2 ^ 64
  | _, _ => True

/-- An operation that meets the condition. -/
def Timely (o : Op ι Amount) (s : Shared ι Amount) (r : o.Answer) (s' : Shared ι Amount) : Prop :=
  Does o s r s' ∧ InTime o s

/-- The records that the writer is going to receive. -/
def beforeStop : List (ToStore Amount) → List (CallRecord Amount)
  | .call record :: queue => record :: beforeStop queue
  | _ => []

namespace Shared

variable (s : Shared ι Amount)

def pending : List (CallRecord Amount) := if s.writing then beforeStop s.queue else []

def calls : List OpenCall := s.open_ ++ s.main.rest

def records : List (CallRecord Amount) := s.pending ++ s.file

/-- How many calls and records have a number. -/
def tally (q : ℕ) : ℕ := s.calls.countP (·.seq = q) + s.records.countP (·.seq = q)

/-- The writer runs and is not going to stop. -/
def Live : Prop := s.writing ∧ ToStore.stop ∉ s.queue

end Shared

/-- Two states of one call: its body may be in by now. -/
def SameCall (c c' : OpenCall) : Prop :=
  c.seq = c'.seq ∧ c.startedAt = c'.startedAt ∧ c.head = c'.head

structure Sound (proxy : Proxy Amount) (s : Shared ι Amount) : Prop where
  numbers : s.numbers.length ≤ 2 ^ 64
  taken_out : s.main.hasTaken → s.open_ = []
  live : s.main ≠ .stopped → s.Live
  atMost : ∀ q, s.tally q ≤ 1
  fresh : ∀ n, s.numbers.length ≤ n → n < 2 ^ 64 → s.tally (seqOf n) = 0
  held : ∀ call ∈ s.taken, s.tally call.seq = 1
  calls : ∀ call ∈ s.taken, ∀ c ∈ s.calls, c.seq = call.seq → SameCall c call
  records : ∀ call ∈ s.taken, ∀ record ∈ s.records, record.seq = call.seq → IsRecordOf proxy call record

/-- What a thread relies on: its number stays its own, and a call that was taken in stays so. -/
def Respects (i : ι) (s s' : Shared ι Amount) : Prop :=
  (∀ n, s.numbers[n]? = some i →
    s'.numbers[n]? = some i ∧ s'.tally (seqOf n) = s.tally (seqOf n)) ∧ s.taken ⊆ s'.taken

/-- A step that moves calls and records on, and neither loses nor adds one. -/
structure Carried (proxy : Proxy Amount) (s s' : Shared ι Amount) : Prop where
  numbers : s'.numbers = s.numbers
  taken : s'.taken = s.taken
  tally : ∀ q, s'.tally q = s.tally q
  calls : ∀ c' ∈ s'.calls, ∃ c ∈ s.calls, SameCall c c'
  records : ∀ record ∈ s'.records, record ∈ s.records ∨ ∃ c ∈ s.calls, IsRecordOf proxy c record

theorem seqOf_inj {m n : ℕ} (hm : m < 2 ^ 64) (hn : n < 2 ^ 64) (h : seqOf m = seqOf n) : m = n := by
  unfold seqOf at h
  omega

theorem beforeStop_append {queue : List (ToStore Amount)} (h : ToStore.stop ∉ queue)
    (queue' : List (ToStore Amount)) :
    beforeStop (queue ++ queue') = beforeStop queue ++ beforeStop queue' := by
  induction queue with
  | nil => rfl
  | cons message queue ih =>
    rw [List.mem_cons, not_or] at h
    cases message with
    | call record => rw [List.cons_append, beforeStop, beforeStop, ih h.2, List.cons_append]
    | stop => exact absurd rfl h.1

theorem beforeStop_stopped {queue : List (ToStore Amount)} (h : ToStore.stop ∈ queue)
    (queue' : List (ToStore Amount)) : beforeStop (queue ++ queue') = beforeStop queue := by
  induction queue with
  | nil => cases h
  | cons message queue ih =>
    cases message with
    | call record =>
      rw [List.cons_append, beforeStop, beforeStop, ih ((List.mem_cons.1 h).resolve_left nofun)]
    | stop => rfl

section Send

variable {s : Shared ι Amount} {record : CallRecord Amount}

theorem pending_send (h : s.Live) :
    (s.send (.call record)).pending = s.pending ++ [record] := by
  rw [Shared.send, if_pos h.1, Shared.pending, Shared.pending, if_pos h.1, if_pos h.1,
    beforeStop_append h.2]
  rfl

theorem pending_send_dead (h : ¬s.Live) : (s.send (.call record)).pending = s.pending := by
  by_cases hwriting : s.writing
  · have hstop : ToStore.stop ∈ s.queue := by
      by_contra hstop
      exact h ⟨hwriting, hstop⟩
    rw [Shared.send, if_pos hwriting, Shared.pending, Shared.pending, if_pos hwriting,
      if_pos hwriting, beforeStop_stopped hstop]
  · rw [Shared.send, if_neg hwriting]

theorem pending_send_stop : (s.send .stop).pending = s.pending := by
  by_cases hwriting : s.writing
  · rw [Shared.send, if_pos hwriting, Shared.pending, Shared.pending, if_pos hwriting,
      if_pos hwriting]
    by_cases hstop : ToStore.stop ∈ s.queue
    · exact beforeStop_stopped hstop _
    · rw [beforeStop_append hstop]
      exact List.append_nil _
  · rw [Shared.send, if_neg hwriting]

end Send

section Fields

variable {s : Shared ι Amount} {message : ToStore Amount}

@[simp] theorem open_send : (s.send message).open_ = s.open_ := by
  unfold Shared.send
  split_ifs <;> rfl

@[simp] theorem main_send : (s.send message).main = s.main := by
  unfold Shared.send
  split_ifs <;> rfl

@[simp] theorem file_send : (s.send message).file = s.file := by
  unfold Shared.send
  split_ifs <;> rfl

@[simp] theorem numbers_send : (s.send message).numbers = s.numbers := by
  unfold Shared.send
  split_ifs <;> rfl

@[simp] theorem taken_send : (s.send message).taken = s.taken := by
  unfold Shared.send
  split_ifs <;> rfl

theorem live_send {record : CallRecord Amount} (h : s.Live) : (s.send (.call record)).Live := by
  rw [Shared.send, if_pos h.1]
  exact ⟨h.1, by simpa using h.2⟩

end Fields

theorem seq_of_isRecordOf {call : OpenCall} {record : CallRecord Amount}
    (h : IsRecordOf proxy call record) : record.seq = call.seq := by
  obtain ⟨body, capture, now, rfl⟩ | ⟨body, now, rfl⟩ := h <;> rfl

theorem SameCall.isRecordOf {c call : OpenCall} (h : SameCall c call) {record : CallRecord Amount}
    (hrecord : IsRecordOf proxy c record) : IsRecordOf proxy call record := by
  obtain ⟨seq, startedAt, head, _⟩ := c
  obtain ⟨rfl, rfl, rfl⟩ := h
  exact hrecord

theorem Carried.respects {s s' : Shared ι Amount} (h : Carried proxy s s') (i : ι) :
    Respects i s s' :=
  ⟨fun _ hn => ⟨h.numbers ▸ hn, h.tally _⟩, h.taken ▸ List.Subset.refl _⟩

theorem Sound.carried {s s' : Shared ι Amount} (h : Sound proxy s) (hcarried : Carried proxy s s')
    (hout : s'.main.hasTaken → s'.open_ = []) (hlive : s'.main ≠ .stopped → s'.Live) :
    Sound proxy s' where
  numbers := hcarried.numbers ▸ h.numbers
  taken_out := hout
  live := hlive
  atMost q := hcarried.tally q ▸ h.atMost q
  fresh n hn := by
    rw [hcarried.numbers] at hn
    rw [hcarried.tally]
    exact h.fresh n hn
  held call hcall := by
    rw [hcarried.taken] at hcall
    rw [hcarried.tally]
    exact h.held call hcall
  calls call hcall c' hc' hseq := by
    rw [hcarried.taken] at hcall
    obtain ⟨c, hc, hsame⟩ := hcarried.calls c' hc'
    obtain ⟨-, hat, hhead⟩ := h.calls call hcall c hc (hsame.1.trans hseq)
    exact ⟨hseq, hsame.2.1.symm.trans hat, hsame.2.2.symm.trans hhead⟩
  records call hcall record hrecord hseq := by
    rw [hcarried.taken] at hcall
    obtain hold | ⟨c, hc, hof⟩ := hcarried.records record hrecord
    · exact h.records call hcall record hold hseq
    · exact (h.calls call hcall c hc ((seq_of_isRecordOf hof).symm.trans hseq)).isRecordOf hof

theorem Carried.of_same {s s' : Shared ι Amount} (hnumbers : s'.numbers = s.numbers)
    (htaken : s'.taken = s.taken) (hcalls : s'.calls = s.calls) (hrecords : s'.records = s.records) :
    Carried proxy s s' where
  numbers := hnumbers
  taken := htaken
  tally q := by rw [Shared.tally, Shared.tally, hcalls, hrecords]
  calls c hc := ⟨c, hcalls ▸ hc, rfl, rfl, rfl⟩
  records record hrecord := .inl (hrecords ▸ hrecord)

theorem Carried.refl (s : Shared ι Amount) : Carried proxy s s := .of_same rfl rfl rfl rfl

/-- The main thread and the writer carry every call on. -/
theorem Server.carried {s s' : Shared ι Amount} (hsound : Sound proxy s) (h : Server proxy s s') :
    Carried proxy s s' ∧ (s'.main.hasTaken → s'.open_ = []) ∧ (s'.main ≠ .stopped → s'.Live) := by
  cases h with
  | stopAccepting h =>
    have hlive := hsound.live (by rw [h]; nofun)
    exact ⟨.of_same rfl rfl (by simp [Shared.calls, h, Main.rest]) rfl, nofun, fun _ => hlive⟩
  | wait => exact ⟨.refl s, hsound.taken_out, hsound.live⟩
  | drain elapsed h =>
    have hlive := hsound.live (by rw [h]; nofun)
    exact ⟨.of_same rfl rfl (by simp [Shared.calls, h, Main.rest]) rfl, nofun, fun _ => hlive⟩
  | take h =>
    have hlive := hsound.live (by rw [h]; nofun)
    refine ⟨.of_same rfl rfl (by simp [Shared.calls, h, Main.rest]) rfl, fun _ => rfl, fun _ => hlive⟩
  | @record call rest now h =>
    have hlive : s.Live := hsound.live (by rw [h]; nofun)
    have hopen := hsound.taken_out (by rw [h]; rfl)
    -- the interrupted call goes from the open calls to the queue of the writer
    have hpending : ({ s with main := .closing rest }.send
        (.call (proxy.interrupted call now)) : Shared ι Amount).pending =
          s.pending ++ [proxy.interrupted call now] := pending_send hlive
    refine ⟨⟨numbers_send, taken_send, fun q => ?_, fun c hc => ?_, fun record hrecord => ?_⟩,
      fun _ => ?_, fun _ => live_send hlive⟩
    · have hseq : (proxy.interrupted call now).seq = call.seq := rfl
      simp only [Shared.tally, Shared.calls, Shared.records, hpending, open_send, main_send,
        file_send, h, Main.rest, List.countP_append, List.countP_cons, List.countP_nil, hseq]
      omega
    · simp only [Shared.calls, open_send, main_send, h, Main.rest, List.mem_append] at hc ⊢
      exact ⟨c, hc.imp_right (List.mem_cons_of_mem _), rfl, rfl, rfl⟩
    · simp only [Shared.records, hpending, file_send, List.mem_append, List.mem_singleton] at hrecord ⊢
      obtain (hold | rfl) | hold := hrecord
      · exact .inl (.inl hold)
      · refine .inr ⟨call, ?_, .inr ⟨_, now, rfl⟩⟩
        simp [Shared.calls, h, Main.rest]
      · exact .inl (.inr hold)
    · rw [open_send]
      exact hopen
  | stop h =>
    refine ⟨.of_same numbers_send taken_send ?_ ?_, fun _ => ?_, fun hne => ?_⟩
    · simp [Shared.calls, h, Main.rest]
    · rw [Shared.records, Shared.records, file_send, pending_send_stop]
      rfl
    · rw [open_send]
      exact hsound.taken_out (by rw [h]; rfl)
    · rw [main_send] at hne
      exact absurd rfl hne
  | @append record queue hwriting h =>
    -- the record moves from the queue to the file
    have hpending : s.pending = record :: beforeStop queue := by
      rw [Shared.pending, if_pos hwriting, h]
      rfl
    have hpending' : ({ s with queue, file := s.file ++ [record] } : Shared ι Amount).pending =
        beforeStop queue := by
      rw [Shared.pending, if_pos hwriting]
    refine ⟨⟨rfl, rfl, fun q => ?_, fun c hc => ⟨c, hc, rfl, rfl, rfl⟩, fun r hr => .inl ?_⟩,
      hsound.taken_out, fun hne => ?_⟩
    · simp only [Shared.tally, Shared.calls, Shared.records, hpending, hpending', List.countP_append,
        List.countP_cons, List.countP_nil]
      omega
    · simp only [Shared.records, hpending, hpending', List.mem_append, List.mem_cons,
        List.not_mem_nil, or_false] at hr ⊢
      tauto
    · obtain ⟨-, hstop⟩ := hsound.live hne
      rw [h, List.mem_cons, not_or] at hstop
      exact ⟨hwriting, hstop.2⟩
  | end_ hwriting h =>
    refine ⟨.of_same rfl rfl rfl ?_, hsound.taken_out, fun hne => ?_⟩
    · simp [Shared.records, Shared.pending, hwriting, h, beforeStop]
    -- only `stop` ends the writer, and the main thread has not sent it
    · obtain ⟨-, hstop⟩ := hsound.live hne
      rw [h] at hstop
      exact absurd (List.mem_cons_self ..) hstop

theorem insertOpen_perm {call : OpenCall} {calls : List OpenCall}
    (h : ∀ c ∈ calls, c.seq ≠ call.seq) : (insertOpen call calls).Perm (call :: calls) := by
  induction calls with
  | nil => exact .refl _
  | cons c calls ih =>
    rw [insertOpen]
    split_ifs with hlt heq
    · exact .refl _
    · exact absurd heq.symm (h c (List.mem_cons_self ..))
    · exact ((ih fun c hc => h c (List.mem_cons_of_mem _ hc)).cons c).trans (.swap ..)

section Thread

variable {s : Shared ι Amount} {me : ι} {n : ℕ} {call : OpenCall} {record : CallRecord Amount}

theorem Respects.refl (i : ι) (s : Shared ι Amount) : Respects i s s :=
  ⟨fun _ hn => ⟨hn, rfl⟩, List.Subset.refl _⟩

theorem Respects.trans {i : ι} {s s' s'' : Shared ι Amount} (h : Respects i s s')
    (h' : Respects i s' s'') : Respects i s s'' := by
  refine ⟨fun n hn => ?_, fun _ hx => h'.2 (h.2 hx)⟩
  obtain ⟨hn', htally⟩ := h.1 n hn
  obtain ⟨hn'', htally'⟩ := h'.1 n hn'
  exact ⟨hn'', htally'.trans htally⟩

/-- A step that counts one number only is nothing to the threads with other numbers. -/
theorem respects_others {s' : Shared ι Amount} (hsound : Sound proxy s)
    (hme : s.numbers[n]? = some me) (hnumbers : s'.numbers = s.numbers) (htaken : s.taken ⊆ s'.taken)
    (htally : ∀ q, q ≠ seqOf n → s'.tally q = s.tally q) {j : ι} (hj : j ≠ me) : Respects j s s' := by
  refine ⟨fun n' hn' => ⟨hnumbers ▸ hn', htally _ fun hseq => hj ?_⟩, htaken⟩
  have hlt := (List.getElem?_eq_some_iff.1 hme).1
  have hlt' := (List.getElem?_eq_some_iff.1 hn').1
  have hle := hsound.numbers
  rw [seqOf_inj (hlt'.trans_le hle) (hlt.trans_le hle) hseq, hme] at hn'
  exact (Option.some.inj hn').symm

theorem seqOf_ne_of_fresh {n' : ℕ} (hsound : Sound proxy s) (hme : s.numbers[n]? = some me)
    (hn' : s.numbers.length ≤ n') (hlt' : n' < 2 ^ 64) : seqOf n' ≠ seqOf n := by
  intro hseq
  have hlt := (List.getElem?_eq_some_iff.1 hme).1
  have := seqOf_inj hlt' (hlt.trans_le hsound.numbers) hseq
  omega

theorem number_sound (hsound : Sound proxy s) (hlt : s.numbers.length < 2 ^ 64) :
    Sound proxy { s with numbers := s.numbers ++ [me] } where
  numbers := by
    rw [List.length_append, List.length_singleton]
    exact hlt
  taken_out := hsound.taken_out
  live := hsound.live
  atMost := hsound.atMost
  fresh n hn := by
    rw [List.length_append, List.length_singleton] at hn
    exact hsound.fresh n (by omega)
  held := hsound.held
  calls := hsound.calls
  records := hsound.records

theorem number_respects (j : ι) : Respects j s { s with numbers := s.numbers ++ [me] } := by
  refine ⟨fun n hn => ⟨?_, rfl⟩, List.Subset.refl _⟩
  rw [List.getElem?_append_left (List.getElem?_eq_some_iff.1 hn).1]
  exact hn

theorem none_of_tally {q : ℕ} (h : s.tally q = 0) :
    (∀ c ∈ s.calls, c.seq ≠ q) ∧ ∀ record ∈ s.records, record.seq ≠ q := by
  rw [Shared.tally, Nat.add_eq_zero_iff, List.countP_eq_zero, List.countP_eq_zero] at h
  exact ⟨fun c hc => by simpa using h.1 c hc, fun record hr => by simpa using h.2 record hr⟩

theorem tally_insert (hnone : s.tally call.seq = 0) (q : ℕ) :
    ({ s with open_ := insertOpen call s.open_, taken := s.taken ++ [call] } : Shared ι Amount).tally q =
      s.tally q + if call.seq = q then 1 else 0 := by
  have hkeys : ∀ c ∈ s.open_, c.seq ≠ call.seq := fun c hc =>
    (none_of_tally hnone).1 c (List.mem_append_left _ hc)
  simp only [Shared.tally, Shared.calls, Shared.records, Shared.pending, List.countP_append,
    (insertOpen_perm hkeys).countP_eq, List.countP_cons, decide_eq_true_eq]
  omega

theorem mem_calls_insert {c : OpenCall} (hnone : s.tally call.seq = 0)
    (h : c ∈ ({ s with open_ := insertOpen call s.open_, taken := s.taken ++ [call] } :
      Shared ι Amount).calls) : c = call ∨ c ∈ s.calls := by
  have hkeys : ∀ c ∈ s.open_, c.seq ≠ call.seq := fun c hc =>
    (none_of_tally hnone).1 c (List.mem_append_left _ hc)
  obtain hopen | hrest := List.mem_append.1 h
  · obtain rfl | hopen := List.mem_cons.1 ((insertOpen_perm hkeys).mem_iff.1 hopen)
    · exact .inl rfl
    · exact .inr (List.mem_append_left _ hopen)
  · exact .inr (List.mem_append_right _ hrest)

theorem insert_sound (hsound : Sound proxy s) (hme : s.numbers[n]? = some me)
    (hseq : call.seq = seqOf n) (hnone : s.tally call.seq = 0) (hout : s.main.hasTaken = false) :
    Sound proxy { s with open_ := insertOpen call s.open_, taken := s.taken ++ [call] } where
  numbers := hsound.numbers
  taken_out htaken := by
    rw [hout] at htaken
    cases htaken
  live := hsound.live
  atMost q := by
    rw [tally_insert hnone]
    have := hsound.atMost q
    split_ifs with hq
    · rw [← hq, hnone]
    · exact this
  fresh n' hn' hlt' := by
    have hne := seqOf_ne_of_fresh hsound hme hn' hlt'
    rw [tally_insert hnone, hsound.fresh n' hn' hlt', if_neg fun heq => hne (heq.symm.trans hseq)]
  held call' hcall' := by
    rw [tally_insert hnone]
    obtain hold | rfl := List.mem_append.1 hcall' |>.imp_right List.mem_singleton.1
    · have hone := hsound.held call' hold
      rw [hone, if_neg fun heq => ?_]
      rw [← heq, hnone] at hone
      cases hone
    · rw [hnone, if_pos rfl]
  calls call' hcall' c hc hcseq := by
    obtain rfl | hc' := mem_calls_insert hnone hc
    · obtain hold | rfl := List.mem_append.1 hcall' |>.imp_right List.mem_singleton.1
      · have hone := hsound.held call' hold
        rw [← hcseq, hnone] at hone
        cases hone
      · exact ⟨rfl, rfl, rfl⟩
    · obtain hold | rfl := List.mem_append.1 hcall' |>.imp_right List.mem_singleton.1
      · exact hsound.calls call' hold c hc' hcseq
      · exact absurd hcseq ((none_of_tally hnone).1 c hc')
  records call' hcall' record hrecord hrseq := by
    obtain hold | rfl := List.mem_append.1 hcall' |>.imp_right List.mem_singleton.1
    · exact hsound.records call' hold record hrecord hrseq
    · exact absurd hrseq ((none_of_tally hnone).2 record hrecord)

/-- The record of a call that was not taken in goes beside all others. -/
theorem send_sound (hsound : Sound proxy s) (hme : s.numbers[n]? = some me)
    (hseq : record.seq = seqOf n) (hnone : s.tally record.seq = 0) :
    Sound proxy (s.send (.call record)) ∧
      ∀ q, q ≠ seqOf n → (s.send (.call record)).tally q = s.tally q := by
  by_cases hlive : s.Live
  swap
  -- a writer that is gone drops the record, and nothing changes
  · have hsame : Carried proxy s (s.send (.call record)) := by
      refine .of_same numbers_send taken_send ?_ ?_
      · rw [Shared.calls, Shared.calls, open_send, main_send]
      · rw [Shared.records, Shared.records, pending_send_dead hlive, file_send]
    refine ⟨hsound.carried hsame ?_ ?_, fun q _ => hsame.tally q⟩
    · rw [main_send, open_send]
      exact hsound.taken_out
    · rw [main_send]
      exact fun hne => absurd (hsound.live hne) hlive
  have hcalls : (s.send (.call record)).calls = s.calls := by
    rw [Shared.calls, Shared.calls, open_send, main_send]
  have htally : ∀ q, (s.send (.call record)).tally q = s.tally q + if record.seq = q then 1 else 0 := by
    intro q
    simp only [Shared.tally, hcalls, Shared.records, pending_send hlive, file_send,
      List.countP_append, List.countP_cons, List.countP_nil, decide_eq_true_eq]
    omega
  -- no call that was taken in has this number
  have hold : ∀ call ∈ s.taken, record.seq ≠ call.seq := by
    intro call hcall heq
    have hone := hsound.held call hcall
    rw [← heq, hnone] at hone
    cases hone
  refine ⟨⟨?_, ?_, fun _ => live_send hlive, fun q => ?_, fun n' hn' hlt' => ?_, fun call hcall => ?_,
    ?_, fun call hcall record' hr hrseq => ?_⟩, fun q hq => ?_⟩
  · rw [numbers_send]
    exact hsound.numbers
  · rw [main_send, open_send]
    exact hsound.taken_out
  · rw [htally]
    have := hsound.atMost q
    split_ifs with hq
    · rw [← hq, hnone]
    · exact this
  · rw [numbers_send] at hn'
    have hne := seqOf_ne_of_fresh hsound hme hn' hlt'
    rw [htally, hsound.fresh n' hn' hlt', if_neg fun heq => hne (heq.symm.trans hseq)]
  · rw [taken_send] at hcall
    rw [htally, hsound.held call hcall, if_neg (hold call hcall)]
  · rw [taken_send, hcalls]
    exact hsound.calls
  · rw [taken_send] at hcall
    rw [Shared.records, pending_send hlive, file_send, List.append_assoc, List.mem_append,
      List.mem_append, List.mem_singleton] at hr
    obtain hr | rfl | hr := hr
    · exact hsound.records call hcall record' (List.mem_append_left _ hr) hrseq
    · exact absurd hrseq (hold call hcall)
    · exact hsound.records call hcall record' (List.mem_append_right _ hr) hrseq
  · rw [htally, if_neg fun heq => hq (heq.symm.trans hseq), Nat.add_zero]

variable (proxy s) in
theorem setBody_carried (seq : ℕ) (body : Bytes) :
    Carried proxy s { s with
      open_ := s.open_.map fun call =>
        if call.seq = seq then { call with requestBody := body } else call } := by
  have hsame : ∀ call : OpenCall,
      SameCall call (if call.seq = seq then { call with requestBody := body } else call) := by
    intro call
    split_ifs <;> exact ⟨rfl, rfl, rfl⟩
  refine ⟨rfl, rfl, fun q => ?_, fun c' hc' => ?_, fun record hr => .inl hr⟩
  · simp only [Shared.tally, Shared.calls, Shared.records, Shared.pending, List.countP_append,
      List.countP_map, Function.comp_def, ← (hsame _).1]
  · obtain hopen | hrest := List.mem_append.1 hc'
    · obtain ⟨c, hc, rfl⟩ := List.mem_map.1 hopen
      exact ⟨c, List.mem_append_left _ hc, hsame c⟩
    · exact ⟨c', List.mem_append_right _ hrest, rfl, rfl, rfl⟩

/-- A thread that ends takes its call from the open ones and sends the record in one step. -/
theorem finish_carried (hsound : Sound proxy s) (hcall : call ∈ s.taken)
    (hrecord : IsRecordOf proxy call record) (hopen : record.seq ∈ s.open_.map OpenCall.seq) :
    s.Live ∧ s.main.hasTaken = false ∧ Carried proxy s
      ({ s with open_ := s.open_.filter (·.seq ≠ record.seq) }.send (.call record)) := by
  have hout : s.main.hasTaken = false := by
    cases htaken : s.main.hasTaken with
    | false => rfl
    | true =>
      rw [hsound.taken_out htaken] at hopen
      cases hopen
  have hlive : s.Live := hsound.live fun heq => by
    rw [heq] at hout
    cases hout
  have hpending : ({ s with open_ := s.open_.filter (·.seq ≠ record.seq) }.send (.call record) :
      Shared ι Amount).pending = s.pending ++ [record] := pending_send hlive
  obtain ⟨c, hc, hcseq⟩ := List.mem_map.1 hopen
  have hcseq' := hcseq.trans (seq_of_isRecordOf hrecord)
  refine ⟨hlive, hout, numbers_send, taken_send, fun q => ?_, fun c' hc' => ?_, fun r hr => ?_⟩
  · have hmost := hsound.atMost q
    simp only [Shared.tally, Shared.calls, Shared.records, hpending, open_send, main_send, file_send,
      List.countP_append, List.countP_cons, List.countP_nil, decide_eq_true_eq] at hmost ⊢
    by_cases hq : record.seq = q
    · have hpos : 0 < s.open_.countP (·.seq = q) :=
        List.countP_pos_iff.2 ⟨c, hc, decide_eq_true (hcseq.trans hq)⟩
      have hzero : (s.open_.filter (·.seq ≠ record.seq)).countP (·.seq = q) = 0 := by
        rw [List.countP_eq_zero]
        intro c' hc' heq
        exact of_decide_eq_true (List.mem_filter.1 hc').2 ((of_decide_eq_true heq).trans hq.symm)
      rw [hzero, if_pos hq]
      omega
    · have hsame : (s.open_.filter (·.seq ≠ record.seq)).countP (·.seq = q) =
          s.open_.countP (·.seq = q) := by
        rw [List.countP_filter]
        refine List.countP_congr fun c' _ => ?_
        simp only [Bool.and_eq_true, decide_eq_true_eq]
        exact and_iff_left_of_imp fun heq heq' => hq (heq'.symm.trans heq)
      rw [hsame, if_neg hq]
      omega
  · simp only [Shared.calls, open_send, main_send, List.mem_append, List.mem_filter] at hc' ⊢
    exact ⟨c', hc'.imp_left And.left, rfl, rfl, rfl⟩
  · simp only [Shared.records, hpending, file_send, List.mem_append, List.mem_singleton] at hr ⊢
    obtain (hold | rfl) | hold := hr
    · exact .inl (.inl hold)
    · have hsame := hsound.calls call hcall c (List.mem_append_left _ hc) hcseq'
      refine .inr ⟨c, List.mem_append_left _ hc, SameCall.isRecordOf ?_ hrecord⟩
      exact ⟨hsame.1.symm, hsame.2.1.symm, hsame.2.2.symm⟩
    · exact .inl (.inr hold)

end Thread

/-- A thread beside all others. -/
abbrev Keeps (proxy : Proxy Amount) (me : ι) {α : Type} (p : Program (Op ι Amount) Op.Answer α)
    (Q : α → Shared ι Amount → Prop) (s : Shared ι Amount) : Prop :=
  Program.Holds Timely (Sound proxy) (Respects me) (fun s s' => ∀ j, j ≠ me → Respects j s s') p Q s

section Handle

variable {me : ι} {s : Shared ι Amount} {n : ℕ} {call : OpenCall}

theorem idle_keeps {α : Type} {o : Op ι Amount} {f : o.Answer → Program (Op ι Amount) Op.Answer α}
    {Q : α → Shared ι Amount → Prop} (hidle : ∀ s r s', Does o s r s' → s' = s)
    (h : ∀ r u, Respects me s u → Keeps proxy me (f r) Q u) :
    Keeps proxy me (Program.op o >>= f) Q s := by
  rintro u hu hsound r v ⟨hdoes, -⟩
  obtain rfl := hidle u r v hdoes
  exact ⟨hsound, fun j _ => Respects.refl j v, h r v hu⟩

theorem serve_keeps (hcall : call ∈ s.taken) :
    Keeps proxy me (Proxy.serve call) (fun _ s' => call ∈ s'.taken) s := by
  refine idle_keeps (fun _ _ _ h => h) fun r u hu => ?_
  have hcall := hu.2 hcall
  obtain ⟨body, _ | error⟩ := r
  swap
  · exact fun v hv _ => hv.2 hcall
  dsimp only
  split_ifs
  · refine idle_keeps (fun _ _ _ h => h) fun _ v hv => ?_
    exact fun x hx _ => hx.2 (hv.2 hcall)
  · rintro v hv hsound - w ⟨rfl, -⟩
    have hcarried := setBody_carried proxy v call.seq body
    refine ⟨hsound.carried hcarried (fun hout => ?_) hsound.live,
      fun j _ => hcarried.respects j, ?_⟩
    · rw [hsound.taken_out hout]
      rfl
    · refine idle_keeps (fun _ _ _ h => h) fun _ x hx => ?_
      exact fun y hy _ => hy.2 (hx.2 (hv.2 hcall))

/-- The thread of a call that was taken in leaves exactly one record of it, also where
`close_open` came first. -/
theorem finish_keeps {record : CallRecord Amount} (hcall : call ∈ s.taken)
    (hrecord : IsRecordOf proxy call record) :
    Keeps proxy me (Program.op (.finish record)) (fun _ _ => True) s := by
  rintro u hu hsound - v ⟨⟨-, rfl⟩ | ⟨hopen, rfl⟩, -⟩
  · exact ⟨hsound, fun j _ => Respects.refl j v, fun _ _ _ => trivial⟩
  · obtain ⟨hlive, hout, hcarried⟩ := finish_carried hsound (hu.2 hcall) hrecord hopen
    refine ⟨hsound.carried hcarried (fun htaken => ?_) (fun _ => live_send hlive),
      fun j _ => hcarried.respects j, fun _ _ _ => trivial⟩
    rw [main_send, hout] at htaken
    cases htaken

theorem handle_keeps (head : RequestHead) :
    Keeps proxy me (proxy.handle me head) (fun _ _ => True) s := by
  refine idle_keeps (fun _ _ _ h => h) fun startedAt u _ => ?_
  rintro v - hsound seq w ⟨⟨rfl, rfl⟩, hlt⟩
  refine ⟨number_sound hsound hlt, fun j _ => number_respects j, ?_⟩
  -- From here on the number is the thread's own, and nothing has it.
  have hme : (v.numbers ++ [me])[v.numbers.length]? = some me := by simp
  have hnone : v.tally (seqOf v.numbers.length) = 0 := hsound.fresh _ (le_refl _) hlt
  refine idle_keeps (fun _ _ _ h => h.1) fun closed x hx => ?_
  obtain ⟨hme, htally⟩ := hx.1 _ hme
  have hnone : x.tally (seqOf v.numbers.length) = 0 := htally.trans hnone
  cases closed with
  | true =>
    refine idle_keeps (fun _ _ _ h => h) fun now y hy => ?_
    obtain ⟨hme, htally⟩ := hy.1 _ hme
    rintro z hz hsound - z' ⟨rfl, -⟩
    obtain ⟨hme, htally'⟩ := hz.1 _ hme
    have hseq : (proxy.interrupted ⟨seqOf v.numbers.length, startedAt, head, []⟩ now).seq =
      seqOf v.numbers.length := rfl
    obtain ⟨hsound', hothers⟩ :=
      send_sound hsound hme hseq ((htally'.trans htally).trans hnone)
    exact ⟨hsound', fun j hj => respects_others hsound hme numbers_send
      (taken_send ▸ List.Subset.refl _) hothers hj, fun _ _ _ => trivial⟩
  | false =>
    rintro z hz hsound - z' ⟨rfl, hout⟩
    obtain ⟨hme, htally⟩ := hz.1 _ hme
    have hnone := htally.trans hnone
    refine ⟨insert_sound hsound hme rfl hnone hout, fun j hj => ?_, ?_⟩
    · refine respects_others hsound hme (by rfl) (List.subset_append_left _ _) (fun q hq => ?_) hj
      rw [tally_insert hnone, if_neg (Ne.symm hq), Nat.add_zero]
    · apply Program.Holds.bind (p := Proxy.serve _) (Respects.refl me)
      apply (serve_keeps (List.mem_append_right _ (List.mem_singleton_self _))).mono
      rintro ⟨body, capture⟩ x' hcall
      refine idle_keeps (fun _ _ _ h => h) fun now y hy => ?_
      exact finish_keeps (hy.2 hcall) (.inl ⟨body, capture, now, rfl⟩)

end Handle

theorem sound_start : Sound proxy (Shared.start : Shared ι Amount) where
  numbers := Nat.zero_le _
  taken_out := nofun
  live _ := ⟨rfl, nofun⟩
  atMost _ := Nat.zero_le _
  fresh _ _ _ := rfl
  held := nofun
  calls := nofun
  records := nofun

theorem Sound.recorded {s : Shared ι Amount} (h : Sound proxy s) : Recorded proxy s := by
  have hclosed (hstopped : s.writing = false) : s.main = .stopped := by
    by_contra hne
    have := (h.live hne).1
    rw [hstopped] at this
    cases this
  have hopen (hstopped : s.writing = false) : s.open_ = [] :=
    h.taken_out (by rw [hclosed hstopped]; rfl)
  refine ⟨fun hstopped call hcall => ?_, ?_, hopen⟩
  · have hrecords : s.records = s.file := by
      rw [Shared.records, Shared.pending, hstopped]
      rfl
    have hcalls : s.calls = [] := by
      rw [Shared.calls, hopen hstopped, hclosed hstopped]
      rfl
    have hone := h.held call hcall
    rw [Shared.tally, hcalls, hrecords, List.countP_nil, Nat.zero_add,
      List.countP_eq_length_filter] at hone
    obtain ⟨record, hrecord⟩ := List.length_eq_one_iff.1 hone
    have hmem : record ∈ s.file.filter (·.seq = call.seq) := hrecord ▸ List.mem_singleton_self _
    obtain ⟨hfile, hseq⟩ := List.mem_filter.1 hmem
    exact ⟨record, hrecord, h.records call hcall record (hrecords ▸ hfile) (of_decide_eq_true hseq)⟩
  · rw [List.nodup_iff_count_le_one]
    intro q
    rw [List.count_eq_countP, List.countP_map]
    have hmost := h.atMost q
    rw [Shared.tally, Shared.records, List.countP_append] at hmost
    have hcount : s.file.countP ((· == q) ∘ CallRecord.seq) = s.file.countP (·.seq = q) :=
      List.countP_congr fun record _ => by simp
    omega

/-- As long as no call goes among the open ones after `close_open` has taken them, in any
interleaving of any requests, the main thread and the writer. -/
theorem calls_recorded_once [DecidableEq ι] {heads : ι → RequestHead}
    {w : Interleaving.World ι (Shared ι Amount) (Program (Op ι Amount) Op.Answer Unit)}
    (hrun : Interleaving.Run (Program.Moves Timely) (Server proxy)
      ⟨Shared.start, fun i => proxy.handle i (heads i)⟩ w) : Recorded proxy w.shared := by
  have hprotocol := Program.protocol Timely (Sound proxy) Respects (Server proxy)
    (Q := fun (_ : ι) (_ : Unit) _ => True) (fun _ _ _ _ h h' => h.trans h')
    (fun h hs => by
      obtain ⟨hcarried, hout, hlive⟩ := hs.carried h
      exact ⟨h.carried hcarried hout hlive, hcarried.respects⟩)
    Respects.refl
  exact (hprotocol.run sound_start (fun i => handle_keeps (heads i)) hrun).1.recorded

section Demo

def demoProxy : Proxy Unit where
  env :=
    { readJson := fun _ => .error "expected value at line 1 column 1"
      gunzip := .ok, inflateZlib := .ok, inflateRaw := .ok, base64 := Base64.standard.encode
      usage := fun _ _ => ⟨none, .missing, none⟩, inputEquivalent := fun _ _ _ => none }
  provider := .anthropic
  storeEvents := false

def demoHead : RequestHead := ⟨"POST", "/v1/messages", []⟩

def demoCall : OpenCall := ⟨1, 0, demoHead, []⟩

/-- One request that ends before the shutdown. -/
theorem demo_call_recorded :
    ∃ s : Shared Unit Unit, s.writing = false ∧ demoCall ∈ s.taken ∧ Recorded demoProxy s := by
  have h0 : Interleaving.Run (Program.Moves Timely) (Server demoProxy)
      ⟨Shared.start, fun i : Unit => demoProxy.handle i demoHead⟩ _ := .refl
  have h1 := h0.tail (.move () ⟨.now, _, (0 : ℤ), rfl, ⟨rfl, trivial⟩, rfl⟩)
  have h2 := h1.tail (.move () ⟨.number (), _, 1, rfl, ⟨⟨rfl, rfl⟩, Nat.two_pow_pos 64⟩, rfl⟩)
  have h3 := h2.tail (.move () ⟨.isClosed, _, false, rfl, ⟨⟨rfl, rfl⟩, trivial⟩, rfl⟩)
  have h4 := h3.tail (.move () ⟨.insert demoCall, _, (), rfl, ⟨rfl, rfl⟩, rfl⟩)
  have h5 := h4.tail (.move () ⟨.receive, _, ([], none), rfl, ⟨rfl, trivial⟩, rfl⟩)
  have h6 := h5.tail (.move () ⟨.setBody 1 [], _, (), rfl, ⟨rfl, trivial⟩, rfl⟩)
  have h7 := h6.tail (.move () ⟨.relay demoHead [], _, {}, rfl, ⟨rfl, trivial⟩, rfl⟩)
  have h8 := h7.tail (.move () ⟨.now, _, (0 : ℤ), rfl, ⟨rfl, trivial⟩, rfl⟩)
  have h9 := h8.tail (.move () ⟨.finish _, _, (), rfl, ⟨.inr ⟨by decide, rfl⟩, trivial⟩, rfl⟩)
  have h10 := h9.tail (.outside (.stopAccepting rfl))
  have h11 := h10.tail (.outside (.drain 0 rfl rfl))
  have h12 := h11.tail (.outside (.take rfl))
  have h13 := h12.tail (.outside (.stop rfl))
  have h14 := h13.tail (.outside (.append rfl rfl))
  have h15 := h14.tail (.outside (.end_ rfl rfl))
  exact ⟨_, rfl, List.mem_singleton_self _, calls_recorded_once h15⟩

/-- A thread that checked the flag before the shutdown takes its call in after the store has
stopped, and forwards it. -/
theorem late_call_unrecorded :
    ¬∀ w : Interleaving.World Unit (Shared Unit Unit) (Program (Op Unit Unit) Op.Answer Unit),
      Interleaving.Run (Program.Moves Does) (Server demoProxy)
        ⟨Shared.start, fun i => demoProxy.handle i demoHead⟩ w → Recorded demoProxy w.shared := by
  intro h
  have h0 : Interleaving.Run (Program.Moves Does) (Server demoProxy)
      ⟨Shared.start, fun i : Unit => demoProxy.handle i demoHead⟩ _ := .refl
  have h1 := h0.tail (.move () ⟨.now, _, (0 : ℤ), rfl, rfl, rfl⟩)
  have h2 := h1.tail (.move () ⟨.number (), _, 1, rfl, ⟨rfl, rfl⟩, rfl⟩)
  have h3 := h2.tail (.move () ⟨.isClosed, _, false, rfl, ⟨rfl, rfl⟩, rfl⟩)
  have h4 := h3.tail (.outside (.stopAccepting rfl))
  have h5 := h4.tail (.outside (.drain 0 rfl rfl))
  have h6 := h5.tail (.outside (.take rfl))
  have h7 := h6.tail (.outside (.stop rfl))
  have h8 := h7.tail (.outside (.end_ rfl rfl))
  have h9 := h8.tail (.move () ⟨.insert demoCall, _, (), rfl, rfl, rfl⟩)
  have h10 := h9.tail (.move () ⟨.receive, _, ([], none), rfl, rfl, rfl⟩)
  have h11 := h10.tail (.move () ⟨.setBody 1 [], _, (), rfl, rfl, rfl⟩)
  have h12 := h11.tail (.move () ⟨.relay demoHead [], _, {}, rfl, rfl, rfl⟩)
  have h13 := h12.tail (.move () ⟨.now, _, (0 : ℤ), rfl, rfl, rfl⟩)
  have h14 := h13.tail (.move () ⟨.finish _, _, (), rfl, .inr ⟨by decide, rfl⟩, rfl⟩)
  obtain ⟨record, hrecord, -⟩ := (h _ h14).once rfl demoCall (List.mem_singleton_self _)
  cases hrecord

end Demo

end Ralph.Wire
