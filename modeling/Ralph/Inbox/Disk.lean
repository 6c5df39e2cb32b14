import Mathlib.Data.List.AList
import Mathlib.Data.List.Sort
import Mathlib.Data.Multiset.Filter
import Mathlib.Data.String.Basic
import Ralph.Inbox.Calls

namespace Ralph

namespace Inbox
open Worker

abbrev Folder := AList fun _ : String => Bytes

/-- A file of the folder: its name and its bytes. -/
abbrev File := String × Bytes

/-- The files that an inbox uses. -/
structure Disk where
  ledger : Option Bytes
  temp : Option Bytes
  folder : Folder
  dropLog : Bytes

def Folder.files (f : Folder) : List File := f.entries.map fun e => (e.1, e.2)

def Disk.messages (d : Disk) : Multiset File :=
  ((d.folder.files.filter fun m => isMessage m.1 : List File) : Multiset File)

theorem Folder.map_files (f : Folder) : f.files.map Prod.fst = f.keys := by
  rw [files, List.map_map, AList.keys, List.keys]
  rfl

theorem Folder.mem_files {f : Folder} {name : String} {bytes : Bytes} :
    (name, bytes) ∈ f.files ↔ f.lookup name = some bytes := by
  rw [← Option.mem_def, AList.mem_lookup_iff, files, List.mem_map]
  constructor
  · rintro ⟨⟨a, b⟩, h, heq⟩
    cases heq
    exact h
  · intro h
    exact ⟨⟨name, bytes⟩, h, rfl⟩

namespace Disk

theorem mem_messages {d : Disk} {m : File} :
    m ∈ d.messages ↔ d.folder.lookup m.1 = some m.2 ∧ isMessage m.1 = true := by
  rw [messages, Multiset.mem_coe, List.mem_filter]
  exact and_congr Folder.mem_files Iff.rfl

theorem messages_nodup (d : Disk) : d.messages.Nodup := by
  have hfiles : d.folder.files.Nodup := by
    apply List.Nodup.of_map Prod.fst
    rw [Folder.map_files]
    exact d.folder.keys_nodup
  exact Multiset.coe_nodup.mpr (hfiles.filter _)

theorem messages_insert {d e : Disk} {name : String} {bytes : Bytes}
    (hname : ∀ m ∈ d.messages, m.1 ≠ name) (hmessage : isMessage name = true)
    (hfolder : e.folder = d.folder.insert name bytes) :
    e.messages = d.messages + {(name, bytes)} := by
  have habsent : name ∉ d.folder := by
    intro hmem
    obtain ⟨old, hold⟩ := Option.isSome_iff_exists.mp (AList.lookup_isSome.mpr hmem)
    exact hname (name, old) (mem_messages.mpr ⟨hold, hmessage⟩) rfl
  have hfiles : e.folder.files = (name, bytes) :: d.folder.files := by
    rw [hfolder, Folder.files, AList.entries_insert_of_notMem habsent]
    rfl
  rw [messages, hfiles, messages, add_comm, List.filter_cons_of_pos (by simpa using hmessage)]
  rfl

/-- A file that is no message does not matter. -/
theorem messages_insert_hidden {d e : Disk} {name : String} {bytes : Bytes}
    (hidden : isMessage name = false) (hfolder : e.folder = d.folder.insert name bytes) :
    e.messages = d.messages := by
  rw [Multiset.Nodup.ext e.messages_nodup d.messages_nodup]
  intro m
  rw [mem_messages, mem_messages, hfolder]
  by_cases hm : m.1 = name
  · simp [hm, hidden]
  · rw [AList.lookup_insert_ne hm]

theorem messages_erase {d e : Disk} {name : String} (hfolder : e.folder = d.folder.erase name) :
    e.messages = d.messages.filter fun m => m.1 ≠ name := by
  rw [Multiset.Nodup.ext e.messages_nodup (d.messages_nodup.filter _)]
  intro m
  rw [Multiset.mem_filter, mem_messages, mem_messages, hfolder]
  by_cases hm : m.1 = name
  · rw [hm, AList.lookup_erase]
    simp
  · rw [AList.lookup_erase_ne hm]
    exact (and_iff_left hm).symm

theorem messages_erase_hidden {d e : Disk} {name : String} (hidden : isMessage name = false)
    (hfolder : e.folder = d.folder.erase name) : e.messages = d.messages := by
  rw [messages_erase hfolder, Multiset.filter_eq_self]
  rintro m hm rfl
  rw [(mem_messages.mp hm).2] at hidden
  cases hidden

/-- The pending files in the order in which `sync` takes them. -/
def sortedMessages (d : Disk) : List File :=
  (d.folder.files.filter fun m => isMessage m.1).mergeSort fun a b => a.1 ≤ b.1

theorem sortedMessages_perm (d : Disk) :
    d.sortedMessages.Perm (d.folder.files.filter fun m => isMessage m.1) := List.mergeSort_perm _ _

theorem coe_sortedMessages (d : Disk) : (d.sortedMessages : Multiset File) = d.messages :=
  Multiset.coe_eq_coe.mpr d.sortedMessages_perm

theorem sorted_sortedMessages (d : Disk) : (d.sortedMessages.map Prod.fst).Pairwise (· < ·) := by
  have hnodup : (d.sortedMessages.map Prod.fst).Nodup := by
    rw [(d.sortedMessages_perm.map Prod.fst).nodup_iff]
    apply List.Nodup.sublist (List.filter_sublist.map Prod.fst)
    rw [Folder.map_files]
    exact d.folder.keys_nodup
  have hsorted : (d.sortedMessages.map Prod.fst).Pairwise (· ≤ ·) := by
    rw [List.pairwise_map]
    exact (List.pairwise_mergeSort (fun a b c hab hbc => by simp at *; exact hab.trans hbc)
      (fun a b => by simp; exact le_total a.1 b.1) _).imp (by simp)
  exact (hsorted.and hnodup).imp fun ⟨hle, hne⟩ => lt_of_le_of_ne hle hne

theorem sort_names {d : Disk} {names : List String} (hnames : names.Perm d.folder.keys) :
    (names.filter isMessage).mergeSort (· ≤ ·) = d.sortedMessages.map Prod.fst := by
  have hfilter : d.folder.keys.filter isMessage =
      (d.folder.files.filter fun m => isMessage m.1).map Prod.fst := by
    rw [← Folder.map_files, List.filter_map]
    rfl
  have hkeys : (names.filter isMessage).Perm (d.sortedMessages.map Prod.fst) :=
    (hnames.filter _).trans (hfilter ▸ (d.sortedMessages_perm.map Prod.fst).symm)
  apply List.Perm.eq_of_pairwise' (r := (· ≤ ·)) ?_ (d.sorted_sortedMessages.imp le_of_lt)
    ((List.mergeSort_perm _ _).trans hkeys)
  exact List.pairwise_mergeSort' _ _

end Disk

variable (inbox : Inbox)

def ledgerOf (d : Disk) : Ledger :=
  match d.ledger with
  | some bytes =>
    match inbox.json.ledger bytes with
    | .ok stored => .ofStored stored
    | .error _ => ⟨[]⟩
  | none => ⟨[]⟩

/-- A well-formed message file. -/
def arrival (m : File) : Option Entry :=
  match inbox.json.report m.2 with
  | .ok report => some ⟨m.1, report⟩
  | .error _ => none

/-- The reports of the folder that the ledger does not know. -/
def waiting (d : Disk) : Multiset Entry :=
  (d.messages.filterMap inbox.arrival).filter fun e => e.source ∉ (inbox.ledgerOf d).sources

def unread (d : Disk) : Multiset Entry := (inbox.ledgerOf d).entries + inbox.waiting d

theorem source_of_arrival {m : File} {e : Entry} (h : inbox.arrival m = some e) :
    e.source = m.1 := by
  unfold arrival at h
  split at h
  · cases h
    rfl
  · cases h

theorem mem_arrivals_source {ms : Multiset File} {e : Entry} (h : e ∈ ms.filterMap inbox.arrival) :
    e.source ∈ ms.map Prod.fst := by
  obtain ⟨m, hm, he⟩ := (Multiset.mem_filterMap _ _).mp h
  rw [inbox.source_of_arrival he]
  exact Multiset.mem_map_of_mem _ hm

/-- The well-formed files of a list, as `sync` hands them to the ledger. -/
def wellFormed (ms : List File) : List (String × Report) :=
  (ms.filterMap inbox.arrival).map fun e => (e.source, e.report)

theorem wellFormed_cons (m : File) (ms : List File) :
    inbox.wellFormed (m :: ms) =
      (match inbox.json.report m.2 with
        | .ok report => [(m.1, report)]
        | .error _ => []) ++ inbox.wellFormed ms := by
  rw [wellFormed, wellFormed, List.filterMap_cons, arrival]
  cases inbox.json.report m.2 <;> rfl

theorem wellFormed_names_sublist (ms : List File) :
    ((inbox.wellFormed ms).map Prod.fst).Sublist (ms.map Prod.fst) := by
  rw [wellFormed, List.map_map]
  induction ms with
  | nil => exact List.Sublist.refl _
  | cons m ms ih =>
    cases h : inbox.arrival m with
    | none =>
      rw [List.filterMap_cons_none h]
      exact ih.cons _
    | some e =>
      rw [List.filterMap_cons_some h, List.map_cons, List.map_cons]
      have he : (Prod.fst ∘ fun e : Entry => (e.source, e.report)) e = m.1 := inbox.source_of_arrival h
      rw [he]
      exact ih.cons_cons _

/-- What `sync` puts behind the ledger's entries. -/
def news (l : Ledger) (ms : List File) : List Entry :=
  (ms.filterMap inbox.arrival).filter fun e => e.source ∉ l.sources

theorem ingest_wellFormed (l : Ledger) {ms : List File} (h : (ms.map Prod.fst).Pairwise (· < ·)) :
    (l.ingest (inbox.wellFormed ms)).entries = l.entries ++ inbox.news l ms := by
  have hnodup : ((inbox.wellFormed ms).map Prod.fst).Nodup :=
    List.Nodup.sublist (inbox.wellFormed_names_sublist ms) (h.imp ne_of_lt)
  rw [l.ingest_entries hnodup, wellFormed, List.filter_map, List.map_map]
  exact congrArg _ (List.map_id' _)

theorem sorted_news (l : Ledger) {ms : List File} (h : (ms.map Prod.fst).Pairwise (· < ·)) :
    ((inbox.news l ms).map Entry.source).Pairwise (· < ·) := by
  apply List.Pairwise.sublist _ h
  have hsub := inbox.wellFormed_names_sublist ms
  rw [wellFormed, List.map_map] at hsub
  exact (List.filter_sublist.map _).trans hsub

end Inbox

end Ralph
