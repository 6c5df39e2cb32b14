import Ralph.SortedMap
import Ralph.Text
import Ralph.Utf8Encode

namespace Ralph.Chat

inductive ShellKind
  | zsh
  | bash
  deriving DecidableEq, Repr

structure Snapshot where
  env : SortedMap String String
  cwd : Option String
  functions : SortedMap String String
  aliases : SortedMap String String

/-- `Snapshot::default`. -/
def Snapshot.empty : Snapshot := ⟨.empty, none, .empty, .empty⟩

/-- What a cell changed; the names to unset are in the order of their `BTreeSet`. -/
structure SavedState where
  env : SortedMap String String
  unsetEnv : List String
  functions : SortedMap String String
  unsetFunctions : List String
  aliases : SortedMap String String
  unsetAliases : List String
  cwd : Option String

/-- `SavedState::default`. -/
def SavedState.empty : SavedState := ⟨.empty, [], .empty, [], .empty, [], none⟩

def validEnvName (name : String) : Bool :=
  match name.toList with
  | [] => false
  | first :: chars => (first = '_' || first.isAlpha) && chars.all fun c => c = '_' || c.isAlphanum

/-- The variables of the loop in `parse_snapshots`. -/
structure DumpReader where
  done : List Snapshot
  current : Snapshot
  functionName : Option String

def DumpReader.start : DumpReader := ⟨[], .empty, none⟩

def DumpReader.readRecord (r : DumpReader) (record : String) : DumpReader :=
  match record.toList with
  | [] => r
  | tag :: chars =>
    let payload := String.ofList chars
    match tag with
    | 'E' =>
      match Text.splitOnce payload '=' with
      | some (key, value) =>
        if validEnvName key then { r with current := { r.current with env := r.current.env.insert key value } }
        else r
      | none => r
    | 'P' => { r with current := { r.current with cwd := some payload } }
    -- the name of a function comes in front of its body
    | 'F' => { r with functionName := some payload }
    | 'B' =>
      match r.functionName with
      | some name =>
        { r with
          current := { r.current with functions := r.current.functions.insert name payload }
          functionName := none }
      | none => r
    | 'A' =>
      match Text.splitOnce payload '=' with
      | some (name, value) =>
        { r with current := { r.current with aliases := r.current.aliases.insert name value } }
      | none => r
    -- one dump ends here, and the next starts from nothing
    | 'Z' => { r with done := r.done ++ [r.current], current := .empty }
    | _ => r

def nul : Char := Char.ofNat 0

/-- The records of a text; what stands behind the last NUL is none. -/
def dumpRecords (text : String) : List String := (text.toList.splitOn nul).dropLast.map String.ofList

def parseSnapshots (bytes : Bytes) : Option (Snapshot × Snapshot) :=
  let r := (dumpRecords (fromUtf8Lossy bytes)).foldl DumpReader.readRecord .start
  match r.done.getLast? with
  | none => none
  | some last =>
    match r.done.dropLast with
    | [] => none
    | first :: _ => some (first, last)

def changed (end_ start : SortedMap String String) : SortedMap String String :=
  ⟨end_.entries.filter fun e => start.lookup e.1 ≠ some e.2, end_.sorted.filter _⟩

def removed (end_ start : SortedMap String String) : List String :=
  (start.entries.map Prod.fst).filter fun key => (end_.lookup key).isNone

def diffSnapshots (end_ start : Snapshot) : SavedState where
  env := changed end_.env start.env
  unsetEnv := removed end_.env start.env
  functions := changed end_.functions start.functions
  unsetFunctions := removed end_.functions start.functions
  aliases := changed end_.aliases start.aliases
  unsetAliases := removed end_.aliases start.aliases
  cwd := end_.cwd

/-- `absorb_snapshot`: what the next cell's shell is started with. -/
def absorbSnapshot (bytes : Bytes) : SavedState :=
  match parseSnapshots bytes with
  | some (start, end_) => diffSnapshots end_ start
  | none => .empty

def quote (text : String) : String :=
  "'" ++ String.ofList (text.toList.flatMap fun c => if c = '\u0027' then "'\\''".toList else [c]) ++ "'"

inductive RestoreLine
  | unsetEnv (key : String)
  | export_ (key value : String)
  | unsetFunction (name : String)
  | function (name body : String)
  | unalias (name : String)
  | alias (name value : String)
  | cd (dir : String)
  deriving DecidableEq, Repr

def RestoreLine.text (kind : ShellKind) : RestoreLine → String
  | .unsetEnv key => s!"unset -v {quote key}"
  | .export_ key value => s!"export {key}={quote value}"
  | .unsetFunction name => s!"unset -f -- {quote name}"
  | .function name body =>
    match kind with
    | .zsh => s!"functions+=({quote name} {quote body})"
    | .bash => s!"eval {quote body}"
  | .unalias name => s!"unalias {quote name} 2>/dev/null"
  | .alias name value => s!"alias {quote name}={quote value}"
  | .cd dir => s!"cd -- {quote dir} 2>/dev/null"

def restoreLines (state : SavedState) : List RestoreLine :=
  state.unsetEnv.map .unsetEnv ++ state.env.entries.map (fun e => .export_ e.1 e.2) ++
    state.unsetFunctions.map .unsetFunction ++ state.functions.entries.map (fun e => .function e.1 e.2) ++
    state.unsetAliases.map .unalias ++ state.aliases.entries.map (fun e => .alias e.1 e.2) ++
    state.cwd.toList.map .cd

def restoreScript (kind : ShellKind) (state : SavedState) : String :=
  "\n".intercalate ((restoreLines state).map (RestoreLine.text kind))

/-- The update that the shell makes of its state with a line. -/
def RestoreLine.run (s : Snapshot) : RestoreLine → Snapshot
  | .unsetEnv key => { s with env := s.env.erase key }
  | .export_ key value => { s with env := s.env.insert key value }
  | .unsetFunction name => { s with functions := s.functions.erase name }
  | .function name body => { s with functions := s.functions.insert name body }
  | .unalias name => { s with aliases := s.aliases.erase name }
  | .alias name value => { s with aliases := s.aliases.insert name value }
  | .cd dir => { s with cwd := some dir }

/-- The shell's state behind the restore script. -/
def SavedState.restore (saved : SavedState) (start : Snapshot) : Snapshot :=
  (restoreLines saved).foldl RestoreLine.run start

/-- Every name unset, and then every one set. -/
def putBack (start : SortedMap String String) (unset : List String) (set : SortedMap String String) :
    SortedMap String String :=
  (unset.foldl SortedMap.erase start).insertAll set.entries

/-- A part of the shell's state that is a map, with the lines that change it. -/
structure StatePart where
  get : Snapshot → SortedMap String String
  put : Snapshot → SortedMap String String → Snapshot
  unset : String → RestoreLine
  set : String → String → RestoreLine
  get_put : ∀ s m, get (put s m) = m
  put_put : ∀ s m m', put (put s m) m' = put s m'
  put_get : ∀ s, put s (get s) = s
  run_unset : ∀ s key, (unset key).run s = put s ((get s).erase key)
  run_set : ∀ s key value, (set key value).run s = put s ((get s).insert key value)

namespace StatePart

def env : StatePart where
  get := Snapshot.env
  put s m := { s with env := m }
  unset := .unsetEnv
  set := .export_
  get_put _ _ := rfl
  put_put _ _ _ := rfl
  put_get _ := rfl
  run_unset _ _ := rfl
  run_set _ _ _ := rfl

def functions : StatePart where
  get := Snapshot.functions
  put s m := { s with functions := m }
  unset := .unsetFunction
  set := .function
  get_put _ _ := rfl
  put_put _ _ _ := rfl
  put_get _ := rfl
  run_unset _ _ := rfl
  run_set _ _ _ := rfl

def aliases : StatePart where
  get := Snapshot.aliases
  put s m := { s with aliases := m }
  unset := .unalias
  set := .alias
  get_put _ _ := rfl
  put_put _ _ _ := rfl
  put_get _ := rfl
  run_unset _ _ := rfl
  run_set _ _ _ := rfl

variable (p : StatePart)

theorem run_unsets (keys : List String) (s : Snapshot) :
    (keys.map p.unset).foldl RestoreLine.run s = p.put s (keys.foldl SortedMap.erase (p.get s)) := by
  induction keys generalizing s with
  | nil => exact (p.put_get s).symm
  | cons key keys ih => rw [List.map_cons, List.foldl_cons, List.foldl_cons, ih, p.run_unset, p.put_put, p.get_put]

theorem run_sets (entries : List (String × String)) (s : Snapshot) :
    (entries.map fun e => p.set e.1 e.2).foldl RestoreLine.run s = p.put s ((p.get s).insertAll entries) := by
  induction entries generalizing s with
  | nil => exact (p.put_get s).symm
  | cons e entries ih =>
    rw [List.map_cons, List.foldl_cons, ih, p.run_set, p.put_put, p.get_put]
    rfl

end StatePart

/-- The script unsets and sets in each of the three maps, and goes to the directory it knows. -/
theorem restore_eq (saved : SavedState) (start : Snapshot) : saved.restore start =
    ⟨putBack start.env saved.unsetEnv saved.env, saved.cwd.or start.cwd,
      putBack start.functions saved.unsetFunctions saved.functions,
      putBack start.aliases saved.unsetAliases saved.aliases⟩ := by
  rw [SavedState.restore, restoreLines]
  simp only [List.foldl_append]
  have henv := StatePart.env.run_unsets saved.unsetEnv
  have hsetEnv := StatePart.env.run_sets saved.env.entries
  have hfunctions := StatePart.functions.run_unsets saved.unsetFunctions
  have hsetFunctions := StatePart.functions.run_sets saved.functions.entries
  have haliases := StatePart.aliases.run_unsets saved.unsetAliases
  have hsetAliases := StatePart.aliases.run_sets saved.aliases.entries
  dsimp only [StatePart.env, StatePart.functions, StatePart.aliases] at *
  rw [henv, hsetEnv, hfunctions, hsetFunctions, haliases, hsetAliases]
  cases saved.cwd <;> rfl

theorem putBack_changed (end_ start : SortedMap String String) :
    putBack start (removed end_ start) (changed end_ start) = end_ := by
  apply SortedMap.ext_lookup
  intro key
  rw [putBack, SortedMap.lookup_insertAll (changed end_ start).nodup_keys, SortedMap.lookup_foldl_erase]
  have hchanged : ∀ value, (changed end_ start).entries.lookup key = some value ↔
      end_.lookup key = some value ∧ start.lookup key ≠ some value := by
    intro value
    rw [SortedMap.lookup_eq_some_iff (changed end_ start).nodup_keys, changed, SortedMap.mem_filter_entries,
      decide_eq_true_eq]
  have hremoved : key ∈ removed end_ start ↔ start.lookup key ≠ none ∧ end_.lookup key = none := by
    rw [removed, List.mem_filter, Option.isNone_iff_eq_none, List.mem_map, Option.ne_none_iff_exists']
    apply and_congr_left
    intro _
    constructor
    · rintro ⟨⟨key', value⟩, hmem, rfl⟩
      exact ⟨value, start.mem_entries.1 hmem⟩
    · rintro ⟨value, hvalue⟩
      exact ⟨(key, value), start.mem_entries.2 hvalue, rfl⟩
  -- key by key: removed, kept, or set again
  cases hend : end_.lookup key with
  | none =>
    have hnone : (changed end_ start).entries.lookup key = none := by
      rw [Option.eq_none_iff_forall_ne_some]
      intro value hvalue
      rw [hchanged, hend] at hvalue
      cases hvalue.1
    rw [hnone, Option.none_or]
    split_ifs with hkey
    · rfl
    · rw [hremoved, hend] at hkey
      simpa using hkey
  | some value =>
    by_cases hstart : start.lookup key = some value
    · have hnone : (changed end_ start).entries.lookup key = none := by
        rw [Option.eq_none_iff_forall_ne_some]
        intro value' hvalue
        rw [hchanged, hend] at hvalue
        exact hvalue.2 (hvalue.1 ▸ hstart)
      rw [hnone, Option.none_or, if_neg, hstart]
      rw [hremoved, hend]
      simp
    · rw [(hchanged value).2 ⟨hend, hstart⟩]
      rfl

/-- The difference to the start, put back on the start, is the end, with the start's directory where the end has
none. -/
theorem restore_diffSnapshots (end_ start : Snapshot) :
    (diffSnapshots end_ start).restore start = { end_ with cwd := end_.cwd.or start.cwd } := by
  rw [restore_eq, diffSnapshots, putBack_changed, putBack_changed, putBack_changed]

end Ralph.Chat
