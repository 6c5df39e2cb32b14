import Mathlib.Data.List.Forall2

namespace Ralph.Wire

/-- `to_ascii_lowercase`. -/
def toAsciiLowercase (s : String) : String := String.ofList (s.toList.map Char.toLower)

def eqIgnoreAsciiCase (a b : String) : Bool := toAsciiLowercase a == toAsciiLowercase b

def redacted : String := "<redacted>"

def genericSecretHeaders : List String :=
  ["authorization", "proxy-authorization", "x-api-key", "cookie", "set-cookie"]

abbrev Headers := List (String × String)

def isSecret (extra : List String) (name : String) : Bool :=
  (genericSecretHeaders ++ extra).any (eqIgnoreAsciiCase · name)

def redactHeaders (headers : Headers) (extra : List String) : Headers :=
  headers.map fun (name, value) => (name, if isSecret extra name then redacted else value)

def alwaysStored : List String := ["content-type", "content-encoding", "retry-after"]

structure StoredHeaders where
  names : List String
  prefixes : List String

def isStored (extra : StoredHeaders) (name : String) : Bool :=
  let lower := toAsciiLowercase name
  alwaysStored.contains lower || extra.names.contains lower ||
    extra.prefixes.any fun start => start.toList.isPrefixOf lower.toList

def storedResponseHeaders (headers : Headers) (extra : StoredHeaders) : Headers :=
  headers.filter fun (name, _) => isStored extra name

def headerValue (headers : Headers) (name : String) : Option String :=
  (headers.find? fun (n, _) => eqIgnoreAsciiCase n name).map Prod.snd

/-- The same headers, but for the values of hidden ones. -/
def AgreeBut (hidden : String → Bool) : Headers → Headers → Prop :=
  List.Forall₂ fun header header' =>
    header.1 = header'.1 ∧ (hidden header.1 = false → header.2 = header'.2)

section Agree

variable {hidden : String → Bool} {headers headers' : Headers}

theorem redactHeaders_eq_iff {extra : List String} :
    redactHeaders headers extra = redactHeaders headers' extra ↔
      AgreeBut (isSecret extra) headers headers' := by
  rw [redactHeaders, redactHeaders, AgreeBut, ← List.forall₂_eq_eq_eq, List.forall₂_map_left_iff,
    List.forall₂_map_right_iff]
  refine iff_of_eq (congrArg (List.Forall₂ · headers headers') ?_)
  funext ⟨name, value⟩ ⟨name', value'⟩
  refine propext ?_
  dsimp only
  rw [Prod.mk.injEq]
  refine and_congr_right ?_
  rintro rfl
  cases isSecret extra name <;> simp

/-- What is kept of the headers that are not hidden is the same. -/
theorem AgreeBut.filter (h : AgreeBut hidden headers headers') (kept : String → Bool)
    (hkept : ∀ name, kept name → hidden name = false) :
    (headers.filter fun header => kept header.1) = headers'.filter fun header => kept header.1 := by
  induction h with
  | nil => rfl
  | @cons header header' _ _ hagree _ ih =>
    obtain ⟨name, value⟩ := header
    obtain ⟨name', value'⟩ := header'
    obtain ⟨rfl, hvalue⟩ := hagree
    rw [List.filter_cons, List.filter_cons, ih]
    by_cases hname : kept name
    · obtain rfl := hvalue (hkept name hname)
      rfl
    · rw [if_neg hname, if_neg hname]

theorem AgreeBut.headerValue_eq (h : AgreeBut hidden headers headers') {name : String}
    (hname : ∀ n, eqIgnoreAsciiCase n name → hidden n = false) :
    headerValue headers name = headerValue headers' name := by
  have hkept := h.filter (eqIgnoreAsciiCase · name) hname
  rw [headerValue, headerValue, ← List.head?_filter, ← List.head?_filter, hkept]

end Agree

theorem isStored_of_eq {extra : StoredHeaders} {name n : String} (hname : name ∈ alwaysStored)
    (h : eqIgnoreAsciiCase n name) : isStored extra n = true := by
  have hlower : ∀ name ∈ alwaysStored, toAsciiLowercase name = name := by decide
  have hn : toAsciiLowercase n = name := (beq_iff_eq.1 h).trans (hlower name hname)
  simp [isStored, hn, hname]

end Ralph.Wire
