import Ralph.Wire.Usage

namespace Ralph.Wire

/-- A row of the price table, without the prices. -/
structure PriceEntry where
  model : String
  abovePromptTokens : Option ℕ
  deriving DecidableEq

/-- `model.split('[').next()`. -/
def normalizeModel (model : List Char) : List Char := model.takeWhile (· ≠ '[')

def allDigits (text : List Char) (len : ℕ) : Bool := text.length = len ∧ text.all Char.isDigit

def dashedDate (text : List Char) : Bool :=
  match text.splitOn '-' with
  | [year, month, day] => allDigits year 4 && allDigits month 2 && allDigits day 2
  | _ => false

def isDateSuffix : List Char → Bool
  | '-' :: digits => allDigits digits 8 || dashedDate digits
  | _ => false

def matchesPrefix (model name : List Char) : Bool :=
  model = name || (name.isPrefixOf model && isDateSuffix (model.drop name.length))

/-- The sum wraps at 64 bits. -/
def promptTokens (usage : Usage) : ℕ :=
  (usage.inputUncached + usage.cacheRead + (usage.cacheWrites.map CacheWrite.tokens).sum) % 2 ^ 64

/-- `max_by_key` keeps the later one of two equal keys, and `None` is below every threshold. -/
def maxAbove (best next : PriceEntry) : PriceEntry :=
  match best.abovePromptTokens, next.abovePromptTokens with
  | some a, some b => if b < a then best else next
  | some _, none => best
  | none, _ => next

def entry (table : List PriceEntry) (model : String) (prompt : ℕ) : Option PriceEntry := do
  let model := normalizeModel model.toList
  let found := table.filter fun e => matchesPrefix model e.model.toList
  let longest ← (found.map fun e => e.model.utf8ByteSize).max?
  let above := found.filter fun e =>
    e.model.utf8ByteSize = longest ∧ e.abovePromptTokens.all fun t => t < prompt
  match above with
  | [] => none
  | e :: rest => some (rest.foldl maxAbove e)

def longPrompt (table : List PriceEntry) (model : String) (prompt : ℕ) : Bool :=
  (entry table model prompt).any fun e => e.abovePromptTokens.isSome

end Ralph.Wire
