import Mathlib.Tactic

namespace Ralph

/-- A JSON value. A number keeps its literal: nothing here computes with one. -/
inductive JsonValue
  | null
  | bool (b : Bool)
  | number (literal : String)
  | string (s : String)
  | array (items : List JsonValue)
  | object (members : List (String × JsonValue))

namespace JsonValue

/-- `value[key]`: null where there is no such member. -/
def get (v : JsonValue) (key : String) : JsonValue :=
  match v with
  | object members => (members.lookup key).getD null
  | _ => null

/-- `value.get(key)`. -/
def member? (v : JsonValue) (key : String) : Option JsonValue :=
  match v with
  | object members => members.lookup key
  | _ => none

def asBool : JsonValue → Option Bool
  | bool b => some b
  | _ => none

def asStr : JsonValue → Option String
  | string s => some s
  | _ => none

/-- `value.as_u64()`: a literal of digits only that fits in 64 bits. -/
def asU64 : JsonValue → Option ℕ
  | number literal =>
    if literal ≠ "" ∧ literal.toList.all Char.isDigit ∧ Nat.ofDigitChars 10 literal.toList 0 < 2 ^ 64 then
      some (Nat.ofDigitChars 10 literal.toList 0)
    else none
  | _ => none

def isNull : JsonValue → Bool
  | null => true
  | _ => false

def isObject : JsonValue → Bool
  | object _ => true
  | _ => false

/-- `value == "text"`. -/
def isText (v : JsonValue) (text : String) : Bool := v.asStr == some text

end JsonValue

end Ralph
