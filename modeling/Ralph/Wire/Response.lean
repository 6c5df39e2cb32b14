import Ralph.Chat.Command
import Ralph.JsonValue
import Ralph.Wire.Headers
import Ralph.Wire.Sse

namespace Ralph.Wire

/-- What reads compressed bodies and JSON. -/
structure Readers where
  readJson : Bytes → Except String JsonValue
  gunzip : Bytes → Except String Bytes
  inflateZlib : Bytes → Except String Bytes
  inflateRaw : Bytes → Except String Bytes

inductive ResponseView
  | json (value : JsonValue)
  | events (events : List Sse.SseEvent)

inductive DecodeError
  | unsupported (coding : String)
  | corrupt (encoding message : String)
  deriving DecidableEq

inductive ViewError
  | decode (error : DecodeError)
  | json (message : String)
  deriving DecidableEq

def DecodeError.text : DecodeError → String
  | .unsupported coding => s!"unsupported content-encoding: {coding}"
  | .corrupt encoding message => s!"corrupt {encoding} body: {message}"

def ViewError.text : ViewError → String
  | .decode error => error.text
  | .json message => s!"invalid json body: {message}"

def readAll (coding : String) (read : Except String Bytes) : Except DecodeError Bytes :=
  read.mapError (.corrupt coding)

def decodeOne (readers : Readers) (coding : String) (bytes : Bytes) : Except DecodeError Bytes :=
  match coding with
  | "identity" => .ok bytes
  | "gzip" | "x-gzip" => readAll coding (readers.gunzip bytes)
  | "deflate" =>
    match readAll coding (readers.inflateZlib bytes) with
    | .ok bytes => .ok bytes
    | .error _ => readAll coding (readers.inflateRaw bytes)
  | other => .error (.unsupported other)

def decodeBody (readers : Readers) (contentEncoding : Option String) (body : Bytes) :
    Except DecodeError Bytes :=
  let codings := ((contentEncoding.getD "").toList.splitOn ',').map fun coding =>
    toAsciiLowercase (Chat.trim (String.ofList coding))
  (codings.filter (· ≠ "")).reverse.foldlM (fun bytes coding => decodeOne readers coding bytes) body

/-- The text in front of the first `c`. -/
def before (s : String) (c : Char) : String := String.ofList (s.toList.takeWhile (· ≠ c))

def isEventStream (contentType : Option String) : Bool :=
  contentType.any fun value => eqIgnoreAsciiCase (Chat.trim (before value ';')) "text/event-stream"

def view (readers : Readers) (contentType contentEncoding : Option String) (body : Bytes) :
    Except ViewError ResponseView :=
  match decodeBody readers contentEncoding body with
  | .error error => .error (.decode error)
  | .ok decoded =>
    if isEventStream contentType then .ok (.events (Sse.push {} decoded).2)
    else
      match readers.readJson decoded with
      | .ok value => .ok (.json value)
      | .error message => .error (.json message)

end Ralph.Wire
