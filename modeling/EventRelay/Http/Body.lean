import EventRelay.Http.MediaType
import EventRelay.Http.Message

/-!
# Bodies of requests

A request says that its body is JSON by the type it names, a body has a greatest length, and only
its first value is read.
-/

namespace EventRelay.Http

/-- The greatest length of a body in bytes. -/
def bodyLimit : Nat := 2 * 1024 * 1024

/-- Reads the first value of a body, or says what is wrong with it. -/
def readBody {α : Type} (c : Json.Codec α) (r : Request) : Except String α :=
  if !(r.contentType?.any MediaType.isJson) then
    .error "Expected request with \x60Content-Type: application/json\x60"
  else if bodyLimit < r.body.utf8ByteSize then .error "Failed to buffer the request body"
  else
    match c.decode.leading r.body with
    | .ok a => .ok a
    | .error .malformed => .error "Failed to parse the request body as JSON"
    | .error .mistyped => .error "Failed to deserialize the JSON body into the target type"

end EventRelay.Http
