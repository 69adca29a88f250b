import EventRelay.Http.Query
import EventRelay.Log.Reader
import EventRelay.Stream.Frame
import EventRelay.Wire.Codecs

/-!
# Requests and responses

A request as far as the broker looks at it, and a response, whose body may be the promise of a
stream: events of a read, aggregates, or one item for a consumer.
-/

namespace EventRelay.Http

/-- A request. -/
structure Request where
  method : String
  /-- The path as it is written in the address, escapes included. -/
  path : String
  query : Query := {}
  contentType? : Option String := none
  body : String := ""

namespace Request

/-- A character that starts no path, query or fragment. -/
def isOfAuthority (c : Char) : Bool := c != '/' && c != '?' && c != '#'

/-- What follows the host in an address, from its path on. An address that starts with a slash names
no host, one with a scheme has a host behind it, and any other has no path. -/
def afterHost (cs : List Char) : List Char :=
  match cs, cs.dropWhile fun c => isOfAuthority c && c != ':' with
  | '/' :: _, _ => cs
  | _, ':' :: '/' :: '/' :: rest =>
    match rest.dropWhile isOfAuthority with
    | '/' :: path => '/' :: path
    | rest => '/' :: rest
  | _, _ => []

/-- The path and the query of an address. What follows a `#` is left out. -/
def splitAddress (address : String) : String × Query :=
  let (before, _) := cutAt '#' (afterHost address.toList)
  let (path, query) := cutAt '?' before
  (String.ofList path, Query.parse (String.ofList query))

end Request

/-- What a response holds. -/
inductive Content where
  | none
  | text (s : String)
  | json (v : Json)
  /-- The events of a read, between heartbeats. -/
  | events (reader : Reader)
  /-- Aggregates, between heartbeats. -/
  | aggregates (aggregates : List (Except LogError Aggregate))
  /-- Heartbeats until an item can be leased, and the item. -/
  | nextItem

namespace Content

/-- The type that the response names. -/
def type? : Content → Option String
  | none => Option.none
  | text _ => some "text/plain; charset=utf-8"
  | json _ => some "application/json"
  | events _ | aggregates _ | nextItem => some Ndjson.contentType

end Content

/-- A response. -/
structure Response where
  status : Nat
  /-- The methods that the address does answer, where it does not answer the request's. -/
  allow : List String := []
  content : Content := .none
  /-- The request asked for everything but the content. -/
  headOnly : Bool := false

namespace Response

/-- Success with nothing to say. -/
def done : Response := { status := 200 }

/-- Success with a value. -/
def value (v : Json) : Response := { status := 200, content := .json v }

/-- A refusal. -/
def refusal (code : ErrorCode) (message : String) : Response where
  status := code.status
  content := .json (Wire.errorBody.encode ⟨code, message⟩)

/-- A refusal of a request that cannot be understood. -/
def malformed (message : String) : Response := refusal .requestMalformed message

end Response

end EventRelay.Http
