import EventRelay.Http.Service
import EventRelay.Log.Drain

/-!
# Requests as lines

A console gives its requests and gets its answers line by line, each line the JSON of one of them.
An answer that is a stream is read to its end before it is written; that of one item for a consumer
ends after one attempt to lease it.
-/

namespace EventRelay.Console

open Http (Request Response)
open Json (Codec Field)

/-- The fields of a request. -/
def orderFields : List Field :=
  [⟨"method", String, .string, none⟩, ⟨"address", String, .string, none⟩,
    ⟨"contentType", String, .string, some "application/json"⟩, ⟨"body", String, .string, some ""⟩]

/-- The request of a line: its method, its address, the type of its body and the body. -/
def request? (line : String) : Option Request :=
  match (Json.Decoder.fields orderFields).whole line with
  | .error _ => none
  | .ok (method, address, contentType, body, _) =>
    let (path, query) := Request.splitAddress address
    some { method, path, query, contentType? := some contentType, body }

/-- The lines of a stream between its first heartbeat and a failure. -/
def streamText {ε : Type} (values : List Json) (broken : Option ε) : String :=
  let frames : List (Except ε (Frame Json)) :=
    .ok .heartbeat :: (values.map fun v => .ok (.item v)) ++ broken.toList.map .error
  "".intercalate (Ndjson.body frames).lines

/-- The text of a response. At most `count` events of a read are written. -/
def contentText (count : Nat) : Http.Content → Work String
  | .none => return ""
  | .text s => return s
  | .json v => return v.compact
  | .events reader => do
    let (events, broken) ← reader.drain count
    return streamText (events.map Wire.event.encode) broken
  | .aggregates delivered => do
    let (aggregates, broken) ← Reader.drainAggregates delivered
    return streamText (aggregates.map Wire.aggregate.encode) broken
  | .nextItem => do
    match ← Dispatch.attempt with
    | .ok leased =>
      let values := leased.toList.map fun l => Wire.awaitedItem.encode ⟨l.item, l.lease.lock⟩
      return streamText values (none : Option QueueError)
    | .error e => return streamText [] (some e)

/-- The line that answers a request. -/
def answer (registry : Registry) (count : Nat) (r : Request) : Work String := do
  let response ← Http.respond registry r
  let text ← if response.headOnly then pure "" else contentText count response.content
  return (Json.ofMembers [("status", .nat response.status), ("body", .string text),
    ("contentType", (response.content.type?.map Json.string).getD .null)]).compact

/-- The line that answers what is no request. -/
def unreadable : String :=
  (Json.ofMembers [("status", .nat 400), ("body", .string ""), ("contentType", .null)]).compact

end EventRelay.Console
