import EventRelay.Json.Codec

/-!
# Frames and their lines

A long-lived answer is a sequence of frames: heartbeats, which say only that the sender is there,
and items. On the wire every frame is one line of JSON. A failure ends the sequence, and the body
of the answer is cut off there, so that the receiver sees it broken and not at its end.
-/

namespace EventRelay

/-- One unit of a long-lived answer. -/
inductive Frame (α : Type) where
  | heartbeat
  | item (a : α)
  deriving DecidableEq, Repr

namespace Ndjson

/-- The value that stands for a heartbeat. -/
def heartbeatValue : Json := .object [("name", .string "heartbeat")]

/-- The value of a frame. -/
def frameValue : Frame Json → Json
  | .heartbeat => heartbeatValue
  | .item v => v

/-- The line of a frame. -/
def line (f : Frame Json) : String := (frameValue f).compact ++ "\n"

/-- The type of a body of lines. -/
def contentType : String := "application/x-ndjson"

/-- Lines as far as a body goes, and why it is cut off where it is. -/
structure Body (ε : Type) where
  lines : List String
  abortedBy : Option ε

/-- The body of a sequence of frames up to the first failure. -/
def body {ε : Type} : List (Except ε (Frame Json)) → Body ε
  | [] => ⟨[], none⟩
  | .error e :: _ => ⟨[], some e⟩
  | .ok f :: rest =>
    let b := body rest
    { b with lines := line f :: b.lines }

end Ndjson

end EventRelay
