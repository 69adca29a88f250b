import EventRelay.Client.Lines
import EventRelay.Stream.Frame
import EventRelay.Wire.Codecs

/-!
# Reading a body of lines

Lines of blanks and heartbeats are passed over. Every other line is read as a free value first and
then as what is asked for; a line that is no such value ends the reading.
-/

namespace EventRelay.Client

/-- Why a request gave no answer. -/
inductive Failure where
  /-- The server refused with a status. -/
  | refused (status : Nat) (body : Wire.ErrorBody)
  /-- The answer broke off or is not of the kind asked for. -/
  | broken
  /-- A line of the answer is not of the kind asked for. -/
  | unreadableLine
  /-- The stream ended in front of the item that was waited for. -/
  | ended
  deriving DecidableEq, Repr

namespace Failure

/-- The code of a refusal. -/
def code? : Failure → Option ErrorCode
  | refused _ body => some body.code
  | _ => none

/-- The text of a failure, as far as it has one of its own. -/
def message? : Failure → Option String
  | refused status body =>
    some (body.code.text ++ " (" ++ toString status ++ "): " ++ body.message)
  | ended => some "stream ended before an item arrived"
  | broken | unreadableLine => none

end Failure

namespace Stream

/-- Space, tab, line feed, form feed and carriage return. -/
def isBlank (b : UInt8) : Bool := b = 0x20 || b = 0x09 || b = 0x0A || b = 0x0C || b = 0x0D

/-- A value is a heartbeat if its name is all it has, and says so. -/
def isHeartbeat : Json → Bool
  | .object [(name, .string s)] => name == "name" && s == "heartbeat"
  | _ => false

/-- The value of a line, unless it is passed over. -/
def ofLine {α : Type} (c : Json.Codec α) (line : List UInt8) : Option (Except Failure α) :=
  if line.all isBlank then none
  else
    match (Text.ofUtf8? line).map Json.Codec.free.read with
    | some (.ok v) =>
      if isHeartbeat v then none
      else
        match c.ofJson v with
        | .ok a => some (.ok a)
        | .error _ => some (.error .unreadableLine)
    | _ => some (.error .unreadableLine)

/-- The value of a piece, unless it is passed over. -/
def ofPiece {α : Type} (c : Json.Codec α) : Piece → Option (Except Failure α)
  | .line bytes => ofLine c bytes
  | .cutOff => some (.error .broken)

/-- The values of a body, in order, with failures where they are met. -/
def values {α : Type} (c : Json.Codec α) (body : Arrival) : List (Except Failure α) :=
  body.pieces.filterMap (ofPiece c)

/-- All values of a body. -/
def collect {α : Type} (c : Json.Codec α) (body : Arrival) : Except Failure (List α) :=
  (values c body).mapM id

/-- The first value of a body; what follows it is not looked at. -/
def first {α : Type} (c : Json.Codec α) (body : Arrival) : Except Failure α :=
  match values c body with
  | [] => .error .ended
  | value :: _ => value

end Stream

end EventRelay.Client
