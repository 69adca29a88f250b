import EventRelay.Event

/-!
# Subscription patterns

A pattern names the events a flow wants by context, aggregate and event name: three parts with
points between them, of which each is a name or `*` for any.
-/

namespace EventRelay

/-- One part of a pattern. -/
inductive Segment where
  | any
  | exactly (name : String)
  deriving DecidableEq, Repr

namespace Segment

/-- Whether a name suits the part. -/
def accepts : Segment → String → Bool
  | any, _ => true
  | exactly name, other => name == other

/-- The part that a text without its outer blanks stands for; an empty one stands for none. -/
def ofChars? (cs : List Char) : Option Segment :=
  match Text.trimChars cs with
  | [] => none
  | ['*'] => some any
  | name => some (exactly (String.ofList name))

end Segment

/-- The events that a flow wants, by three names. -/
structure Pattern where
  context : Segment
  aggregate : Segment
  event : Segment
  deriving DecidableEq, Repr

namespace Pattern

/-- The stretches between the points of a text, one more than there are points. -/
def splitPoints : List Char → List (List Char)
  | [] => [[]]
  | '.' :: rest => [] :: splitPoints rest
  | c :: rest =>
    match splitPoints rest with
    | [] => [[c]]
    | part :: parts => (c :: part) :: parts

/-- Reads a pattern: exactly three parts, none of them blank. -/
def parse? (s : String) : Option Pattern :=
  match splitPoints s.toList with
  | [c, a, e] => do
    return ⟨← Segment.ofChars? c, ← Segment.ofChars? a, ← Segment.ofChars? e⟩
  | _ => none

/-- Whether the pattern wants an event. -/
def accepts (p : Pattern) (e : Event) : Bool :=
  p.context.accepts e.context.name && p.aggregate.accepts e.aggregate.name &&
    p.event.accepts e.name

end Pattern

end EventRelay
