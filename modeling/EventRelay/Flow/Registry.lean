import EventRelay.Flow.Pattern
import EventRelay.Json.Codec

/-!
# The registry of flows

A flow is a named subscriber. The registry holds the patterns of each flow in ascending order of
the names by code point. A name that is registered again gets the later patterns alone.
-/

namespace EventRelay

/-- Why flows cannot be registered. -/
inductive FlowError where
  /-- The name of the flow is blank. -/
  | invalidName (name : String)
  /-- A text is no pattern. -/
  | invalidPattern (pattern : String)
  /-- A text is no JSON object of arrays of strings. -/
  | invalidConfiguration
  deriving DecidableEq, Repr

namespace FlowError

/-- The text of the error. -/
def message : FlowError → String
  | invalidName name => "invalid flow name: " ++ name
  | invalidPattern p => "invalid event pattern '" ++ p ++ "': expected 'context.aggregate.event'"
  | invalidConfiguration => "invalid flow configuration"

end FlowError

/-- The patterns of each flow, in ascending order of the names. -/
structure Registry where
  flows : List (String × List Pattern) := []

namespace Registry

instance : Inhabited Registry := ⟨{}⟩

/-- The registry without a flow. -/
def empty : Registry := {}

/-- Reads patterns in their order up to the first that is none. -/
def parsePatterns : List String → Except FlowError (List Pattern)
  | [] => .ok []
  | p :: ps =>
    match Pattern.parse? p with
    | none => .error (.invalidPattern p)
    | some pattern => (parsePatterns ps).map (pattern :: ·)

/-- Registers a flow, or changes nothing and says why. -/
def register (r : Registry) (name : String) (patterns : List String) :
    Except FlowError Registry :=
  if Text.isBlank name then .error (.invalidName name)
  else (parsePatterns patterns).map fun ps => ⟨ByName.insert name ps r.flows⟩

/-- Registers flows one after the other. -/
def registerAll (r : Registry) : List (String × List String) → Except FlowError Registry
  | [] => .ok r
  | (name, patterns) :: rest =>
    match r.register name patterns with
    | .ok r => registerAll r rest
    | .error e => .error e

/-- Reads an object of arrays of strings; of a name that it repeats the last array counts. -/
def settingDecoder : Json.Decoder (List (String × List String)) :=
  Json.Decoder.object (fun acc name =>
    (Json.Decoder.afterColon (Json.Decoder.list Json.Decoder.string)).andThen fun patterns =>
      Json.Decoder.result (ByName.insert name patterns acc)) []

/-- Reads the flows of a JSON text and registers them in ascending order of their names. -/
def ofJson (text : String) : Except FlowError Registry :=
  match settingDecoder.whole text with
  | .ok flows => empty.registerAll flows
  | .error _ => .error .invalidConfiguration

/-- No flow is registered. -/
def isEmpty (r : Registry) : Bool := r.flows.isEmpty

/-- The names of the flows, ascending. -/
def names (r : Registry) : List String := ByName.names r.flows

/-- The names of the flows that want an event, ascending. -/
def owners (r : Registry) (e : Event) : List String :=
  (r.flows.filter fun (_, patterns) => patterns.any (·.accepts e)).map (·.1)

/-- Whether a flow is registered and wants an event. -/
def routesTo (r : Registry) (e : Event) (name : String) : Bool :=
  match ByName.find? name r.flows with
  | some patterns => patterns.any (·.accepts e)
  | none => false

end Registry

end EventRelay
