import EventRelay.Text.Utf8

/-!
# Lines of a body that arrives in chunks

A body arrives as chunks of bytes, cut anywhere. A line ends with a line feed, and what stands after
the last line feed is a line too, unless it is empty. A body that is cut off before its end fails
there: its complete lines were read by then, and a line that had only begun is lost.
-/

namespace EventRelay.Client

/-- How the chunks of a body end. -/
inductive Ending where
  | complete
  /-- The connection broke before the body was complete. -/
  | cutOff
  deriving DecidableEq, Repr

/-- A body as it arrives. -/
structure Arrival where
  chunks : List (List UInt8)
  ending : Ending

/-- What a body gives next: a line, or the failure that it was cut off. -/
inductive Piece where
  | line (bytes : List UInt8)
  | cutOff
  deriving DecidableEq

namespace Arrival

/-- All bytes that arrived. -/
def bytes (a : Arrival) : List UInt8 := a.chunks.flatten

/-- The byte that ends a line. -/
def lineFeed : UInt8 := 0x0A

/-- The lines that a chunk completes and the line that has begun after them; `begun` is the line
that had begun before the chunk. -/
def feed (begun : List UInt8) : List UInt8 → List (List UInt8) × List UInt8
  | [] => ([], begun)
  | b :: rest =>
    if b = lineFeed then
      let (lines, begun') := feed [] rest
      (begun :: lines, begun')
    else feed (begun ++ [b]) rest

/-- What is left of a body after its last chunk. -/
def tail (begun : List UInt8) : Ending → List Piece
  | .complete => if begun.isEmpty then [] else [.line begun]
  | .cutOff => [.cutOff]

/-- The pieces of a body from a line on that has begun. -/
def piecesFrom (begun : List UInt8) (ending : Ending) : List (List UInt8) → List Piece
  | [] => tail begun ending
  | chunk :: rest =>
    let (lines, begun) := feed begun chunk
    lines.map .line ++ piecesFrom begun ending rest

/-- The pieces of a body. -/
def pieces (a : Arrival) : List Piece := piecesFrom [] a.ending a.chunks

end Arrival

end EventRelay.Client
