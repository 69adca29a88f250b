import EventRelay.Log.Basic

/-!
# Readers

A long read in progress, whichever way the log is kept. Kept in memory, the log is read event by
event; kept in a table, it is read in pages, and a reader hands out the events of its page before it
asks for the next one.
-/

namespace EventRelay

/-- A long read of a table. -/
structure PageCursor where
  selection : Selection
  /-- The key of the last row that was read. -/
  after : Int
  /-- Events that were read and not handed out. -/
  page : List Event := []
  /-- The last page was not full, so there is no other. -/
  exhausted : Bool := false

/-- A long read in progress, or one that has come to its end. -/
inductive Reader where
  | memory (cursor : EventLog.Cursor)
  | table (cursor : PageCursor)
  | ended

end EventRelay
