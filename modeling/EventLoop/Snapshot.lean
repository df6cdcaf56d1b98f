import EventLoop.Endpoint

/-! The outcome of a lookup: endpoints in order, each with the names it was found by. -/
namespace EventLoop

structure Entry where
  endpoint : Endpoint
  host : String
  service : String
  deriving DecidableEq, Inhabited, Repr

/-- Entries in the order in which they are to be tried. -/
structure Snapshot where
  entries : List Entry := []
  deriving DecidableEq, Inhabited, Repr

namespace Snapshot

def size (s : Snapshot) : Nat := s.entries.length

def get? (s : Snapshot) (i : Nat) : Option Entry := s.entries[i]?

def endpoints (s : Snapshot) : List Endpoint := s.entries.map (·.endpoint)

end Snapshot
end EventLoop
