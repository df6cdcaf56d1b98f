import EventLoop.Machine.Task

/-! A strand runs its handlers one at a time, in order, on top of a loop. It keeps at most one
turn in the loop's queue. -/
namespace EventLoop

structure Strand (H : Type) where
  /-- The loop that runs the handlers. -/
  home : Nat := 0
  /-- A turn is queued, or a handler of the strand is running. -/
  locked : Bool := false
  waiting : List (Task H) := []
  deriving Inhabited

namespace Strand

variable {H : Type}

def submit (t : Task H) (s : Strand H) : Strand H :=
  { s with locked := true, waiting := s.waiting ++ [t] }

def lock (s : Strand H) : Strand H := { s with locked := true }

def unlock (s : Strand H) : Strand H := { s with locked := false }

def pop (s : Strand H) : Strand H := { s with waiting := s.waiting.tail }

/-- Frees the strand; the handlers that are given up are destroyed afterwards. -/
def abandon (s : Strand H) : Strand H := { s with locked := false, waiting := [] }

end Strand
end EventLoop
