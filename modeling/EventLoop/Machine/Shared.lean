import EventLoop.Clock
import EventLoop.Table
import EventLoop.Machine.Loop
import EventLoop.Machine.Registry
import EventLoop.Machine.Strand

/-! What the threads of a machine share: loops, strands, guards, registries and timers, each by
number, and the clock. -/
namespace EventLoop

/-- Keeps a run from ending for lack of work while it is held. -/
structure Guard where
  home : Nat := 0
  owns : Bool := false
  deriving DecidableEq, Inhabited, Repr

/-- A timer's waits are the operations of its registry. -/
structure Timer where
  home : Nat := 0
  registry : Nat := 0
  expiry : Instant := 0
  deriving DecidableEq, Inhabited, Repr

structure Shared (H : Type) where
  loops : Table (Loop H) := {}
  strands : Table (Strand H) := {}
  guards : Table Guard := {}
  registries : Table Registry := {}
  timers : Table Timer := {}
  now : Instant := 0
  deriving Inhabited

namespace Shared

variable {H : Type}

def onLoop (s : Shared H) (c : Nat) (f : Loop H → Loop H) : Shared H :=
  { s with loops := s.loops.update c f }

def onStrand (s : Shared H) (x : Nat) (f : Strand H → Strand H) : Shared H :=
  { s with strands := s.strands.update x f }

def onGuard (s : Shared H) (g : Nat) (f : Guard → Guard) : Shared H :=
  { s with guards := s.guards.update g f }

def onRegistry (s : Shared H) (r : Nat) (f : Registry → Registry) : Shared H :=
  { s with registries := s.registries.update r f }

def onTimer (s : Shared H) (x : Nat) (f : Timer → Timer) : Shared H :=
  { s with timers := s.timers.update x f }

end Shared
end EventLoop
