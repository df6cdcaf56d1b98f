import EventLoop.Clock
import EventLoop.Cursor
import EventLoop.Failure

/-! Connecting to the first endpoint of a list that answers. An attempt is an oracle that may
depend on how many attempts were made before it. -/
namespace EventLoop

/-- What an attempt on an endpoint brings that may have a limit, after so many others. -/
abbrev Attempt (α : Type) := Option Span → Nat → Endpoint → Except SystemFault α

/-- The endpoints that were tried, in order, and the outcome. -/
structure Dial (α : Type) where
  tried : List Endpoint
  result : Except Failure (α × Endpoint)

namespace Dial

variable {α : Type}

/-- Goes through the endpoints; `last` is what the attempts so far have failed with. -/
def through (attempt : Nat → Endpoint → Except SystemFault α) :
    Nat → Failure → List Endpoint → Dial α
  | _, last, [] => ⟨[], .error last⟩
  | n, _, e :: es =>
    match attempt n e with
    | .ok a => ⟨[e], .ok (a, e)⟩
    | .error fault =>
      let d := through attempt (n + 1) (.system fault) es
      ⟨e :: d.tried, d.result⟩

def first (attempt : Attempt α) (limit : Option Span) (es : List Endpoint) : Dial α :=
  through (attempt limit) 0 Failure.nothingToConnect es

/-- Connects to the first endpoint that a cursor still has to come, with a limit on each
attempt. -/
def anyWithin (attempt : Attempt α) (limit : Option Span) (c : Cursor) : Dial α :=
  first attempt limit (c.rest.map (·.endpoint))

def any (attempt : Attempt α) (c : Cursor) : Dial α := anyWithin attempt none c

end Dial
end EventLoop
