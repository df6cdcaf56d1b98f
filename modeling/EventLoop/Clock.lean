/-! Points in time and signed spans, in whole nanoseconds. The clock is a signed 64-bit count of
seconds with a fraction; a span lies between minus and plus `Clock.longest`. -/
namespace EventLoop

/-- A reading of the monotonic clock. -/
abbrev Instant := Int

/-- A signed length of time. -/
abbrev Span := Int

namespace Clock

def second : Int := 1000000000

def millisecond : Int := 1000000

/-- Readings count 2^63 seconds in either direction. -/
def range : Int := 0x8000000000000000 * second

def Representable (t : Instant) : Prop := -range ≤ t ∧ t < range

instance (t : Instant) : Decidable (Representable t) := by unfold Representable; infer_instance

def longest : Span := 0x7fffffffffffffff * millisecond

/-- About thirty years, in place of a wait that no reading of the clock could end. -/
def farFuture : Span := 86400 * 365 * 30 * second

/-- Whole seconds, rounded down, and the nanoseconds above them. -/
structure Split where
  seconds : Int
  nanos : Int
  nonneg : 0 ≤ nanos
  short : nanos < second

namespace Split

def of (t : Int) : Split :=
  ⟨t / second, t % second, Int.emod_nonneg t (by decide), Int.emod_lt_of_pos t (by decide)⟩

def total (p : Split) : Int := p.seconds * second + p.nanos

def zero : Split := of 0

def longest : Split := of Clock.longest

/-- What has passed since an earlier reading; a second is borrowed where the nanoseconds do not
suffice. -/
def since? (later earlier : Split) : Option Split :=
  if earlier.seconds < later.seconds ∨
      (earlier.seconds = later.seconds ∧ earlier.nanos ≤ later.nanos) then
    if h : earlier.nanos ≤ later.nanos then
      some ⟨later.seconds - earlier.seconds, later.nanos - earlier.nanos, by omega,
        by have := later.short; have := earlier.nonneg; omega⟩
    else
      some ⟨later.seconds - earlier.seconds - 1, later.nanos + second - earlier.nanos,
        by have := later.nonneg; have := earlier.short; omega, by omega⟩
  else none

def span? (p : Split) : Option Split :=
  if longest.seconds < p.seconds then none
  else if longest.seconds = p.seconds ∧ longest.nanos < p.nanos then none
  else some p

def neg (p : Split) : Split :=
  if h : p.nanos = 0 then ⟨-p.seconds, 0, by decide, by decide⟩
  else
    ⟨-p.seconds - 1, second - p.nanos, by have := p.short; omega,
      by have := p.nonneg; omega⟩

/-- What lies between two readings, negative if the first is the earlier one, and cut off at the
longest span on either side. -/
def between (later earlier : Split) : Split :=
  match later.since? earlier with
  | some ahead => ahead.span?.getD longest
  | none => (((earlier.since? later).getD zero).span?.getD longest).neg

end Split

/-- A signed difference cut off at the longest span on either side. -/
def signedBetween (later earlier : Instant) : Span :=
  ((Split.of later).between (Split.of earlier)).total

def isNeg (d : Span) : Bool := d < 0

def milliseconds (ms : Int) : Span :=
  if -0x7fffffffffffffff ≤ ms ∧ ms ≤ 0x7fffffffffffffff then ms * millisecond
  else if ms < 0 then -longest
  else longest

/-- The reading at which a wait that starts now is over. -/
def deadlineAfter (now : Instant) (d : Span) : Instant :=
  if Representable (now + d) then now + d
  else if Representable (now + farFuture) then now + farFuture
  else now

def parts (d : Span) : Int × Int := (d.tdiv second, d.tmod second)

def secondsUp (d : Span) : Int := -((-d).fdiv second)

def tick : Span := 50

end Clock
end EventLoop
