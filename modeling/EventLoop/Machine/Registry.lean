/-! Operations in flight that can be cancelled, by tickets in ascending order. Whoever removes
a ticket decides the outcome of its operation; one that is cancelled is sent a signal too. -/
namespace EventLoop

structure Registry where
  next : Nat := 0
  live : List Nat := []
  signalled : List Nat := []
  deriving DecidableEq, Inhabited, Repr

namespace Registry

/-- Gives away the next ticket, which is not live yet. -/
def draw (r : Registry) : Registry := { r with next := r.next + 1 }

def enrol (ticket : Nat) (r : Registry) : Registry :=
  { r with live := r.live.takeWhile (· < ticket) ++ ticket :: r.live.dropWhile (· < ticket) }

def forget (ticket : Nat) (r : Registry) : Registry :=
  { r with live := r.live.filter (· ≠ ticket) }

/-- Removes every ticket; the signals follow one by one. -/
def cancelAll (r : Registry) : Registry := { r with live := [] }

def signal (ticket : Nat) (r : Registry) : Registry :=
  { r with signalled := ticket :: r.signalled }

def cancelFirst (r : Registry) : Registry :=
  { r with live := r.live.tail, signalled := r.live.head?.toList ++ r.signalled }

def first (r : Registry) : Nat := min 1 r.live.length

def pending (r : Registry) : Nat := r.live.length

end Registry
end EventLoop
