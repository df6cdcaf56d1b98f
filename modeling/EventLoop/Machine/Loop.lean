import EventLoop.Machine.Task
import EventLoop.Numeral
import EventLoop.Settings

/-! The shared state of one loop and the critical sections on it, each a plain function. -/
namespace EventLoop

/-- What a loop has done so far. -/
structure Counters where
  posted : Nat := 0
  executed : Nat := 0
  started : Nat := 0
  aborted : Nat := 0
  deriving DecidableEq, Inhabited, Repr

namespace Counters

def toList (c : Counters) : List Nat := [c.posted, c.executed, c.started, c.aborted]

end Counters

/-- The pool that waits on timers and lookups starts on first use and never comes back. -/
inductive Reactor
  | idle | running | closed
  deriving DecidableEq, Inhabited, Repr

structure Loop (H : Type) where
  settings : Settings := {}
  queue : List (Job H) := []
  /-- Queued and running handlers, guards, and operations whose handler is not yet queued. -/
  outstanding : Nat := 0
  stopped : Bool := false
  /-- The owner is gone; nothing runs or queues any more. -/
  closed : Bool := false
  counters : Counters := {}
  /-- Threads asleep in the loop that nobody has notified. -/
  sleepers : List Nat := []
  reactor : Reactor := .idle
  deriving Inhabited

/-- What a thread that looks for work finds. -/
inductive Pick (H : Type)
  | ended
  | job (j : Job H) (rest : List (Job H))
  /-- No work is left anywhere. -/
  | dry
  /-- The queue is empty, but work is outstanding. -/
  | idle

namespace Loop

variable {H : Type}

/-- A new job is counted and brings a unit of work of its own. -/
def enqueue (j : Job H) (l : Loop H) : Loop H :=
  { l with
    counters := { l.counters with posted := l.counters.posted + 1 }
    outstanding := l.outstanding + 1
    queue := l.queue ++ [j] }

/-- A completed operation brings the unit of work that it started with. -/
def enqueueCompletion (j : Job H) (l : Loop H) : Loop H :=
  { l with
    counters := { l.counters with posted := l.counters.posted + 1 }
    queue := l.queue ++ [j] }

def addWork (l : Loop H) : Loop H := { l with outstanding := l.outstanding + 1 }

/-- Gives a unit of work back; giving back the last one stops the loop. -/
def finishWork (l : Loop H) : Loop H :=
  { l with
    outstanding := l.outstanding - 1
    stopped := l.stopped || l.outstanding - 1 = 0 }

/-- Whether giving a unit of work back has to wake every thread. -/
def lastWork (l : Loop H) : Bool := l.outstanding - 1 = 0

def stop (l : Loop H) : Loop H := { l with stopped := true }

def restart (l : Loop H) : Loop H := { l with stopped := false }

/-- Stops for good; the queue that is given up is destroyed afterwards. -/
def close (l : Loop H) : Loop H :=
  { l with closed := true, stopped := true, outstanding := 0, queue := [] }

def pick (l : Loop H) : Pick H :=
  if l.stopped || l.closed then .ended
  else match l.queue with
    | j :: rest => .job j rest
    | [] => if l.outstanding = 0 then .dry else .idle

def countExecuted (l : Loop H) : Loop H :=
  { l with counters := { l.counters with executed := l.counters.executed + 1 } }

def countStarted (l : Loop H) : Loop H :=
  { l with counters := { l.counters with started := l.counters.started + 1 } }

def countAborted (l : Loop H) : Loop H :=
  { l with counters := { l.counters with aborted := l.counters.aborted + 1 } }

def startReactor (l : Loop H) : Loop H := { l with reactor := .running }

def closeReactor (l : Loop H) : Loop H := { l with reactor := .closed }

def sleep (i : Nat) (l : Loop H) : Loop H := { l with sleepers := l.sleepers ++ [i] }

def awaken (i : Nat) (l : Loop H) : Loop H := { l with sleepers := l.sleepers.filter (· ≠ i) }

/-- A sleeper becomes the one that the next notification reaches. -/
def prefer (i : Nat) (l : Loop H) : Loop H :=
  if i ∈ l.sleepers then { l with sleepers := i :: l.sleepers.erase i } else l

def notifyOne (l : Loop H) : Loop H := { l with sleepers := l.sleepers.tail }

def notifyAll (l : Loop H) : Loop H := { l with sleepers := [] }

end Loop

/-- Why a pool of this size cannot be built; such a size stops the thread that asks for it. -/
def ReactorSettings.startPanic? (r : ReactorSettings) : Option String :=
  if r.workers = 0 then some "Worker threads cannot be set to 0"
  else if r.blocking = 0 then some "Max blocking threads cannot be set to 0"
  else if Numeral.wordLimit ≤ r.workers.toNat + r.blocking.toNat then some "attempt to add with overflow"
  else
    let bytes := r.threadName.toList.flatMap String.utf8EncodeChar
    match bytes.findIdx? (· = 0) with
    | none => none
    | some i =>
      some ("thread name may not contain interior null bytes: NulError(" ++ toString i ++ ", ["
        ++ ", ".intercalate (bytes.map fun b => toString b.toNat) ++ "])")

end EventLoop
