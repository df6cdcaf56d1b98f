import EventLoop.Clock
import EventLoop.Machine.Task

/-! What a thread has still to do, as a stack of frames. The calls are what user code may ask
for; the other frames are the places between two critical sections of the library. -/
namespace EventLoop

/-- How long a call of the run family waits for work. -/
inductive Wait
  | block | poll | deadline (t : Instant)
  deriving DecidableEq, Repr

def Wait.isOver (now : Instant) : Wait → Bool
  | .block => false
  | .poll => true
  | .deadline t => t ≤ now

inductive Role
  | handler (given : Option Outcome)
  | destructor
  | program
  deriving DecidableEq, Repr

/-- What a call returns. -/
inductive Reply
  | flag (b : Bool)
  | count (n : Nat)
  | counts (ns : List Nat)
  | strand (locked : Bool) (waiting : Nat)
  deriving DecidableEq, Repr

/-- An asynchronous operation: the loop it completes on, its ticket, when it is ready (if it
ever is), and what its handler is then given. -/
structure Operation (H : Type) where
  home : Nat
  registry : Nat
  ticket : Nat
  due : Option Instant
  outcome : Outcome
  task : Task H

/-- What user code may ask for, and two things that are done with a task on the way: `invoke` calls
it here and now, and `discard` destroys it unrun. -/
inductive Call (H : Type)
  | post (e : Executor) (t : Task H)
  | dispatch (e : Executor) (t : Task H)
  | invoke (t : Task H)
  | discard (t : Task H)
  | run (c : Nat) (w : Wait) (limit : Option Nat)
  | stop (c : Nat)
  | restart (c : Nat)
  | isStopped (c : Nat)
  | isInside (e : Executor)
  | counters (c : Nat)
  | dropOwner (c : Nat)
  | openGuard (g : Nat)
  | closeGuard (g : Nat)
  | ownsWork (g : Nat)
  | strandState (s : Nat)
  | wait (timer : Nat) (t : Task H)
  | start (r c : Nat) (due : Option Instant) (o : Outcome) (t : Task H)
  | expire (timer : Nat) (at' : Instant)
  | cancelAll (r : Nat)
  | cancelFirst (r : Nat)
  | pending (r : Nat)
  | wakeReactor (c : Nat)

/-- What a thread has still to do. `code` is user code that has made so many calls; a `reply` and a
`panic` are on their way to the code below. `drain`, `asleep` and `awake` are a call of the run
family that has taken `ran` jobs: about to look for work, asleep or notified, and woken with no
notification. -/
inductive Frame (H : Type)
  | call (c : Call H)
  | code (role : Role) (h : H) (made : Nat)
  | reply (r : Reply)
  | panic (message : String)
  | drain (c : Nat) (w : Wait) (limit : Option Nat) (ran : Nat)
  | asleep (c : Nat) (w : Wait) (limit : Option Nat) (ran : Nat)
  | awake (c : Nat) (w : Wait) (limit : Option Nat) (ran : Nat)
  | runTurn (s : Nat)
  | tryLock (s : Nat) (t : Task H)
  | finish (c : Nat)
  | finishWork (c : Nat)
  | leave (e : Executor)
  | release (s : Nat)
  | schedule (s : Nat)
  | dropTurn (s : Nat)
  | dropTasks (ts : List (Task H))
  | dropJobs (js : List (Job H))
  | closeReactor (c : Nat)
  | notifyOne (c : Nat)
  | notifyAll (c : Nat)
  | tally (c : Nat) (read : List Nat)
  | enrol (o : Operation H)
  | countStart (o : Operation H)
  | addWork (o : Operation H)
  | enlist (o : Operation H)
  | operation (o : Operation H)
  | withdraw (o : Operation H) (r : Outcome)
  | countAbort (o : Operation H) (r : Outcome)
  | complete (o : Operation H) (r : Outcome)
  | forget (r ticket : Nat)
  | signal (r : Nat) (tickets : List Nat)

namespace Frame

variable {H : Type}

/-- The frames that a panic runs on its way instead of skipping them. -/
def cleansUp : Frame H → Bool
  | .finish _ | .finishWork _ | .leave _ | .release _ | .schedule _ | .dropTurn _
  | .dropTasks _ | .dropJobs _ | .notifyOne _ | .notifyAll _ | .forget _ _ => true
  | _ => false

def isCode : Frame H → Bool
  | .code _ _ _ => true
  | _ => false

/-- Code decides about a panic itself, and a panic below another stays there. -/
def stopsPanic : Frame H → Bool
  | .code _ _ _ | .panic _ => true
  | _ => false

end Frame

/-- The first frame is at the top. -/
structure Thread (H : Type) where
  frames : List (Frame H) := []
  active : List Executor := []
  deriving Inhabited

end EventLoop
