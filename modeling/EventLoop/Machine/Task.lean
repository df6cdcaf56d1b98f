import EventLoop.Failure
import EventLoop.Snapshot

/-! What can be submitted to a loop: user code, possibly bound to an executor, and the turns of
strands. `H` is the type of user code, which the machine never looks into. -/
namespace EventLoop

/-- Where handlers are submitted: a loop, or a strand on top of one. -/
inductive Executor
  | loop (c : Nat)
  | strand (s : Nat)
  deriving DecidableEq, Inhabited, Repr

/-- What an asynchronous operation hands to its handler. -/
inductive Outcome
  | elapsed
  | resolved (found : Snapshot)
  | failed (why : Failure)
  deriving DecidableEq, Repr

inductive Task (H : Type)
  | body (h : H) (given : Option Outcome)
  | bound (e : Executor) (t : Task H)

namespace Task

variable {H : Type}

def core : Task H → H
  | .body h _ => h
  | .bound _ t => t.core

def deliver (o : Outcome) : Task H → Task H
  | .body h _ => .body h (some o)
  | .bound e t => .bound e (t.deliver o)

@[simp] theorem core_deliver (o : Outcome) (t : Task H) : (t.deliver o).core = t.core := by
  induction t with
  | body => rfl
  | bound _ _ ih => exact ih

end Task

/-- What a loop queues. -/
inductive Job (H : Type)
  | task (t : Task H)
  | turn (s : Nat)

end EventLoop
