import EventLoop.Machine.Move
import EventLoop.Script.Action
import EventLoop.Script.Report

/-! The state of a script in progress: the machine, the objects by their names, and what has
been observed since the last answer. -/
namespace EventLoop

/-- The part of a script that records the completion of an asynchronous operation. -/
structure Completion where
  id : String
  loop : Nat
  showsEnd : Bool
  handler : Option Handler

/-- For whom code of a script works, which decides where its results go. -/
inductive Tag
  | main
  | handler (id : String)
  | destructor (id : String)
  | worker (results : List Json.Value)
  | beside (thread : Nat) (results : List Json.Value)

/-- What code of a script waits for. -/
inductive Pause
  | time (t : Instant)
  | posted (c n : Nat)
  | ended (thread : Nat)
  | settled

/-- User code of the machine. -/
inductive Code
  | handler (h : Handler) (arg : Option Json.Value)
  | completion (k : Completion)
  | steps (actions : List Action)

instance : Inhabited Code := ⟨.steps []⟩

/-- How far code has come with an action. -/
inductive Progress
  | idle
  | calling (a : Action) (calls : List (Call Code))
  | repeating (a : Action) (c left sum : Nat)
  | pausing (a : Action) (p : Pause) (result : Json.Value)

/-- Code of a script that has begun. -/
structure Running where
  tag : Tag
  todo : List Action
  progress : Progress := .idle

/-- Steps beside another thread are part of the code that performs them. -/
def Running.ofFrame (r : Running) : Bool :=
  match r.tag with
  | .beside _ _ => false
  | _ => true

/-- A closure that is called once, with an argument that it may look at. -/
structure Closure where
  via : Executor
  handler : Handler
  takesArgument : Bool

def Closure.task (k : Closure) (arg : Option Json.Value) : Task Code :=
  .bound k.via (.body (.handler k.handler (if k.takesArgument then arg else none)) none)

structure Resolver where
  home : Nat := 0
  registry : Nat := 0
  book : Option Directory.Book := none
  asked : List String := []
  deriving Inhabited

/-- Objects by name. -/
structure Names (α : Type) where
  entries : List (String × α) := []

namespace Names

variable {α : Type}

def get? (ns : Names α) (name : String) : Option α := ns.entries.lookup name

def erase (ns : Names α) (name : String) : Names α :=
  ⟨ns.entries.filter fun e => e.1 ≠ name⟩

def set (ns : Names α) (name : String) (a : α) : Names α :=
  ⟨(name, a) :: (ns.erase name).entries⟩

theorem get?_set_self (ns : Names α) (name : String) (a : α) :
    (ns.set name a).get? name = some a := by
  simp [get?, set]

end Names

/-- One step of the main thread as it was observed. -/
structure Observation where
  result : Json.Value
  stopped : List Bool
  log : List String
  done : List (String × Json.Value)

structure Session where
  legacy : Bool := false
  contexts : Nat := 1
  machine : Machine Code := {}
  running : Table (List Running) := {}
  base : Instant := 0
  strands : Names Nat := {}
  guards : Names Nat := {}
  timers : Names Nat := {}
  poisoned : List String := []
  resolvers : Names Nat := {}
  closures : Names Closure := {}
  directory : Table Resolver := {}
  ownerless : List Nat := []
  ended : List (Nat × Except String (List Json.Value)) := []
  beside : List (Nat × List Json.Value) := []
  log : List String := []
  done : List (String × Json.Value) := []
  dropped : List String := []
  observed : List Observation := []

namespace Session

def shared (s : Session) : Shared Code := s.machine.shared

def now (s : Session) : Instant := s.shared.now

def move (s : Session) (x : Move Code) : Session := { s with machine := s.machine.move x }

def hold (s : Session) (i : Nat) (r : Running) : Session :=
  { s with running := s.running.update i fun rs => r :: rs.tail }

def push (s : Session) (i : Nat) (r : Running) : Session :=
  { s with running := s.running.update i (r :: ·) }

def pop (s : Session) (i : Nat) : Session :=
  { s with running := s.running.update i List.tail }

def isFresh (s : Session) (i : Nat) : Bool :=
  (s.running.get i).countP Running.ofFrame < (s.machine.thread i).frames.countP Frame.isCode

def say (s : Session) (line : String) : Session := { s with log := s.log ++ [line] }

def answer (s : Session) (r : Json.Value) : Session :=
  let seen : Observation :=
    { result := r
      stopped := (List.range s.contexts).map fun c => (s.shared.loops.get c).stopped
      log := s.log
      done := s.done.mergeSort fun x y => x.1 ≤ y.1 }
  { s with observed := s.observed ++ [seen], log := [], done := [] }

end Session
end EventLoop
