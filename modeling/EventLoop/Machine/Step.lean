import EventLoop.Machine.Frame
import EventLoop.Machine.Shared

/-! The execution of one frame, which is at most one critical section on what the threads share.
Main function: `Frame.step`. -/
namespace EventLoop

/-- What the execution of a frame does: the shared state and the thread's executors after it,
the frames that take its place, and the operation that it starts. -/
structure Effect (H : Type) where
  shared : Shared H
  active : List Executor
  frames : List (Frame H) := []
  started : Option (Operation H) := none

namespace Frame

variable {H : Type}

/-- A thread that sleeps in a loop waits for a notification. -/
def sleeps (me : Nat) (s : Shared H) : Frame H → Bool
  | .asleep c _ _ _ => me ∈ (s.loops.get c).sleepers
  | _ => false

def dropJob : Job H → Frame H
  | .task t => .dropTasks [t]
  | .turn x => .dropTurn x

def execute : Job H → Frame H
  | .task t => .call (.invoke t)
  | .turn x => .runTurn x

/-- A job is queued and one sleeper woken, or it is destroyed when the owner is gone. -/
def submit (s : Shared H) (active : List Executor) (c : Nat) (j : Job H) : Effect H :=
  if (s.loops.get c).closed then { shared := s, active, frames := [dropJob j] }
  else { shared := s.onLoop c (Loop.enqueue j), active, frames := [.notifyOne c] }

/-- Looks for work once: takes a job, goes to sleep, or ends the call. -/
def seek (me : Nat) (s : Shared H) (active : List Executor) (c : Nat) (w : Wait)
    (limit : Option Nat) (ran : Nat) : Effect H :=
  match (s.loops.get c).pick with
  | .ended => { shared := s, active, frames := [.reply (.count ran)] }
  | .job j rest =>
    { shared := s.onLoop c fun l => { l with queue := rest }
      active := .loop c :: active
      frames := [execute j, .finish c, .leave (.loop c), .drain c w limit (ran + 1)] }
  | .dry =>
    { shared := s.onLoop c Loop.stop, active
      frames := [.notifyAll c, .reply (.count ran)] }
  | .idle =>
    if w.isOver s.now then { shared := s, active, frames := [.reply (.count ran)] }
    else { shared := s.onLoop c (Loop.sleep me), active, frames := [.asleep c w limit ran] }

def giveBack (s : Shared H) (active : List Executor) (c : Nat) : Effect H :=
  { shared := s.onLoop c Loop.finishWork, active
    frames := if (s.loops.get c).lastWork then [.notifyAll c] else [] }

def initiate (s : Shared H) (active : List Executor) (c r : Nat) (due : Option Instant)
    (o : Outcome) (t : Task H) : Effect H :=
  { shared := s.onRegistry r Registry.draw, active
    frames := [.enrol ⟨c, r, (s.registries.get r).next, due, o, t⟩] }

def refuse (s : Shared H) (active : List Executor) (o : Operation H) (why : Failure) :
    Effect H :=
  { shared := s, active
    frames := [.complete o (.failed why), .forget o.registry o.ticket] }

/-- The reactor's part in the start of an operation, which goes on beside the threads unless the
owner of the loop is gone. -/
def take (s : Shared H) (active : List Executor) (o : Operation H) : Effect H :=
  match (s.loops.get o.home).reactor with
  | .closed => refuse s active o Failure.reactorGone
  | .running => { shared := s, active, started := some o }
  | .idle =>
    match (s.loops.get o.home).settings.reactor.startPanic? with
    | some m =>
      { shared := s, active
        frames := [.panic m, .dropTasks [o.task], .forget o.registry o.ticket] }
    | none => { shared := s.onLoop o.home Loop.startReactor, active, started := some o }

/-- An operation that has finished takes its ticket and ends with its own outcome; if a cancel
took the ticket first, that outcome is thrown away. -/
def claim (s : Shared H) (active : List Executor) (o : Operation H) : Effect H :=
  if o.ticket ∈ (s.registries.get o.registry).live then
    { shared := s.onRegistry o.registry (Registry.forget o.ticket), active
      frames := [.withdraw o o.outcome] }
  else { shared := s, active, frames := [.withdraw o (.failed .aborted)] }

def heed (s : Shared H) (active : List Executor) (o : Operation H) : Effect H :=
  { shared := s, active
    frames :=
      if o.ticket ∈ (s.registries.get o.registry).signalled then
        [.withdraw o (.failed .aborted)]
      else [.operation o] }

def operate (s : Shared H) (active : List Executor) (o : Operation H) : Effect H :=
  if o.due.any (· ≤ s.now) then claim s active o else heed s active o

/-- A reactor that is shut down forgets its operations and destroys their handlers. -/
def abandon (s : Shared H) (active : List Executor) (o : Operation H) : Effect H :=
  { shared := s.onRegistry o.registry (Registry.forget o.ticket), active
    frames := [.dropTasks [o.task]] }

def revoke (s : Shared H) (r : Nat) : List (Frame H) :=
  [.signal r (s.registries.get r).live, .reply (.count (s.registries.get r).pending)]

def stepCall (s : Shared H) (active : List Executor) : Call H → Effect H
  | .post (.loop c) t => submit s active c (.task t)
  | .post (.strand x) t =>
    { shared := s.onStrand x (Strand.submit t), active
      frames := if (s.strands.get x).locked then [] else [.schedule x] }
  | .dispatch (.loop c) t =>
    { shared := s, active
      frames := if .loop c ∈ active then [.call (.invoke t)] else [.call (.post (.loop c) t)] }
  | .dispatch (.strand x) t =>
    { shared := s, active
      frames :=
        if .strand x ∈ active then [.call (.invoke t)]
        else if x < s.strands.size ∧ .loop (s.strands.get x).home ∈ active then [.tryLock x t]
        else [.call (.post (.strand x) t)] }
  | .invoke (.body h given) => { shared := s, active, frames := [.code (.handler given) h 0] }
  | .invoke (.bound e t) => { shared := s, active, frames := [.call (.dispatch e t)] }
  | .discard t => { shared := s, active, frames := [.dropTasks [t]] }
  | .run c w limit => { shared := s, active, frames := [.drain c w limit 0] }
  | .stop c => { shared := s.onLoop c Loop.stop, active, frames := [.notifyAll c] }
  | .restart c => { shared := s.onLoop c Loop.restart, active }
  | .isStopped c =>
    { shared := s, active, frames := [.reply (.flag (s.loops.get c).stopped)] }
  | .isInside e => { shared := s, active, frames := [.reply (.flag (e ∈ active))] }
  | .counters c => { shared := s, active, frames := [.tally c []] }
  | .dropOwner c =>
    { shared := s.onLoop c Loop.close, active
      frames := [.notifyAll c, .dropJobs (s.loops.get c).queue, .closeReactor c] }
  | .openGuard g =>
    if (s.guards.get g).owns then { shared := s, active }
    else
      { shared := (s.onGuard g fun x => { x with owns := true }).onLoop (s.guards.get g).home
          Loop.addWork
        active }
  | .closeGuard g =>
    if (s.guards.get g).owns then
      giveBack (s.onGuard g fun x => { x with owns := false }) active (s.guards.get g).home
    else { shared := s, active }
  | .ownsWork g => { shared := s, active, frames := [.reply (.flag (s.guards.get g).owns)] }
  | .strandState x =>
    { shared := s, active
      frames := [.reply (.strand (s.strands.get x).locked (s.strands.get x).waiting.length)] }
  | .wait x t =>
    initiate s active (s.timers.get x).home (s.timers.get x).registry
      (some (s.timers.get x).expiry) .elapsed t
  | .start r c due o t => initiate s active c r due o t
  | .expire x t =>
    { shared := (s.onRegistry (s.timers.get x).registry Registry.cancelAll).onTimer x
        fun timer => { timer with expiry := t }
      active
      frames := revoke s (s.timers.get x).registry }
  | .cancelAll r =>
    { shared := s.onRegistry r Registry.cancelAll, active, frames := revoke s r }
  | .cancelFirst r =>
    { shared := s.onRegistry r Registry.cancelFirst, active
      frames := [.reply (.count (s.registries.get r).first)] }
  | .pending r =>
    { shared := s, active, frames := [.reply (.count (s.registries.get r).pending)] }
  | .wakeReactor c =>
    match (s.loops.get c).reactor with
    | .closed => { shared := s, active, frames := [.reply (.flag false)] }
    | .running => { shared := s, active, frames := [.reply (.flag true)] }
    | .idle =>
      match (s.loops.get c).settings.reactor.startPanic? with
      | some m => { shared := s, active, frames := [.panic m] }
      | none =>
        { shared := s.onLoop c Loop.startReactor, active, frames := [.reply (.flag true)] }

/-- The execution of a frame by thread `me`. Code, replies and panics wait for the code to act
and stay where they are. -/
def step (me : Nat) (s : Shared H) (active : List Executor) : Frame H → Effect H
  | .call c => stepCall s active c
  | .code role h made => { shared := s, active, frames := [.code role h made] }
  | .reply r => { shared := s, active, frames := [.reply r] }
  | .panic m => { shared := s, active, frames := [.panic m] }
  | .drain c w limit ran =>
    if limit.any (· ≤ ran) then { shared := s, active, frames := [.reply (.count ran)] }
    else seek me s active c w limit ran
  | .asleep c w limit ran => seek me s active c w limit ran
  | .awake c w limit ran => seek me s active c w limit ran
  | .runTurn x =>
    match (s.strands.get x).waiting with
    | t :: _ =>
      { shared := s.onStrand x Strand.pop, active := .strand x :: active
        frames := [.call (.invoke t), .leave (.strand x), .release x] }
    | [] => { shared := s, active, frames := [.release x] }
  | .tryLock x t =>
    if (s.strands.get x).locked then
      { shared := s, active, frames := [.call (.post (.strand x) t)] }
    else
      { shared := s.onStrand x Strand.lock, active := .strand x :: active
        frames := [.call (.invoke t), .leave (.strand x), .release x] }
  | .finish c =>
    { shared := s.onLoop c Loop.countExecuted, active, frames := [.finishWork c] }
  | .finishWork c => giveBack s active c
  | .leave e => { shared := s, active := active.erase e }
  | .release x =>
    if (s.strands.get x).waiting = [] then { shared := s.onStrand x Strand.unlock, active }
    else { shared := s, active, frames := [.schedule x] }
  | .schedule x => submit s active (s.strands.get x).home (.turn x)
  | .dropTurn x =>
    { shared := s.onStrand x Strand.abandon, active
      frames := [.dropTasks (s.strands.get x).waiting] }
  | .dropTasks [] => { shared := s, active }
  | .dropTasks (t :: ts) =>
    { shared := s, active, frames := [.code .destructor t.core 0, .dropTasks ts] }
  | .dropJobs [] => { shared := s, active }
  | .dropJobs (j :: js) => { shared := s, active, frames := [dropJob j, .dropJobs js] }
  | .closeReactor c => { shared := s.onLoop c Loop.closeReactor, active }
  | .notifyOne c => { shared := s.onLoop c Loop.notifyOne, active }
  | .notifyAll c => { shared := s.onLoop c Loop.notifyAll, active }
  | .tally c read =>
    match (s.loops.get c).counters.toList[read.length]? with
    | some n => { shared := s, active, frames := [.tally c (read ++ [n])] }
    | none => { shared := s, active, frames := [.reply (.counts read)] }
  | .enrol o =>
    { shared := s.onRegistry o.registry (Registry.enrol o.ticket), active
      frames := [.countStart o] }
  | .countStart o =>
    { shared := s.onLoop o.home Loop.countStarted, active, frames := [.addWork o] }
  | .addWork o => { shared := s.onLoop o.home Loop.addWork, active, frames := [.enlist o] }
  | .enlist o => take s active o
  | .operation o =>
    if (s.loops.get o.home).reactor = .closed then abandon s active o else operate s active o
  | .withdraw o r =>
    { shared := s.onRegistry o.registry (Registry.forget o.ticket), active
      frames := if r = .failed .aborted then [.countAbort o r] else [.complete o r] }
  | .countAbort o r =>
    { shared := s.onLoop o.home Loop.countAborted, active, frames := [.complete o r] }
  | .complete o r =>
    if (s.loops.get o.home).closed then
      { shared := s, active, frames := [.dropTasks [o.task.deliver r]] }
    else
      { shared := s.onLoop o.home (Loop.enqueueCompletion (.task (o.task.deliver r))), active
        frames := [.notifyOne o.home] }
  | .forget r ticket => { shared := s.onRegistry r (Registry.forget ticket), active }
  | .signal _ [] => { shared := s, active }
  | .signal r (k :: ks) =>
    { shared := s.onRegistry r (Registry.signal k), active, frames := [.signal r ks] }

end Frame
end EventLoop
