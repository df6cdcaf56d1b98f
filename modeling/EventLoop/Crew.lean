import EventLoop.Json.Value
import EventLoop.Machine.Move

/-! A crew of threads that run one loop at the same time, one move of each in turn. Handlers are
numbered in the order in which they are posted, to the loop or to one of its strands. -/
namespace EventLoop

open Json (Value)

/-- User code of a crew. -/
inductive Hand
  | poster
  | runner
  | handler (number : Nat)

structure Crew where
  posts : List (Option Nat)
  machine : Machine Hand := {}
  plain : Nat := 0
  orders : Table (List Nat) := {}
  inside : Table Nat := {}
  most : Table Nat := {}
  ran : Nat := 0

namespace Crew

def arrive (c : Crew) (number : Nat) : Crew :=
  match c.posts[number]? with
  | some (some s) =>
    let n := c.inside.get s + 1
    { c with
      orders := c.orders.update s (· ++ [number])
      inside := c.inside.update s (· + 1)
      most := c.most.update s (max n) }
  | _ => { c with plain := c.plain + 1 }

def depart (c : Crew) (number : Nat) : Crew :=
  match c.posts[number]? with
  | some (some s) => { c with inside := c.inside.update s (· - 1) }
  | _ => c

def move (c : Crew) (x : Move Hand) : Crew := { c with machine := c.machine.move x }

def executor : Option Nat → Executor
  | some s => .strand s
  | none => .loop 0

/-- The code at the top of thread `i` acts, after so many calls. A handler asks a question, so
that other threads can move while it is in progress. -/
def act (c : Crew) (i : Nat) : Hand → Nat → Crew
  | .poster, made =>
    match c.posts[made]? with
    | some target => c.move (.call i (.post (executor target) (.body (.handler made) none)))
    | none => c.move (.finish i)
  | .runner, 0 => c.move (.call i (.run 0 .block none))
  | .runner, _ => c.move (.finish i)
  | .handler n, 0 => (c.arrive n).move (.call i (.isInside (.loop 0)))
  | .handler n, _ => (c.depart n).move (.finish i)

def advance (c : Crew) (i : Nat) : Crew :=
  match (c.machine.thread i).frames with
  | .code _ hand made :: _ => c.act i hand made
  | .reply (.count n) :: .code _ _ _ :: _ => { c with ran := c.ran + n }.move (.receive i)
  | .reply _ :: .code _ _ _ :: _ => c.move (.receive i)
  | _ => c.move (.step i)

def finished (c : Crew) : Bool := c.machine.threads.rows.all fun t => t.frames.isEmpty

def play : Nat → Crew → Crew
  | 0, c => c
  | n+1, c =>
    if c.finished then c
    else play n ((List.range c.machine.threads.size).foldl advance c)

def start (strands : Nat) (posts : List (Option Nat)) : Crew :=
  let moves : List (Move Hand) :=
    [.addLoop {}] ++ List.replicate strands (.addStrand 0) ++ [.spawn .poster]
  { posts, machine := ({} : Machine Hand).after moves }

def hire (threads : Nat) (c : Crew) : Crew :=
  { c with machine := c.machine.after (List.replicate threads (.spawn .runner)) }

def run (threads strands : Nat) (posts : List (Option Nat)) : Crew :=
  let bound := 100 * (posts.length + 1) * (threads + 1)
  play bound (hire threads (play bound (start strands posts)))

def report (threads strands : Nat) (posts : List (Option Nat)) : Value :=
  let c := run threads strands posts
  let l := c.machine.shared.loops.get 0
  let each := fun (f : Nat → Value) => Value.array ((List.range strands).map f)
  .object [("ran", Json.count c.ran), ("plain", Json.count c.plain),
    ("orders", each fun s => .array ((c.orders.get s).map Json.count)),
    ("most", each fun s => Json.count (c.most.get s)),
    ("posted", Json.count l.counters.posted), ("executed", Json.count l.counters.executed),
    ("stopped", .bool l.stopped)]

end Crew
end EventLoop
