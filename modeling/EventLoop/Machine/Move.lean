import EventLoop.Machine.Step

/-! A machine: threads that work on what they share, one move at a time. Every interleaving is
a list of moves, and a move that is not possible changes nothing. Main functions:
`Machine.act?`, `Machine.move` and `Machine.after`. -/
namespace EventLoop

/-- What a thread does in one move: the frames that it takes off its stack, those below, and
the effect, whose frames take the place of the first. -/
structure Act (H : Type) where
  thread : Nat
  taken : List (Frame H)
  rest : List (Frame H)
  effect : Effect H

structure Machine (H : Type) where
  shared : Shared H := {}
  threads : Table (Thread H) := {}
  deriving Inhabited

/-- What happens next: a thread executes its top frame, its code acts or meets a panic, the clock
shows a later time, a sleeper wakes or is preferred, an operation in flight ends, hears the signal or
is not taken by its reactor, or something is made. -/
inductive Move (H : Type)
  | step (i : Nat)
  | call (i : Nat) (c : Call H)
  | finish (i : Nat)
  | receive (i : Nat)
  | raise (i : Nat) (message : String)
  | pass (i : Nat)
  | recover (i : Nat)
  | spawn (h : H)
  | clock (t : Instant)
  | disturb (i : Nat)
  | prefer (c i : Nat)
  | conclude (i : Nat)
  | heed (i : Nat)
  | refuse (i : Nat) (why : String)
  | addLoop (settings : Settings)
  | addStrand (home : Nat)
  | addGuard (home : Nat)
  | addRegistry
  | addTimer (home : Nat) (expiry : Instant)

namespace Machine

variable {H : Type}

def thread (m : Machine H) (i : Nat) : Thread H := m.threads.get i

def setFrames (m : Machine H) (i : Nat) (fs : List (Frame H)) : Machine H :=
  { m with threads := m.threads.update i fun t => { t with frames := fs } }

def only (m : Machine H) (i : Nat) (frames : List (Frame H)) : Effect H :=
  { shared := m.shared, active := (m.thread i).active, frames }

/-- What a thread does that executes its top frame. A panic drops the frame below it, or makes
it clean up, and waits for code to let it pass; a reply is dropped unless code awaits it. -/
def stepAct? (m : Machine H) (i : Nat) : Option (Act H) :=
  match (m.thread i).frames with
  | [] => none
  | .reply r :: rest =>
    if rest.head?.any Frame.isCode then none else some ⟨i, [.reply r], rest, m.only i []⟩
  | .panic t :: [] => some ⟨i, [.panic t], [], m.only i []⟩
  | .panic t :: f :: rest =>
    if f.stopsPanic then none
    else
      some ⟨i, [.panic t, f], rest, m.only i (if f.cleansUp then [f, .panic t] else [.panic t])⟩
  | f :: rest =>
    if f.sleeps i m.shared then none
    else some ⟨i, [f], rest, f.step i m.shared (m.thread i).active⟩

/-- Frames take the place of the code at the top of a thread. -/
def codeAct? (m : Machine H) (i : Nat) (frames : Role → H → Nat → List (Frame H)) :
    Option (Act H) :=
  match (m.thread i).frames with
  | .code role h made :: rest =>
    some ⟨i, [.code role h made], rest, m.only i (frames role h made)⟩
  | _ => none

/-- Frames take the place of a panic and the code that it has reached. -/
def panicAct? (m : Machine H) (i : Nat) (frames : String → Role → H → Nat → List (Frame H)) :
    Option (Act H) :=
  match (m.thread i).frames with
  | .panic t :: .code role h made :: rest =>
    some ⟨i, [.panic t, .code role h made], rest, m.only i (frames t role h made)⟩
  | _ => none

def operationAct? (m : Machine H) (i : Nat) (effect : Operation H → Effect H) : Option (Act H) :=
  match (m.thread i).frames with
  | .operation o :: rest => some ⟨i, [.operation o], rest, effect o⟩
  | _ => none

def receiveAct? (m : Machine H) (i : Nat) : Option (Act H) :=
  match (m.thread i).frames with
  | .reply r :: rest => some ⟨i, [.reply r], rest, m.only i []⟩
  | _ => none

def disturbAct? (m : Machine H) (i : Nat) : Option (Act H) :=
  match (m.thread i).frames with
  | .asleep c w limit ran :: rest =>
    if i ∈ (m.shared.loops.get c).sleepers then
      some ⟨i, [.asleep c w limit ran], rest,
        { m.only i [.awake c w limit ran] with shared := m.shared.onLoop c (Loop.awaken i) }⟩
    else none
  | _ => none

def refuseAct? (m : Machine H) (i : Nat) (why : String) : Option (Act H) :=
  match (m.thread i).frames with
  | .enlist o :: rest =>
    if (m.shared.loops.get o.home).reactor = .idle then
      some ⟨i, [.enlist o], rest, Frame.refuse m.shared (m.thread i).active o (.reactor why)⟩
    else none
  | _ => none

/-- What the thread that makes a move does, if the move is one of a thread and possible. -/
def act? (m : Machine H) (x : Move H) : Option (Act H) :=
  match x with
  | .step i => m.stepAct? i
  | .call i c => m.codeAct? i fun role h made => [.call c, .code role h (made + 1)]
  | .finish i => m.codeAct? i fun _ _ _ => []
  | .receive i => m.receiveAct? i
  | .raise i message => m.codeAct? i fun role h made => [.panic message, .code role h made]
  | .pass i => m.panicAct? i fun t _ _ _ => [.panic t]
  | .recover i => m.panicAct? i fun _ role h made => [.code role h made]
  | .disturb i => m.disturbAct? i
  | .conclude i => m.operationAct? i (Frame.operate m.shared (m.thread i).active)
  | .heed i => m.operationAct? i (Frame.heed m.shared (m.thread i).active)
  | .refuse i why => m.refuseAct? i why
  | _ => none

/-- An operation that is started goes on as a thread of its own. -/
def perform (m : Machine H) (a : Act H) : Machine H :=
  let threads := m.threads.update a.thread fun _ => ⟨a.effect.frames ++ a.rest, a.effect.active⟩
  { shared := a.effect.shared
    threads :=
      match a.effect.started with
      | none => threads
      | some o => threads.push { frames := [.operation o] } }

def mapShared (m : Machine H) (f : Shared H → Shared H) : Machine H :=
  { m with shared := f m.shared }

/-- A move that no thread makes. -/
def happen (m : Machine H) (x : Move H) : Machine H :=
  match x with
  | .spawn h => { m with threads := m.threads.push { frames := [.code .program h 0] } }
  | .clock t => m.mapShared fun s => { s with now := max s.now t }
  | .prefer c i => m.mapShared (·.onLoop c (Loop.prefer i))
  | .addLoop settings => m.mapShared fun s => { s with loops := s.loops.push { settings } }
  | .addStrand home => m.mapShared fun s => { s with strands := s.strands.push { home } }
  | .addGuard home => m.mapShared fun s => { s with guards := s.guards.push { home } }
  | .addRegistry => m.mapShared fun s => { s with registries := s.registries.push {} }
  | .addTimer home expiry =>
    m.mapShared fun s =>
      { s with
        registries := s.registries.push {}
        timers := s.timers.push ⟨home, s.registries.size, expiry⟩ }
  | _ => m

def move (m : Machine H) (x : Move H) : Machine H :=
  match m.act? x with
  | some a => m.perform a
  | none => m.happen x

def after (m : Machine H) (moves : List (Move H)) : Machine H := moves.foldl move m

@[simp] theorem after_nil (m : Machine H) : m.after [] = m := rfl

@[simp] theorem after_cons (m : Machine H) (x : Move H) (xs : List (Move H)) :
    m.after (x :: xs) = (m.move x).after xs := rfl

theorem after_append (m : Machine H) (xs ys : List (Move H)) :
    m.after (xs ++ ys) = (m.after xs).after ys := List.foldl_append

end Machine
end EventLoop
