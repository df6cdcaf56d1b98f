import EventLoop.Script.Perform

/-! Running a script: one thread moves at a time, operations that are ready first, and the
clock advances when no thread can move. Main function: `Session.run`. -/
namespace EventLoop
namespace Session

open Json (Value)

def endValue (s : Session) (a : Action) (t : Nat) : Value :=
  match s.ended.lookup t, a with
  | some (.ok rs), .background _ _ =>
    .object [("inside", .array ((s.beside.lookup t).getD [])), ("ran", rs.headD .null)]
  | some (.error m), .background _ _ =>
    .object [("inside", .array ((s.beside.lookup t).getD [])), ("panic", .string m)]
  | some (.ok rs), _ => .array rs
  | some (.error m), _ => .object [("panic", .string m)]
  | none, _ => .null

def resume (s : Session) (i : Nat) (r : Running) (a : Action) (p : Pause) (v : Value) : Session :=
  match p with
  | .ended t => s.conclude i r a (s.endValue a t)
  | .settled =>
    let ids := s.dropped.mergeSort fun x y => x ≤ y
    { s with dropped := [] }.conclude i r a (.object [("dropped", Json.strings ids)])
  | _ => s.conclude i r a v

def finish (s : Session) (i : Nat) (t : Tag) : Session :=
  match t with
  | .main => (s.pop i).move (.finish i)
  | .handler id => ((s.say ("-" ++ id)).pop i).move (.finish i)
  | .destructor _ => (s.pop i).move (.finish i)
  | .worker vs => ({ s with ended := (i, .ok vs) :: s.ended }.pop i).move (.finish i)
  | .beside t vs => { s with beside := (t, vs) :: s.beside }.pop i

def begin (s : Session) (i : Nat) (h : Handler) (arg : Option Value) : Session :=
  let shown := match arg with
    | some v => "(" ++ v.sorted.text ++ ")"
    | none => ""
  (s.say ("+" ++ h.id ++ shown)).push i { tag := .handler h.id, todo := h.actions }

/-- A completion begins: it is recorded with its outcome, and its handler begins, if any. -/
def record (s : Session) (i : Nat) (k : Completion) (o : Outcome) : Session :=
  let inLoop := .loop k.loop ∈ (s.machine.thread i).active
  let more := if k.showsEnd then
      [("end", Value.bool ((o.cursor 0).atEnd && (o.cursor 0).same {}))] else []
  let seen := Value.object (o.report ++ [("in_loop", Value.bool inLoop)] ++ more)
  let s := { s with done := s.done ++ [(k.id, seen)] }
  match k.handler with
  | some h => s.begin i h none
  | none => s.move (.finish i)

def enter (s : Session) (i : Nat) : Role → Code → Session
  | .destructor, .handler h _ =>
    (s.say ("~" ++ h.id)).push i { tag := .destructor h.id, todo := h.onDrop }
  | _, .handler h arg => s.begin i h arg
  | .handler (some o), .completion k => s.record i k o
  | _, .completion k => { s with dropped := s.dropped ++ [k.id] }.move (.finish i)
  | _, .steps actions => s.push i { tag := if i = 0 then .main else .worker [], todo := actions }

def act (s : Session) (i : Nat) (r : Running) : Session :=
  match r.progress, r.todo with
  | .calling a cs, _ => s.proceed i r a cs
  | .repeating a _ _ sum, _ => s.conclude i r a (Json.count sum)
  | .pausing a p v, _ => s.resume i r a p v
  | .idle, a :: todo => s.perform i { r with todo } a
  | .idle, [] => s.finish i r.tag

def lookupHere (s : Session) (i : Nat) (r : Running) (a : Action) (name : String) (q : Query)
    (awake : Bool) : Session :=
  match s.resolvers.get? name with
  | none => s.conclude i r a .null
  | some n =>
    if awake then
      let report := s.lookup (s.directory.get n) q
      let s := s.ask n report.asked
      let p := match report.outcome with
        | some (d, found) =>
          .pausing a (.time (s.now + d)) (.object (Outcome.ofResult found).report)
        | none => .pausing a (.ended s.machine.threads.size) .null
      s.hold i { r with progress := p }
    else s.conclude i r a (.object Failure.reactorGone.report)

def take (s : Session) (i : Nat) (r : Running) (answer : Reply) : Session :=
  let s := s.move (.receive i)
  match r.progress with
  | .calling a (c :: cs) => s.proceed i r a (c :: cs)
  | .calling a [] =>
    match a, answer with
    | .resolve name q, .flag awake => s.lookupHere i r a name q awake
    | _, _ => s.conclude i r a (s.shape a answer)
  | .repeating a c left sum =>
    let sum := match answer with
      | .count n => sum + n
      | _ => sum
    match left with
    | 0 => s.conclude i r a (Json.count sum)
    | left+1 => s.once i r a c left sum
  | _ => s

/-- A panic in the middle of a wait that the innermost code of thread `i` starts poisons the
timer. -/
def poison (s : Session) (i : Nat) : Session :=
  match s.running.get i with
  | { progress := .calling (.asyncWait name _ _ _ _) _, .. } :: _ =>
    { s with poisoned := name :: s.poisoned }
  | _ => s

/-- A panic reaches the code of thread `i`: a handler records it and lets it pass, a step of
the main thread ends with it, and a thread that was started ends with it. -/
def meet (s : Session) (i : Nat) (m : String) : Session :=
  let s := s.poison i
  let s := { s with running := s.running.update i (·.dropWhile (!·.ofFrame)) }
  match s.running.get i with
  | [] => s.move (.pass i)
  | r :: _ =>
    match r.tag with
    | .main =>
      ((s.move (.recover i)).answer (.object [("panic", .string m)])).hold i
        { r with progress := .idle }
    | .handler id => ((s.say ("!" ++ id)).pop i).move (.pass i)
    | .worker _ => ({ s with ended := (i, .error m) :: s.ended }.pop i).move (.pass i)
    | _ => (s.pop i).move (.pass i)

def advance (s : Session) (i : Nat) : Session :=
  match (s.machine.thread i).frames, s.running.get i with
  | .code role h _ :: _, rs =>
    if s.isFresh i then s.enter i role h
    else match rs with
      | [] => s
      | r :: _ => s.act i r
  | .reply answer :: .code _ _ _ :: _, r :: _ => s.take i r answer
  | .panic m :: .code _ _ _ :: _, _ => s.meet i m
  | .asleep _ _ _ _ :: _, _ => (s.move (.disturb i)).move (.step i)
  | _, _ => s.move (.step i)

def isOperation (t : Thread Code) : Bool :=
  match t.frames.getLast? with
  | none => false
  | some (.code .program _ _) => false
  | some _ => true

def met (s : Session) : Pause → Bool
  | .time t => t ≤ s.now
  | .posted c n => n ≤ (s.shared.loops.get c).counters.posted
  | .ended t => (s.ended.lookup t).isSome
  | .settled => s.machine.threads.rows.all fun t => !isOperation t

def ready (s : Session) (i : Nat) (t : Thread Code) : Bool :=
  match t.frames with
  | [] => false
  | .asleep c w _ _ :: _ =>
    i ∉ (s.shared.loops.get c).sleepers ||
      w.isOver s.now
  | .operation o :: _ =>
    (s.shared.loops.get o.home).reactor = .closed ||
      o.ticket ∈ (s.shared.registries.get o.registry).signalled || o.due.any (· ≤ s.now)
  | .code _ _ _ :: _ =>
    match s.running.get i with
    | { progress := .pausing _ p _, .. } :: _ => s.isFresh i || s.met p
    | _ => true
  | _ => true

def next? (s : Session) : Option Nat :=
  let able := s.machine.threads.rows.zipIdx.filter fun (t, i) => s.ready i t
  ((able.find? fun (t, _) => isOperation t).or able.head?).map (·.2)

/-- The reading of the clock at which thread `i`, which cannot move, will be able to. -/
def alarm (s : Session) (i : Nat) (t : Thread Code) : Option Instant :=
  match t.frames, s.running.get i with
  | .asleep _ (.deadline t) _ _ :: _, _ => some t
  | .operation o :: _, _ => o.due
  | .code _ _ _ :: _, { progress := .pausing _ (.time t) _, .. } :: _ => some t
  | _, _ => none

def nextAlarm (s : Session) : Option Instant :=
  (s.machine.threads.rows.zipIdx.filterMap fun (t, i) => s.alarm i t).min?

/-- Moves threads and the clock as long as something can happen. -/
def play : Nat → Session → Session
  | 0, s => s
  | n+1, s =>
    match s.next? with
    | some i => play n (s.advance i)
    | none =>
      match s.nextAlarm with
      | some t => play n (s.move (.clock t))
      | none => s

end Session

mutual

def Handler.weight : Handler → Nat
  | .mk _ actions onDrop => 1 + weights actions + weights onDrop

def Action.weight : Action → Nat
  | .post _ h => 1 + h.weight
  | .postMany _ _ n => 1 + n
  | .chain _ _ n => 1 + 2 * n
  | .runTimes _ n => 1 + n
  | .dispatch _ h => 1 + h.weight
  | .thread steps => 1 + weights steps
  | .background _ steps => 1 + weights steps
  | .strandPost _ h => 1 + h.weight
  | .strandDispatch _ h => 1 + h.weight
  | .wrap _ _ h => 1 + h.weight
  | .wrapWith _ _ h => 1 + h.weight
  | .bind _ _ _ h => 1 + h.weight
  | .asyncWait _ _ _ _ h => 1 + optionWeight h
  | .asyncResolve _ _ _ h => 1 + optionWeight h
  | _ => 1

def weights : List Action → Nat
  | [] => 0
  | a :: as => a.weight + weights as

def optionWeight : Option Handler → Nat
  | none => 0
  | some h => h.weight

end

namespace Session

def start (legacy : Bool) (contexts : List Settings) (steps : List Action) : Session :=
  let base : Instant := 1000 * Clock.second
  let moves : List (Move Code) :=
    [.clock base, .spawn (.steps steps)] ++ contexts.map .addLoop
  { legacy, base, contexts := contexts.length, machine := ({} : Machine Code).after moves }

/-- How many moves a script can come to. -/
def bound (steps : List Action) : Nat := 64 * (weights steps + 8) * (weights steps + 8)

def run (legacy : Bool) (contexts : List Settings) (steps : List Action) : List Observation :=
  (play (bound steps) (start legacy contexts steps)).observed

end Session

/-- An observation as an answer; empty lists are left out. -/
def Observation.report (o : Observation) : Json.Value :=
  .object ([("r", o.result), ("stopped", .array (o.stopped.map .bool))] ++
    (if o.log = [] then [] else [("log", Json.strings o.log)]) ++
    (if o.done.isEmpty then []
      else [("done", .array (o.done.map fun (id, v) => .array [.string id, v]))]))

end EventLoop
