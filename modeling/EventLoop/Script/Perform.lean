import EventLoop.Script.Session

/-! How an action is performed: it makes calls on the machine, waits, or has its result at
once. Main function: `Session.perform`. -/
namespace EventLoop
namespace Session

open Json (Value)

/-- A result is logged by a handler unless it is empty, and kept by other code. -/
def conclude (s : Session) (i : Nat) (r : Running) (a : Action) (v : Value) : Session :=
  let line := fun (id : String) => id ++ ":" ++ a.label ++ "=" ++ v.sorted.text
  let logged := fun (id : String) =>
    match v with
    | .null => s
    | _ => s.say (line id)
  match r.tag with
  | .main => (s.answer v).hold i { r with progress := .idle }
  | .handler id => (logged id).hold i { r with progress := .idle }
  | .destructor id => (logged ("~" ++ id)).hold i { r with progress := .idle }
  | .worker vs => s.hold i { r with tag := .worker (vs ++ [v]), progress := .idle }
  | .beside t vs => s.hold i { r with tag := .beside t (vs ++ [v]), progress := .idle }

def shape (s : Session) (a : Action) (r : Reply) : Value :=
  match a with
  | .timerNew _ _ => .null
  | .timerAfter _ _ _ => .null
  | .timerAt _ _ _ => .null
  | .timerDrop _ => .null
  | .resolver _ _ _ => .null
  | .resolverDrop _ => .null
  | .resolverDebug name =>
    match s.resolvers.get? name, r with
    | some x, .count n =>
      let home := (s.directory.get x).home
      .string (resolverText (s.shared.loops.get home).settings.lookup n)
    | _, _ => .null
  | _ => r.report

def settings (s : Session) (x : Resolver) : LookupSettings :=
  (s.shared.loops.get x.home).settings.lookup

def directoryOf (s : Session) (x : Resolver) : Directory :=
  match x.book with
  | some book => book.directory
  | none => Directory.ofBackend (s.settings x).backend

def lookup (s : Session) (x : Resolver) (q : Query) : Query.Report :=
  q.run (s.settings x) (s.directoryOf x)

def ask (s : Session) (n : Nat) (hosts : List String) : Session :=
  { s with directory := s.directory.update n fun x => { x with asked := x.asked ++ hosts } }

def store (s : Session) (name : String) (k : Closure) : Session × List (Call Code) :=
  let older := match s.closures.get? name with
    | some old => [.discard (old.task none)]
    | none => []
  ({ s with closures := s.closures.set name k }, older)

/-- A new timer under a name; the older one of that name is dropped. -/
def placeTimer (s : Session) (name : String) (c : Nat) (expiry : Instant) :
    Session × List (Call Code) :=
  let w := s.shared
  let older := match s.timers.get? name with
    | some t => [.cancelAll (w.timers.get t).registry]
    | none => []
  ({ s.move (.addTimer c expiry) with
    timers := s.timers.set name w.timers.size
    poisoned := s.poisoned.filter (· ≠ name) }, older)

def placeResolver (s : Session) (name : String) (c : Nat) (book : Option Directory.Book) :
    Session × List (Call Code) :=
  let r := s.shared.registries.size
  let older := match s.resolvers.get? name with
    | some x => [.cancelAll (s.directory.get x).registry]
    | none => []
  ({ s.move .addRegistry with
    resolvers := s.resolvers.set name s.directory.size
    directory := s.directory.push ⟨c, r, book, []⟩ }, older)

def placeGuard (s : Session) (name : String) (c : Nat) : Session × List (Call Code) :=
  let g := s.shared.guards.size
  let older := match s.guards.get? name with
    | some old => [.closeGuard old]
    | none => []
  ({ s.move (.addGuard c) with guards := s.guards.set name g }, .openGuard g :: older)

def placeStrand (s : Session) (name : String) (c : Nat) : Session :=
  { s.move (.addStrand c) with strands := s.strands.set name s.shared.strands.size }

def body (h : Handler) : Task Code := .body (.handler h none) none

def after (s : Session) (ms : Nat) : Instant :=
  Clock.deadlineAfter s.now (ms * Clock.millisecond)

/-- What an action comes to: calls on the machine, a pause, or a result. -/
inductive Course
  | calls (cs : List (Call Code))
  | runs (c n : Nat)
  | pause (p : Pause) (result : Value)
  | beside (thread : Nat) (steps : List Action)
  | panic (message : String)
  | result (r : Value)

def orNone (o : Option (Call Code)) : Course :=
  match o with
  | some c => .calls [c]
  | none => .result .null

def takeClosure (s : Session) (name : String) (use : Closure → Call Code) : Session × Course :=
  match s.closures.get? name with
  | some k => ({ s with closures := s.closures.erase name }, .calls [use k])
  | none => (s, .result (.string "none"))

def onStrand (s : Session) (name : String) (use : Nat → Call Code) : Course :=
  orNone ((s.strands.get? name).map use)

def onGuard (s : Session) (name : String) (use : Nat → Call Code) : Course :=
  orNone ((s.guards.get? name).map use)

def onTimer (s : Session) (name : String) (use : Nat → Timer → Call Code) : Course :=
  orNone ((s.timers.get? name).map fun t => use t (s.shared.timers.get t))

def onResolver (s : Session) (name : String) (use : Resolver → Call Code) : Course :=
  orNone ((s.resolvers.get? name).map fun x => use (s.directory.get x))

def spawn (s : Session) (steps : List Action) : Session × Nat :=
  (s.move (.spawn (.steps steps)), s.machine.threads.size)

def course (s : Session) (a : Action) : Session × Course :=
  match a with
  | .post c h => (s, .calls [.post (.loop c) (body h)])
  | .postMany c id n =>
    (s, .calls ((List.range n).map fun k => .post (.loop c) (body (.mk (id ++ toString k) [] []))))
  | .chain c id n =>
    match n with
    | 0 => (s, .result .null)
    | m+1 =>
      (s, .calls [.post (.loop c) (body (.mk (id ++ toString n) [.chain c id m] []))])
  | .dispatch c h => (s, .calls [.dispatch (.loop c) (body h)])
  | .run c => (s, .calls [.run c .block none])
  | .runOne c => (s, .calls [.run c .block (some 1)])
  | .runTimes c n => (s, .runs c n)
  | .poll c => (s, .calls [.run c .poll none])
  | .pollOne c => (s, .calls [.run c .poll (some 1)])
  | .runFor c ms => (s, .calls [.run c (.deadline (s.after ms)) none])
  | .runUntil c ms => (s, .calls [.run c (.deadline (s.now + ms * Clock.millisecond)) none])
  | .stop c => (s, .calls [.stop c])
  | .restart c => (s, .calls [.restart c])
  | .stopped c => (s, .calls [.isStopped c])
  | .running c => (s, .calls [.isInside (.loop c)])
  | .stats c => (s, .calls [.counters c])
  | .dropContext c =>
    if c ∈ s.ownerless then (s, .result .null)
    else ({ s with ownerless := c :: s.ownerless }, .calls [.dropOwner c])
  | .panic m => (s, .panic m)
  | .sleep ms => (s, .pause (.time (s.now + ms * Clock.millisecond)) .null)
  | .thread steps =>
    let (s, t) := s.spawn steps
    (s, .pause (.ended t) .null)
  | .background c steps =>
    let (s, t) := s.spawn [.run c]
    (s, .beside t steps)
  | .awaitPosted c n => (s, .pause (.posted c n) .null)
  | .guard name c => let (s, cs) := s.placeGuard name c; (s, .calls cs)
  | .guardDrop name =>
    ({ s with guards := s.guards.erase name }, s.onGuard name .closeGuard)
  | .guardReset name =>
    match s.guards.get? name with
    | some g => (s, .calls [.closeGuard g, .ownsWork g])
    | none => (s, .result .null)
  | .guardOwns name => (s, s.onGuard name .ownsWork)
  | .strand name c => (s.placeStrand name c, .result .null)
  | .strandClone name source =>
    match s.strands.get? source with
    | some x => ({ s with strands := s.strands.set name x }, .result .null)
    | none => (s, .result .null)
  | .strandDrop name => ({ s with strands := s.strands.erase name }, .result .null)
  | .strandPost name h => (s, s.onStrand name fun x => .post (.strand x) (body h))
  | .strandDispatch name h => (s, s.onStrand name fun x => .dispatch (.strand x) (body h))
  | .strandRunning name => (s, s.onStrand name fun x => .isInside (.strand x))
  | .strandStopped name => (s, s.onStrand name fun x => .isStopped (s.shared.strands.get x).home)
  | .strandState name => (s, s.onStrand name .strandState)
  | .wrap name strand h =>
    match s.strands.get? strand with
    | some x => let (s, cs) := s.store name ⟨.strand x, h, false⟩; (s, .calls cs)
    | none => (s, .result .null)
  | .wrapWith name strand h =>
    match s.strands.get? strand with
    | some x => let (s, cs) := s.store name ⟨.strand x, h, true⟩; (s, .calls cs)
    | none => (s, .result .null)
  | .bind name strand c h =>
    match strand.map s.strands.get? with
    | some (some x) => let (s, cs) := s.store name ⟨.strand x, h, false⟩; (s, .calls cs)
    | some none => (s, .result .null)
    | none => let (s, cs) := s.store name ⟨.loop c, h, false⟩; (s, .calls cs)
  | .call name arg => s.takeClosure name fun k => .invoke (k.task (some arg))
  | .callPost name c arg => s.takeClosure name fun k => .post (.loop c) (k.task (some arg))
  | .callDispatch name c arg =>
    s.takeClosure name fun k => .dispatch (.loop c) (k.task (some arg))
  | .callDrop name => s.takeClosure name fun k => .discard (k.task none)
  | .timerNew name c => let (s, cs) := s.placeTimer name c s.now; (s, .calls cs)
  | .timerAfter name c ms => let (s, cs) := s.placeTimer name c (s.after ms); (s, .calls cs)
  | .timerAt name c ms =>
    let (s, cs) := s.placeTimer name c (s.base + ms * Clock.millisecond); (s, .calls cs)
  | .timerDrop name =>
    ({ s with timers := s.timers.erase name, poisoned := s.poisoned.filter (· ≠ name) },
      s.onTimer name fun _ t => .cancelAll t.registry)
  | .expiresAfter name ms => (s, s.onTimer name fun t _ => .expire t (s.after ms))
  | .setExpiresFromNow name ms => (s, s.onTimer name fun t _ => .expire t (s.after ms))
  | .expiresAt name ms =>
    (s, s.onTimer name fun t _ => .expire t (s.base + ms * Clock.millisecond))
  | .cancel name => (s, s.onTimer name fun _ t => .cancelAll t.registry)
  | .cancelOne name => (s, s.onTimer name fun _ t => .cancelFirst t.registry)
  | .pending name => (s, s.onTimer name fun _ t => .pending t.registry)
  | .wait name =>
    match s.timers.get? name with
    | some t => (s, .pause (.time (s.shared.timers.get t).expiry) (.string "ok"))
    | none => (s, .result .null)
  | .left name =>
    match s.timers.get? name with
    | some t =>
      (s, .result (Clock.report (Clock.signedBetween (s.shared.timers.get t).expiry s.now)))
    | none => (s, .result .null)
  | .expiry name =>
    match s.timers.get? name with
    | some t =>
      (s, .result (.number (((s.shared.timers.get t).expiry - s.base).tdiv Clock.millisecond)))
    | none => (s, .result .null)
  | .asyncWait name id strand c h =>
    let core : Task Code := .body (.completion ⟨id, c, false, h⟩) none
    let task := match strand.bind s.strands.get? with
      | some x => .bound (.strand x) core
      | none => core
    (s, s.onTimer name fun t _ => .wait t task)
  | .resolver name c book => let (s, cs) := s.placeResolver name c book; (s, .calls cs)
  | .resolverDrop name =>
    ({ s with resolvers := s.resolvers.erase name },
      s.onResolver name fun x => .cancelAll x.registry)
  | .resolverCancel name => (s, s.onResolver name fun x => .cancelAll x.registry)
  | .resolverDebug name => (s, s.onResolver name fun x => .pending x.registry)
  | .lookups name =>
    match s.resolvers.get? name with
    | some x =>
      (s, .result (Json.strings ((s.directory.get x).asked.mergeSort fun a b => a ≤ b)))
    | none => (s, .result .null)
  | .resolve name _ => (s, s.onResolver name fun x => .wakeReactor x.home)
  | .asyncResolve name id q h =>
    match s.resolvers.get? name with
    | none => (s, .result .null)
    | some n =>
      let x := s.directory.get n
      let report := s.lookup x q
      let (due, outcome) := match report.outcome with
        | some (d, r) => (some (s.now + d), Outcome.ofResult r)
        | none => (none, .elapsed)
      let asked := if (s.shared.loops.get x.home).reactor = .closed then [] else report.asked
      (s.ask n asked, .calls [.start x.registry x.home due outcome
        (.body (.completion ⟨id, x.home, s.legacy, h⟩) none)])
  | .settle => (s, .pause .settled .null)

/-- The innermost code of thread `i` makes the next of the calls of an action, or has come to its
end. -/
def proceed (s : Session) (i : Nat) (r : Running) (a : Action) (calls : List (Call Code)) :
    Session :=
  match calls with
  | [] => s.conclude i r a .null
  | c :: cs => (s.hold i { r with progress := .calling a cs }).move (.call i c)

def once (s : Session) (i : Nat) (r : Running) (a : Action) (c left sum : Nat) : Session :=
  (s.hold i { r with progress := .repeating a c left sum }).move (.call i (.run c .block (some 1)))

def poisonText : String :=
  "called `Result::unwrap()` on an `Err` value: PoisonError \x7b .. \x7d"

/-- What an action comes to, unless it locks a timer that is poisoned. -/
def attempt (s : Session) (a : Action) : Session × Course :=
  if a.timer?.any (· ∈ s.poisoned) then (s, .panic poisonText) else s.course a

def perform (s : Session) (i : Nat) (r : Running) (a : Action) : Session :=
  let (s, c) := (s.move (.clock (s.now + Clock.tick))).attempt a
  match c with
  | .calls cs => s.proceed i r a cs
  | .runs _ 0 => s.conclude i r a (Json.count 0)
  | .runs c (n+1) => s.once i r a c n 0
  | .pause p v => s.hold i { r with progress := .pausing a p v }
  | .beside t steps =>
    (s.hold i { r with progress := .pausing a (.ended t) .null }).push i
      { tag := .beside t [], todo := steps }
  | .panic m => (s.hold i { r with progress := .idle }).move (.raise i m)
  | .result v => s.conclude i r a v

end Session
end EventLoop
