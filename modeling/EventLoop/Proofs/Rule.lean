import EventLoop.Proofs.Run

/-! The rules by which a frame goes on, one for every way that its execution can take. A rule says
under which condition it applies, what it does to what the threads share, and which frames it puts
in the place of its own. Main statement: `Deed.shift_or_rule`; an invariant is proved by looking
at the rules that matter to it. -/
namespace EventLoop

variable {H : Type}

section

variable {l : Loop H}

theorem pick_ended (h : l.pick = .ended) : (l.stopped || l.closed) = true := by
  unfold Loop.pick at h
  split at h
  · assumption
  · split at h
    · cases h
    · split at h <;> cases h

theorem pick_job {j : Job H} {rest : List (Job H)} (h : l.pick = .job j rest) :
    (l.stopped || l.closed) = false ∧ l.queue = j :: rest := by
  unfold Loop.pick at h
  split at h
  · cases h
  · rename_i hs
    split at h
    · rename_i hq
      cases h
      exact ⟨Bool.eq_false_iff.2 hs,hq⟩
    · split at h <;> cases h

theorem pick_dry (h : l.pick = .dry) :
    (l.stopped || l.closed) = false ∧ l.queue = [] ∧ l.outstanding = 0 := by
  unfold Loop.pick at h
  split at h
  · cases h
  · rename_i hs
    split at h
    · cases h
    · split at h
      · exact ⟨Bool.eq_false_iff.2 hs,‹_›,‹_›⟩
      · cases h

theorem pick_idle (h : l.pick = .idle) :
    (l.stopped || l.closed) = false ∧ l.queue = [] ∧ l.outstanding ≠ 0 := by
  unfold Loop.pick at h
  split at h
  · cases h
  · rename_i hs
    split at h
    · cases h
    · split at h
      · cases h
      · exact ⟨Bool.eq_false_iff.2 hs,‹_›,‹_›⟩

end

/-- The frames with which thread `me` looks for work. -/
inductive Frame.Looks (me : Nat) (s : Shared H) (c : Nat) (w : Wait) (limit : Option Nat)
    (ran : Nat) : Frame H → Prop
  | drain (hl : limit.any (· ≤ ran) = false) : Looks me s c w limit ran (.drain c w limit ran)
  | asleep (hm : me ∉ (s.loops.get c).sleepers) : Looks me s c w limit ran (.asleep c w limit ran)
  | awake : Looks me s c w limit ran (.awake c w limit ran)

/-- The frames that queue a job. -/
inductive Frame.Submits (s : Shared H) : Frame H → Nat → Job H → Prop
  | post (c : Nat) (t : Task H) : Submits s (.call (.post (.loop c) t)) c (.task t)
  | schedule (x : Nat) : Submits s (.schedule x) (s.strands.get x).home (.turn x)

/-- The frames that give way to others and change nothing that the threads share. -/
inductive Rewrite (me : Nat) (s : Shared H) (active : List Executor) :
    Frame H → List (Frame H) → Prop
  | code (role : Role) (h : H) (made : Nat) :
      Rewrite me s active (.code role h made) [.code role h made]
  | reply (r : Reply) : Rewrite me s active (.reply r) [.reply r]
  | panic (m : String) : Rewrite me s active (.panic m) [.panic m]
  | destroy {f : Frame H} {c : Nat} {j : Job H} (hf : f.Submits s c j)
      (hc : (s.loops.get c).closed = true) : Rewrite me s active f [Frame.dropJob j]
  | dispatchInside (e : Executor) (t : Task H) (he : e ∈ active) :
      Rewrite me s active (.call (.dispatch e t)) [.call (.invoke t)]
  | dispatchLock (x : Nat) (t : Task H) (he : .strand x ∉ active)
      (hx : x < s.strands.size) (hl : .loop (s.strands.get x).home ∈ active) :
      Rewrite me s active (.call (.dispatch (.strand x) t)) [.tryLock x t]
  | dispatchOutside (e : Executor) (t : Task H) (he : e ∉ active)
      (hx : ∀ x, e = .strand x → ¬(x < s.strands.size ∧ .loop (s.strands.get x).home ∈ active)) :
      Rewrite me s active (.call (.dispatch e t)) [.call (.post e t)]
  | invokeBody (h : H) (given : Option Outcome) :
      Rewrite me s active (.call (.invoke (.body h given))) [.code (.handler given) h 0]
  | invokeBound (e : Executor) (t : Task H) :
      Rewrite me s active (.call (.invoke (.bound e t))) [.call (.dispatch e t)]
  | discard (t : Task H) : Rewrite me s active (.call (.discard t)) [.dropTasks [t]]
  | run (c : Nat) (w : Wait) (limit : Option Nat) :
      Rewrite me s active (.call (.run c w limit)) [.drain c w limit 0]
  | isStopped (c : Nat) :
      Rewrite me s active (.call (.isStopped c)) [.reply (.flag (s.loops.get c).stopped)]
  | isInside (e : Executor) :
      Rewrite me s active (.call (.isInside e)) [.reply (.flag (e ∈ active))]
  | ownsWork (g : Nat) :
      Rewrite me s active (.call (.ownsWork g)) [.reply (.flag (s.guards.get g).owns)]
  | strandState (x : Nat) :
      Rewrite me s active (.call (.strandState x))
        [.reply (.strand (s.strands.get x).locked (s.strands.get x).waiting.length)]
  | pending (r : Nat) :
      Rewrite me s active (.call (.pending r)) [.reply (.count (s.registries.get r).pending)]
  | reactorClosed (c : Nat) (hr : (s.loops.get c).reactor = .closed) :
      Rewrite me s active (.call (.wakeReactor c)) [.reply (.flag false)]
  | reactorRunning (c : Nat) (hr : (s.loops.get c).reactor = .running) :
      Rewrite me s active (.call (.wakeReactor c)) [.reply (.flag true)]
  | counters (c : Nat) : Rewrite me s active (.call (.counters c)) [.tally c []]
  | guardOpen (g : Nat) (ho : (s.guards.get g).owns = true) :
      Rewrite me s active (.call (.openGuard g)) []
  | guardClosed (g : Nat) (ho : (s.guards.get g).owns = false) :
      Rewrite me s active (.call (.closeGuard g)) []
  | wakePanic (c : Nat) (m : String) (hr : (s.loops.get c).reactor = .idle)
      (hm : (s.loops.get c).settings.reactor.startPanic? = some m) :
      Rewrite me s active (.call (.wakeReactor c)) [.panic m]
  | full (c : Nat) (w : Wait) (limit : Option Nat) (ran : Nat)
      (hl : limit.any (· ≤ ran) = true) :
      Rewrite me s active (.drain c w limit ran) [.reply (.count ran)]
  | ended {f : Frame H} {c : Nat} {w : Wait} {limit : Option Nat} {ran : Nat}
      (hf : f.Looks me s c w limit ran) (hp : (s.loops.get c).pick = .ended) :
      Rewrite me s active f [.reply (.count ran)]
  | overdue {f : Frame H} {c : Nat} {w : Wait} {limit : Option Nat} {ran : Nat}
      (hf : f.Looks me s c w limit ran) (hp : (s.loops.get c).pick = .idle)
      (hw : w.isOver s.now = true) : Rewrite me s active f [.reply (.count ran)]
  | turnNone (x : Nat) (hw : (s.strands.get x).waiting = []) :
      Rewrite me s active (.runTurn x) [.release x]
  | lockBusy (x : Nat) (t : Task H) (hl : (s.strands.get x).locked = true) :
      Rewrite me s active (.tryLock x t) [.call (.post (.strand x) t)]
  | handOn (x : Nat) (hw : (s.strands.get x).waiting ≠ []) :
      Rewrite me s active (.release x) [.schedule x]
  | dropTasksNil : Rewrite me s active (.dropTasks []) []
  | dropTasksCons (t : Task H) (ts : List (Task H)) :
      Rewrite me s active (.dropTasks (t :: ts)) [.code .destructor t.core 0, .dropTasks ts]
  | dropJobsNil : Rewrite me s active (.dropJobs []) []
  | dropJobsCons (j : Job H) (js : List (Job H)) :
      Rewrite me s active (.dropJobs (j :: js)) [Frame.dropJob j, .dropJobs js]
  | tallyNext (c : Nat) (read : List Nat) (n : Nat)
      (hn : (s.loops.get c).counters.toList[read.length]? = some n) :
      Rewrite me s active (.tally c read) [.tally c (read ++ [n])]
  | tallyEnd (c : Nat) (read : List Nat)
      (hn : (s.loops.get c).counters.toList[read.length]? = none) :
      Rewrite me s active (.tally c read) [.reply (.counts read)]
  | refuse (o : Operation H) (why : String) (hr : (s.loops.get o.home).reactor ≠ .running) :
      Rewrite me s active (.enlist o)
        [.complete o (.failed (.reactor why)), .forget o.registry o.ticket]
  | startPanic (o : Operation H) (m : String) (hr : (s.loops.get o.home).reactor = .idle)
      (hm : (s.loops.get o.home).settings.reactor.startPanic? = some m) :
      Rewrite me s active (.enlist o) [.panic m, .dropTasks [o.task], .forget o.registry o.ticket]
  | claimLost (o : Operation H) (hd : o.due.any (· ≤ s.now) = true)
      (hl : o.ticket ∉ (s.registries.get o.registry).live) :
      Rewrite me s active (.operation o) [.withdraw o (.failed .aborted)]
  | heeded (o : Operation H) (hs : o.ticket ∈ (s.registries.get o.registry).signalled) :
      Rewrite me s active (.operation o) [.withdraw o (.failed .aborted)]
  | linger (o : Operation H) (hs : o.ticket ∉ (s.registries.get o.registry).signalled) :
      Rewrite me s active (.operation o) [.operation o]
  | completeClosed (o : Operation H) (r : Outcome) (hc : (s.loops.get o.home).closed = true) :
      Rewrite me s active (.complete o r) [.dropTasks [o.task.deliver r]]
  | signalNil (r : Nat) : Rewrite me s active (.signal r []) []

/-- The rules by which thread `me` goes on from a frame. -/
inductive Rule (me : Nat) (s : Shared H) (active : List Executor) : Frame H → Effect H → Prop
  | rewrite {f : Frame H} {frames : List (Frame H)} (h : Rewrite me s active f frames) :
      Rule me s active f { shared := s, active, frames }
  | enqueue {f : Frame H} {c : Nat} {j : Job H} (hf : f.Submits s c j)
      (hc : (s.loops.get c).closed = false) :
      Rule me s active f
        { shared := s.onLoop c (Loop.enqueue j), active, frames := [.notifyOne c] }
  | postIdle (x : Nat) (t : Task H) (hl : (s.strands.get x).locked = false) :
      Rule me s active (.call (.post (.strand x) t))
        { shared := s.onStrand x (Strand.submit t), active, frames := [.schedule x] }
  | postBusy (x : Nat) (t : Task H) (hl : (s.strands.get x).locked = true) :
      Rule me s active (.call (.post (.strand x) t))
        { shared := s.onStrand x (Strand.submit t), active }
  | stop (c : Nat) :
      Rule me s active (.call (.stop c))
        { shared := s.onLoop c Loop.stop, active, frames := [.notifyAll c] }
  | restart (c : Nat) :
      Rule me s active (.call (.restart c)) { shared := s.onLoop c Loop.restart, active }
  | dropOwner (c : Nat) :
      Rule me s active (.call (.dropOwner c))
        { shared := s.onLoop c Loop.close, active
          frames := [.notifyAll c, .dropJobs (s.loops.get c).queue, .closeReactor c] }
  | openGuard (g : Nat) (ho : (s.guards.get g).owns = false) :
      Rule me s active (.call (.openGuard g))
        { shared := (s.onGuard g fun x => { x with owns := true }).onLoop (s.guards.get g).home
            Loop.addWork
          active }
  | closeGuard (g : Nat) (ho : (s.guards.get g).owns = true)
      (hl : (s.loops.get (s.guards.get g).home).lastWork = false) :
      Rule me s active (.call (.closeGuard g))
        { shared := (s.onGuard g fun x => { x with owns := false }).onLoop (s.guards.get g).home
            Loop.finishWork
          active }
  | closeLastGuard (g : Nat) (ho : (s.guards.get g).owns = true)
      (hl : (s.loops.get (s.guards.get g).home).lastWork = true) :
      Rule me s active (.call (.closeGuard g))
        { shared := (s.onGuard g fun x => { x with owns := false }).onLoop (s.guards.get g).home
            Loop.finishWork
          active
          frames := [.notifyAll (s.guards.get g).home] }
  | wait (x : Nat) (t : Task H) :
      Rule me s active (.call (.wait x t))
        { shared := s.onRegistry (s.timers.get x).registry Registry.draw, active
          frames :=
            [.enrol ⟨(s.timers.get x).home, (s.timers.get x).registry,
              (s.registries.get (s.timers.get x).registry).next, some (s.timers.get x).expiry,
              .elapsed, t⟩] }
  | start (r c : Nat) (due : Option Instant) (o : Outcome) (t : Task H) :
      Rule me s active (.call (.start r c due o t))
        { shared := s.onRegistry r Registry.draw, active
          frames := [.enrol ⟨c, r, (s.registries.get r).next, due, o, t⟩] }
  | expire (x : Nat) (t : Instant) :
      Rule me s active (.call (.expire x t))
        { shared := (s.onRegistry (s.timers.get x).registry Registry.cancelAll).onTimer x
            fun timer => { timer with expiry := t }
          active
          frames :=
            [.signal (s.timers.get x).registry (s.registries.get (s.timers.get x).registry).live,
              .reply (.count (s.registries.get (s.timers.get x).registry).pending)] }
  | cancelAll (r : Nat) :
      Rule me s active (.call (.cancelAll r))
        { shared := s.onRegistry r Registry.cancelAll, active
          frames :=
            [.signal r (s.registries.get r).live, .reply (.count (s.registries.get r).pending)] }
  | cancelFirst (r : Nat) :
      Rule me s active (.call (.cancelFirst r))
        { shared := s.onRegistry r Registry.cancelFirst, active
          frames := [.reply (.count (s.registries.get r).first)] }
  | wake (c : Nat) (hr : (s.loops.get c).reactor = .idle)
      (hm : (s.loops.get c).settings.reactor.startPanic? = none) :
      Rule me s active (.call (.wakeReactor c))
        { shared := s.onLoop c Loop.startReactor, active, frames := [.reply (.flag true)] }
  | take {f : Frame H} {c : Nat} {w : Wait} {limit : Option Nat} {ran : Nat}
      (hf : f.Looks me s c w limit ran) (j : Job H) (rest : List (Job H))
      (hp : (s.loops.get c).pick = .job j rest) :
      Rule me s active f
        { shared := s.onLoop c fun l => { l with queue := rest }
          active := .loop c :: active
          frames :=
            [Frame.execute j, .finish c, .leave (.loop c), .drain c w limit (ran + 1)] }
  | runDry {f : Frame H} {c : Nat} {w : Wait} {limit : Option Nat} {ran : Nat}
      (hf : f.Looks me s c w limit ran) (hp : (s.loops.get c).pick = .dry) :
      Rule me s active f
        { shared := s.onLoop c Loop.stop, active
          frames := [.notifyAll c, .reply (.count ran)] }
  | sleep {f : Frame H} {c : Nat} {w : Wait} {limit : Option Nat} {ran : Nat}
      (hf : f.Looks me s c w limit ran) (hp : (s.loops.get c).pick = .idle)
      (hw : w.isOver s.now = false) :
      Rule me s active f
        { shared := s.onLoop c (Loop.sleep me), active, frames := [.asleep c w limit ran] }
  | disturb (c : Nat) (w : Wait) (limit : Option Nat) (ran : Nat)
      (hm : me ∈ (s.loops.get c).sleepers) :
      Rule me s active (.asleep c w limit ran)
        { shared := s.onLoop c (Loop.awaken me), active, frames := [.awake c w limit ran] }
  | turn (x : Nat) (t : Task H) (ts : List (Task H)) (hw : (s.strands.get x).waiting = t :: ts) :
      Rule me s active (.runTurn x)
        { shared := s.onStrand x Strand.pop, active := .strand x :: active
          frames := [.call (.invoke t), .leave (.strand x), .release x] }
  | lock (x : Nat) (t : Task H) (hl : (s.strands.get x).locked = false) :
      Rule me s active (.tryLock x t)
        { shared := s.onStrand x Strand.lock, active := .strand x :: active
          frames := [.call (.invoke t), .leave (.strand x), .release x] }
  | free (x : Nat) (hw : (s.strands.get x).waiting = []) :
      Rule me s active (.release x) { shared := s.onStrand x Strand.unlock, active }
  | dropTurn (x : Nat) :
      Rule me s active (.dropTurn x)
        { shared := s.onStrand x Strand.abandon, active
          frames := [.dropTasks (s.strands.get x).waiting] }
  | leave (e : Executor) : Rule me s active (.leave e) { shared := s, active := active.erase e }
  | finish (c : Nat) :
      Rule me s active (.finish c)
        { shared := s.onLoop c Loop.countExecuted, active, frames := [.finishWork c] }
  | finishWork (c : Nat) (hl : (s.loops.get c).lastWork = false) :
      Rule me s active (.finishWork c) { shared := s.onLoop c Loop.finishWork, active }
  | finishLastWork (c : Nat) (hl : (s.loops.get c).lastWork = true) :
      Rule me s active (.finishWork c)
        { shared := s.onLoop c Loop.finishWork, active, frames := [.notifyAll c] }
  | closeReactor (c : Nat) :
      Rule me s active (.closeReactor c) { shared := s.onLoop c Loop.closeReactor, active }
  | notifyOne (c : Nat) :
      Rule me s active (.notifyOne c) { shared := s.onLoop c Loop.notifyOne, active }
  | notifyAll (c : Nat) :
      Rule me s active (.notifyAll c) { shared := s.onLoop c Loop.notifyAll, active }
  | enrol (o : Operation H) :
      Rule me s active (.enrol o)
        { shared := s.onRegistry o.registry (Registry.enrol o.ticket), active
          frames := [.countStart o] }
  | countStart (o : Operation H) :
      Rule me s active (.countStart o)
        { shared := s.onLoop o.home Loop.countStarted, active, frames := [.addWork o] }
  | addWork (o : Operation H) :
      Rule me s active (.addWork o)
        { shared := s.onLoop o.home Loop.addWork, active, frames := [.enlist o] }
  | enlist (o : Operation H) (hr : (s.loops.get o.home).reactor = .running) :
      Rule me s active (.enlist o) { shared := s, active, started := some o }
  | enlistFirst (o : Operation H) (hr : (s.loops.get o.home).reactor = .idle)
      (hm : (s.loops.get o.home).settings.reactor.startPanic? = none) :
      Rule me s active (.enlist o)
        { shared := s.onLoop o.home Loop.startReactor, active, started := some o }
  | abandon (o : Operation H) (hr : (s.loops.get o.home).reactor = .closed) :
      Rule me s active (.operation o)
        { shared := s.onRegistry o.registry (Registry.forget o.ticket), active
          frames := [.dropTasks [o.task]] }
  | claim (o : Operation H) (hd : o.due.any (· ≤ s.now) = true)
      (hl : o.ticket ∈ (s.registries.get o.registry).live) :
      Rule me s active (.operation o)
        { shared := s.onRegistry o.registry (Registry.forget o.ticket), active
          frames := [.withdraw o o.outcome] }
  | withdrawAborted (o : Operation H) :
      Rule me s active (.withdraw o (.failed .aborted))
        { shared := s.onRegistry o.registry (Registry.forget o.ticket), active
          frames := [.countAbort o (.failed .aborted)] }
  | withdraw (o : Operation H) (r : Outcome) (hr : r ≠ .failed .aborted) :
      Rule me s active (.withdraw o r)
        { shared := s.onRegistry o.registry (Registry.forget o.ticket), active
          frames := [.complete o r] }
  | countAbort (o : Operation H) (r : Outcome) :
      Rule me s active (.countAbort o r)
        { shared := s.onLoop o.home Loop.countAborted, active, frames := [.complete o r] }
  | complete (o : Operation H) (r : Outcome) (hc : (s.loops.get o.home).closed = false) :
      Rule me s active (.complete o r)
        { shared := s.onLoop o.home (Loop.enqueueCompletion (.task (o.task.deliver r))), active
          frames := [.notifyOne o.home] }
  | forget (r ticket : Nat) :
      Rule me s active (.forget r ticket)
        { shared := s.onRegistry r (Registry.forget ticket), active }
  | signal (r k : Nat) (ks : List Nat) :
      Rule me s active (.signal r (k :: ks))
        { shared := s.onRegistry r (Registry.signal k), active, frames := [.signal r ks] }

namespace Rule

variable {me : Nat} {s : Shared H} {active : List Executor}

theorem submit {f : Frame H} {c : Nat} {j : Job H} (hf : f.Submits s c j) :
    Rule me s active f (Frame.submit s active c j) := by
  unfold Frame.submit
  split
  · exact .rewrite (.destroy hf ‹_›)
  · exact .enqueue hf (Bool.eq_false_iff.2 ‹_›)

theorem seek {f : Frame H} {c : Nat} {w : Wait} {limit : Option Nat} {ran : Nat}
    (hf : f.Looks me s c w limit ran) :
    Rule me s active f (Frame.seek me s active c w limit ran) := by
  unfold Frame.seek
  split
  · exact .rewrite (.ended hf ‹_›)
  · exact .take hf _ _ ‹_›
  · exact .runDry hf ‹_›
  · split
    · exact .rewrite (.overdue hf ‹_› ‹_›)
    · exact .sleep hf ‹_› (Bool.eq_false_iff.2 ‹_›)

theorem stepCall (k : Call H) : Rule me s active (.call k) (Frame.stepCall s active k) := by
  cases k with
  | post e t =>
    cases e with
    | loop c => exact submit (.post c t)
    | strand x =>
      simp only [Frame.stepCall]
      split
      · exact .postBusy x t ‹_›
      · exact .postIdle x t (Bool.eq_false_iff.2 ‹_›)
  | dispatch e t =>
    cases e with
    | loop c =>
      simp only [Frame.stepCall]
      split
      · exact .rewrite (.dispatchInside _ t ‹_›)
      · refine .rewrite (.dispatchOutside _ t ‹_› ?_)
        intro x hx
        cases hx
    | strand x =>
      simp only [Frame.stepCall]
      split
      · exact .rewrite (.dispatchInside _ t ‹_›)
      · rename_i he
        split
        · rename_i hx
          exact .rewrite (.dispatchLock x t he hx.1 hx.2)
        · rename_i hn
          refine .rewrite (.dispatchOutside _ t he ?_)
          intro y hy
          cases hy
          exact hn
  | invoke t =>
    cases t with
    | body h given => exact .rewrite (.invokeBody h given)
    | bound e t => exact .rewrite (.invokeBound e t)
  | discard t => exact .rewrite (.discard t)
  | run c w limit => exact .rewrite (.run c w limit)
  | stop c => exact .stop c
  | restart c => exact .restart c
  | isStopped c => exact .rewrite (.isStopped c)
  | isInside e => exact .rewrite (.isInside e)
  | counters c => exact .rewrite (.counters c)
  | dropOwner c => exact .dropOwner c
  | openGuard g =>
    simp only [Frame.stepCall]
    split
    · exact .rewrite (.guardOpen g ‹_›)
    · exact .openGuard g (Bool.eq_false_iff.2 ‹_›)
  | closeGuard g =>
    simp only [Frame.stepCall,Frame.giveBack]
    split
    · split
      · exact .closeLastGuard g ‹_› ‹_›
      · exact .closeGuard g ‹_› (Bool.eq_false_iff.2 ‹_›)
    · exact .rewrite (.guardClosed g (Bool.eq_false_iff.2 ‹_›))
  | ownsWork g => exact .rewrite (.ownsWork g)
  | strandState x => exact .rewrite (.strandState x)
  | wait x t => exact .wait x t
  | start r c due o t => exact .start r c due o t
  | expire x t => exact .expire x t
  | cancelAll r => exact .cancelAll r
  | cancelFirst r => exact .cancelFirst r
  | pending r => exact .rewrite (.pending r)
  | wakeReactor c =>
    simp only [Frame.stepCall]
    split
    · exact .rewrite (.reactorClosed c ‹_›)
    · exact .rewrite (.reactorRunning c ‹_›)
    · split
      · exact .rewrite (.wakePanic c _ ‹_› ‹_›)
      · exact .wake c ‹_› ‹_›

theorem enlisting (o : Operation H) : Rule me s active (.enlist o) (Frame.take s active o) := by
  unfold Frame.take
  split
  · exact .rewrite (.refuse o _ (by simp [*]))
  · exact .enlist o ‹_›
  · split
    · exact .rewrite (.startPanic o _ ‹_› ‹_›)
    · exact .enlistFirst o ‹_› ‹_›

theorem heed (o : Operation H) : Rule me s active (.operation o) (Frame.heed s active o) := by
  unfold Frame.heed
  split
  · exact .rewrite (.heeded o ‹_›)
  · exact .rewrite (.linger o ‹_›)

theorem operate (o : Operation H) :
    Rule me s active (.operation o) (Frame.operate s active o) := by
  unfold Frame.operate Frame.claim
  split
  · split
    · exact .claim o ‹_› ‹_›
    · exact .rewrite (.claimLost o ‹_› ‹_›)
  · exact heed o

/-- The execution of a frame follows a rule. -/
theorem step (f : Frame H) (hs : f.sleeps me s = false) :
    Rule me s active f (f.step me s active) := by
  cases f with
  | call k => exact stepCall k
  | code role h made => exact .rewrite (.code role h made)
  | reply r => exact .rewrite (.reply r)
  | panic m => exact .rewrite (.panic m)
  | drain c w limit ran =>
    simp only [Frame.step]
    split
    · exact .rewrite (.full c w limit ran ‹_›)
    · exact seek (.drain (Bool.eq_false_iff.2 ‹_›))
  | asleep c w limit ran => exact seek (.asleep (of_decide_eq_false hs))
  | awake c w limit ran => exact seek .awake
  | runTurn x =>
    simp only [Frame.step]
    split
    · exact .turn x _ _ ‹_›
    · exact .rewrite (.turnNone x ‹_›)
  | tryLock x t =>
    simp only [Frame.step]
    split
    · exact .rewrite (.lockBusy x t ‹_›)
    · exact .lock x t (Bool.eq_false_iff.2 ‹_›)
  | finish c => exact .finish c
  | finishWork c =>
    simp only [Frame.step,Frame.giveBack]
    split
    · exact .finishLastWork c ‹_›
    · exact .finishWork c (Bool.eq_false_iff.2 ‹_›)
  | leave e => exact .leave e
  | release x =>
    simp only [Frame.step]
    split
    · exact .free x ‹_›
    · exact .rewrite (.handOn x ‹_›)
  | schedule x => exact submit (.schedule x)
  | dropTurn x => exact .dropTurn x
  | dropTasks ts =>
    cases ts with
    | nil => exact .rewrite .dropTasksNil
    | cons t ts => exact .rewrite (.dropTasksCons t ts)
  | dropJobs js =>
    cases js with
    | nil => exact .rewrite .dropJobsNil
    | cons j js => exact .rewrite (.dropJobsCons j js)
  | closeReactor c => exact .closeReactor c
  | notifyOne c => exact .notifyOne c
  | notifyAll c => exact .notifyAll c
  | tally c read =>
    simp only [Frame.step]
    split
    · exact .rewrite (.tallyNext c read _ ‹_›)
    · exact .rewrite (.tallyEnd c read ‹_›)
  | enrol o => exact .enrol o
  | countStart o => exact .countStart o
  | addWork o => exact .addWork o
  | enlist o => exact enlisting o
  | operation o =>
    simp only [Frame.step]
    split
    · exact .abandon o ‹_›
    · exact operate o
  | withdraw o r =>
    simp only [Frame.step]
    split
    · subst r
      exact .withdrawAborted o
    · exact .withdraw o r ‹_›
  | countAbort o r => exact .countAbort o r
  | complete o r =>
    simp only [Frame.step]
    split
    · exact .rewrite (.completeClosed o r ‹_›)
    · exact .complete o r (Bool.eq_false_iff.2 ‹_›)
  | forget r k => exact .forget r k
  | signal r ks =>
    cases ks with
    | nil => exact .rewrite (.signalNil r)
    | cons k ks => exact .signal r k ks

theorem step_of_ne {f : Frame H} (hf : ∀ c w limit ran, f ≠ .asleep c w limit ran) :
    Rule me s active f (f.step me s active) := by
  refine step f ?_
  cases f with
  | asleep c w limit ran => exact absurd rfl (hf c w limit ran)
  | _ => rfl

end Rule

/-- Whatever a thread does in one move, it follows a rule, unless code decides or a panic goes
on. -/
theorem Deed.shift_or_rule {me : Nat} {s : Shared H} {active : List Executor}
    {taken : List (Frame H)} {e : Effect H} (hd : Deed me s active taken e) :
    (∃ frames, Shift taken frames ∧ e = { shared := s, active, frames }) ∨
      ∃ f, taken = [f] ∧ Rule me s active f e := by
  cases hd with
  | shift h => exact Or.inl ⟨_,h,rfl⟩
  | step f hs => exact Or.inr ⟨f,rfl,.step f hs⟩
  | disturb c w limit ran hm => exact Or.inr ⟨_,rfl,.disturb c w limit ran hm⟩
  | conclude o => exact Or.inr ⟨_,rfl,.operate o⟩
  | heed o => exact Or.inr ⟨_,rfl,.heed o⟩
  | refuse o why hr => exact Or.inr ⟨_,rfl,.rewrite (.refuse o why (by simp [hr]))⟩

theorem Deed.rule_of_singleton {me : Nat} {s : Shared H} {active : List Executor} {f : Frame H}
    {e : Effect H} (hd : Deed me s active [f] e) :
    (∃ frames, Shift [f] frames ∧ e = { shared := s, active, frames }) ∨ Rule me s active f e := by
  obtain hs | ⟨g,hg,hr⟩ := hd.shift_or_rule
  · exact Or.inl hs
  · obtain rfl := List.singleton_inj.1 hg
    exact Or.inr hr

end EventLoop
