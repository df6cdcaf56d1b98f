import EventLoop.Directory
import EventLoop.Json.Value
import EventLoop.Machine.Frame

/-! Scripts: user code for the machine as data. An action names the object that it acts on; a
handler performs actions when it runs, and others when it is destroyed unrun. -/
namespace EventLoop

mutual

inductive Handler
  | mk (id : String) (actions : List Action) (onDrop : List Action)

inductive Action
  | post (c : Nat) (h : Handler)
  | postMany (c : Nat) (id : String) (n : Nat)
  | chain (c : Nat) (id : String) (n : Nat)
  | dispatch (c : Nat) (h : Handler)
  | run (c : Nat)
  | runOne (c : Nat)
  | runTimes (c : Nat) (n : Nat)
  | poll (c : Nat)
  | pollOne (c : Nat)
  | runFor (c : Nat) (ms : Nat)
  | runUntil (c : Nat) (ms : Nat)
  | stop (c : Nat)
  | restart (c : Nat)
  | stopped (c : Nat)
  | running (c : Nat)
  | stats (c : Nat)
  | dropContext (c : Nat)
  | panic (message : String)
  | sleep (ms : Nat)
  | thread (steps : List Action)
  | background (c : Nat) (steps : List Action)
  | awaitPosted (c : Nat) (n : Nat)
  | guard (name : String) (c : Nat)
  | guardDrop (name : String)
  | guardReset (name : String)
  | guardOwns (name : String)
  | strand (name : String) (c : Nat)
  | strandClone (name source : String)
  | strandDrop (name : String)
  | strandPost (name : String) (h : Handler)
  | strandDispatch (name : String) (h : Handler)
  | strandRunning (name : String)
  | strandStopped (name : String)
  | strandState (name : String)
  | wrap (name strand : String) (h : Handler)
  | wrapWith (name strand : String) (h : Handler)
  | bind (name : String) (strand : Option String) (c : Nat) (h : Handler)
  | call (name : String) (arg : Json.Value)
  | callPost (name : String) (c : Nat) (arg : Json.Value)
  | callDispatch (name : String) (c : Nat) (arg : Json.Value)
  | callDrop (name : String)
  | timerNew (name : String) (c : Nat)
  | timerAfter (name : String) (c : Nat) (ms : Nat)
  | timerAt (name : String) (c : Nat) (ms : Nat)
  | timerDrop (name : String)
  | expiresAfter (name : String) (ms : Nat)
  | setExpiresFromNow (name : String) (ms : Nat)
  | expiresAt (name : String) (ms : Nat)
  | cancel (name : String)
  | cancelOne (name : String)
  | pending (name : String)
  | wait (name : String)
  | left (name : String)
  | expiry (name : String)
  | asyncWait (name id : String) (strand : Option String) (c : Nat) (h : Option Handler)
  | resolver (name : String) (c : Nat) (book : Option Directory.Book)
  | resolverDrop (name : String)
  | resolverCancel (name : String)
  | resolverDebug (name : String)
  | lookups (name : String)
  | resolve (name : String) (q : Query)
  | asyncResolve (name id : String) (q : Query) (h : Option Handler)
  | settle

end

instance : Inhabited Handler := ⟨.mk "" [] []⟩
instance : Inhabited Action := ⟨.settle⟩

namespace Handler

def id : Handler → String | .mk id _ _ => id
def actions : Handler → List Action | .mk _ actions _ => actions
def onDrop : Handler → List Action | .mk _ _ onDrop => onDrop

end Handler

namespace Action

def label : Action → String
  | .post _ _ => "post"
  | .postMany _ _ _ => "post_many"
  | .chain _ _ _ => "chain"
  | .dispatch _ _ => "dispatch"
  | .run _ => "run"
  | .runOne _ => "run_one"
  | .runTimes _ _ => "run_times"
  | .poll _ => "poll"
  | .pollOne _ => "poll_one"
  | .runFor _ _ => "run_for"
  | .runUntil _ _ => "run_until"
  | .stop _ => "stop"
  | .restart _ => "restart"
  | .stopped _ => "stopped"
  | .running _ => "running"
  | .stats _ => "stats"
  | .dropContext _ => "drop_ctx"
  | .panic _ => "panic"
  | .sleep _ => "sleep"
  | .thread _ => "thread"
  | .background _ _ => "bg"
  | .awaitPosted _ _ => "await_posted"
  | .guard _ _ => "guard"
  | .guardDrop _ => "guard_drop"
  | .guardReset _ => "guard_reset"
  | .guardOwns _ => "guard_owns"
  | .strand _ _ => "strand"
  | .strandClone _ _ => "strand_clone"
  | .strandDrop _ => "strand_drop"
  | .strandPost _ _ => "strand_post"
  | .strandDispatch _ _ => "strand_dispatch"
  | .strandRunning _ => "strand_running"
  | .strandStopped _ => "strand_stopped"
  | .strandState _ => "strand_state"
  | .wrap _ _ _ => "wrap"
  | .wrapWith _ _ _ => "wrap_with"
  | .bind _ _ _ _ => "bind"
  | .call _ _ => "call"
  | .callPost _ _ _ => "call_post"
  | .callDispatch _ _ _ => "call_dispatch"
  | .callDrop _ => "call_drop"
  | .timerNew _ _ => "timer"
  | .timerAfter _ _ _ => "timer"
  | .timerAt _ _ _ => "timer"
  | .timerDrop _ => "timer_drop"
  | .expiresAfter _ _ => "expires_after"
  | .setExpiresFromNow _ _ => "set_expires_from_now"
  | .expiresAt _ _ => "expires_at"
  | .cancel _ => "cancel"
  | .cancelOne _ => "cancel_one"
  | .pending _ => "pending"
  | .wait _ => "wait"
  | .left _ => "left"
  | .expiry _ => "expiry"
  | .asyncWait _ _ _ _ _ => "async_wait"
  | .resolver _ _ _ => "resolver"
  | .resolverDrop _ => "resolver_drop"
  | .resolverCancel _ => "resolver_cancel"
  | .resolverDebug _ => "resolver_debug"
  | .lookups _ => "lookups"
  | .resolve _ _ => "resolve"
  | .asyncResolve _ _ _ _ => "async_resolve"
  | .settle => "settle"

def timer? : Action → Option String
  | .expiresAfter name _ | .setExpiresFromNow name _ | .expiresAt name _ | .cancel name
  | .cancelOne name | .pending name | .wait name | .left name | .expiry name
  | .asyncWait name _ _ _ _ => some name
  | _ => none

end Action

end EventLoop
