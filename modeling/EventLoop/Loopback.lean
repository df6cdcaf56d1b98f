import EventLoop.Dial
import EventLoop.Script.Report

/-! Listeners on the machine's own address, and clients that connect to the first of them. A
connected client sends a text, and the listener answers with its characters reversed. -/
namespace EventLoop

open Json (Value)

def maxConnections : Nat := 4096

/-- Whether an address may be used again at once. -/
structure ReuseAddress where
  value : Bool := false
  deriving DecidableEq, Inhabited, Repr

inductive Target
  | listening | refusing
  deriving DecidableEq, Repr

/-- Whether the machine reaches its own address. -/
inductive Link
  | up | down
  deriving DecidableEq, Repr

namespace Loopback

def endpoint (i : Nat) : Endpoint := ⟨.v4 V4.loopback, UInt16.ofNat (40000 + i)⟩

def snapshot (targets : List Target) : Snapshot :=
  ⟨(List.range targets.length).map fun i => ⟨endpoint i, "", ""⟩⟩

def attempt (link : Link) (targets : List Target) : Attempt Nat := fun _ _ e =>
  let i := e.port.toNat - 40000
  match link, targets[i]? with
  | .down, _ => .error ⟨.networkUnreachable, none⟩
  | .up, some .listening => .ok i
  | .up, _ => .error ⟨.connectionRefused, none⟩

structure Plan where
  targets : List Target
  skip : Nat := 0
  limit : Option Span := none
  direct : Bool := false
  reuse : Bool := false
  noDelay : Bool := false
  message : String := ""

def dial (link : Link) (p : Plan) : Dial Nat :=
  if p.direct then Dial.first (attempt link p.targets) none [endpoint p.skip]
  else Dial.anyWithin (attempt link p.targets) p.limit
    (p.skip.repeat Cursor.advance (Cursor.start ⟨0, snapshot p.targets⟩))

def report (link : Link) (p : Plan) : Value :=
  match (dial link p).result with
  | .error why => .object why.report
  | .ok (i, _) =>
    .object [("index", Json.count i), ("reuse", .bool p.reuse), ("no_delay", .bool p.noDelay),
      ("request", .string p.message),
      ("reply", .string (String.ofList p.message.toList.reverse)),
      ("local_matches", .bool true), ("remote_matches", .bool true),
      ("server_matches", .bool true)]

def constants (value : Bool) : Value :=
  .object [("max_connections", Json.count maxConnections),
    ("reuse_true", .bool (ReuseAddress.mk true).value),
    ("reuse_default", .bool (default : ReuseAddress).value),
    ("reuse_eq", .bool (ReuseAddress.mk value = ⟨true⟩))]

end Loopback
end EventLoop
