import EventLoop.Lookup
import EventLoop.Json.Value
import EventLoop.Machine.Frame
import EventLoop.Traversal

/-! What scripts report, as JSON values and texts. -/
namespace EventLoop

open Json (Value)

def Entry.report (e : Entry) : Value :=
  .array [.string e.endpoint.text, .string e.host, .string e.service]

def Snapshot.report (s : Snapshot) : Value := .array (s.entries.map Entry.report)

/-- A failure as its kind and words; a fault of the system also tells its kind there. -/
def Failure.report (f : Failure) : List (String × Value) :=
  [("error", .string f.kind.name)] ++
    (match f with
      | .system fault => [("io_kind", .string fault.kind.name)]
      | _ => []) ++
    (match f.message? with
      | some text => [("message", .string text)]
      | none => [])

def Settings.Fault.report (f : Settings.Fault) : Value :=
  .object [("error", .string (match f with | .reactor _ => "Reactor" | .lookup _ => "Resolver")),
    ("message", .string f.message)]

namespace Outcome

def report : Outcome → List (String × Value)
  | .elapsed => [("ok", .bool true)]
  | .resolved found => [("ok", .bool true), ("entries", found.report)]
  | .failed why => why.report

end Outcome

def boolText (b : Bool) : String := if b then "true" else "false"

namespace Reply

def strandText (locked : Bool) (waiting : Nat) : String :=
  "Strand \x7b locked: " ++ boolText locked ++ ", waiting: " ++ toString waiting ++ " \x7d"

def report : Reply → Value
  | .flag b => .bool b
  | .count n => Json.count n
  | .counts ns => .array (ns.map Json.count)
  | .strand locked waiting => .string (strandText locked waiting)

end Reply

def resolverText (s : LookupSettings) (pending : Nat) : String :=
  "TcpResolver \x7b settings: ResolverSettings \x7b backend: " ++
    (match s.backend with | .gai => "Gai" | .hickory => "Hickory") ++
    ", prefer_ipv6: " ++ boolText s.preferV6 ++ ", timeout_ms: " ++
    (match s.timeout with
      | none => "None"
      | some ms => "Some(" ++ toString ms.toNat ++ ")") ++
    " \x7d, pending: " ++ toString pending ++ " \x7d"

def Clock.report (left : Span) : Value :=
  .object [("neg", .bool (isNeg left)), ("secs_up", .number (secondsUp left))]

end EventLoop
