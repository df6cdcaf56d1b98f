import EventLoop.Failure
import EventLoop.Service
import EventLoop.Snapshot
import EventLoop.Clock

/-! Resolving a host and a service to endpoints. The service is mapped first; a host that is
empty, a literal or required to be one is answered here, every other is looked up in a
directory. Main function: `Query.run`. -/
namespace EventLoop

/-- What a directory answers for a host. -/
inductive Answer
  | never
  | after (d : Span) (result : Except Failure (List Address))

abbrev Directory := String → Answer

/-- Hints for a lookup. -/
structure Hints where
  /-- An empty host means every address of the machine. -/
  passive : Bool := false
  /-- The host must be a literal. -/
  numericHost : Bool := false
  /-- The service must be a number. -/
  numericService : Bool := false
  deriving DecidableEq, Inhabited, Repr

namespace Hints

def forBinding : Hints := { passive := true }
def numeric : Hints := { numericHost := true, numericService := true }

end Hints

structure Query where
  host : String
  service : String
  hints : Hints := {}
  deriving DecidableEq, Inhabited, Repr

/-- How a lookup goes: the hosts the directory was asked for, and the outcome with the time it
takes, if it ever finishes. -/
structure Query.Report where
  asked : List String
  outcome : Option (Span × Except Failure Snapshot)

namespace Query

def passive (service : String) : Query := ⟨"", service, Hints.forBinding⟩

/-- The host without one matching pair of outer brackets. -/
def bare (host : List Char) : List Char :=
  match host with
  | '[' :: rest => if rest.getLast? = some ']' then rest.dropLast else host
  | _ => host

def literal? (host : String) : Option Address := Address.parse? (bare host.toList)

/-- The addresses of a host that needs no directory. -/
def ownAddresses? (q : Query) : Option (Except Failure (List Address)) :=
  if q.host = "" then
    some (.ok (if q.hints.passive then [.v4 V4.unspecified, .v6 V6.unspecified]
      else [.v4 V4.loopback, .v6 V6.loopback]))
  else match literal? q.host with
    | some ip => some (.ok [ip])
    | none => if q.hints.numericHost then some (.error (.hostNotFound q.host)) else none

def distinct : List Address → List Address
  | [] => []
  | ip :: ips => ip :: (distinct ips).filter (· ≠ ip)

/-- Addresses of the preferred family first, otherwise in the given order. -/
def arrange (preferV6 : Bool) (ips : List Address) : List Address :=
  distinct (ips.mergeSort fun x y => x.isV6 = preferV6 || y.isV6 != preferV6)

def entries (q : Query) (preferV6 : Bool) (port : UInt16) (ips : List Address) :
    Except Failure Snapshot :=
  if ips = [] then .error (.hostNotFound q.host)
  else .ok ⟨(arrange preferV6 ips).map fun ip => ⟨⟨ip, port⟩, q.host, q.service⟩⟩

/-- The answer of a directory, cut off by a limit; an answer at the limit is in time. -/
def await (host : String) (limit : Option Span) :
    Answer → Option (Span × Except Failure (List Address))
  | .never => limit.map fun l => (l, .error (.timedOut host))
  | .after d result =>
    match limit with
    | none => some (d, result)
    | some l => if d ≤ l then some (d, result) else some (l, .error (.timedOut host))

def limit (settings : LookupSettings) : Option Span :=
  settings.timeout.map fun ms => ms.toNat * Clock.millisecond

def run (settings : LookupSettings) (directory : Directory) (q : Query) : Report :=
  match Service.port? q.service q.hints.numericService with
  | none => ⟨[], some (0, .error (.serviceNotFound q.service))⟩
  | some port =>
    let finish := fun found : Except Failure (List Address) =>
      found.bind (q.entries settings.preferV6 port)
    match q.ownAddresses? with
    | some own => ⟨[], some (0, finish own)⟩
    | none =>
      ⟨[q.host], (await q.host (limit settings) (directory q.host)).map
        fun (d, found) => (d, finish found)⟩

end Query
end EventLoop
