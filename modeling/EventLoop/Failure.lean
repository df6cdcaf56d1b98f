import EventLoop.Settings

/-! What goes wrong with an operation, and the words for it. -/
namespace EventLoop

/-- What a socket or the system reports. -/
inductive SystemKind
  | other | invalidInput | connectionRefused | networkUnreachable
  deriving DecidableEq, Repr

def SystemKind.name : SystemKind → String
  | .other => "Other"
  | .invalidInput => "InvalidInput"
  | .connectionRefused => "ConnectionRefused"
  | .networkUnreachable => "NetworkUnreachable"

/-- A fault of the system; one that the operating system raised has words of its own, which are
not kept. -/
structure SystemFault where
  kind : SystemKind
  text : Option String
  deriving DecidableEq, Repr

inductive Failure
  | aborted
  | hostNotFound (host : String)
  | serviceNotFound (service : String)
  | lookupFailed (host : String) (why : String)
  | timedOut (host : String)
  | reactor (why : String)
  | settings (fault : Settings.Fault)
  | system (fault : SystemFault)
  deriving DecidableEq, Repr

namespace Failure

/-- The condition a failure stands for, whatever reported it. -/
inductive Kind
  | operationAborted | hostNotFound | serviceNotFound | timedOut | reactor | invalidConfig | io
  deriving DecidableEq, Repr

def Kind.all : List Kind :=
  [.operationAborted, .hostNotFound, .serviceNotFound, .timedOut, .reactor, .invalidConfig, .io]

def Kind.name : Kind → String
  | .operationAborted => "OperationAborted"
  | .hostNotFound => "HostNotFound"
  | .serviceNotFound => "ServiceNotFound"
  | .timedOut => "TimedOut"
  | .reactor => "Reactor"
  | .invalidConfig => "InvalidConfig"
  | .io => "Io"

def Kind.ofName? (name : String) : Option Kind := Kind.all.find? (·.name = name)

theorem Kind.ofName?_name (k : Kind) : Kind.ofName? k.name = some k := by cases k <;> decide

def kind : Failure → Kind
  | .aborted => .operationAborted
  | .hostNotFound _ => .hostNotFound
  | .lookupFailed _ _ => .hostNotFound
  | .serviceNotFound _ => .serviceNotFound
  | .timedOut _ => .timedOut
  | .reactor _ => .reactor
  | .settings _ => .invalidConfig
  | .system _ => .io

def message? : Failure → Option String
  | .aborted => some "operation aborted"
  | .hostNotFound host => some ("host not found: " ++ host)
  | .serviceNotFound service => some ("service not found: " ++ service)
  | .lookupFailed host _ => some ("name resolution for " ++ host ++ " failed")
  | .timedOut host => some ("name resolution for " ++ host ++ " timed out")
  | .reactor _ => some "reactor failed to start"
  | .settings fault => some fault.message
  | .system fault => fault.text

def source? : Failure → Option String
  | .lookupFailed _ why => some why
  | .reactor why => some why
  | _ => none

def isAborted (f : Failure) : Bool := f = .aborted

def isHostNotFound (f : Failure) : Bool := f.kind = .hostNotFound

def isTimeout (f : Failure) : Bool := f.kind = .timedOut

@[simp] theorem isAborted_iff (f : Failure) : f.isAborted = true ↔ f = .aborted := by
  simp [isAborted]

def reactorGone : Failure := .reactor "reactor has been shut down"

def nothingToConnect : Failure :=
  .system ⟨.invalidInput, some "no endpoints to connect to"⟩

end Failure
end EventLoop
