/-! What a loop is configured with: the size of its reactor, and how names are looked up.
`Settings.check` says which values are out of range. -/
namespace EventLoop

/-- Size of the pool of threads that waits on timers and lookups. Handlers never run there. -/
structure ReactorSettings where
  workers : UInt64 := 1
  blocking : UInt64 := 16
  threadName : String := "mplex-io-reactor"
  deriving DecidableEq, Inhabited, Repr

/-- Which directory answers lookups when none is supplied. -/
inductive Backend
  | gai | hickory
  deriving DecidableEq, Inhabited, Repr

structure LookupSettings where
  backend : Backend := .gai
  preferV6 : Bool := false
  timeout : Option UInt64 := none
  deriving DecidableEq, Inhabited, Repr

structure Settings where
  reactor : ReactorSettings := {}
  lookup : LookupSettings := {}
  deriving DecidableEq, Inhabited, Repr

namespace Settings

/-- What is wrong with the settings of one section. -/
inductive Fault
  | reactor (why : String)
  | lookup (why : String)
  deriving DecidableEq, Repr

def Fault.message : Fault → String
  | .reactor why => "Invalid reactor configuration: " ++ why
  | .lookup why => "Invalid resolver configuration: " ++ why

end Settings

def ReactorSettings.check (r : ReactorSettings) : Except String Unit :=
  if r.workers = 0 then .error "worker_threads must be greater than 0"
  else if 256 < r.workers then .error "worker_threads must not exceed 256"
  else if r.blocking = 0 then .error "max_blocking_threads must be greater than 0"
  else if r.threadName = "" then .error "thread_name cannot be empty"
  else .ok ()

def LookupSettings.check (l : LookupSettings) : Except String Unit :=
  match l.timeout with
  | none => .ok ()
  | some ms =>
    if ms = 0 then .error "timeout_ms must be greater than 0"
    else if 60000 < ms then .error "timeout_ms should not exceed 60 seconds"
    else .ok ()

namespace Settings

/-- The first value out of range, the reactor's before the lookup's. -/
def check (s : Settings) : Except Fault Unit :=
  match s.reactor.check with
  | .error why => .error (.reactor why)
  | .ok () =>
    match s.lookup.check with
    | .error why => .error (.lookup why)
    | .ok () => .ok ()

def Valid (s : Settings) : Prop := s.check = .ok ()

instance (s : Settings) : Decidable s.Valid :=
  match h : s.check with
  | .ok () => isTrue h
  | .error _ => isFalse (by simp [Valid, h])

def production : Settings :=
  { reactor := { workers := 2, blocking := 64 }, lookup := { timeout := some 5000 } }

def development : Settings := { reactor := { blocking := 4 } }

theorem valid_default : Valid {} := by decide
theorem valid_production : Valid production := by decide
theorem valid_development : Valid development := by decide

end Settings
end EventLoop
