import EventLoop.Json.Reader
import EventLoop.Json.Value
import EventLoop.Settings

/-! Settings as JSON: writing them in full, and reading them with every field optional. -/
namespace EventLoop

open Json

def Backend.name : Backend → String
  | .gai => "gai"
  | .hickory => "hickory"

def Backend.ofName? (name : String) : Option Backend :=
  [Backend.gai, .hickory].find? (·.name = name)

def ReactorSettings.toJson (r : ReactorSettings) : Value :=
  .object [("worker_threads", count r.workers.toNat),
    ("max_blocking_threads", count r.blocking.toNat), ("thread_name", .string r.threadName)]

def LookupSettings.toJson (l : LookupSettings) : Value :=
  .object [("backend", .string l.backend.name), ("prefer_ipv6", .bool l.preferV6),
    ("timeout_ms", match l.timeout with | some ms => count ms.toNat | none => .null)]

def ReactorSettings.fields : List (RecordField ReactorSettings) :=
  [fieldOf "worker_threads" natural fun n r => { r with workers := n },
    fieldOf "max_blocking_threads" natural fun n r => { r with blocking := n },
    fieldOf "thread_name" text fun s r => { r with threadName := s }]

def LookupSettings.fields : List (RecordField LookupSettings) :=
  [fieldOf "backend" (choice Backend.ofName?) fun b l => { l with backend := b },
    fieldOf "prefer_ipv6" boolean fun b l => { l with preferV6 := b },
    fieldOf "timeout_ms" (optional natural) fun ms l => { l with timeout := ms }]

namespace Settings

def toJson (s : Settings) : Value :=
  .object [("reactor", s.reactor.toJson), ("resolver", s.lookup.toJson)]

def fields : List (RecordField Settings) :=
  [fieldOf "reactor" (record ReactorSettings.fields {}) fun r s => { s with reactor := r },
    fieldOf "resolver" (record LookupSettings.fields {}) fun l s => { s with lookup := l }]

def read (cs : List Char) : Except Json.Fault Settings := whole (record fields {}) cs

/-- Why a text gives no settings: it cannot be read, or a value is out of range. -/
inductive Refusal
  | unreadable (fault : Json.Fault)
  | invalid (fault : Fault)
  deriving DecidableEq, Repr

/-- The settings in a text, with values that are in range. -/
def ofText (text : String) : Except Refusal Settings :=
  match read text.toList with
  | .error fault => .error (.unreadable fault)
  | .ok s =>
    match s.check with
    | .error fault => .error (.invalid fault)
    | .ok () => .ok s

def accept (s : Settings) : Except Fault Settings :=
  match s.check with
  | .error fault => .error fault
  | .ok () => .ok s

/-- What a loop is built from. -/
inductive Origin
  | standard
  | given (settings : Settings)
  | text (written : String)

/-- The settings that a loop is built with. -/
def Origin.settle : Origin → Except Refusal Settings
  | .standard => .ok {}
  | .given s => s.accept.mapError .invalid
  | .text written => (ofText written).bind fun s => s.accept.mapError .invalid

theorem valid_of_ofText {text : String} {s : Settings} (h : ofText text = .ok s) : s.Valid := by
  unfold ofText at h
  split at h
  · cases h
  · split at h
    · cases h
    · next hc => cases h; exact hc

theorem valid_of_accept {s t : Settings} (h : s.accept = .ok t) : t.Valid := by
  unfold accept at h
  split at h
  · cases h
  · next hc => cases h; exact hc

theorem settle_given {s t : Settings} (h : s.accept = .ok t) : (Origin.given s).settle = .ok t := by
  rw [Origin.settle,h]
  rfl

theorem settle_given_error {s : Settings} {fault : Fault} (h : s.accept = .error fault) :
    (Origin.given s).settle = .error (.invalid fault) := by
  rw [Origin.settle,h]
  rfl

/-- Settings that have been read are checked like settings that are given. -/
theorem settle_text {written : String} {s : Settings} (h : ofText written = .ok s) :
    (Origin.text written).settle = (Origin.given s).settle := by
  change (ofText written).bind _ = _
  rw [h]
  rfl

theorem settle_text_error {written : String} {why : Refusal} (h : ofText written = .error why) :
    (Origin.text written).settle = .error why := by
  rw [Origin.settle,h]
  rfl

theorem valid_of_settle_given {s t : Settings} (h : (Origin.given s).settle = .ok t) : t.Valid := by
  cases hs : s.accept with
  | error fault =>
    rw [settle_given_error hs] at h
    cases h
  | ok u =>
    rw [settle_given hs] at h
    cases h
    exact valid_of_accept hs

theorem valid_of_settle {o : Origin} {s : Settings} (h : o.settle = .ok s) : s.Valid := by
  cases o with
  | standard =>
    cases h
    exact valid_default
  | given t => exact valid_of_settle_given h
  | text written =>
    cases ht : ofText written with
    | error why =>
      rw [settle_text_error ht] at h
      cases h
    | ok t =>
      rw [settle_text ht] at h
      exact valid_of_settle_given h

end Settings
end EventLoop
