import EventLoop.Lookup

/-! The directories behind the two backends on a machine that knows no names: the system's
reads the short and the non-decimal forms of four-byte addresses, the other nothing. -/
namespace EventLoop
namespace Directory

/-- One part of a dotted address: hexadecimal behind `0x`, octal behind `0`, else decimal. -/
def part? (cs : List Char) : Option Nat :=
  let read := fun (base : Nat) (ds : List Char) =>
    if ds ≠ [] ∧ ds.all (Numeral.isDigit base) then some (Numeral.value base ds) else none
  match cs with
  | '0' :: 'x' :: ds => read 16 ds
  | '0' :: 'X' :: ds => read 16 ds
  | '0' :: ds => if ds = [] then some 0 else read 8 ds
  | ds => read 10 ds

def parts (cs : List Char) : List (List Char) :=
  cs.foldr (fun c ps => if c = '.' then [] :: ps
    else match ps with
      | [] => [[c]]
      | p :: ps => (c :: p) :: ps) [[]]

def ofNumber (n : Nat) : V4 :=
  ⟨UInt8.ofNat (n / 0x1000000), UInt8.ofNat (n / 0x10000), UInt8.ofNat (n / 0x100), UInt8.ofNat n⟩

/-- One to four numbers, of which all but the last are bytes and the last fills the rest. -/
def shortForm? (host : String) : Option V4 :=
  match (parts host.toList).mapM part? with
  | some [n] => if n < 0x100000000 then some (ofNumber n) else none
  | some [a, n] =>
    if a < 256 ∧ n < 0x1000000 then some (ofNumber (a * 0x1000000 + n)) else none
  | some [a, b, n] =>
    if a < 256 ∧ b < 256 ∧ n < 0x10000 then some (ofNumber (a * 0x1000000 + b * 0x10000 + n)) else none
  | some [a, b, c, n] =>
    if a < 256 ∧ b < 256 ∧ c < 256 ∧ n < 256 then
      some (ofNumber (a * 0x1000000 + b * 0x10000 + c * 0x100 + n))
    else none
  | _ => none

def unknown (host : String) : Answer :=
  .after 0 (.error (.lookupFailed host "no such name"))

def ofBackend : Backend → Directory
  | .gai, host =>
    match shortForm? host with
    | some ip => .after 0 (.ok [.v4 ip])
    | none => unknown host
  | .hickory, host => unknown host

/-- What a prepared directory holds for a host. -/
inductive Record
  | addresses (ips : List Address)
  | notFound
  | fail
  | io
  | aborted
  | stalled

def Record.answer (host : String) : Record → Answer
  | .addresses ips => .after 0 (.ok ips)
  | .notFound => .after 0 (.error (.hostNotFound host))
  | .fail => .after 0 (.error (.lookupFailed host "backend failure"))
  | .io => .after 0 (.error (.system ⟨.other, some "backend io"⟩))
  | .aborted => .after 0 (.error .aborted)
  | .stalled => .never

/-- A prepared directory: one record for every host, or one for each host it knows. -/
inductive Book
  | any (r : Record)
  | hosts (rs : List (String × Record))

def Book.directory : Book → Directory
  | .any r, host => r.answer host
  | .hosts rs, host => ((rs.lookup host).getD .notFound).answer host

end Directory
end EventLoop
