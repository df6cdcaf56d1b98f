import EventLoop.Address

/-! An address with a port, written `a.b.c.d:port` or `[groups]:port`, and the two families of
the stream protocol. -/
namespace EventLoop

structure Endpoint where
  address : Address
  port : UInt16
  deriving DecidableEq, Inhabited, Repr

namespace Endpoint

def write (e : Endpoint) : List Char :=
  match e.address with
  | .v4 ip => ip.write ++ ':' :: Numeral.write 10 e.port.toNat
  | .v6 ip => '[' :: (ip.write ++ ']' :: ':' :: Numeral.write 10 e.port.toNat)

def text (e : Endpoint) : String := String.ofList e.write

/-- A port is any number of decimal digits denoting at most 65535. -/
def readPort (cs : List Char) : Option (UInt16 × List Char) :=
  let ds := Numeral.digits 10 cs
  if ds = [] then none
  else if Numeral.value 10 ds < 65536 then
    some (UInt16.ofNat (Numeral.value 10 ds), Numeral.afterDigits 10 cs)
  else none

def readV4 (cs : List Char) : Option (Endpoint × List Char) := do
  let (ip, cs) ← V4.read cs
  let (port, cs) ← readPort (← V4.expect ':' cs)
  return (⟨.v4 ip, port⟩, cs)

def readV6 (cs : List Char) : Option (Endpoint × List Char) := do
  let (ip, cs) ← V6.read (← V4.expect '[' cs)
  let (port, cs) ← readPort (← V4.expect ':' (← V4.expect ']' cs))
  return (⟨.v6 ip, port⟩, cs)

def parse? (cs : List Char) : Option Endpoint :=
  match (readV4 cs).or (readV6 cs) with
  | some (e, []) => some e
  | _ => none

end Endpoint

/-- The family of the stream protocol. -/
inductive Family
  | v4 | v6
  deriving DecidableEq, Repr

namespace Family

def of (e : Endpoint) : Family := if e.address.isV6 then .v6 else .v4

def unspecified (f : Family) (port : UInt16) : Endpoint :=
  match f with
  | .v4 => ⟨.v4 V4.unspecified, port⟩
  | .v6 => ⟨.v6 V6.unspecified, port⟩

end Family
end EventLoop
