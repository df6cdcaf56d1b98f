import EventLoop.Numeral

/-! Ports of services, given as numbers or by well-known names. -/
namespace EventLoop
namespace Service

def wellKnown : List (String × UInt16) :=
  [("echo", 7), ("ftp-data", 20), ("ftp", 21), ("ssh", 22), ("telnet", 23), ("smtp", 25),
    ("domain", 53), ("http", 80), ("ws", 80), ("pop3", 110), ("ntp", 123), ("imap", 143),
    ("ldap", 389), ("https", 443), ("wss", 443), ("submission", 587), ("imaps", 993),
    ("pop3s", 995), ("mysql", 3306), ("postgresql", 5432), ("redis", 6379), ("http-alt", 8080)]

def sameName (x y : List Char) : Bool := x.map Char.toLower = y.map Char.toLower

/-- An optional plus sign and decimal digits denoting at most 65535. -/
def number? (cs : List Char) : Option UInt16 :=
  let ds := match cs with
    | '+' :: rest => rest
    | _ => cs
  if ds = [] ∨ ds.all (Numeral.isDigit 10) = false then none
  else if Numeral.value 10 ds < 65536 then some (UInt16.ofNat (Numeral.value 10 ds))
  else none

def named? (cs : List Char) : Option UInt16 :=
  (wellKnown.find? fun entry => sameName entry.1.toList cs).map (·.2)

/-- The port of a service: none given means zero, then a number, then a well-known name unless
only numbers are allowed. -/
def port? (service : String) (numericOnly : Bool) : Option UInt16 :=
  if service = "" then some 0
  else match number? service.toList with
    | some port => some port
    | none => if numericOnly then none else named? service.toList

end Service
end EventLoop
