import EventLoop.Numeral

/-! Internet addresses and their text: four dotted decimal bytes, or eight hexadecimal groups
of which the first longest run of two or more zeros is written `::`. -/
namespace EventLoop

/-- An address of four bytes. -/
structure V4 where
  a : UInt8
  b : UInt8
  c : UInt8
  d : UInt8
  deriving DecidableEq, Inhabited, Repr

/-- An address of eight groups of sixteen bits. -/
structure V6 where
  a : UInt16
  b : UInt16
  c : UInt16
  d : UInt16
  e : UInt16
  f : UInt16
  g : UInt16
  h : UInt16
  deriving DecidableEq, Inhabited, Repr

inductive Address
  | v4 (ip : V4)
  | v6 (ip : V6)
  deriving DecidableEq, Inhabited, Repr

namespace V4

def unspecified : V4 := ⟨0,0,0,0⟩
def loopback : V4 := ⟨127,0,0,1⟩

def write (ip : V4) : List Char :=
  Numeral.write 10 ip.a.toNat ++ '.' :: (Numeral.write 10 ip.b.toNat ++ '.' ::
    (Numeral.write 10 ip.c.toNat ++ '.' :: Numeral.write 10 ip.d.toNat))

def readByte (cs : List Char) : Option (UInt8 × List Char) :=
  let ds := Numeral.digits 10 cs
  if ds.length = 0 ∨ 3 < ds.length then none
  else if ds.head? = some '0' ∧ 1 < ds.length then none
  else if Numeral.value 10 ds < 256 then
    some (UInt8.ofNat (Numeral.value 10 ds), Numeral.afterDigits 10 cs)
  else none

def expect (c : Char) : List Char → Option (List Char)
  | [] => none
  | x :: xs => if x = c then some xs else none

def read (cs : List Char) : Option (V4 × List Char) := do
  let (a, cs) ← readByte cs
  let (b, cs) ← readByte (← expect '.' cs)
  let (c, cs) ← readByte (← expect '.' cs)
  let (d, cs) ← readByte (← expect '.' cs)
  return (⟨a,b,c,d⟩, cs)

end V4

namespace V6

def unspecified : V6 := ⟨0,0,0,0,0,0,0,0⟩
def loopback : V6 := ⟨0,0,0,0,0,0,0,1⟩

def groups (ip : V6) : List UInt16 := [ip.a,ip.b,ip.c,ip.d,ip.e,ip.f,ip.g,ip.h]

def ofGroups? : List UInt16 → Option V6
  | [a,b,c,d,e,f,g,h] => some ⟨a,b,c,d,e,f,g,h⟩
  | _ => none

@[simp] theorem ofGroups?_groups (ip : V6) : ofGroups? ip.groups = some ip := rfl

/-- The four-byte address that an address of the form `::ffff:a.b.c.d` stands for. -/
def mapped? (ip : V6) : Option V4 :=
  if ip.a = 0 ∧ ip.b = 0 ∧ ip.c = 0 ∧ ip.d = 0 ∧ ip.e = 0 ∧ ip.f = 0xffff then
    some ⟨(ip.g >>> 8).toUInt8, ip.g.toUInt8, (ip.h >>> 8).toUInt8, ip.h.toUInt8⟩
  else none

def zeroRun (gs : List UInt16) : Nat := (gs.takeWhile (· = 0)).length

/-- Start and length of the first longest run of zero groups, the list starting at `i`. -/
def longestRun : Nat → List UInt16 → Nat × Nat
  | _, [] => (0, 0)
  | i, g :: gs =>
    let later := longestRun (i + 1) gs
    let here := zeroRun (g :: gs)
    if later.2 ≤ here ∧ 0 < here then (i, here) else later

def joinGroups : List UInt16 → List Char
  | [] => []
  | [g] => Numeral.write 16 g.toNat
  | g :: gs => Numeral.write 16 g.toNat ++ ':' :: joinGroups gs

def write (ip : V6) : List Char :=
  match ip.mapped? with
  | some v4 => ':' :: ':' :: 'f' :: 'f' :: 'f' :: 'f' :: ':' :: v4.write
  | none =>
    let run := longestRun 0 ip.groups
    if 1 < run.2 then
      joinGroups (ip.groups.take run.1) ++ ':' :: ':' ::
        joinGroups (ip.groups.drop (run.1 + run.2))
    else joinGroups ip.groups

def readGroup (cs : List Char) : Option (UInt16 × List Char) :=
  let ds := Numeral.digits 16 cs
  if ds.length = 0 ∨ 4 < ds.length then none
  else some (UInt16.ofNat (Numeral.value 16 ds), Numeral.afterDigits 16 cs)

def behindColon {α : Type} (first : Bool) (read : List Char → Option α) (cs : List Char) :
    Option α :=
  if first then read cs else (V4.expect ':' cs).bind read

/-- Reads at most `n` groups, the last two of which may be written as four dotted bytes; says
whether they were. -/
def readGroups : Nat → Bool → List Char → List UInt16 × Bool × List Char
  | 0, _, cs => ([], false, cs)
  | n+1, first, cs =>
    match (if 0 < n then behindColon first V4.read cs else none) with
    | some (v4, rest) =>
      ([v4.a.toUInt16 <<< 8 ||| v4.b.toUInt16, v4.c.toUInt16 <<< 8 ||| v4.d.toUInt16],
        true, rest)
    | none =>
      match behindColon first readGroup cs with
      | some (g, rest) =>
        let (gs, dotted, rest) := readGroups n false rest
        (g :: gs, dotted, rest)
      | none => ([], false, cs)

def read (cs : List Char) : Option (V6 × List Char) :=
  let (front, dotted, cs) := readGroups 8 true cs
  if front.length = 8 then (ofGroups? front).map (·, cs)
  else if dotted then none
  else do
    let cs ← V4.expect ':' cs
    let cs ← V4.expect ':' cs
    let (back, _, cs) := readGroups (7 - front.length) true cs
    let gap := List.replicate (8 - front.length - back.length) 0
    (ofGroups? (front ++ gap ++ back)).map (·, cs)

end V6

namespace Address

def isV6 : Address → Bool
  | .v4 _ => false
  | .v6 _ => true

def write : Address → List Char
  | .v4 ip => ip.write
  | .v6 ip => ip.write

def read (cs : List Char) : Option (Address × List Char) :=
  match V4.read cs with
  | some (ip, rest) => some (.v4 ip, rest)
  | none => (V6.read cs).map fun (ip, rest) => (.v6 ip, rest)

def parse? (cs : List Char) : Option Address :=
  match read cs with
  | some (ip, []) => some ip
  | _ => none

def text (ip : Address) : String := String.ofList ip.write

end Address
end EventLoop
