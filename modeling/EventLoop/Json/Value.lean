import EventLoop.Numeral

/-! JSON values and their compact text. Members keep the order in which they are given. -/
namespace EventLoop
namespace Json

inductive Value
  | null
  | bool (b : Bool)
  | number (n : Int)
  | string (s : String)
  | array (items : List Value)
  | object (members : List (String × Value))
  deriving Inhabited

def count (n : Nat) : Value := .number n

def strings (ss : List String) : Value := .array (ss.map .string)

/-- The characters that stand for one character inside a string: a quote, a backslash and the
characters below the blank are escaped, the others stand for themselves. -/
def escape (c : Char) : List Char :=
  if c = '"' then ['\\', '"']
  else if c = '\\' then ['\\', '\\']
  else if c = '\x08' then ['\\', 'b']
  else if c = '\x0c' then ['\\', 'f']
  else if c = '\n' then ['\\', 'n']
  else if c = '\r' then ['\\', 'r']
  else if c = '\t' then ['\\', 't']
  else if c.toNat < 32 then
    ['\\', 'u', '0', '0', Numeral.symbol (c.toNat / 16), Numeral.symbol (c.toNat % 16)]
  else [c]

def quote (s : String) : List Char := '"' :: (s.toList.flatMap escape ++ ['"'])

def integer (n : Int) : List Char :=
  if n < 0 then '-' :: Numeral.write 10 n.natAbs else Numeral.write 10 n.natAbs

mutual

/-- The compact text of a value. -/
def Value.write : Value → List Char
  | .null => ['n', 'u', 'l', 'l']
  | .bool true => ['t', 'r', 'u', 'e']
  | .bool false => ['f', 'a', 'l', 's', 'e']
  | .number n => integer n
  | .string s => quote s
  | .array items => '[' :: (writeItems items ++ [']'])
  | .object members => '{' :: (writeMembers members ++ ['}'])

def writeItems : List Value → List Char
  | [] => []
  | [v] => v.write
  | v :: w :: vs => v.write ++ ',' :: writeItems (w :: vs)

def writeMembers : List (String × Value) → List Char
  | [] => []
  | [(k, v)] => quote k ++ ':' :: v.write
  | (k, v) :: m :: ms => quote k ++ ':' :: (v.write ++ ',' :: writeMembers (m :: ms))

end

def Value.text (v : Value) : String := String.ofList v.write

mutual

def Value.sorted : Value → Value
  | .array items => .array (sortItems items)
  | .object members => .object ((sortMembers members).mergeSort fun x y => x.1 ≤ y.1)
  | v => v

def sortItems : List Value → List Value
  | [] => []
  | v :: vs => v.sorted :: sortItems vs

def sortMembers : List (String × Value) → List (String × Value)
  | [] => []
  | (k, v) :: ms => (k, v.sorted) :: sortMembers ms

end

end Json
end EventLoop
