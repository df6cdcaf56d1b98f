import EventLoop.Json.Magnitude

/-! Reading JSON text from left to right. The first fault met ends the reading: the text breaks
the grammar where the reader stands, a value is not what was asked for, or the text ends too
early. A reader returns what it read and the rest of the text. -/
namespace EventLoop
namespace Json

inductive Fault
  | grammar | content | ended
  deriving DecidableEq, Repr

def Fault.category : Fault → String
  | .grammar => "Syntax"
  | .content => "Data"
  | .ended => "Eof"

abbrev Reader (α : Type) := List Char → Except Fault (α × List Char)

def isBlank (c : Char) : Bool := c = ' ' || c = '\n' || c = '\t' || c = '\r'

def skipBlank (cs : List Char) : List Char := cs.dropWhile isBlank

def word : List Char → List Char → Except Fault (List Char)
  | [], cs => .ok cs
  | _ :: _, [] => .error .ended
  | x :: xs, c :: cs => if c = x then word xs cs else .error .grammar

/-! Strings -/

def utf8Length (cs : List Char) : Nat := cs.foldr (fun c n => c.utf8Size + n) 0

/-- Four hexadecimal digits; the text must go on for at least four bytes. -/
def hexEscape (cs : List Char) : Except Fault (Nat × List Char) :=
  if utf8Length (cs.take 4) < 4 then .error .ended
  else if (cs.take 4).length = 4 ∧ (cs.take 4).all (Numeral.isDigit 16) then
    .ok (Numeral.value 16 (cs.take 4), cs.drop 4)
  else .error .grammar

def shortEscape? : Char → Option Char
  | '"' => some '"'
  | '\\' => some '\\'
  | '/' => some '/'
  | 'b' => some '\x08'
  | 'f' => some '\x0c'
  | 'n' => some '\n'
  | 'r' => some '\r'
  | 't' => some '\t'
  | _ => none

def require (c : Char) : List Char → Except Fault (List Char)
  | [] => .error .ended
  | x :: xs => if x = c then .ok xs else .error .grammar

/-- The second half of a pair of escapes for a character beyond sixteen bits. -/
def lowHalf (high : Nat) (cs : List Char) : Except Fault (Char × List Char) := do
  let cs ← require '\\' cs
  let cs ← require 'u' cs
  let (low, cs) ← hexEscape cs
  if low < 0xdc00 ∨ 0xdfff < low then .error .grammar
  else .ok (Char.ofNat ((high - 0xd800) * 0x400 + (low - 0xdc00) + 0x10000), cs)

def escaped : List Char → Except Fault (Char × List Char)
  | [] => .error .ended
  | c :: cs =>
    if c = 'u' then do
      let (n, cs) ← hexEscape cs
      if 0xdc00 ≤ n ∧ n ≤ 0xdfff then .error .grammar
      else if 0xd800 ≤ n ∧ n ≤ 0xdbff then lowHalf n cs
      else .ok (Char.ofNat n, cs)
    else match shortEscape? c with
      | some x => .ok (x, cs)
      | none => .error .grammar

/-- The characters of a string behind its opening quote, at most `fuel` of them. -/
def stringRest : Nat → List Char → Except Fault (List Char × List Char)
  | 0, _ => .error .ended
  | _+1, [] => .error .ended
  | n+1, c :: cs =>
    if c = '"' then .ok ([], cs)
    else if c = '\\' then do
      let (x, cs) ← escaped cs
      let (xs, cs) ← stringRest n cs
      return (x :: xs, cs)
    else if c.toNat < 32 then .error .grammar
    else do
      let (xs, cs) ← stringRest n cs
      return (c :: xs, cs)

def string (cs : List Char) : Except Fault (List Char × List Char) := stringRest (cs.length + 1) cs

/-- Skips an escape behind its backslash; any four hexadecimal digits will do. -/
def skipEscaped : List Char → Except Fault (List Char)
  | [] => .error .ended
  | c :: cs =>
    if c = 'u' then (hexEscape cs).map (·.2)
    else if (shortEscape? c).isSome then .ok cs
    else .error .grammar

def skipStringRest : Nat → List Char → Except Fault (List Char)
  | 0, _ => .error .ended
  | _+1, [] => .error .ended
  | n+1, c :: cs =>
    if c = '"' then .ok cs
    else if c = '\\' then (skipEscaped cs).bind (skipStringRest n)
    else if c.toNat < 32 then .error .grammar
    else skipStringRest n cs

def skipString (cs : List Char) : Except Fault (List Char) := skipStringRest (cs.length + 1) cs

/-! Numbers -/

/-- A number as far as it matters: a natural number without sign, fraction and exponent that
fits into 64 bits, or any other. -/
inductive Number
  | natural (n : Nat)
  | other
  deriving DecidableEq, Repr

def startsWithDigit (cs : List Char) : Bool :=
  match cs with
  | [] => false
  | c :: _ => Numeral.isDigit 10 c

def someDigits (atEnd : Fault) (cs : List Char) : Except Fault (List Char × List Char) :=
  if startsWithDigit cs then .ok (Numeral.digits 10 cs, Numeral.afterDigits 10 cs)
  else if cs = [] then .error atEnd
  else .error .grammar

def wholeDigits (atEnd : Fault) (cs : List Char) : Except Fault (List Char × List Char) :=
  match cs with
  | '0' :: cs => if startsWithDigit cs then .error .grammar else .ok (['0'], cs)
  | cs => someDigits atEnd cs

def fraction (atEnd : Fault) (cs : List Char) : Except Fault (Option (List Char) × List Char) :=
  match cs with
  | '.' :: cs => (someDigits atEnd cs).map fun (ds, cs) => (some ds, cs)
  | cs => .ok (none, cs)

def exponent (atEnd : Fault) (cs : List Char) : Except Fault (Option Int × List Char) :=
  let unsigned := fun (sign : Int) (cs : List Char) =>
    (someDigits atEnd cs).map fun (ds, cs) => (some (sign * Numeral.value 10 ds), cs)
  let signed := fun (cs : List Char) =>
    match cs with
    | '+' :: cs => unsigned 1 cs
    | '-' :: cs => unsigned (-1) cs
    | cs => unsigned 1 cs
  match cs with
  | 'e' :: cs => signed cs
  | 'E' :: cs => signed cs
  | cs => .ok (none, cs)

def number (negative : Bool) (cs : List Char) : Except Fault (Number × List Char) := do
  let (whole, cs) ← wholeDigits .ended cs
  let (frac, cs) ← fraction .ended cs
  let (exp, cs) ← exponent .ended cs
  let n := Numeral.value 10 whole
  if negative = false ∧ frac = none ∧ exp = none ∧ n < Numeral.wordLimit then .ok (.natural n, cs)
  else if tooLarge whole (frac.getD []) (exp.getD 0) then .error .grammar
  else .ok (.other, cs)

/-- Skips a number behind its sign, whatever its size. -/
def skipNumber (cs : List Char) : Except Fault (List Char) := do
  let (_, cs) ← wholeDigits .grammar cs
  let (_, cs) ← fraction .grammar cs
  let (_, cs) ← exponent .grammar cs
  return cs

/-! Values that nobody asked for -/

inductive Bracket
  | array | object
  deriving DecidableEq, Repr

def skipName (cs : List Char) : Except Fault (List Char) :=
  match skipBlank cs with
  | [] => .error .ended
  | '"' :: cs => do
    let cs ← skipString cs
    match skipBlank cs with
    | [] => .error .ended
    | ':' :: cs => return cs
    | _ => .error .grammar
  | _ => .error .grammar

/-- Where the reading of a value that is skipped stands: before a value, or behind one with the
brackets that are open; `fresh` says that the innermost of them was just opened. -/
inductive Place
  | value
  | behind (fresh : Bool)
  deriving DecidableEq, Repr

def beforeItem (b : Bracket) (cs : List Char) : Except Fault (List Char) :=
  match b with
  | .array => .ok cs
  | .object => skipName cs

/-- Skips a value of any depth; `open'` are the brackets to be closed, innermost first. -/
def skipFrom : Nat → Place → List Bracket → List Char → Except Fault (List Char)
  | 0, _, _, _ => .error .ended
  | n+1, .value, open', cs =>
    match skipBlank cs with
    | [] => .error .ended
    | c :: cs' =>
      if c = 'n' then (word ['u', 'l', 'l'] cs').bind (skipFrom n (.behind false) open')
      else if c = 't' then (word ['r', 'u', 'e'] cs').bind (skipFrom n (.behind false) open')
      else if c = 'f' then
        (word ['a', 'l', 's', 'e'] cs').bind (skipFrom n (.behind false) open')
      else if c = '-' then (skipNumber cs').bind (skipFrom n (.behind false) open')
      else if Numeral.isDigit 10 c then
        (skipNumber (c :: cs')).bind (skipFrom n (.behind false) open')
      else if c = '"' then (skipString cs').bind (skipFrom n (.behind false) open')
      else if c = '[' then skipFrom n (.behind true) (.array :: open') cs'
      else if c = '{' then skipFrom n (.behind true) (.object :: open') cs'
      else .error .grammar
  | _+1, .behind _, [], cs => .ok cs
  | n+1, .behind fresh, b :: open', cs =>
    match skipBlank cs with
    | [] => .error .ended
    | c :: cs' =>
      if c = ',' ∧ fresh = false then
        (beforeItem b cs').bind (skipFrom n .value (b :: open'))
      else if c = ']' ∧ b = .array ∨ c = '}' ∧ b = .object then
        skipFrom n (.behind false) open' cs'
      else if fresh then (beforeItem b (c :: cs')).bind (skipFrom n .value (b :: open'))
      else .error .grammar

def skip (cs : List Char) : Except Fault (List Char) :=
  skipFrom (2 * cs.length + 2) .value [] cs

/-! Values of a given type -/

/-- The fault for a value of the wrong type: the value must at least be well-formed as far as it
has to be read to be named. -/
def wrongType (cs : List Char) : Fault :=
  let named := fun {α : Type} (r : Except Fault α) =>
    match r with
    | .ok _ => Fault.content
    | .error f => f
  match cs with
  | [] => .ended
  | c :: cs' =>
    if c = 'n' then named (word ['u', 'l', 'l'] cs')
    else if c = 't' then named (word ['r', 'u', 'e'] cs')
    else if c = 'f' then named (word ['a', 'l', 's', 'e'] cs')
    else if c = '-' then named (number true cs')
    else if Numeral.isDigit 10 c then named (number false (c :: cs'))
    else if c = '"' then named (string cs')
    else if c = '[' ∨ c = '{' then .content
    else .grammar

def natural : Reader UInt64 := fun cs =>
  match skipBlank cs with
  | [] => .error .ended
  | c :: cs =>
    if c = '-' then
      (number true cs).bind fun _ => .error .content
    else if Numeral.isDigit 10 c then
      (number false (c :: cs)).bind fun (n, cs) =>
        match n with
        | .natural n => .ok (UInt64.ofNat n, cs)
        | .other => .error .content
    else .error (wrongType (c :: cs))

def boolean : Reader Bool := fun cs =>
  match skipBlank cs with
  | [] => .error .ended
  | c :: cs =>
    if c = 't' then (word ['r', 'u', 'e'] cs).map (true, ·)
    else if c = 'f' then (word ['a', 'l', 's', 'e'] cs).map (false, ·)
    else .error (wrongType (c :: cs))

def text : Reader String := fun cs =>
  match skipBlank cs with
  | [] => .error .ended
  | c :: cs =>
    if c = '"' then (string cs).map fun (xs, cs) => (String.ofList xs, cs)
    else .error (wrongType (c :: cs))

def optional {α : Type} (r : Reader α) : Reader (Option α) := fun cs =>
  match skipBlank cs with
  | 'n' :: cs => (word ['u', 'l', 'l'] cs).map (none, ·)
  | cs => (r cs).map fun (a, cs) => (some a, cs)

def colon (cs : List Char) : Except Fault (List Char) :=
  match skipBlank cs with
  | [] => .error .ended
  | ':' :: cs => .ok cs
  | _ => .error .grammar

def null (cs : List Char) : Except Fault (List Char) :=
  match skipBlank cs with
  | [] => .error .ended
  | 'n' :: cs => word ['u', 'l', 'l'] cs
  | cs => .error (wrongType cs)

def name {α : Type} (ofName? : String → Option α) : Reader α := fun cs =>
  (text cs).bind fun (s, cs) =>
    match ofName? s with
    | some a => .ok (a, cs)
    | none => .error .content

/-- A name by itself, or as the only member of an object, with null. -/
def choice {α : Type} (ofName? : String → Option α) : Reader α := fun cs =>
  match skipBlank cs with
  | [] => .error .ended
  | '"' :: cs => name ofName? ('"' :: cs)
  | '{' :: cs => do
    let (a, cs) ← name ofName? cs
    let cs ← colon cs
    let cs ← null cs
    match skipBlank cs with
    | [] => .error .ended
    | '}' :: cs => return (a, cs)
    | _ => .error .grammar
  | _ => .error .grammar

/-! Records -/

/-- A field of a record: its name, and how its value is read into the record. -/
structure RecordField (σ : Type) where
  name : String
  read : Reader (σ → σ)

def fieldOf {σ α : Type} (name : String) (r : Reader α) (set : α → σ → σ) : RecordField σ :=
  ⟨name, fun cs => (r cs).map fun (a, cs) => (set a, cs)⟩

/-- The name of the next member, unless the object ends here. -/
def memberName (first : Bool) (cs : List Char) : Except Fault (Option String × List Char) :=
  let quoted := fun (cs : List Char) =>
    (string cs).map fun (xs, cs) => (some (String.ofList xs), cs)
  match skipBlank cs with
  | [] => .error .ended
  | c :: cs =>
    if c = '}' then .ok (none, cs)
    else if c = ',' ∧ first = false then
      match skipBlank cs with
      | [] => .error .ended
      | '"' :: cs => quoted cs
      | _ => .error .grammar
    else if first ∧ c = '"' then quoted cs
    else .error .grammar

/-- The members of an object behind its opening bracket. Names that are no fields are skipped
with their values; a field may be named only once. -/
def members {σ : Type} (fields : List (RecordField σ)) :
    Nat → Bool → List String → σ → Reader σ
  | 0, _, _, _, _ => .error .ended
  | n+1, first, seen, a, cs => do
    match ← memberName first cs with
    | (none, cs) => return (a, cs)
    | (some key, cs) =>
      match fields.find? (·.name = key) with
      | none => members fields n false seen a (← skip (← colon cs))
      | some f =>
        if key ∈ seen then .error .content
        else
          let (set, cs) ← f.read (← colon cs)
          members fields n false (key :: seen) (set a) cs

/-- The text goes on with another item of an array; a comma stands before each but the first. -/
def nextItem (first : Bool) (cs : List Char) : Except Fault (Bool × List Char) :=
  match skipBlank cs with
  | [] => .error .ended
  | c :: cs' =>
    if c = ']' then .ok (false, c :: cs')
    else if c = ',' ∧ first = false then
      match skipBlank cs' with
      | [] => .error .ended
      | ']' :: _ => .error .grammar
      | cs => .ok (true, cs)
    else if first then .ok (true, c :: cs')
    else .error .grammar

/-- Values of the fields in order, up to the end of the array. -/
def items {σ : Type} : List (RecordField σ) → Bool → σ → Reader σ
  | [], _, a, cs => .ok (a, cs)
  | f :: fs, first, a, cs => do
    match ← nextItem first cs with
    | (false, cs) => return (a, cs)
    | (true, cs) =>
      let (set, cs) ← f.read cs
      items fs false (set a) cs

def closeArray (cs : List Char) : Except Fault (List Char) :=
  match skipBlank cs with
  | [] => .error .ended
  | ']' :: cs => .ok cs
  | _ => .error .grammar

/-- A record, as an object or as the array of its fields, possibly cut short. Fields that are
left out keep their values in `a`. -/
def record {σ : Type} (fields : List (RecordField σ)) (a : σ) : Reader σ := fun cs =>
  match skipBlank cs with
  | [] => .error .ended
  | c :: cs =>
    if c = '{' then members fields (cs.length + 1) true [] a cs
    else if c = '[' then do
      let (a, cs) ← items fields true a cs
      return (a, ← closeArray cs)
    else .error (wrongType (c :: cs))

def whole {α : Type} (r : Reader α) (cs : List Char) : Except Fault α := do
  let (a, cs) ← r cs
  if skipBlank cs = [] then return a else .error .grammar

end Json
end EventLoop
