import EventLoop.Numeral

/-! The range of numbers. A number counts as its leading digits, as many as fit into 64 bits,
times a power of ten, each rounded to 53 binary digits; their product must round to a finite
binary number. Main definitions: `rounded` and `tooLarge`. -/
namespace EventLoop
namespace Json

/-- The value of the last of 53 binary digits of `n`, or one. -/
def lastDigit (n : Nat) : Nat := Nat.pow 2 (n.log2 + 1 - 53)

/-- A number rounded to 53 binary digits, a half to the even neighbour. -/
def rounded (n : Nat) : Nat :=
  let q := n / lastDigit n
  let r := n % lastDigit n
  (if lastDigit n < 2 * r ∨ (lastDigit n = 2 * r ∧ q % 2 = 1) then q + 1 else q) * lastDigit n

def magnitudeLimit : Nat := Nat.pow 2 1024 - Nat.pow 2 970

/-- Digits read onto `m` as long as the number fits into 64 bits, and the digits left over. -/
def leading (m : Nat) : List Char → Nat × List Char
  | [] => (m, [])
  | d :: ds =>
    let n := m * 10 + (Numeral.digit? 10 d).getD 0
    if n < Numeral.wordLimit then leading n ds else (m, d :: ds)

/-- Whether a number is out of range that is written with these digits before and behind the
point and this exponent. -/
def tooLarge (whole frac : List Char) (exponent : Int) : Bool :=
  let (m, left) := leading 0 whole
  let (m, lost) := leading m frac
  let e := exponent + left.length + lost.length - frac.length
  m ≠ 0 && (308 < e || (0 ≤ e && magnitudeLimit ≤ rounded m * rounded (Nat.pow 10 e.toNat)))

end Json
end EventLoop
