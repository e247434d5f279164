import ForwardChaining.Binary64.Basic

/-!
This module contains the decimal digits of binary64 numbers: the fewest digits that read back as the
same number, a given number of significant digits, and a given number of places after the point.
-/

namespace ForwardChaining

-- powers are those of the core library, also in the presence of others
attribute [local instance (high)] instPowNat

/--
Decimal digits `d₁ d₂ … dₙ` and the place of the point: the value is `0.d₁d₂…dₙ * 10 ^ point`.
-/
structure Decimal where
  digits : List Char
  point : Int
deriving DecidableEq, Repr

namespace Binary64

/-- The fraction `num / den * 10 ^ k`. -/
def shifted (num den : Nat) : Int → Nat × Nat
  | .ofNat k => (num * 10 ^ k, den)
  | .negSucc k => (num, den * 10 ^ (k + 1))

/--
The place of the point in the positive fraction `num / den`: the `p` for which it lies between
`10 ^ (p - 1)`, included, and `10 ^ p`, excluded. It is estimated from the binary logarithm and then
moved by at most two.
-/
def pointOf (num den : Nat) : Int :=
  let estimate := Int.fdiv (((num.log2 : Int) - den.log2 - 1) * 30103) 100000
  let reaches (p : Int) : Bool :=
    let (n, d) := shifted num den (-p)
    d ≤ n
  if reaches (estimate + 1) then
    if reaches (estimate + 2) then estimate + 3 else estimate + 2
  else if reaches estimate then estimate + 1
  else estimate

def digitsOf (n : Nat) : List Char :=
  Nat.toDigits 10 n

def dropTrailingZeros (digits : List Char) : List Char :=
  (digits.reverse.dropWhile (· == '0')).reverse

/-- Does `digits * 10 ^ (point - count)` read back as the number with significand `m`, exponent `e`? -/
def readsBack (m : Nat) (e : Int) (digits : Nat) (exponent : Int) : Bool :=
  let (n, d) := shifted digits 1 exponent
  match ofFraction false n d with
  | .finite _ m' e' _ => m == m' && e == e'
  | _ => false

/-- The decimal digits of `n * 10 ^ exponent`, without the zeros at their end. -/
def decimalOf (n : Nat) (exponent : Int) : Decimal :=
  let digits := digitsOf n
  ⟨dropTrailingZeros digits, digits.length + exponent⟩

/--
The nearest number with `count` digits that reads back as `m * 2 ^ e`, if one does. Only the two
neighbours on that decimal grid can. A neighbour such as `10` for one digit moves the point.
-/
def neighbour? (m : Nat) (e : Int) (count : Nat) : Option Decimal :=
  let (num, den) := magnitude m e
  let exponent := pointOf num den - count
  let (n, d) := shifted num den (-exponent)
  let low := n / d
  let lowBack := readsBack m e low exponent
  let highBack := readsBack m e (low + 1) exponent
  if lowBack && highBack then some (decimalOf (roundDiv n d) exponent)
  else if lowBack then some (decimalOf low exponent)
  else if highBack then some (decimalOf (low + 1) exponent)
  else none

/-- All digits of the number `m * 2 ^ e`. -/
def allDigits (m : Nat) : Int → Decimal
  | .ofNat n => decimalOf (m * 2 ^ n) 0
  | .negSucc n => decimalOf (m * 5 ^ (n + 1)) (.negSucc n)

/--
The fewest digits from `count` on that read back as the positive number `m * 2 ^ e`, of as many counts
as the last argument says; if none of them is enough, all digits.
-/
def fewestDigits (m : Nat) (e : Int) (count : Nat) : Nat → Decimal
  | 0 => allDigits m e
  | more + 1 => (neighbour? m e count).getD (fewestDigits m e (count + 1) more)

/-- The fewest digits that read back as the positive number `m * 2 ^ e`. Seventeen always suffice. -/
def shortest (m : Nat) (e : Int) : Decimal :=
  fewestDigits m e 1 17

/-- `count` significant digits of the positive number `m * 2 ^ e`, a tie going to the even digit. -/
def significant (count m : Nat) (e : Int) : Decimal :=
  let (num, den) := magnitude m e
  let point := pointOf num den
  let (n, d) := shifted num den (count - point)
  let digits := digitsOf (roundDiv n d)
  ⟨digits.take count, point + (digits.length - count : Int)⟩

/-- The number `m * 2 ^ e` in units of the last of `places` places, a tie going to the even unit. -/
def units (places m : Nat) (e : Int) : Nat :=
  let (num, den) := magnitude m e
  roundDiv (num * 10 ^ places) den

end Binary64
end ForwardChaining
