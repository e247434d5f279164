/-!
This module contains binary64 numbers as exact data. The sign, the significand and the exponent of a
finite number are fields, so the value of a number is a rational and every operation is the exact
rational result, rounded once to the nearest number (a tie goes to the even significand).
-/

namespace ForwardChaining

-- powers are those of the core library, also in the presence of others
attribute [local instance (high)] instPowNat

/--
Where a NaN comes from. A NaN equals nothing, but a container still recognises the very NaN it
holds, so NaNs carry an identity.
-/
inductive NanOrigin where
  /-- The `n`th NaN written in the data. -/
  | written (n : Nat)
  /-- A NaN that came out of the `n`th computation. -/
  | computed (n : Nat)
deriving DecidableEq, Repr

/--
The canonical forms `m * 2 ^ e`: a significand of exactly 53 bits, or a shorter one at the smallest
exponent. Every finite value has exactly one of them.
-/
def Canonical (m : Nat) (e : Int) : Prop :=
  (m < 2 ^ (53 : Nat) ∧ e = -1074)
    ∨ (2 ^ (52 : Nat) ≤ m ∧ m < 2 ^ (53 : Nat) ∧ -1074 < e ∧ e ≤ 971)

instance (m : Nat) (e : Int) : Decidable (Canonical m e) :=
  inferInstanceAs (Decidable (_ ∨ _))

inductive Binary64 where
  | nan (origin : NanOrigin)
  | infinite (negative : Bool)
  | finite (negative : Bool) (m : Nat) (e : Int) (canonical : Canonical m e)
deriving DecidableEq, Repr

/-- `2 ^ e` as a rational. -/
def twoPow : Int → Rat
  | .ofNat n => ((2 ^ n : Nat) : Rat)
  | .negSucc n => mkRat 1 (2 ^ (n + 1))

/-- A rational, or one of the two infinities. -/
inductive Extended where
  | negInfinity
  | rational (q : Rat)
  | posInfinity
deriving DecidableEq

namespace Extended

/-- The usual order, with the infinities at its ends. -/
def compare : Extended → Extended → Ordering
  | .negInfinity, .negInfinity => .eq
  | .negInfinity, _ => .lt
  | .posInfinity, .posInfinity => .eq
  | .posInfinity, _ => .gt
  | .rational _, .negInfinity => .gt
  | .rational _, .posInfinity => .lt
  | .rational p, .rational q => if p < q then .lt else if p = q then .eq else .gt

end Extended

namespace Binary64

def zero (negative : Bool) : Binary64 :=
  .finite negative 0 (-1074) (Or.inl (by decide))

/-- `num / den` rounded to the nearest natural number, a tie going to the even one. -/
def roundDiv (num den : Nat) : Nat :=
  let q := num / den
  let r := num % den
  if 2 * r < den then q
  else if den < 2 * r then q + 1
  else q + q % 2

/-- The quotient of `num / den` by `2 ^ e`, as a fraction of natural numbers. -/
def scaled (num den : Nat) : Int → Nat × Nat
  | .ofNat n => (num, den * 2 ^ n)
  | .negSucc n => (num * 2 ^ (n + 1), den)

/--
The exponent at which `num / den` has a significand of 53 bits, or the smallest one if that is too
small.
-/
def exponentOf (num den : Nat) : Int :=
  let e := (num.log2 : Int) - den.log2 - 52
  let (n, d) := scaled num den e
  max (-1074) (if n / d < 2 ^ (52 : Nat) then e - 1 else e)

/--
The number nearest to the positive fraction `num / den`. Rounding may carry into the next power of
two; what is still too large after that is infinite.
-/
def ofFraction (negative : Bool) (num den : Nat) : Binary64 :=
  if num = 0 then zero negative
  else
    let e := exponentOf num den
    let (n, d) := scaled num den e
    let m := roundDiv n d
    if h : Canonical m e then .finite negative m e h
    else if h : Canonical (2 ^ (52 : Nat)) (e + 1) then
      .finite negative (2 ^ (52 : Nat)) (e + 1) h
    else .infinite negative

/-- The number nearest to a rational; zero is positive. -/
def ofRat (q : Rat) : Binary64 :=
  ofFraction (q.num < 0) q.num.natAbs q.den

def magnitude (m : Nat) : Int → Nat × Nat
  | .ofNat n => (m * 2 ^ n, 1)
  | .negSucc n => (m, 2 ^ (n + 1))

def toRat? : Binary64 → Option Rat
  | .finite negative m e _ =>
    let q := (m : Rat) * twoPow e
    some (if negative then -q else q)
  | _ => none

/-- The value of anything but a NaN. -/
def value? : Binary64 → Option Extended
  | .nan _ => none
  | .infinite true => some .negInfinity
  | .infinite false => some .posInfinity
  | .finite negative m e _ =>
    let q := (m : Rat) * twoPow e
    some (.rational (if negative then -q else q))

def isZero : Binary64 → Bool
  | .finite _ m _ _ => m == 0
  | _ => false

/-- Is the sign bit set? A NaN has none. -/
def isNegative : Binary64 → Bool
  | .nan _ => false
  | .infinite negative => negative
  | .finite negative _ _ _ => negative

def abs : Binary64 → Binary64
  | .finite _ m e h => .finite false m e h
  | .infinite _ => .infinite false
  | x => x

/-- The number nearest to an integer, unless the integer is too large for a finite one. -/
def ofInt? (n : Int) : Option Binary64 :=
  match ofFraction (n < 0) n.natAbs 1 with
  | .finite negative m e h => some (.finite negative m e h)
  | _ => none

/--
The sum. Infinities of opposite signs have no sum, and a zero sum is negative only if both parts
are. A NaN that comes out is the `n`th computed one.
-/
def add (n : Nat) (x y : Binary64) : Binary64 :=
  match x, y with
  | .infinite a, .infinite b => if a = b then .infinite a else .nan (.computed n)
  | .infinite a, .finite .. => .infinite a
  | .finite .., .infinite b => .infinite b
  | .finite a _ _ _, .finite b _ _ _ =>
    match x.toRat?, y.toRat? with
    | some p, some q => if p + q = 0 then zero (a && b) else ofRat (p + q)
    | _, _ => .nan (.computed n)
  | _, _ => .nan (.computed n)

/--
The product. Zero times an infinity is not a number; otherwise the signs multiply, also those of
zeros.
-/
def mul (n : Nat) (x y : Binary64) : Binary64 :=
  let negative := x.isNegative != y.isNegative
  match x, y with
  | .nan _, _ => .nan (.computed n)
  | _, .nan _ => .nan (.computed n)
  | .infinite _, z => if z.isZero then .nan (.computed n) else .infinite negative
  | z, .infinite _ => if z.isZero then .nan (.computed n) else .infinite negative
  | .finite _ m e _, .finite _ m' e' _ =>
    let (p, d) := magnitude m e
    let (p', d') := magnitude m' e'
    ofFraction negative (p * p') (d * d')

def toInt? (x : Binary64) : Option Int :=
  match x.toRat? with
  | some q => if q.den = 1 then some q.num else none
  | none => none

end Binary64
end ForwardChaining
