import ForwardChaining.Binary64.Basic

/-!
This module contains the exact sum of a list of binary64 numbers: partial sums without rounding
error, which are rounded only once at the end. The sum fails if a partial sum leaves the finite
range, although the sum itself may lie inside it.
-/

namespace ForwardChaining

/-- Why a list of numbers has no sum. -/
inductive SumError where
  /-- A partial sum of finite numbers is too large. -/
  | overflow
  /-- Both infinities occur. -/
  | opposedInfinities
deriving DecidableEq, Repr

namespace Binary64

/-- What is known of the numbers added so far. -/
structure Partials where
  /-- Finite numbers without common bits that add up to the finite part of the sum. -/
  parts : List Rat
  /-- Has an infinity of this sign been added? -/
  posInfinity : Bool
  negInfinity : Bool
  /-- Has a NaN been added? -/
  nan : Bool

namespace Partials

def empty : Partials := ⟨[], false, false, false⟩

/--
Add `x` to the parts, from the smallest to the largest: each rounded sum is carried on and its
rounding error, when there is one, stays behind. The result is `none` if a rounded sum is too large.
-/
def absorb (x : Rat) : List Rat → Option (List Rat)
  | [] => some (if x = 0 then [] else [x])
  | y :: parts =>
    match (ofRat (x + y)).toRat? with
    | none => none
    | some high =>
      -- The rounding error is exact: it is a number of its own.
      let low := x + y - high
      (absorb high parts).map fun rest => if low = 0 then rest else low :: rest

/-- Add one number. An infinity or a NaN makes the finite parts irrelevant. -/
def add (s : Partials) (x : Binary64) : Except SumError Partials :=
  match x with
  | .nan _ => .ok { s with parts := [], nan := true }
  | .infinite true => .ok { s with parts := [], negInfinity := true }
  | .infinite false => .ok { s with parts := [], posInfinity := true }
  | .finite .. =>
    match x.toRat? with
    | none => .ok s
    | some q =>
      match absorb q s.parts with
      | none => .error .overflow
      | some parts => .ok { s with parts }

/-- The sum of what has been added; a NaN that comes out is the `n`th computed one. -/
def total (n : Nat) (s : Partials) : Except SumError Binary64 :=
  if s.posInfinity && s.negInfinity then .error .opposedInfinities
  else if s.nan then .ok (.nan (.computed n))
  else if s.posInfinity then .ok (.infinite false)
  else if s.negInfinity then .ok (.infinite true)
  else .ok (ofRat (s.parts.foldr (· + ·) 0))

end Partials
end Binary64
end ForwardChaining
