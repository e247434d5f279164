import ForwardChaining.Binary64.Decimal
import ForwardChaining.Text.Basic

/-!
This module contains the text of binary64 numbers: the shortest text that reads back, the reader, and
the layouts with a fixed number of places, with an exponent, and with a number of significant digits.
-/

namespace ForwardChaining

-- powers are those of the core library, also in the presence of others
attribute [local instance (high)] instPowNat

namespace Binary64

/-- An exponent: its sign, and at least two digits. -/
def exponentText (mark : Char) (e : Int) : List Char :=
  let digits := digitsOf e.natAbs
  mark :: (if e < 0 then '-' else '+') :: (if digits.length < 2 then '0' :: digits else digits)

/-- Digits with the point after the first `point` of them, without an exponent. -/
def positional (digits : List Char) (point : Int) : List Char × List Char :=
  if point ≤ 0 then (['0'], List.replicate point.natAbs '0' ++ digits)
  else
    let whole := digits.take point.toNat
    (whole ++ List.replicate (point.toNat - digits.length) '0', digits.drop point.toNat)

def signed (negative : Bool) (text : List Char) : String :=
  String.ofList (if negative then '-' :: text else text)

/-- The digits at the start, if there are any, and the rest. -/
def readDigits (cs : List Char) : Option (List Char × List Char) :=
  let digits := cs.takeWhile Char.isDigit
  if digits.isEmpty then none else some (digits, cs.dropWhile Char.isDigit)

/-- The exponent after an `e`, when there is one; nothing may follow it. -/
def readExponent : List Char → Option Int
  | [] => some 0
  | c :: cs =>
    if c == 'e' || c == 'E' then
      let (negative, cs) := match cs with
        | '-' :: cs => (true, cs)
        | '+' :: cs => (false, cs)
        | cs => (false, cs)
      match readDigits cs with
      | some (digits, []) =>
        let n : Int := Text.natOfDigits digits
        some (if negative then -n else n)
      | _ => none
    else none

/-- The number nearest to `digits * 10 ^ exponent`; an absurd exponent is cut without computing it. -/
def ofDecimal (negative : Bool) (digits : List Char) (exponent : Int) : Binary64 :=
  let digits := digits.dropWhile (· == '0')
  let n := Text.natOfDigits digits
  if n = 0 then zero negative
  else if exponent + digits.length > 400 then .infinite negative
  else if exponent + digits.length < -400 then zero negative
  else
    let (num, den) := shifted n 1 exponent
    ofFraction negative num den

/--
Read a number: a sign, then `inf`, `infinity` or `nan` in any case, or digits with an optional point
and exponent. A NaN that is read is the `n`th written one.
-/
def read? (n : Nat) (s : String) : Option Binary64 :=
  let (negative, cs) := match s.toList with
    | '-' :: cs => (true, cs)
    | '+' :: cs => (false, cs)
    | cs => (false, cs)
  let word := String.ofList (cs.map Char.toLower)
  if word == "inf" || word == "infinity" then some (.infinite negative)
  else if word == "nan" then some (.nan (.written n))
  else
    let whole := readDigits cs
    let (digits, rest) := whole.getD ([], cs)
    match rest with
    | '.' :: rest =>
      let places := readDigits rest
      let (more, rest) := places.getD ([], rest)
      -- A point alone is no number.
      if whole.isNone && places.isNone then none
      else
        (readExponent rest).map fun e =>
          ofDecimal negative (digits ++ more) (e - more.length)
    | rest =>
      if whole.isNone then none
      else (readExponent rest).map fun e => ofDecimal negative digits e

/-! ### Layouts -/

/-- The digits before and after the point, and the exponent text behind them. -/
structure Layout where
  whole : List Char
  places : List Char
  exponent : List Char
deriving DecidableEq, Repr

/-- The text of a layout; a point stands only before places. -/
def Layout.chars (l : Layout) : List Char :=
  l.whole ++ (if l.places.isEmpty then [] else '.' :: l.places) ++ l.exponent

def fixedLayout (places m : Nat) (e : Int) : Layout :=
  let n := units places m e
  ⟨digitsOf (n / 10 ^ places),
    let digits := digitsOf (n % 10 ^ places)
    if places = 0 then [] else List.replicate (places - digits.length) '0' ++ digits,
    []⟩

/-- One digit before the point, `places` after it, and an exponent. -/
def exponentLayout (places m : Nat) (e : Int) : Layout :=
  if m = 0 then ⟨['0'], List.replicate places '0', exponentText 'e' 0⟩
  else
    let ⟨digits, point⟩ := significant (places + 1) m e
    ⟨digits.take 1, digits.drop 1, exponentText 'e' (point - 1)⟩

/--
A number of significant digits: positional unless the exponent is below `-4` or reaches `limit`.
Zeros at the end are dropped unless they are kept.
-/
def generalLayout (count : Nat) (limit : Int) (keepZeros : Bool) (m : Nat) (e : Int) : Layout :=
  let trim (digits : List Char) := if keepZeros then digits else dropTrailingZeros digits
  let ⟨digits, point⟩ :=
    if m = 0 then ⟨List.replicate count '0', 1⟩ else significant count m e
  if -4 < point && point ≤ limit then
    let (whole, places) := positional digits point
    ⟨whole, trim places, []⟩
  else
    ⟨digits.take 1, trim (digits.drop 1), exponentText 'e' (point - 1)⟩

/--
The layout of the shortest text that reads back. Between `10⁻⁴` and `10¹⁶` it is positional with at
least one place, elsewhere it has an exponent.
-/
def shortestLayout (m : Nat) (e : Int) : Layout :=
  if m = 0 then ⟨['0'], ['0'], []⟩
  else
    let ⟨digits, point⟩ := shortest m e
    if -4 < point && point ≤ 16 then
      let (whole, places) := positional digits point
      ⟨whole, if places.isEmpty then ['0'] else places, []⟩
    else
      ⟨digits.take 1, digits.drop 1, exponentText 'e' (point - 1)⟩

def text : Binary64 → String
  | .nan _ => "nan"
  | .infinite negative => signed negative "inf".toList
  | .finite negative m e _ => signed negative (shortestLayout m e).chars

end Binary64
end ForwardChaining
