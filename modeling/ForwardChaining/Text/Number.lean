import ForwardChaining.Text.Basic
import ForwardChaining.Text.Blank
import ForwardChaining.Text.Case

/-!
This module contains the reading of integers from texts written by people: blanks around the number,
a plus sign, zeros in front, underscores between digits, and a fraction of zeros are allowed.
-/

namespace ForwardChaining.Text

/-- The underscores are removed if each stands alone between other characters. -/
def stripUnderscores? (cs : List Char) : Option (List Char) :=
  if cs.head? == some '_' || cs.getLast? == some '_' || !cs.contains '_' || doubled cs then none
  else some (cs.filter (· != '_'))
where
  /-- Do two underscores stand side by side? -/
  doubled : List Char → Bool
    | '_' :: '_' :: _ => true
    | _ :: cs => doubled cs
    | [] => false

/-- Why a text is not read as an integer. -/
inductive IntegerError where
  /-- It is not the text of an integer. -/
  | malformed
  /-- It is longer than the text of an integer may be. -/
  | tooLong
deriving DecidableEq, Repr

/-- How many characters an integer may have, its sign included. -/
def maxIntegerLength : Nat := 4300

/--
An integer without anything optional: a minus sign, then digits without a zero in front. The digits at
the start are counted before anything behind them is looked at.
-/
def plainInteger (cs : List Char) : Except IntegerError Int :=
  let (sign, rest) := cs.span (· == '-')
  let (digits, rest) := rest.span Char.isDigit
  if 1 < sign.length then .error .malformed
  else if digits.length != 1 && digits.head? == some '0' then .error .malformed
  else if maxIntegerLength < sign.length + digits.length then .error .tooLong
  else if digits.isEmpty || !rest.isEmpty then .error .malformed
  else
    let n : Int := natOfDigits digits
    .ok (if sign.isEmpty then n else -n)

/--
Drop the zeros in front, and underscores among them; one zero stays if nothing else or a point
follows.
-/
def dropLeadingZeros? : List Char → Option (List Char)
  | '0' :: cs => go '0' cs
  | c :: cs => if '1' ≤ c && c ≤ '9' then some (c :: cs) else none
  | [] => none
where
  /-- The characters after a zero or an underscore. A minus sign ends the zeros like a digit. -/
  go (previous : Char) : List Char → Option (List Char)
    | [] => some [previous]
    | '.' :: cs => some (previous :: '.' :: cs)
    | c :: cs =>
      if c == '0' || c == '_' then go c cs
      else if ('1' ≤ c && c ≤ '9') || c == '-' then some (c :: cs)
      else none

/-- Drop a point and the zeros behind it, of which there is at least one. -/
def dropZeroFraction (cs : List Char) : List Char :=
  match cs.span (· != '.') with
  | (whole, '.' :: '0' :: places) => if places.all (· == '0') then whole else cs
  | _ => cs

/-- Drop the blanks at both ends, a plus sign, and the zeros in front. -/
def tidyInteger? (cs : List Char) : Option (List Char) :=
  match ((cs.dropWhile isBlank).reverse.dropWhile isBlank).reverse with
  | '+' :: cs => dropLeadingZeros? cs
  | '-' :: cs => (dropLeadingZeros? cs).map ('-' :: ·)
  | cs => dropLeadingZeros? cs

def readInteger (s : String) : Except IntegerError Int :=
  match plainInteger s.toList with
  | .error .malformed =>
    match tidyInteger? s.toList with
    | none => .error .malformed
    | some cs =>
      let cs := dropZeroFraction cs
      plainInteger ((stripUnderscores? cs).getD cs)
  | outcome => outcome

/-- The truth value that a text stands for, in any case. -/
def readBool? (s : String) : Option Bool :=
  let word := lower s
  if ["0", "f", "n", "no", "off", "false"].contains word then some false
  else if ["1", "t", "y", "on", "yes", "true"].contains word then some true
  else none

end ForwardChaining.Text
