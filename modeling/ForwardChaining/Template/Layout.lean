import ForwardChaining.Template.Markup

/-!
This module contains format specifications and the laying out of texts and numerals in a field of some
width: fill, alignment, sign and the grouping of digits.
-/

namespace ForwardChaining.Template

/-- Where a value stands in its field. -/
inductive Align where
  | left
  | right
  | center
  /-- The fill goes between the sign and the digits. -/
  | afterSign
deriving DecidableEq, Repr

def Align.ofChar? (c : Char) : Option Align :=
  if c == '<' then some .left
  else if c == '>' then some .right
  else if c == '^' then some .center
  else if c == '=' then some .afterSign
  else none

inductive SignStyle where
  /-- Only negative numbers have a sign. -/
  | minus
  | plus
  /-- A blank stands in the place of a plus sign. -/
  | blank
deriving DecidableEq, Repr

def SignStyle.ofChar? (c : Char) : Option SignStyle :=
  if c == '-' then some .minus
  else if c == '+' then some .plus
  else if c == ' ' then some .blank
  else none

/-- How a value is formatted. -/
structure Spec where
  fill : Char := ' '
  align : Align
  /-- The sign style, if one is given. -/
  sign : Option SignStyle := none
  /-- A negative number that is rounded to zero loses its sign. -/
  dropZeroSign : Bool := false
  /-- Write the prefix of a base, or keep the point and zeros of a fraction. -/
  alternate : Bool := false
  width : Nat := 0
  /-- The mark between groups of digits. -/
  separator : Option Char := none
  precision : Option Nat := none
  /-- The code of the presentation, if there is one. -/
  code : Option Char
deriving DecidableEq, Repr

namespace Spec

/-- Fill and alignment. The last part tells whether a fill is given. -/
def readAlign (align : Align) : List Char → Char × Align × Bool × Bool × List Char
  | c :: d :: cs =>
    match Align.ofChar? d, Align.ofChar? c with
    | some a, _ => (c, a, true, true, cs)
    | none, some a => (' ', a, true, false, d :: cs)
    | none, none => (' ', align, false, false, c :: d :: cs)
  | [c] =>
    match Align.ofChar? c with
    | some a => (' ', a, true, false, [])
    | none => (' ', align, false, false, [c])
  | [] => (' ', align, false, false, [])

def readMark (mark : Char) : List Char → Bool × List Char
  | c :: cs => if c == mark then (true, cs) else (false, c :: cs)
  | [] => (false, [])

def readSign : List Char → Option SignStyle × List Char
  | c :: cs =>
    match SignStyle.ofChar? c with
    | some style => (some style, cs)
    | none => (none, c :: cs)
  | [] => (none, [])

def readSeparator (cs : List Char) : Except TemplateError (Option Char × List Char) :=
  let (comma, cs) := readMark ',' cs
  let (underscore, cs) := readMark '_' cs
  if comma && underscore then .error .commaAndUnderscore
  else if underscore && cs.head? == some ',' then .error .commaAndUnderscore
  else .ok (if comma then some ',' else if underscore then some '_' else none, cs)

def readPrecision : List Char → Except TemplateError (Option Nat × List Char)
  | '.' :: cs => do
    let (n, count, cs) ← readNumber 0 0 cs
    if count = 0 then throw .missingPrecision
    return (some n, cs)
  | cs => .ok (none, cs)

/-- Digits are grouped in decimal numbers, and with underscores also in those of other bases. -/
def mayGroup (separator : Char) : Option Char → Bool
  | none => true
  | some code =>
    "defgEFG%".toList.contains code || (separator == '_' && "boxX".toList.contains code)

/-- Read a specification for a value of some type, with the defaults of this type. -/
def read (type : String) (align : Align) (code : Option Char) (spec : List Char) :
    Except TemplateError Spec := do
  let (fill, align', aligned, filled, cs) := readAlign align spec
  let (sign, cs) := readSign cs
  let (dropZeroSign, cs) := readMark 'z' cs
  let (alternate, cs) := readMark '#' cs
  -- With a fill, a zero is the first digit of the width.
  let (zero, cs) := if filled then (false, cs) else readMark '0' cs
  let (width, _, cs) ← readNumber 0 0 cs
  let (separator, cs) ← readSeparator cs
  let (precision, cs) ← readPrecision cs
  let code ← match cs with
    | [] => pure code
    | [c] => pure (some c)
    | _ => throw (.badSpec (String.ofList spec) type)
  match separator with
  | some mark => if !mayGroup mark code then throw (.badSeparator mark (code.getD '\x00'))
  | none => pure ()
  return {
    fill := if zero then '0' else fill
    align := if zero && !aligned && align = .right then .afterSign else align'
    sign
    dropZeroSign
    alternate
    width
    separator
    precision
    code }

def groupSize (spec : Spec) : Nat :=
  if spec.separator == some '_' && (spec.code.any "boxX".toList.contains) then 4 else 3

end Spec

/-! ### Laying out -/

def pad (spec : Spec) (text : List Char) : List Char :=
  let missing := spec.width - text.length
  let left := match spec.align with
    | .right => missing
    | .center => missing / 2
    | _ => 0
  List.replicate left spec.fill ++ text ++ List.replicate (missing - left) spec.fill

structure Numeral where
  negative : Bool
  /-- What marks the base. -/
  leading : List Char := []
  digits : List Char
  /-- Everything behind the digits: point, places, exponent, percent sign. -/
  rest : List Char := []
deriving DecidableEq, Repr

/-- Digits with a mark before every group of `size`, counted from the end. -/
def separate (mark : Char) (size : Nat) : List Char → List Char
  | [] => []
  | d :: ds =>
    if ds.length % size = 0 && !ds.isEmpty then d :: mark :: separate mark size ds
    else d :: separate mark size ds

/-- The least number of digits that, with their marks, fill a width. -/
def digitsFor (separator : Option Char) (size width : Nat) : Nat :=
  if separator.isSome then width - (width - 1) / (size + 1) else width

def signText (spec : Spec) (negative : Bool) : List Char :=
  if negative then ['-']
  else
    match spec.sign with
    | some .plus => ['+']
    | some .blank => [' ']
    | _ => []

/-- The numeral in its field. With zeros between sign and digits, the zeros are grouped as well. -/
def Numeral.layOut (spec : Spec) (n : Numeral) : List Char :=
  let sign := signText spec n.negative
  let others := sign.length + n.leading.length + n.rest.length
  let wanted :=
    if spec.fill == '0' && spec.align = .afterSign then
      digitsFor spec.separator spec.groupSize (spec.width - others)
    else 0
  let digits :=
    if n.digits.isEmpty then []
    else List.replicate (wanted - n.digits.length) '0' ++ n.digits
  let digits := match spec.separator with
    | some mark => separate mark spec.groupSize digits
    | none => digits
  match spec.align with
  | .afterSign =>
    let fill := List.replicate (spec.width - (others + digits.length)) spec.fill
    sign ++ n.leading ++ fill ++ digits ++ n.rest
  | _ => pad spec (sign ++ n.leading ++ digits ++ n.rest)

end ForwardChaining.Template
