import ForwardChaining.Template.Layout
import ForwardChaining.Aggregate

/-!
This module contains the formatting of values by a specification: texts, integers in several bases, and
binary64 numbers with a number of places, with an exponent, or with a number of significant digits.
-/

namespace ForwardChaining.Template

-- powers are those of the core library, also in the presence of others
attribute [local instance (high)] instPowNat

def check (x : Except TemplateError α) : Except Fault α :=
  x.mapError .template

def formatText (s : List Char) (spec : List Char) : Except TemplateError (List Char) := do
  let spec ← Spec.read "str" .left (some 's') spec
  if spec.code != some 's' then throw (.badCode (spec.code.getD 's') "str")
  match spec.sign with
  | some .blank => throw .spaceInText
  | some _ => throw .signInText
  | none => pure ()
  if spec.dropZeroSign then throw .zeroInText
  if spec.alternate then throw .alternateInText
  if spec.align = .afterSign then throw .alignInText
  return pad spec (match spec.precision with
    | some n => s.take n
    | none => s)

/-- The base that a code stands for, and the mark of this base. -/
def baseOf (code : Char) : Nat × List Char :=
  if code == 'b' then (2, ['0', 'b'])
  else if code == 'o' then (8, ['0', 'o'])
  else if code == 'x' then (16, ['0', 'x'])
  else if code == 'X' then (16, ['0', 'X'])
  else (10, [])

def charOf (n : Int) : Except Fault Char :=
  if n < -2 ^ (63 : Nat) || 2 ^ (63 : Nat) ≤ n then .error .hugeCodePoint
  else if n < 0 || 0x10ffff < n then .error .badCodePoint
  else .ok (Char.ofNat n.toNat)

def integerNumeral (spec : Spec) (code : Char) (n : Int) : Except Fault Numeral := do
  if spec.precision.isSome then throw (.template .precisionInInteger)
  if spec.dropZeroSign then throw (.template .zeroInInteger)
  if code == 'c' then
    if spec.sign.isSome then throw (.template .signInCode)
    if spec.alternate then throw (.template .alternateInCode)
    return { negative := false, digits := [], rest := [← charOf n] }
  else
    let (base, mark) := baseOf code
    if base = 10 && !Value.isShort n then throw .integerTooLong
    let digits := Nat.toDigits base n.natAbs
    return {
      negative := n < 0
      leading := if spec.alternate then mark else []
      digits := if code == 'X' then digits.map Char.toUpper else digits }

/-- The layout of a finite number that a code asks for. -/
def layoutOf (spec : Spec) (m : Nat) (e : Int) : Binary64.Layout :=
  let precision := spec.precision.getD 6
  match spec.code, spec.precision with
  | none, none => Binary64.shortestLayout m e
  | none, some precision =>
    let count := max 1 precision
    let l := Binary64.generalLayout count (count - 1) spec.alternate m e
    if l.places.isEmpty && l.exponent.isEmpty then { l with places := ['0'] } else l
  | some code, _ =>
    if code == 'e' || code == 'E' then Binary64.exponentLayout precision m e
    else if code == 'f' || code == 'F' || code == '%' then Binary64.fixedLayout precision m e
    else Binary64.generalLayout (max 1 precision) (max 1 precision) spec.alternate m e

def realNumeral (spec : Spec) : Binary64 → Numeral
  | .nan _ => { negative := false, digits := [], rest := "nan".toList }
  | .infinite negative => { negative, digits := [], rest := "inf".toList }
  | .finite negative m e _ =>
    let l := layoutOf spec m e
    let zero := (l.whole ++ l.places).all (· == '0')
    let point := if l.places.isEmpty && !spec.alternate then [] else ['.']
    { negative := negative && !(spec.dropZeroSign && zero)
      digits := l.whole
      rest := point ++ l.places ++ l.exponent }

/-- A binary64 number. With a percent sign, a hundred times the number is shown. -/
def formatReal (spec : Spec) (x : Binary64) : Except TemplateError (List Char) := do
  if spec.precision.any (2 ^ (31 : Nat) ≤ ·) then throw .precisionTooBig
  let percent := spec.code == some '%'
  let x := if percent then x.mul 0 (Binary64.ofRat 100) else x
  let n := realNumeral spec x
  let n := if spec.code.any "EFG".toList.contains then { n with rest := n.rest.map Char.toUpper }
    else n
  let n := if percent then { n with rest := n.rest ++ ['%'] } else n
  return n.layOut spec

/-- An integer; the codes of binary64 numbers convert it into one. -/
def formatInteger (type : String) (n : Int) (spec : List Char) : Except Fault (List Char) := do
  let spec ← check (Spec.read type .right (some 'd') spec)
  let code := spec.code.getD 'd'
  if "bcdoxXn".toList.contains code then return (← integerNumeral spec code n).layOut spec
  else if "eEfFgG%".toList.contains code then
    match Binary64.ofInt? n with
    | some x => check (formatReal spec x)
    | none => throw .integerTooLarge
  else throw (.template (.badCode code type))

/-- A value, formatted. Without a specification it is plain text, if it can be written. -/
def format (x : Value) (spec : List Char) : Except Fault (List Char) :=
  if spec.isEmpty then
    if x.writable then .ok x.plain.toList else .error .integerTooLong
  else
    match x with
    | .text s => check (formatText s.toList spec)
    | .bool b => formatInteger "bool" (if b then 1 else 0) spec
    | .int n => formatInteger "int" n spec
    | .float x => check do
      let spec ← Spec.read "float" .right none spec
      match spec.code with
      | none => formatReal spec x
      | some code =>
        if "eEfFgGn%".toList.contains code then formatReal spec x
        else throw (.badCode code "float")
    | x => .error (.noFormat x.typeName)

end ForwardChaining.Template
