import ForwardChaining.Text.Pattern

/-!
This module contains the decision how a text is written as a YAML scalar. It is written plain unless it
would then be read as something else, and between single quotes unless they cannot express it.
-/

namespace ForwardChaining.Yaml

open Pattern

/-! ### What a plain scalar is read as -/

def boolPattern : Pattern :=
  words ["yes", "Yes", "YES", "no", "No", "NO", "true", "True", "TRUE", "false", "False", "FALSE",
    "on", "On", "ON", "off", "Off", "OFF"]

def sign : Pattern :=
  opt (oneOf "-+")

def digits : Pattern :=
  many (oneOf "0123456789_")

def sixties : Pattern :=
  .some (all [word ":", opt (oneOf "012345"), digit])

def intPattern : Pattern :=
  any [
    all [sign, word "0b", .some (oneOf "01_")],
    all [sign, word "0", .some (oneOf "01234567_")],
    all [sign, word "0"],
    all [sign, oneOf "123456789", digits],
    all [sign, word "0x", .some (oneOf "0123456789abcdefABCDEF_")],
    all [sign, oneOf "123456789", digits, sixties]]

/-- The texts that are read as numbers with a fraction. -/
def floatPattern : Pattern :=
  let exponent := opt (all [oneOf "eE", oneOf "-+", .some digit])
  any [
    all [sign, digit, digits, word ".", digits, exponent],
    all [word ".", digit, digits, exponent],
    all [sign, digit, digits, sixties, word ".", digits],
    all [sign, words [".inf", ".Inf", ".INF"]],
    words [".nan", ".NaN", ".NAN"]]

def timePattern : Pattern :=
  let two := all [digit, digit]
  let upToTwo := all [digit, opt digit]
  let blanks := many (oneOf " \t")
  let zone := all [blanks, any [word "Z", all [oneOf "-+", upToTwo, opt (all [word ":", two])]]]
  any [
    all [two, two, word "-", two, word "-", two],
    all [two, two, word "-", upToTwo, word "-", upToTwo, any [oneOf "Tt", .some (oneOf " \t")],
      upToTwo, word ":", two, word ":", two, opt (all [word ".", many digit]), opt zone]]

/-- The texts that a plain scalar cannot stand for, because it is read as something else. -/
def readAsOther (cs : List Char) : Bool :=
  (any [boolPattern, intPattern, floatPattern, timePattern, .empty,
    words ["~", "null", "Null", "NULL", "<<", "=", "!", "&", "*"]]).fits cs

/-! ### What a text consists of -/

def isBreak (c : Char) : Bool :=
  c == '\n' || c.toNat == 0x85 || c.toNat == 0x2028 || c.toNat == 0x2029

def isGap (c : Char) : Bool :=
  isBreak c || c == ' ' || c == '\t' || c == '\r' || c.toNat == 0

/-- Characters that are written as they are, in a scalar that is plain or between single quotes. -/
def isOrdinary (c : Char) : Bool :=
  let n := c.toNat
  c == '\n' || (0x20 ≤ n && n ≤ 0x7e) ||
    (n != 0xfeff && (n == 0x85 || (0xa0 ≤ n && n ≤ 0xd7ff) || (0xe000 ≤ n && n ≤ 0xfffd) ||
      (0x10000 ≤ n && n < 0x10ffff)))

def gapNext (cs : List Char) : Bool :=
  (cs.head?.map isGap).getD true

/-- Does a mark stand inside the text: a colon before a gap or a hash behind one? -/
def hasMark (previous : Char) : List Char → Bool
  | [] => false
  | c :: cs => (c == ':' && gapNext cs) || (c == '#' && isGap previous) || hasMark c cs

/-- Does the text begin like something that is no scalar, or does it hold a mark? -/
def hasIndicator : List Char → Bool
  | [] => false
  | c :: cs =>
    ['-', '-', '-'].isPrefixOf (c :: cs) || ['.', '.', '.'].isPrefixOf (c :: cs) ||
      "#,[]\x7b\x7d&*!|>'\"%@\x60".toList.contains c ||
      ((c == '?' || c == ':' || c == '-') && gapNext cs) ||
      hasMark c cs

/-- Are there neighbours for which `p` holds? -/
def hasPair (p : Char → Char → Bool) : List Char → Bool
  | c :: d :: cs => p c d || hasPair p (d :: cs)
  | _ => false

def blankAfterBreak (cs : List Char) : Bool :=
  hasPair (fun c d => isBreak c && d == ' ') cs

def blankBeforeBreak (cs : List Char) : Bool :=
  hasPair (fun c d => c == ' ' && isBreak d) cs

def fitsSingle (cs : List Char) : Bool :=
  cs.all isOrdinary && !blankAfterBreak cs && !blankBeforeBreak cs

/-- Can the text stand without quotes, if it is not read as something else? -/
def fitsPlain (cs : List Char) : Bool :=
  let outside (c : Char) := c == ' ' || isBreak c
  fitsSingle cs && !cs.any isBreak && !cs.head?.any outside && !cs.getLast?.any outside
    && !hasIndicator cs

/-! ### Styles -/

inductive ScalarStyle where
  | plain
  | single
  | double
deriving DecidableEq, Repr

/-- The style of a text; a key that stands before its colon has to fit on one line. -/
def styleOf (isKey : Bool) (cs : List Char) : ScalarStyle :=
  let multiline := cs.any isBreak
  if !readAsOther cs && fitsPlain cs then .plain
  else if fitsSingle cs && !(isKey && multiline) then .single
  else .double

/-- The longest text that may stand as a key before its colon. -/
def maxKey : Nat := 122

def isSimpleKey (cs : List Char) : Bool :=
  !cs.isEmpty && cs.length ≤ maxKey && !cs.any isBreak

end ForwardChaining.Yaml
