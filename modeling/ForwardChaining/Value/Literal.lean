import ForwardChaining.Value.Basic
import ForwardChaining.Binary64.Text
import ForwardChaining.Text.Basic
import ForwardChaining.Text.Quoted

/-!
This module contains the text of values: the literal that denotes a value, in which texts are quoted,
and the plain form, in which a text stands for itself.
-/

namespace ForwardChaining

-- powers are those of the core library, also in the presence of others
attribute [local instance (high)] instPowNat

namespace Value

/-- The brackets of a tuple; a single item keeps a comma behind it. -/
def tupleText : List String → String
  | [item] => "(" ++ item ++ ",)"
  | items => "(" ++ Text.joinWith ", " items ++ ")"

/-- The brackets of a set; the empty one has a name of its own. -/
def setText : List String → String
  | [] => "set()"
  | items => "\x7b" ++ Text.joinWith ", " items ++ "\x7d"

mutual

def literal : Value → String
  | .null => "None"
  | .bool true => "True"
  | .bool false => "False"
  | .int n => Text.ofInt n
  | .float x => x.text
  | .text s => Text.quoted s
  | .list items => "[" ++ Text.joinWith ", " (literals items) ++ "]"
  | .tuple items => tupleText (literals items)
  | .set items => setText (literals items)
  | .record fields => "\x7b" ++ Text.joinWith ", " (fieldLiterals fields) ++ "\x7d"
  | .callable ident _ => "<function " ++ Text.ofNat ident ++ ">"
termination_by structural x => x

def literals : List Value → List String
  | [] => []
  | x :: xs => literal x :: literals xs
termination_by structural x => x

/-- The fields of a record, each key quoted before its value. -/
def fieldLiterals : List (String × Value) → List String
  | [] => []
  | (k, x) :: xs => (Text.quoted k ++ ": " ++ literal x) :: fieldLiterals xs
termination_by structural x => x

end

def plain : Value → String
  | .text s => s
  | x => literal x

/-- How many digits an integer may have to be written. -/
def maxDigits : Nat := 4300

def isShort (n : Int) : Bool :=
  n.natAbs < 10 ^ maxDigits

mutual

/-- Can the value be written: are all integers in it short? -/
def writable : Value → Bool
  | .int n => isShort n
  | .list items => writableItems items
  | .tuple items => writableItems items
  | .set items => writableItems items
  | .record fields => writableFields fields
  | _ => true
termination_by structural x => x

def writableItems : List Value → Bool
  | [] => true
  | x :: xs => writable x && writableItems xs
termination_by structural x => x

def writableFields : List (String × Value) → Bool
  | [] => true
  | (_, x) :: xs => writable x && writableFields xs
termination_by structural x => x

end

end Value

/-- The literal of entries, as of a record with the literals of its keys. -/
def Entries.literal (entries : Entries) : String :=
  "\x7b" ++ Text.joinWith ", " (entries.map fun (k, x) => k.literal ++ ": " ++ x.literal) ++ "\x7d"

/-- Can the entries be written: are all integers in them short? -/
def Entries.writable (entries : Entries) : Bool :=
  entries.all fun (k, x) => k.writable && x.writable

end ForwardChaining
